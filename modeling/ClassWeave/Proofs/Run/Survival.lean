import ClassWeave.Proofs.Run.Merging
import ClassWeave.Proofs.Run.Splitting

/-!
# A version that is complete in itself survives

A merge run stores all versions as one, and a split run takes one of them out again. What the
version wrote comes back unchanged if the version is *self-contained*: whatever its trees mention
of the classes of the run, they have and declare themselves. The linker then finds nothing to
change and the verifier, which knows the members of all versions, nothing to report.

The argument follows the two runs. `holds_of_merge` describes the store between them;
`exists_declared_of_restores` carries a declaration in a tree of the version over to the merged
class; and `sound_of_selfContained` collects what the split run asks for.
-/

namespace ClassWeave

/-! ### Trees without notes -/

/-- The tree alone, without what an author or a merge wrote on it. -/
def ClassTree.bare (t : ClassTree) : ClassTree where
  name := t.name
  access := t.access
  superclass := t.superclass
  interfaces := t.interfaces
  members := t.members.map Member.bare

/-- Nothing is written on the tree or on its members. -/
def ClassTree.IsBare (t : ClassTree) : Prop := t.bare = t

instance (t : ClassTree) : Decidable t.IsBare := inferInstanceAs (Decidable (_ = _))

/-- One tree but for the order of its members. -/
structure ClassTree.SameUpToOrder (u t : ClassTree) : Prop where
  tree : u = { t with members := u.members }
  members : u.members.Perm t.members

theorem ClassTree.IsBare.map_bare {t : ClassTree} (h : t.IsBare) :
    t.members.map Member.bare = t.members := congrArg ClassTree.members h

theorem ClassTree.IsBare.nameOverride {t : ClassTree} (h : t.IsBare) {m : Member}
    (hm : m ∈ t.members) : m.nameOverride = none := by
  rw [← h.map_bare] at hm
  obtain ⟨m', -, rfl⟩ := List.mem_map.1 hm
  rfl

namespace ClassTree.Restores

variable {u t : ClassTree} (h : u.Restores t)

include h

theorem mem_insns {insn : Insn} : insn ∈ u.insns ↔ insn ∈ t.insns := by
  have hbare : (t.members.map Member.bare).flatMap Member.insns = t.insns := List.flatMap_map _ _ _
  rw [← hbare, ClassTree.insns, (h.members.flatMap_right _).mem_iff]

theorem mem_mentions {c : ClassName} : c ∈ u.mentions ↔ c ∈ t.mentions := by
  have hbare : (t.members.map Member.bare).flatMap (fun m ↦ Descriptor.referencedClasses m.desc) =
      t.members.flatMap fun m ↦ Descriptor.referencedClasses m.desc := List.flatMap_map _ _ _
  have hsignatures : c ∈ u.members.flatMap (fun m ↦ Descriptor.referencedClasses m.desc) ↔
      c ∈ t.members.flatMap fun m ↦ Descriptor.referencedClasses m.desc := by
    rw [← hbare, (h.members.flatMap_right _).mem_iff]
  simp only [ClassTree.mentions, List.mem_cons, List.mem_append, h.superclass, h.interfaces,
    hsignatures, List.mem_flatMap, h.mem_insns]

end ClassTree.Restores

theorem sameUpToOrder_viewTree {c : MergedClass} {v : Version} {t : ClassTree}
    (h : (c.viewTree v).Restores t) (ht : t.IsBare) : (c.viewTree v).SameUpToOrder t := by
  refine ⟨?_, ht.map_bare ▸ h.members⟩
  have hbare : t = ⟨t.name, t.access, t.superclass, t.interfaces, t.members.map Member.bare, none,
    [], [], .empty⟩ := ht.symm
  rw [hbare, MergedClass.viewTree, ← h.name, ← h.access, ← h.superclass, ← h.interfaces]
  rfl

/-- **What a tree of the version declares, the merged class declares for the version.** -/
theorem exists_declared_of_restores {c : MergedClass} {v : Version} {t : ClassTree}
    (h : (c.viewTree v).Restores t) {m : Member} (hm : m ∈ t.members) :
    ∃ b ∈ c.declared m.key, b.inVersion v = true := by
  have hview : m.bare ∈ (c.viewTree v).members := h.members.mem_iff.2 (List.mem_map_of_mem hm)
  obtain ⟨b, hb, hdecl⟩ := List.mem_filterMap.1 hview
  rw [MergedMember.undirected] at hdecl
  by_cases hskip : (b.isBridge || !b.inVersion v) = true
  · rw [if_pos hskip] at hdecl
    cases hdecl
  · rw [if_neg hskip] at hdecl
    have hemit : b.emit v (b.bodies.get? v) = m.bare := Option.some.inj hdecl
    have hkey : b.declaredKey = m.key := congrArg Member.key hemit
    refine ⟨b, List.mem_filter.2 ⟨hb, by rw [hkey]; exact decide_eq_true rfl⟩, ?_⟩
    by_contra hout
    rw [Bool.not_eq_true] at hout
    rw [hout, Bool.not_false, Bool.or_true] at hskip
    exact hskip rfl

/-! ### What the runs are given -/

namespace MemoryStore

variable {st : MemoryStore} {vs : List Version} {v : Version}

/-- The store has no tree without version, and no lease. -/
structure IsFresh (st : MemoryStore) : Prop where
  trees : ∀ c, st.trees.get? ⟨none, c⟩ = none
  leases : st.leases = .empty

/-- The trees of all versions can be stored as one: they are bare, they can be restored, and those
of each class merge. -/
structure Mergeable (st : MemoryStore) (m : MergeRun) : Prop where
  bare : ∀ c ∈ st.classes m.versions, ∀ e ∈ st.treesOf m.versions c, e.2.IsBare
  restorable : ∀ c ∈ st.classes m.versions, (st.treesOf m.versions c).Restorable
  merges : ∀ c ∈ st.classes m.versions,
    ∃ merged, (m.merger st).merge c (st.treesOf m.versions c) = .ok merged

/-- The classes of a run and what they are merged into. -/
def MergesInto (st : MemoryStore) (m : MergeRun) (merged : ClassName → MergedClass) : Prop :=
  ∀ c ∈ st.classes m.versions, (m.merger st).merge c (st.treesOf m.versions c) = .ok (merged c)

theorem Mergeable.exists_mergesInto {m : MergeRun} (h : st.Mergeable m) :
    ∃ merged, st.MergesInto m merged := by
  have hmerged : ∀ c, ∃ merged, c ∈ st.classes m.versions →
      (m.merger st).merge c (st.treesOf m.versions c) = .ok merged := by
    intro c
    by_cases hc : c ∈ st.classes m.versions
    · obtain ⟨merged, hmerged⟩ := h.merges c hc
      exact ⟨merged, fun _ ↦ hmerged⟩
    · exact ⟨.universal { name := c, access := .publicAccess } .empty, fun hc' ↦ absurd hc' hc⟩
  choose merged hmerged using hmerged
  exact ⟨merged, hmerged⟩

/-- The version gives a class its superclass. -/
def Extends (st : MemoryStore) (v : Version) (a b : ClassName) : Prop :=
  ∃ t, st.tree? v a = some t ∧ t.superclass = b

/-- The version declares a member in a class or above it; a constructor in the class itself. -/
def Declares (st : MemoryStore) (v : Version) (owner : ClassName) (key : MemberKey) : Prop :=
  ∃ c t, (if key.kind = .method ∧ key.name = constructorName then c = owner
      else Relation.ReflTransGen (st.Extends v) owner c) ∧
    st.tree? v c = some t ∧ ∃ m ∈ t.members, m.key = key

/-- The version has each class of the run that it mentions, and declares each member of one that it
uses. -/
structure SelfContained (st : MemoryStore) (vs : List Version) (v : Version) : Prop where
  classes : ∀ c t, st.tree? v c = some t → ∀ d ∈ t.mentions, d ∈ st.classes vs →
    (st.tree? v d).isSome
  members : ∀ c t, st.tree? v c = some t → ∀ use owner name desc,
    .member use owner name desc ∈ t.insns → owner ∈ st.classes vs →
    st.Declares v owner ⟨name, desc, use.kind⟩

end MemoryStore

/-! ### Between the runs -/

section Between

variable {st out : MemoryStore} {m : MergeRun} {merged : ClassName → MergedClass} {v : Version}
  {c : ClassName} {t : ClassTree}

/-- **The store between the runs holds the merged classes.** -/
theorem holds_of_merge (hinput : st.Mergeable m) (hmerged : st.MergesInto m merged)
    (hout : out.IsFresh) (hschedule : ∀ l, (m.schedule l).Perm l) :
    (out.writeAll (fun c ↦ (merged c).encode)
      (m.schedule (st.classes m.versions).toList)).Holds (st.classes m.versions) merged where
  trees c := by
    have hmem : c ∈ m.schedule (st.classes m.versions).toList ↔ c ∈ st.classes m.versions :=
      (hschedule _).mem_iff
    rw [MemoryStore.get?_writeAll, hout.trees]
    simp only [true_and, hmem]
  name c hc := by
    obtain ⟨-, r, -, -, hassemble⟩ := Merger.merge_eq_ok.1 (hmerged c hc)
    rw [hassemble]
    rfl
  wellFormed c hc := wellFormed_of_merge (hmerged c hc) (hinput.restorable c hc)

/-- A class is merged with the versions that have it. -/
theorem mem_versions_merged (hmerged : st.MergesInto m merged) (hv : v ∈ m.versions)
    (hc : c ∈ st.classes m.versions) :
    v ∈ (merged c).versions ↔ ∃ t, st.tree? v c = some t := by
  rw [mem_versions_of_merge (hmerged c hc)]
  exact exists_congr fun t ↦ MemoryStore.mem_treesOf.trans (and_iff_right hv)

/-- A tree of a version is what the merged class shows for it. -/
theorem restores_merged (hinput : st.Mergeable m) (hmerged : st.MergesInto m merged)
    (hv : v ∈ m.versions) (ht : st.tree? v c = some t) :
    c ∈ st.classes m.versions ∧ v ∈ (merged c).versions ∧ t.IsBare ∧
      ((merged c).viewTree v).Restores t := by
  have hc : c ∈ st.classes m.versions := MemoryStore.mem_classes.2 ⟨v, hv, t, ht⟩
  have htrees : (v, t) ∈ st.treesOf m.versions c := MemoryStore.mem_treesOf.2 ⟨hv, ht⟩
  exact ⟨hc, (mem_versions_merged hmerged hv hc).2 ⟨t, ht⟩, hinput.bare c hc _ htrees,
    restores_viewTree (hmerged c hc) (hinput.restorable c hc) htrees⟩

/-- The classes of the version are present in what was merged. -/
theorem mem_present_merged (hinput : st.Mergeable m) (hmerged : st.MergesInto m merged)
    (hv : v ∈ m.versions) :
    c ∈ SplitRun.present (st.classes m.versions) merged v ↔ ∃ t, st.tree? v c = some t := by
  rw [SplitRun.present, OrderedSet.mem_filter, decide_eq_true_iff]
  constructor
  · rintro ⟨hc, hversion⟩
    exact (mem_versions_merged hmerged hv hc).1 hversion
  · rintro ⟨t, ht⟩
    obtain ⟨hc, hversion, -, -⟩ := restores_merged hinput hmerged hv ht
    exact ⟨hc, hversion⟩

/-- The superclasses of the version are those that the index gives to its classes. -/
theorem above?_of_extends (hinput : st.Mergeable m) (hmerged : st.MergesInto m merged)
    (hv : v ∈ m.versions) {a b : ClassName} (hab : st.Extends v a b) :
    MergedIndex.above? ⟨.tabulate (st.classes m.versions) merged⟩ v a = some b := by
  obtain ⟨t, ht, rfl⟩ := hab
  obtain ⟨ha, -, -, hrestores⟩ := restores_merged hinput hmerged hv ht
  rw [MergedIndex.above?, MergedIndex.get?, OrderedMap.get?_tabulate_of_mem ha]
  exact congrArg some hrestores.superclass

/-- **Nothing in a self-contained version is reported.** -/
theorem leaks_eq_nil_of_selfContained (hinput : st.Mergeable m)
    (hmerged : st.MergesInto m merged) (hv : v ∈ m.versions)
    (hself : st.SelfContained m.versions v) (ht : st.tree? v c = some t) :
    MergedIndex.leaks ⟨.tabulate (st.classes m.versions) merged⟩ v ((merged c).viewTree v) =
      [] := by
  obtain ⟨-, -, -, hrestores⟩ := restores_merged hinput hmerged hv ht
  refine MergedIndex.leaks_eq_nil (fun d hd merged' hget ↦ ?_) fun use owner name desc hinsn ↦ ?_
  · obtain ⟨hclass, rfl⟩ := OrderedMap.get?_tabulate.1 hget
    obtain ⟨u, hu⟩ := Option.isSome_iff_exists.1
      (hself.classes c t ht d (hrestores.mem_mentions.1 hd) hclass)
    exact (restores_merged hinput hmerged hv hu).2.1
  · by_cases howner : owner ∈ st.classes m.versions
    · -- what the version's own superclasses reach, the verifier reaches along the merged ones
      obtain ⟨d, u, hreach, hu, b, hb, hkey⟩ := hself.members c t ht use owner name desc
        (hrestores.mem_insns.1 hinsn) howner
      obtain ⟨hd, -, -, hrestores'⟩ := restores_merged hinput hmerged hv hu
      obtain ⟨b', hb', hin⟩ := exists_declared_of_restores hrestores' hb
      refine MergedIndex.isMemberLeak_eq_false (MergedIndex.mem_memberChain ?_)
        (OrderedMap.get?_tabulate_of_mem hd) (hkey ▸ hb') hin
      split
      · rename_i hinit
        rwa [if_pos hinit] at hreach
      · rename_i hinit
        rw [if_neg hinit] at hreach
        exact Relation.ReflTransGen.mono (fun a b ↦ above?_of_extends hinput hmerged hv) _ _ hreach
    · exact MergedIndex.isMemberLeak_of_absent (OrderedMap.get?_tabulate_of_not_mem howner)

/-- **A self-contained version is sound**: the split run changes nothing and reports nothing. -/
theorem sound_of_selfContained (hinput : st.Mergeable m) (hmerged : st.MergesInto m merged)
    (hv : v ∈ m.versions)
    (hnames : ∀ c t, st.tree? v c = some t → ∀ insn ∈ t.insns, insn.IsPlain)
    (hself : st.SelfContained m.versions v) :
    SplitRun.Sound (st.classes m.versions) merged v where
  plainNamesDeclared c hc := by
    refine plainNamesDeclared_of_merge (hmerged c hc) fun d hd ↦ ?_
    obtain ⟨w, t, ht, hmem⟩ := Trees.mem_allMembers.1 hd
    exact (hinput.bare c hc _ ht).nameOverride hmem
  plain c hc hpresent insn hinsn := by
    obtain ⟨t, ht⟩ := (mem_versions_merged hmerged hv hc).1 hpresent
    exact hnames c t ht insn ((restores_merged hinput hmerged hv ht).2.2.2.mem_insns.1 hinsn)
  leaks c hc hpresent := by
    obtain ⟨t, ht⟩ := (mem_versions_merged hmerged hv hc).1 hpresent
    exact leaks_eq_nil_of_selfContained hinput hmerged hv hself ht

end Between

/-! ### The two runs -/

section Runs

variable {st out dst : MemoryStore} {m : MergeRun} {r : SplitRun}

/-- **A self-contained version survives.** Merging writes every class; splitting writes every class
of the version, removes the others, and neither fails nor warns. The trees that are written are
those of the version, but for the order of their members, and nothing else in the output is
touched. The jobs of either run may be done in any order. -/
theorem selfContained_survives (hooks : HookRegistry) (hinput : st.Mergeable m)
    (hnames : ∀ c t, st.tree? r.target c = some t → ∀ insn ∈ t.insns, insn.IsPlain)
    (hself : st.SelfContained m.versions r.target) (hv : r.target ∈ m.versions)
    (htarget : r.target ∈ r.versions) (hout : out.IsFresh) (hdst : dst.leases = .empty)
    (hmergeSchedule : ∀ l, (m.schedule l).Perm l) (hsplitSchedule : ∀ l, (r.schedule l).Perm l) :
    let merging := m.run st.source MemoryStore.output out
    let splitting := r.run hooks merging.state.source MemoryStore.output dst
    merging.outcome =
        .ok ⟨.merge, m.versions, (st.classes m.versions).toList.map (.written · []), true⟩ ∧
      splitting.outcome =
        .ok ⟨.split r.target, r.versions, (st.classes m.versions).toList.map fun c ↦
          if (st.tree? r.target c).isSome then .written c [] else .removed c, true⟩ ∧
      (∀ c t, st.tree? r.target c = some t →
        ∃ u, splitting.state.trees.get? ⟨none, c⟩ = some u ∧ u.SameUpToOrder t) ∧
      (∀ s : Slot, s.version ≠ none ∨ st.tree? r.target s.cls = none →
        splitting.state.trees.get? s = dst.trees.get? s) ∧
      merging.state.leases = .empty ∧ splitting.state.leases = .empty := by
  intro merging splitting
  obtain ⟨merged, hmerged⟩ := hinput.exists_mergesInto
  obtain ⟨hmerging, hbetween⟩ := MergeRun.run_memory hmergeSchedule hout.leases hmerged
  have hheld : merging.state.Holds (st.classes m.versions) merged := by
    rw [hbetween]
    exact holds_of_merge hinput hmerged hout hmergeSchedule
  have hsound := sound_of_selfContained hinput hmerged hv hnames hself
  obtain ⟨hsplitting, hend⟩ :=
    SplitRun.run_memory hooks hheld hsound hsplitSchedule hdst htarget
  have hpresent : ∀ c, c ∈ r.schedule (SplitRun.present (st.classes m.versions) merged
      r.target).toList ↔ ∃ t, st.tree? r.target c = some t := fun c ↦
    (hsplitSchedule _).mem_iff.trans (mem_present_merged hinput hmerged hv)
  refine ⟨hmerging, hsplitting.trans ?_, fun c t ht ↦ ?_, fun s hs ↦ ?_, ?_, ?_⟩
  · refine congrArg (fun groups ↦ Except.ok (Report.mk _ _ groups true))
      (List.map_congr_left fun c hc ↦ ?_)
    have hversion := (mem_versions_merged hmerged hv hc).trans Option.isSome_iff_exists.symm
    exact if_congr hversion rfl rfl
  · obtain ⟨-, -, hbare, hrestores⟩ := restores_merged hinput hmerged hv ht
    refine ⟨_, ?_, sameUpToOrder_viewTree hrestores hbare⟩
    rw [hend, MemoryStore.get?_writeAll, if_pos ⟨rfl, (hpresent c).2 ⟨t, ht⟩⟩]
  · rw [hend, MemoryStore.get?_writeAll, if_neg]
    rintro ⟨hversion, hmem⟩
    obtain ⟨t, ht⟩ := (hpresent s.cls).1 hmem
    rcases hs with hs | hs
    · exact hs hversion
    · rw [hs] at ht
      cases ht
  · rw [hbetween, MemoryStore.leases_writeAll, hout.leases]
  · rw [hend, MemoryStore.leases_writeAll, hdst]

/-- A class with a constructor and a method. -/
def smallBase : ClassTree where
  name := ⟨"x/Base"⟩
  access := .publicAccess
  members := [
    { name := "<init>", desc := "()V", kind := .method, access := .publicAccess
      body := some (.code 1 [.raw "RETURN"]) },
    { name := "greet", desc := "()V", kind := .method, access := .publicAccess
      body := some (.code 1 [.raw "RETURN"]) }]

/-- A class that constructs what it inherits from, and calls what it inherits. -/
def smallClass : ClassTree where
  name := ⟨"x/C"⟩
  access := .publicAccess
  superclass := ⟨"x/Base"⟩
  members := [
    { name := "run", desc := "()I", kind := .method, access := .publicAccess
      body := some (.code 1 [.type .new ⟨"x/Base"⟩,
        .member (.invoke .special) ⟨"x/Base"⟩ "<init>" "()V",
        .member (.invoke .virtual) ⟨"x/C"⟩ "greet" "()V"]) }]

/-- Two versions of three classes, of which the first has no `x/Only`. -/
def smallStore : MemoryStore :=
  MemoryStore.empty
    |>.insert (some ⟨"a"⟩) smallBase
    |>.insert (some ⟨"a"⟩) smallClass
    |>.insert (some ⟨"b"⟩) { name := ⟨"x/Base"⟩, access := .packageAccess }
    |>.insert (some ⟨"b"⟩)
      { name := ⟨"x/C"⟩, access := .publicAccess
        members := [
          { name := "run", desc := "()J", kind := .method, access := .publicAccess
            body := some (.code 1 [.type .new ⟨"x/Only"⟩]) }] }
    |>.insert (some ⟨"b"⟩) { name := ⟨"x/Only"⟩, access := .publicAccess }

def smallMerge : MergeRun := { versions := [⟨"a"⟩, ⟨"b"⟩], schedule := List.reverse }

def smallSplit : SplitRun :=
  { versions := [⟨"a"⟩, ⟨"b"⟩], target := ⟨"a"⟩, schedule := List.reverse }

theorem mergeable_smallStore : smallStore.Mergeable smallMerge where
  bare := by decide +kernel
  restorable := by decide +kernel
  merges := by
    have hsome : ∀ c ∈ smallStore.classes smallMerge.versions,
        ((smallMerge.merger smallStore).merge c
          (smallStore.treesOf smallMerge.versions c)).toOption.isSome = true := by
      decide +kernel
    exact fun c hc ↦ Outcome.exists_eq_ok (hsome c hc)

theorem selfContained_smallStore :
    smallStore.SelfContained smallMerge.versions smallSplit.target where
  classes := MemoryStore.forall_tree?.2 (by decide +kernel)
  members c t ht use owner name desc hinsn _ := by
    have hinsns : ∀ c t, smallStore.tree? smallSplit.target c = some t → ∀ insn ∈ t.insns,
        insn ∈ smallBase.insns ++ smallClass.insns :=
      MemoryStore.forall_tree?.2 (by decide +kernel)
    have hmem : Insn.member use owner name desc ∈ [.raw "RETURN", .raw "RETURN",
        .type .new ⟨"x/Base"⟩, .member (.invoke .special) ⟨"x/Base"⟩ "<init>" "()V",
        .member (.invoke .virtual) ⟨"x/C"⟩ "greet" "()V"] := hinsns c t ht _ hinsn
    have hbase : smallStore.tree? smallSplit.target ⟨"x/Base"⟩ = some smallBase := by
      decide +kernel
    simp only [List.mem_cons, reduceCtorEq, Insn.member.injEq, false_or, List.not_mem_nil,
      or_false] at hmem
    obtain ⟨rfl, rfl, rfl, rfl⟩ | ⟨rfl, rfl, rfl, rfl⟩ := hmem
    · refine ⟨⟨"x/Base"⟩, smallBase, ?_, hbase, by decide +kernel⟩
      rw [if_pos (by decide +kernel)]
    · refine ⟨⟨"x/Base"⟩, smallBase, ?_, hbase, by decide +kernel⟩
      rw [if_neg (by decide +kernel)]
      exact .single ⟨smallClass, by decide +kernel, rfl⟩

theorem selfContained_survives_smallStore :
    (∃ u, (smallSplit.run .empty (smallMerge.run smallStore.source MemoryStore.output
        MemoryStore.empty).state.source MemoryStore.output MemoryStore.empty).state.trees.get?
          ⟨none, ⟨"x/C"⟩⟩ = some u ∧ u.SameUpToOrder smallClass) ∧
      (smallSplit.run .empty (smallMerge.run smallStore.source MemoryStore.output
        MemoryStore.empty).state.source MemoryStore.output MemoryStore.empty).state.trees.get?
          ⟨none, ⟨"x/Only"⟩⟩ = none := by
  have hnames : ∀ c t, smallStore.tree? smallSplit.target c = some t →
      ∀ insn ∈ t.insns, insn.IsPlain := MemoryStore.forall_tree?.2 (by decide +kernel)
  have hout : MemoryStore.empty.IsFresh := ⟨fun _ ↦ rfl, rfl⟩
  have hdst : MemoryStore.empty.leases = .empty := rfl
  have hC : smallStore.tree? smallSplit.target ⟨"x/C"⟩ = some smallClass := by decide +kernel
  have hOnly : smallStore.tree? smallSplit.target ⟨"x/Only"⟩ = none := by decide +kernel
  obtain ⟨-, -, hwritten, hother, -, -⟩ := selfContained_survives .empty mergeable_smallStore
    hnames selfContained_smallStore (by decide) (by decide) hout hdst List.reverse_perm
    List.reverse_perm
  exact ⟨hwritten ⟨"x/C"⟩ smallClass hC, hother ⟨none, ⟨"x/Only"⟩⟩ (.inr hOnly)⟩

end Runs

end ClassWeave
