import ClassWeave.Proofs.Merge.Result

/-!
# Merges and the order of the versions

A merge reads its versions in the order of the input, and gives the same class for every order. The
argument compares the two runs group by group. The closed form of the groups pairs those of a key
(`groups_forall₂`): paired groups have the same declarations in a different order
(`MemberGroup.Same`). Whatever a member is made of is a function of the *set* of its declarations,
and whether it clashes with another group is a question about the *set* of the groups, so paired
groups become the same member (`toMember_congr`).

Two things do depend on the order and are excluded by hypotheses: which of several chosen names a
member gets, and which superclass is found where the hierarchy is incomplete or contradicts itself.
-/

namespace ClassWeave

/-! ### Groups with the same declarations -/

namespace MemberGroup

/-- Groups of one key with the same declarations, in whatever order. -/
structure Same (g g' : MemberGroup) : Prop where
  key : g.key = g'.key
  decls : g.decls.Perm g'.decls

variable {g g' : MemberGroup}

theorem Same.versions (h : g.Same g') : g.versions.Perm g'.versions := h.decls.map _

theorem Same.versionSet (h : g.Same g') : g.versionSet = g'.versionSet :=
  OrderedSet.ofList_congr fun _ ↦ h.versions.mem_iff

theorem Same.isSynthetic (h : g.Same g') : g.isSynthetic = g'.isSynthetic := h.decls.all_eq

theorem Same.sourceIdentity (h : g.Same g') : g.sourceIdentity = g'.sourceIdentity := by
  rw [MemberGroup.sourceIdentity, MemberGroup.sourceIdentity, h.key]

theorem Same.contains (h : g.Same g') (v : Version) :
    g.versions.contains v = g'.versions.contains v := by
  rw [Bool.eq_iff_iff, List.contains_iff_mem, List.contains_iff_mem, h.versions.mem_iff]

/-- Whether two groups clash is settled by their declarations. -/
theorem Same.clashes {f f' : MemberGroup} (h : g.Same g') (hf : f.Same f') :
    g.clashes f = g'.clashes f' := by
  have hdisjoint : g.isDisjoint f = g'.isDisjoint f' := by
    rw [isDisjoint, isDisjoint, h.versions.all_eq]
    simp only [hf.contains]
  rw [MemberGroup.clashes, MemberGroup.clashes, h.isSynthetic, hf.isSynthetic, h.sourceIdentity,
    hf.sourceIdentity, hdisjoint]

/-- No two declarations of the group choose different names. -/
def OverridesAgree (g : MemberGroup) : Prop :=
  ∀ a ∈ g.overrides, ∀ b ∈ g.overrides, a.2 = b.2

/-- A chosen name on which all agree does not depend on the order. -/
theorem Same.nameOverride? (h : g.Same g') (hagree : g.OverridesAgree) :
    g.nameOverride? = g'.nameOverride? := by
  have hperm : g.overrides.Perm g'.overrides := h.decls.filterMap _
  rw [MemberGroup.nameOverride?, MemberGroup.nameOverride?]
  cases hg : g.overrides with
  | nil =>
    rw [hg] at hperm
    rw [List.nil_perm.1 hperm]
  | cons a l =>
    cases hg' : g'.overrides with
    | nil =>
      rw [hg, hg'] at hperm
      exact absurd hperm.symm (List.not_perm_nil_cons _ _)
    | cons b l' =>
      have ha : a ∈ g.overrides := hg ▸ List.mem_cons_self
      have hb : b ∈ g.overrides := hperm.mem_iff.2 (hg' ▸ List.mem_cons_self)
      rw [List.head?_cons, List.head?_cons, Option.map_some, Option.map_some, hagree a ha b hb]

end MemberGroup

/-! ### The groups of two runs -/

section Runs

variable {d d' : Declarations} {g g' : MemberGroup}

/-- **The groups of a key are paired in their order.** -/
theorem Declarations.groups_forall₂ (hd : d.versions.Nodup) (hperm : d.Perm d') (k : GroupKey) :
    List.Forall₂ MemberGroup.Same (d.groups.filter (·.key = k))
      (d'.groups.filter (·.key = k)) := by
  have hd' : d'.versions.Nodup := (hperm.map _).nodup_iff.1 hd
  have hslot : ∀ n, d.slot k n = [] ↔ d'.slot k n = [] := fun n ↦ by
    constructor
    · intro h
      exact List.nil_perm.1 (h ▸ slot_perm hperm k n)
    · intro h
      exact List.perm_nil.1 (h ▸ slot_perm hperm k n)
  have hnone : ∀ n : Nat, (d.groups.filter (·.key = k))[n]? = none ↔
      (d'.groups.filter (·.key = k))[n]? = none := fun n ↦ by
    rw [groups_filter_key hd, groups_filter_key hd', MemberGroup.ofSlot?_eq_none,
      MemberGroup.ofSlot?_eq_none, hslot]
  -- both lists end with the first slot that is empty
  refine List.forall₂_iff_get.2 ⟨?_, fun n hn hn' ↦ ?_⟩
  · refine Nat.le_antisymm ?_ ?_
    · exact List.getElem?_eq_none_iff.1 ((hnone _).2 (List.getElem?_eq_none (Nat.le_refl _)))
    · exact List.getElem?_eq_none_iff.1 ((hnone _).1 (List.getElem?_eq_none (Nat.le_refl _)))
  · have hget := groups_filter_key hd k n
    have hget' := groups_filter_key hd' k n
    rw [List.getElem?_eq_getElem hn] at hget
    rw [List.getElem?_eq_getElem hn'] at hget'
    rw [List.get_eq_getElem, List.get_eq_getElem,
      (MemberGroup.ofSlot?_eq_some.1 hget.symm).2, (MemberGroup.ofSlot?_eq_some.1 hget'.symm).2]
    exact ⟨rfl, slot_perm hperm k n⟩

/-- Each group of one run has its pair in the other. -/
theorem Declarations.exists_same (hd : d.versions.Nodup) (hperm : d.Perm d')
    (hg : g ∈ d.groups) : ∃ g' ∈ d'.groups, g.Same g' := by
  obtain ⟨n, hne, heq⟩ := (mem_groups hd).1 hg
  have hslot := slot_perm hperm g.key n
  have hne' : d'.slot g.key n ≠ [] := fun h ↦ hne (List.perm_nil.1 (h ▸ hslot))
  refine ⟨⟨g.key, d'.slot g.key n⟩, slot_mem_groups ((hperm.map _).nodup_iff.1 hd) hne', rfl, ?_⟩
  rw [heq]
  exact hslot

/-- **Whether a group is mangled does not depend on the order of the versions.** -/
theorem needsMangling_congr (hd : d.versions.Nodup) (hperm : d.Perm d') (h : g.Same g') :
    needsMangling d.groups g = needsMangling d'.groups g' := by
  have hd' : d'.versions.Nodup := (hperm.map _).nodup_iff.1 hd
  have hrepeated : isRepeated d.groups g = isRepeated d'.groups g' := by
    rw [isRepeated, isRepeated, h.key, (Declarations.groups_forall₂ hd hperm g'.key).length_eq]
  have hclash : d.groups.any g.clashes = d'.groups.any g'.clashes := by
    rw [Bool.eq_iff_iff, List.any_eq_true, List.any_eq_true]
    constructor
    · rintro ⟨f, hf, hclashes⟩
      obtain ⟨f', hf', hsame⟩ := Declarations.exists_same hd hperm hf
      exact ⟨f', hf', h.clashes hsame ▸ hclashes⟩
    · rintro ⟨f', hf', hclashes⟩
      obtain ⟨f, hf, hsame⟩ := Declarations.exists_same hd' hperm.symm hf'
      have hsame' : f.Same f' := ⟨hsame.key.symm, hsame.decls.symm⟩
      exact ⟨f, hf, (h.clashes hsame').symm ▸ hclashes⟩
  rw [needsMangling, needsMangling, hrepeated, hclash]

/-- **Paired groups become the same member.** -/
theorem Declarations.toMember_congr (hd : d.versions.Nodup) (hperm : d.Perm d')
    (hg : g.versions.Nodup) (hagree : g.OverridesAgree) (h : g.Same g') :
    d.toMember g = d'.toMember g' := by
  have hname : physicalName d.groups g = physicalName d'.groups g' := by
    rw [physicalName, physicalName, h.nameOverride? hagree, needsMangling_congr hd hperm h, h.key,
      h.versionSet]
  have haccess : reconcileAccess (g.decls.map fun e ↦ (e.1, e.2.access)) =
      reconcileAccess (g'.decls.map fun e ↦ (e.1, e.2.access)) := by
    exact reconcileAccess_congr ((MemberGroup.functional_decls hg).map Member.access) fun _ ↦
      (h.decls.map _).mem_iff
  have hbodies : OrderedMap.ofList (g.decls.filterMap fun e ↦ e.2.body.map (e.1, ·)) =
      OrderedMap.ofList (g'.decls.filterMap fun e ↦ e.2.body.map (e.1, ·)) :=
    OrderedMap.ofList_congr (MemberGroup.functional_bodies hg) fun _ ↦
      (h.decls.filterMap _).mem_iff
  rw [toMember, toMember, NamedGroup.toMember, NamedGroup.toMember]
  simp only [hname, h.key, h.versionSet, h.isSynthetic, haccess, hbodies]

/-- What a merged member keeps of the key of its group. -/
def MergedMember.groupKey (m : MergedMember) : GroupKey :=
  ⟨m.declaredName, m.desc, m.kind, m.isStatic⟩

/-- **The order of the versions permutes the members of the groups.** -/
theorem Declarations.map_toMember_perm (hd : d.versions.Nodup) (hperm : d.Perm d')
    (hagree : ∀ g ∈ d.groups, g.OverridesAgree) :
    (d.groups.map d.toMember).Perm (d'.groups.map d'.toMember) := by
  -- groups of different keys become different members, so the keys can be taken one by one
  refine perm_of_filter_key MergedMember.groupKey fun k ↦ ?_
  have hfilter : ∀ d : Declarations, (d.groups.map d.toMember).filter (·.groupKey = k) =
      (d.groups.filter (·.key = k)).map d.toMember := fun d ↦ List.filter_map
  rw [hfilter, hfilter, ← List.forall₂_eq_eq_eq, List.forall₂_map_left_iff,
    List.forall₂_map_right_iff]
  have hmem : ∀ g ∈ d.groups.filter (·.key = k), g ∈ d.groups := fun g hg ↦
    (List.mem_filter.1 hg).1
  have hpaired := groups_forall₂ hd hperm k
  generalize d.groups.filter (·.key = k) = gs at hmem hpaired
  generalize d'.groups.filter (·.key = k) = gs' at hpaired
  induction hpaired with
  | nil => exact .nil
  | @cons g g' gs gs' hsame _ ih =>
    have hg := hmem g List.mem_cons_self
    refine .cons ?_ (ih fun f hf ↦ hmem f (List.mem_cons_of_mem _ hf))
    exact toMember_congr hd hperm (nodup_versions_of_mem_groups hd hg) (hagree g hg) hsame

end Runs

/-! ### The merged class -/

/-- One class but for the order of its members. -/
structure MergedClass.SameUpToOrder (c c' : MergedClass) : Prop where
  name : c.name = c'.name
  versions : c.versions = c'.versions
  access : c.access = c'.access
  inheritance : c.inheritance = c'.inheritance
  members : c.members.Perm c'.members

namespace Trees

variable {ts ts' : Trees}

/-- No two declarations that can become one member choose different names for it. -/
def OverridesAgree (ts : Trees) : Prop :=
  ∀ m ∈ ts.allMembers, ∀ m' ∈ ts.allMembers, m.groupKey = m'.groupKey →
    m.nameOverride ≠ none → m'.nameOverride ≠ none → m.nameOverride = m'.nameOverride

instance (ts : Trees) : Decidable ts.OverridesAgree := inferInstanceAs (Decidable (∀ _ ∈ _, _))

theorem OverridesAgree.perm (h : ts.OverridesAgree) (hperm : ts.Perm ts') :
    ts'.OverridesAgree := fun m hm m' hm' ↦
  h m ((hperm.flatMap_right _).mem_iff.2 hm) m' ((hperm.flatMap_right _).mem_iff.2 hm')

theorem OverridesAgree.of_mem_groups (h : ts.OverridesAgree)
    (hd : ts.declarations.versions.Nodup) {g : MemberGroup} (hg : g ∈ ts.declarations.groups) :
    g.OverridesAgree := by
  have hdecl : ∀ a ∈ g.overrides, ∃ m ∈ ts.allMembers, m.groupKey = g.key ∧
      m.nameOverride = some a.2 := by
    intro a ha
    obtain ⟨⟨v, m⟩, hm, hmap⟩ := List.mem_filterMap.1 ha
    obtain ⟨name, hname, rfl⟩ := Option.map_eq_some_iff.1 hmap
    exact ⟨m, mem_allMembers_of_mem_decls hd hg hm, Declarations.groupKey_of_mem_decls hd hg hm,
      hname⟩
  intro a ha b hb
  obtain ⟨m, hm, hkey, hname⟩ := hdecl a ha
  obtain ⟨m', hm', hkey', hname'⟩ := hdecl b hb
  have hsame := h m hm m' hm' (hkey.trans hkey'.symm)
    (by rw [hname]; exact Option.some_ne_none _) (by rw [hname']; exact Option.some_ne_none _)
  rw [hname, hname'] at hsame
  exact Option.some.inj hsame

/-- Whether the superclass is settled does not depend on the order. -/
theorem settled_perm {h : Hierarchy} {pinned : Option ClassName}
    (hsettled : ts.inheritance.Settled h pinned) (hperm : ts.Perm ts') :
    ts'.inheritance.Settled h pinned := by
  have hmem : ∀ e ∈ ts'.inheritance, e ∈ ts.inheritance := fun e he ↦
    (hperm.map _).mem_iff.2 he
  rcases hsettled with hsame | hpinned | ⟨hagree, hcomplete⟩
  · exact .inl fun e he e' he' ↦ hsame e (hmem e he) e' (hmem e' he')
  · exact .inr (.inl hpinned)
  · exact .inr (.inr ⟨hagree, fun e he ↦ hcomplete e (hmem e he)⟩)

end Trees

section Merge

variable {m : Merger} {cls : ClassName} {ts ts' : Trees}

/-- **What can be merged in one order can be merged in every other**, with the same result but for
the order of the members. -/
theorem Merger.exists_merge_perm (hperm : ts.Perm ts') (hoverrides : ts.OverridesAgree)
    (hsettled : ts.inheritance.Settled m.hierarchy (m.pinned.get? cls)) {c : MergedClass}
    (hc : m.merge cls ts = .ok c) :
    ∃ c', m.merge cls ts' = .ok c' ∧ c.SameUpToOrder c' := by
  obtain ⟨hone, r, hr, hunique, rfl⟩ := Merger.merge_eq_ok.1 hc
  have hd := hone.nodup_declarations
  obtain ⟨r', hr', htable, hbridges⟩ :=
    reconcileInheritance_perm hone.nodup_inheritance hsettled (hperm.map _) hr
  have hmembers : (ts.members r).Perm (ts'.members r') :=
    (Declarations.map_toMember_perm hd (hperm.map _) fun g hg ↦
      hoverrides.of_mem_groups hd hg).append hbridges
  refine ⟨ts'.assemble cls r', Merger.merge_eq_ok.2 ⟨hone.perm hperm, r', hr', ?_, rfl⟩, ?_⟩
  · exact (hmembers.map _).nodup_iff.1 hunique
  · refine ⟨rfl, ?_, ?_, htable, hmembers⟩
    · exact OrderedSet.ofList_congr fun _ ↦ (hperm.map _).mem_iff
    · exact reconcileAccess_congr (hone.functional.map ClassTree.access) fun _ ↦
        (hperm.map _).mem_iff

/-- **A merge does not depend on the order of the versions.** It succeeds for all orders or for
none, and its results differ in the order of their members at most. -/
theorem merge_order_irrelevant (m : Merger) (cls : ClassName) (hperm : ts.Perm ts')
    (hoverrides : ts.OverridesAgree)
    (hsettled : ts.inheritance.Settled m.hierarchy (m.pinned.get? cls)) :
    ((∃ c, m.merge cls ts = .ok c) ↔ ∃ c', m.merge cls ts' = .ok c') ∧
      ∀ c c', m.merge cls ts = .ok c → m.merge cls ts' = .ok c' → c.SameUpToOrder c' := by
  refine ⟨⟨?_, ?_⟩, ?_⟩
  · rintro ⟨c, hc⟩
    obtain ⟨c', hc', -⟩ := Merger.exists_merge_perm hperm hoverrides hsettled hc
    exact ⟨c', hc'⟩
  · rintro ⟨c', hc'⟩
    obtain ⟨c, hc, -⟩ := Merger.exists_merge_perm hperm.symm (hoverrides.perm hperm)
      (Trees.settled_perm hsettled hperm) hc'
    exact ⟨c, hc⟩
  · intro c c' hc hc'
    obtain ⟨c'', hc'', hsame⟩ := Merger.exists_merge_perm hperm hoverrides hsettled hc
    rw [hc''] at hc'
    cases hc'
    exact hsame

/-- A member that may be declared more than once, with the given text as its code. -/
def rawMethod (name desc text : String) : Member where
  name := name
  desc := desc
  kind := .method
  access := .publicAccess
  body := some (.code 1 [.raw text])

/-- Three releases of a class. They disagree on the superclass, on the type of `n`, and on how often
`run` is declared. -/
def threeReleases : Trees :=
  [(⟨"a"⟩, { name := ⟨"x/C"⟩, access := .publicAccess, superclass := ⟨"x/Left"⟩
             members := [rawMethod "n" "()I" "iconst_1", rawMethod "run" "()V" "nop"] }),
   (⟨"b"⟩, { name := ⟨"x/C"⟩, access := .packageAccess, superclass := ⟨"x/Right"⟩
             interfaces := [⟨"x/I"⟩]
             members := [rawMethod "n" "()J" "lconst_1", rawMethod "run" "()V" "nop",
               rawMethod "run" "()V" "return"] }),
   (⟨"c"⟩, { name := ⟨"x/C"⟩, access := .publicAccess, superclass := ⟨"x/Left"⟩
             members := [rawMethod "run" "()V" "athrow"] })]

/-- Superclasses that meet in `x/Base`. -/
def meetingSupers : Hierarchy :=
  ((((Hierarchy.empty.insert ⟨"a"⟩ ⟨"x/Left"⟩ ⟨"x/Base"⟩).insert ⟨"b"⟩ ⟨"x/Right"⟩ ⟨"x/Base"⟩).insert
    ⟨"c"⟩ ⟨"x/Left"⟩ ⟨"x/Base"⟩).insert ⟨"a"⟩ ⟨"x/Base"⟩ .object).insert ⟨"b"⟩ ⟨"x/Base"⟩ .object
    |>.insert ⟨"c"⟩ ⟨"x/Base"⟩ .object

theorem merge_order_irrelevant_threeReleases :
    ∃ c c', (⟨meetingSupers, .empty⟩ : Merger).merge ⟨"x/C"⟩ threeReleases = .ok c ∧
      (⟨meetingSupers, .empty⟩ : Merger).merge ⟨"x/C"⟩ threeReleases.reverse = .ok c' ∧
      c.SameUpToOrder c' := by
  obtain ⟨c, hc⟩ : ∃ c, (⟨meetingSupers, .empty⟩ : Merger).merge ⟨"x/C"⟩ threeReleases = .ok c :=
    Outcome.exists_eq_ok (by decide +kernel)
  have hsettled : threeReleases.inheritance.Settled meetingSupers none :=
    .inr (.inr (by decide +kernel))
  have hall := merge_order_irrelevant ⟨meetingSupers, .empty⟩ ⟨"x/C"⟩
    (List.reverse_perm threeReleases).symm (by decide +kernel) hsettled
  obtain ⟨c', hc'⟩ := hall.1.1 ⟨c, hc⟩
  exact ⟨c, c', hc, hc', hall.2 c c' hc hc'⟩

end Merge

end ClassWeave
