import ClassWeave.Proofs.Link.MergeOnly
import ClassWeave.Proofs.Split.RoundTrip

/-!
# Bridges from the merge to the linked body

Code that was compiled against a merged class passes from it to the true superclass of a version by
calling a bridge. That this is sound takes four parts of the library to agree: the merge, which
makes a bridge for each superclass that is not the physical one; the stored form, which must keep
what the linker reads of it; the linker, which takes the type of the cast from the descriptor; and
the projection, which must give the class the superclass that the cast promises.

The merge decides which bridges there are (`Merger.exists_bridges_eq_map`). A bridge comes through
the stored form unchanged whatever the names in the rest of the class, since it is declared under
its physical name and its note names versions of the class (`Merger.exists_stored`). Each
instruction is linked by itself (`turnsInto_rewrite`), so the call becomes a cast in the versions of
the bridge and stays in the others (`MergedClass.castsIn_bridge`). In `bridges_exact_and_safe` the
parts meet.
-/

namespace ClassWeave

/-! ### One-to-one with the superclasses -/

namespace MergedClass

/-- A version gives the class a superclass that is neither the physical one nor the root. -/
def NeedsBridge (c : MergedClass) (s : ClassName) : Prop :=
  s ≠ c.inheritance.physical.superclass ∧ s.isObject = false ∧
    ∃ v ∈ c.versions, c.superclassIn v = s

/-- A member is the bridge to a superclass, for the versions that have it. -/
structure IsBridgeTo (c : MergedClass) (s : ClassName) (b : MergedMember) : Prop where
  physicalName : b.physicalName = bridgeName s
  desc : b.desc = "()" ++ s.descriptor
  inVersion : ∀ v, b.inVersion v = true ↔ v ∈ c.versions ∧ c.superclassIn v = s

end MergedClass

section Merge

variable {m : Merger} {cls : ClassName} {ts : Trees} {c : MergedClass}

/-- A version of a merged class has the superclass that its tree declares. -/
theorem Merger.superclassIn_eq (hc : m.merge cls ts = .ok c) {v : Version} {t : ClassTree}
    (ht : (v, t) ∈ ts) : c.superclassIn v = t.superclass :=
  congrArg Inheritance.superclass ((isMergeOf_of_merge hc).inheritance (v, t) ht)

/-- The bridges of a merged class are those of the reconciled inheritance. -/
theorem Merger.bridges_eq (hc : m.merge cls ts = .ok c) : c.bridges =
    (ts.inheritance.bridged c.inheritance.physical.superclass).map fun b ↦ .bridge b.1 b.2 := by
  obtain ⟨-, r, hr, -, rfl⟩ := Merger.merge_eq_ok.1 hc
  have hgroups : (ts.declarations.groups.map ts.declarations.toMember).filter (·.isBridge) = [] :=
    List.filter_eq_nil_iff.2 <| List.forall_mem_map.2 fun g _ ↦ by
      rw [Declarations.isBridge_toMember]
      exact Bool.false_ne_true
  have hbridges : r.bridges.filter (·.isBridge) = r.bridges :=
    List.filter_eq_self.2 fun b hb ↦ isBridge_of_mem_bridges hr hb
  show (ts.declarations.groups.map ts.declarations.toMember ++ r.bridges).filter _ = _
  rw [List.filter_append, hgroups, hbridges, List.nil_append]
  obtain ⟨p, -, rfl⟩ := reconcileInheritance_eq_ok.1 hr
  rfl

/-- A bridge serves the versions that have its superclass. -/
theorem Merger.mem_bridgeVersions (hc : m.merge cls ts = .ok c) {v : Version} {s : ClassName} :
    v ∈ ts.inheritance.bridgeVersions c.inheritance.physical.superclass s ↔
      (s ≠ c.inheritance.physical.superclass ∧ s.isObject = false) ∧
        v ∈ c.versions ∧ c.superclassIn v = s := by
  rw [Declared.mem_bridgeVersions, mem_versions_of_merge hc]
  constructor
  · rintro ⟨i, hi, hs, hneeded⟩
    obtain ⟨t, ht, rfl⟩ := Trees.mem_inheritance.1 hi
    exact ⟨hneeded, ⟨t, ht⟩, (superclassIn_eq hc ht).trans hs⟩
  · rintro ⟨hneeded, ⟨t, ht⟩, hs⟩
    exact ⟨t.inheritance, Trees.mem_inheritance.2 ⟨t, ht, rfl⟩,
      (superclassIn_eq hc ht).symm.trans hs, hneeded⟩

/-- **There is one bridge for each superclass that needs one**, and no other. -/
theorem Merger.exists_bridges_eq_map (hc : m.merge cls ts = .ok c) :
    ∃ supers : List ClassName, supers.Nodup ∧ (∀ s, s ∈ supers ↔ c.NeedsBridge s) ∧
      c.bridges = supers.map fun s ↦
        .bridge s (ts.inheritance.bridgeVersions c.inheritance.physical.superclass s) := by
  refine ⟨((ts.inheritance.needed c.inheritance.physical.superclass).map
      (·.2.superclass)).eraseDups, Declared.nodup_eraseDups _,
    fun s ↦ Declared.mem_supers_needed.trans ?_, ?_⟩
  · simp only [mem_bridgeVersions hc, exists_and_left, and_assoc]
    rfl
  · rw [bridges_eq hc, Declared.bridged_eq, List.map_map]
    rfl

/-- The bridge to a superclass that needs one is for the versions that have it. -/
theorem Merger.isBridgeTo_bridge (hc : m.merge cls ts = .ok c) {s : ClassName}
    (hs : c.NeedsBridge s) : c.IsBridgeTo s
      (.bridge s (ts.inheritance.bridgeVersions c.inheritance.physical.superclass s)) where
  physicalName := rfl
  desc := rfl
  inVersion _ := decide_eq_true_iff.trans <|
    (mem_bridgeVersions hc).trans (and_iff_right ⟨hs.1, hs.2.1⟩)

/-! ### Through the stored form -/

/-- **A merged class can be read back**, with its members but for empty declared names. -/
theorem Merger.decode_encode_merged (hc : m.merge cls ts = .ok c) :
    ∃ inheritance, c.encode.decode = .ok
      { c with inheritance, members := c.members.map MergedMember.stored } := by
  have hmerge := isMergeOf_of_merge hc
  refine MergedClass.decode_encode_of_within (fun v hv ↦ ?_) (fun v hv ↦ ?_) fun b hb ↦ ?_
  · obtain ⟨a, ha, rfl⟩ := List.mem_map.1 (hmerge.access.mem_of_mem_keys hv)
    obtain ⟨e, he, rfl⟩ := List.mem_map.1 ha
    exact (hmerge.versions e.1).2 ⟨e.2, he⟩
  · obtain ⟨t, ht, -⟩ := (hmerge.overridden v).1 hv
    exact (hmerge.versions v).2 ⟨t, ht⟩
  · have hwell := hmerge.members b hb
    exact ⟨hwell.declaredVersions, fun w hw ↦ hwell.declaredVersions w (hwell.bodies w hw),
      fun w hw ↦ hwell.declaredVersions w (hwell.overridden w hw)⟩

theorem Merger.exists_stored (hc : m.merge cls ts = .ok c) :
    ∃ stored, c.encode.decode = .ok stored ∧ stored.name = c.name ∧
      stored.members = c.members.map MergedMember.stored := by
  obtain ⟨inheritance, hstored⟩ := decode_encode_merged hc
  exact ⟨_, hstored, rfl, rfl⟩

/-- A bridge has a declared name, so it is read back as it was. -/
theorem MergedMember.stored_bridge (s : ClassName) (served : VersionSet) :
    (bridge s served).stored = bridge s served := by
  show { bridge s served with
    declaredName := if (bridgeName s).isEmpty then bridgeName s else bridgeName s } = _
  rw [ite_self]
  rfl

/-- **The look-up of a bridge finds it in the stored class as well.** -/
theorem Merger.member?_stored (hc : m.merge cls ts = .ok c) {stored : MergedClass}
    (hmembers : stored.members = c.members.map MergedMember.stored) {s : ClassName}
    {served : VersionSet} (hb : .bridge s served ∈ c.members) :
    stored.member? (MergedMember.bridge s served).key = some (.bridge s served) := by
  have hfind : stored.member? (MergedMember.bridge s served).key =
      (c.member? (MergedMember.bridge s served).key).map MergedMember.stored := by
    rw [MergedClass.member?, hmembers, List.find?_map]
    rfl
  rw [hfind, member?_key hc hb, Option.map_some, MergedMember.stored_bridge]

end Merge

/-! ### In a linked body -/

namespace Linker

variable {l : Linker}

/-- In every body, linking puts one instruction in the place of another and leaves the link of what
stands around it as it is; that counts as so many changes. -/
def TurnsInto (l : Linker) (insn insn' : Insn) (changes : Nat) : Prop :=
  ∀ (cls : ClassName) (member : String) (before after : List Insn),
    ∃ before' after' n n', l.linkBody cls member before = .ok (before', n) ∧
      l.linkBody cls member after = .ok (after', n') ∧
      l.linkBody cls member (before ++ insn :: after) =
        .ok (before' ++ insn' :: after', n + (changes + n'))

/-- **Without redirects, each instruction turns into what it is rewritten to.** -/
theorem turnsInto_rewrite (hredirects : l.redirects = .empty) (insn : Insn) :
    l.TurnsInto insn (l.rewrite insn) (l.changes insn) := by
  intro cls member before after
  have hlink : ∀ insns, l.linkBody cls member insns =
      .ok (insns.map l.rewrite, l.changesIn insns) :=
    linkFrom_eq_ok (get?_eq_none_of_empty hredirects) cls member []
  have hchanges : l.changesIn (before ++ insn :: after) =
      l.changesIn before + (l.changes insn + l.changesIn after) := by
    show ((before ++ insn :: after).map l.changes).sum = _
    rw [List.map_append, List.sum_append, List.map_cons, List.sum_cons]
    rfl
  exact ⟨_, _, _, _, hlink before, hlink after, by rw [hlink, hchanges, List.map_append]; rfl⟩

/-- The call of a bridge outside its versions is left alone. -/
theorem rewrite_bridge_of_not_mem {merged : MergedClass} {owner : ClassName} {kind : InvokeKind}
    {s : ClassName} {served : VersionSet} (howner : l.index.get? owner = some merged)
    (hb : merged.member? (MergedMember.bridge s served).key = some (.bridge s served))
    (hserved : l.target ∉ served) :
    l.bridgeCast? (.member (.invoke kind) owner (bridgeName s) ("()" ++ s.descriptor)) = none ∧
      l.demangle? (.member (.invoke kind) owner (bridgeName s) ("()" ++ s.descriptor)) = none := by
  have hlookup : merged.member? ⟨bridgeName s, "()" ++ s.descriptor, .method⟩ =
      some (.bridge s served) := hb
  have hversion : (MergedMember.bridge s served).inVersion l.target = false :=
    decide_eq_false hserved
  have hmangled : (MergedMember.bridge s served).isMangled = false :=
    decide_eq_false (not_not.2 rfl)
  constructor
  · simp [bridgeCast?, howner, hlookup, hversion]
  · simp [demangle?, howner, MemberUse.kind, hlookup, hmangled]

end Linker

namespace MergedClass

variable {c : MergedClass} {s : ClassName} {b : MergedMember}

/-- In every index with the class and without redirects, the call of a member becomes a cast in the
versions of the member, and stays as it is in the others. -/
def CastsIn (c : MergedClass) (s : ClassName) (b : MergedMember) : Prop :=
  ∀ (l : Linker) (kind : InvokeKind), l.index.get? c.name = some c → l.redirects = .empty →
    if b.inVersion l.target then
      l.TurnsInto (.member (.invoke kind) c.name b.physicalName b.desc) (.type .checkCast s) 1
    else
      l.TurnsInto (.member (.invoke kind) c.name b.physicalName b.desc)
        (.member (.invoke kind) c.name b.physicalName b.desc) 0

/-- **A bridge that its class can look up casts**, to a type whose name has no dots. -/
theorem castsIn_bridge {served : VersionSet} (hdots : (∃ v, v ∈ served) → s.DotFree)
    (hb : c.member? (MergedMember.bridge s served).key = some (.bridge s served)) :
    c.CastsIn s (.bridge s served) := by
  intro l kind howner hredirects
  have hturns := Linker.turnsInto_rewrite hredirects
    (.member (.invoke kind) c.name (bridgeName s) ("()" ++ s.descriptor))
  rw [Linker.rewrite, Linker.changes] at hturns
  -- the cast is read off the descriptor, which spells dots and slashes alike
  by_cases hserved : l.target ∈ served
  · have hversion : (MergedMember.bridge s served).inVersion l.target = true :=
      decide_eq_true hserved
    have hcast : l.bridgeCast? (.member (.invoke kind) c.name (bridgeName s)
        ("()" ++ s.descriptor)) = some (.type .checkCast (.ofText s.text)) :=
      Linker.bridgeCast?_bridge howner hb hserved
    rw [ClassName.ofText_text (hdots ⟨_, hserved⟩)] at hcast
    rw [hversion, if_pos rfl]
    rwa [hcast] at hturns
  · have hversion : (MergedMember.bridge s served).inVersion l.target = false :=
      decide_eq_false hserved
    obtain ⟨hcast, hdemangle⟩ : l.bridgeCast? (.member (.invoke kind) c.name (bridgeName s)
        ("()" ++ s.descriptor)) = none ∧ l.demangle? (.member (.invoke kind) c.name (bridgeName s)
        ("()" ++ s.descriptor)) = none := Linker.rewrite_bridge_of_not_mem howner hb hserved
    rw [hversion, if_neg Bool.false_ne_true]
    rwa [hcast, hdemangle] at hturns

/-! ### In a projection -/

/-- The members that a version has of a class, without the bridges. -/
def emitted (c : MergedClass) (v : Version) : List Member :=
  (c.members.filter fun b ↦ !b.isBridge && b.inVersion v).map fun b ↦ b.emit v (b.bodies.get? v)

theorem members_viewTree (c : MergedClass) (v : Version) :
    (c.viewTree v).members = c.emitted v := by
  rw [emitted, viewTree, ← List.filterMap_eq_map, List.filterMap_filter]
  refine List.filterMap_congr fun b _ ↦ ?_
  rw [MergedMember.undirected]
  cases b.isBridge <;> cases b.inVersion v <;> rfl

/-- Whatever draws up the projection, in the versions of a member the class extends what the member
leads to and has no bridge. -/
def ExtendsIn (c : MergedClass) (s : ClassName) (b : MergedMember) : Prop :=
  ∀ v, b.inVersion v = true → ∀ p : Projector, ∃ u,
    p.project c {} v = .ok (.projected ⟨u, [], [], []⟩) ∧ u.superclass = s ∧
      u.members = c.emitted v

theorem IsBridgeTo.extendsIn (hb : c.IsBridgeTo s b) : c.ExtendsIn s b := by
  intro v hv p
  obtain ⟨hversion, hs⟩ := (hb.inVersion v).1 hv
  exact ⟨c.viewTree v, Projector.project_undirected p hversion, hs, c.members_viewTree v⟩

end MergedClass

/-! ### All together -/

/-- **Bridges are exact and safe.** There is one for each true superclass that is neither the
physical one nor the root, for the versions that have it. In any index with the class as it is
stored, its call becomes a cast to this superclass in exactly these versions, in which the class
does extend it. -/
theorem bridges_exact_and_safe {m : Merger} {cls : ClassName} {ts : Trees} {c : MergedClass}
    (hc : m.merge cls ts = .ok c) (hdots : ∀ v ∈ c.versions, (c.superclassIn v).DotFree) :
    ∃ stored supers, c.encode.decode = .ok stored ∧ stored.name = c.name ∧ supers.Nodup ∧
      (∀ s, s ∈ supers ↔ c.NeedsBridge s) ∧
      List.Forall₂ (fun s b ↦ c.IsBridgeTo s b ∧ stored.CastsIn s b ∧ c.ExtendsIn s b)
        supers c.bridges := by
  obtain ⟨stored, hstored, hname, hmembers⟩ := Merger.exists_stored hc
  obtain ⟨supers, hnodup, hsupers, hbridges⟩ := Merger.exists_bridges_eq_map hc
  refine ⟨stored, supers, hstored, hname, hnodup, hsupers, ?_⟩
  have hmem : ∀ b ∈ c.bridges, b ∈ c.members := fun b hb ↦ (List.mem_filter.1 hb).1
  rw [hbridges] at hmem ⊢
  rw [List.forall₂_map_right_iff, List.forall₂_same]
  intro s hs
  have hbridge := Merger.isBridgeTo_bridge hc ((hsupers s).1 hs)
  have hlookup := Merger.member?_stored hc hmembers (hmem _ (List.mem_map_of_mem hs))
  refine ⟨hbridge, MergedClass.castsIn_bridge ?_ hlookup, hbridge.extendsIn⟩
  rintro ⟨v, hv⟩
  obtain ⟨hversion, rfl⟩ := (hbridge.inVersion v).1 (decide_eq_true hv)
  exact hdots v hversion

theorem bridges_exact_and_safe_threeReleases : ∃ c stored supers,
    (⟨meetingSupers, .empty⟩ : Merger).merge ⟨"x/C"⟩ threeReleases = .ok c ∧
      c.bridges.length = 2 ∧ c.encode.decode = .ok stored ∧ stored.name = c.name ∧ supers.Nodup ∧
      (∀ s, s ∈ supers ↔ c.NeedsBridge s) ∧
      List.Forall₂ (fun s b ↦ c.IsBridgeTo s b ∧ stored.CastsIn s b ∧ c.ExtendsIn s b)
        supers c.bridges := by
  have hmerge : ((⟨meetingSupers, .empty⟩ : Merger).merge ⟨"x/C"⟩ threeReleases).toOption.any
      (fun c ↦ (∀ v ∈ c.versions, (c.superclassIn v).DotFree) ∧ c.bridges.length = 2) = true := by
    decide
  obtain ⟨c, hc⟩ : ∃ c, (⟨meetingSupers, .empty⟩ : Merger).merge ⟨"x/C"⟩ threeReleases = .ok c :=
    Outcome.exists_eq_ok (by decide)
  rw [hc] at hmerge
  obtain ⟨hdots, hlength⟩ := of_decide_eq_true hmerge
  obtain ⟨stored, supers, h⟩ := bridges_exact_and_safe hc hdots
  exact ⟨c, stored, supers, hc, hlength, h⟩

end ClassWeave
