import ClassWeave.Merge.Basic
import ClassWeave.Proofs.Merge.Grouping
import ClassWeave.Proofs.Merge.Inheritance
import ClassWeave.Proofs.Names
import ClassWeave.Proofs.Outcome

/-!
# When a merge succeeds, and what it gives

A merge succeeds exactly when three things hold that have nothing to do with each other
(`Merger.merge_eq_ok`): its input is one class in different versions (`Trees.OneClass`), the
inheritances can be reconciled, and no two members end up with one physical key. The result is then
`Trees.assemble`, a function of the input and of the reconciled inheritance. No other module opens
the checks of a merge.

The members are those of the groups, none of which is taken for a bridge, and after them the
bridges. Only the physical keys can make a merge end in a conflict (`Merger.merge_conflict_iff`).
-/

namespace ClassWeave

/-! ### The checks -/

namespace Trees

variable {cls : ClassName} {ts ts' : Trees}

/-- Trees of one class, each of another version. -/
structure OneClass (cls : ClassName) (ts : Trees) : Prop where
  nonempty : ts ≠ []
  nodup : (ts.map (·.1)).Nodup
  name : ∀ e ∈ ts, e.2.name = cls

theorem checkAfter_eq_ok {seen : List Version} : checkAfter cls seen ts = .ok () ↔
    (∀ e ∈ ts, e.1 ∉ seen) ∧ (ts.map (·.1)).Nodup ∧ ∀ e ∈ ts, e.2.name = cls := by
  induction ts generalizing seen with
  | nil => simp [checkAfter]
  | cons e ts ih =>
    obtain ⟨v, t⟩ := e
    rw [checkAfter]
    by_cases hv : v ∈ seen
    · rw [if_pos hv]
      constructor
      · intro h
        cases h
      · rintro ⟨hnew, -⟩
        exact absurd hv (hnew _ List.mem_cons_self)
    · rw [if_neg hv]
      by_cases hname : t.name = cls
      · rw [if_neg (not_not.2 hname), ih, List.map_cons, List.nodup_cons, List.forall_mem_cons,
          List.forall_mem_cons]
        constructor
        · rintro ⟨hnew, hnodup, hnames⟩
          refine ⟨⟨hv, fun e he hmem ↦ hnew e he (List.mem_cons_of_mem _ hmem)⟩, ⟨?_, hnodup⟩,
            hname, hnames⟩
          intro hmem
          obtain ⟨e, he, hev⟩ := List.mem_map.1 hmem
          exact hnew e he (hev ▸ List.mem_cons_self)
        · rintro ⟨⟨-, hnew⟩, ⟨hvs, hnodup⟩, -, hnames⟩
          refine ⟨fun e he hmem ↦ ?_, hnodup, hnames⟩
          rcases List.mem_cons.1 hmem with hev | hmem
          · exact hvs (List.mem_map.2 ⟨e, he, hev⟩)
          · exact hnew e he hmem
      · rw [if_pos hname]
        constructor
        · intro h
          cases h
        · rintro ⟨-, -, hnames⟩
          exact absurd (hnames _ List.mem_cons_self) hname

/-- **The check accepts the trees of one class.** -/
theorem check_eq_ok : ts.check cls = .ok () ↔ ts.OneClass cls := by
  rw [check]
  by_cases hts : ts = []
  · rw [if_pos (List.isEmpty_iff.2 hts)]
    constructor
    · intro h
      cases h
    · intro h
      exact absurd hts h.nonempty
  · rw [if_neg (by rwa [List.isEmpty_iff]), checkAfter_eq_ok]
    constructor
    · rintro ⟨-, hnodup, hname⟩
      exact ⟨hts, hnodup, hname⟩
    · intro h
      exact ⟨fun _ _ ↦ List.not_mem_nil, h.nodup, h.name⟩

theorem OneClass.perm (h : ts.OneClass cls) (hperm : ts.Perm ts') : ts'.OneClass cls where
  nonempty hnil := h.nonempty (List.perm_nil.1 (hnil ▸ hperm))
  nodup := (hperm.map _).nodup_iff.1 h.nodup
  name e he := h.name e (hperm.mem_iff.2 he)

theorem OneClass.nodup_declarations (h : ts.OneClass cls) : ts.declarations.versions.Nodup := by
  rw [Declarations.versions, declarations, List.map_map]
  exact h.nodup

theorem OneClass.nodup_inheritance (h : ts.OneClass cls) : (ts.inheritance.map (·.1)).Nodup := by
  rw [inheritance, List.map_map]
  exact h.nodup

theorem OneClass.functional (h : ts.OneClass cls) : OrderedMap.Functional ts :=
  OrderedMap.functional_of_nodup h.nodup

theorem mem_versionSet {v : Version} : v ∈ ts.versionSet ↔ ∃ t, (v, t) ∈ ts := by
  refine OrderedSet.mem_ofList.trans ?_
  rw [List.mem_map]
  constructor
  · rintro ⟨e, he, rfl⟩
    exact ⟨e.2, he⟩
  · rintro ⟨t, ht⟩
    exact ⟨(v, t), ht, rfl⟩

theorem mem_inheritance {v : Version} {i : Inheritance} :
    (v, i) ∈ ts.inheritance ↔ ∃ t, (v, t) ∈ ts ∧ t.inheritance = i := by
  simp only [inheritance, List.mem_map, Prod.exists, Prod.mk.injEq]
  constructor
  · rintro ⟨w, t, ht, rfl, rfl⟩
    exact ⟨t, ht, rfl⟩
  · rintro ⟨t, ht, rfl⟩
    exact ⟨v, t, ht, rfl, rfl⟩

/-! ### The declarations -/

/-- The declarations of all versions. -/
def allMembers (ts : Trees) : List Member := ts.flatMap (·.2.members)

theorem mem_allMembers {m : Member} : m ∈ ts.allMembers ↔ ∃ v t, (v, t) ∈ ts ∧ m ∈ t.members := by
  rw [allMembers, List.mem_flatMap, Prod.exists]

/-- A declaration in a group comes from the tree of its version. -/
theorem exists_of_mem_decls (hd : ts.declarations.versions.Nodup) {g : MemberGroup}
    (hg : g ∈ ts.declarations.groups) {v : Version} {m : Member} (hm : (v, m) ∈ g.decls) :
    ∃ t, (v, t) ∈ ts ∧ m ∈ t.members := by
  obtain ⟨ms, hms, hmem⟩ := Declarations.exists_of_mem_decls hd hg hm
  obtain ⟨⟨w, t⟩, ht, heq⟩ := List.mem_map.1 hms
  cases heq
  exact ⟨t, ht, hmem⟩

theorem mem_allMembers_of_mem_decls (hd : ts.declarations.versions.Nodup) {g : MemberGroup}
    (hg : g ∈ ts.declarations.groups) {v : Version} {m : Member} (hm : (v, m) ∈ g.decls) :
    m ∈ ts.allMembers := by
  obtain ⟨t, ht, hmem⟩ := exists_of_mem_decls hd hg hm
  exact mem_allMembers.2 ⟨v, t, ht, hmem⟩

/-- Where no author chose a name, a group has no chosen name either. -/
theorem nameOverride?_eq_none (hd : ts.declarations.versions.Nodup)
    (hnames : ∀ m ∈ ts.allMembers, m.nameOverride = none) {g : MemberGroup}
    (hg : g ∈ ts.declarations.groups) : g.nameOverride? = none := by
  have hoverrides : g.overrides = [] := by
    refine List.filterMap_eq_nil_iff.2 fun e he ↦ ?_
    rw [hnames _ (mem_allMembers_of_mem_decls hd hg he)]
    rfl
  rw [MemberGroup.nameOverride?, hoverrides]
  rfl

end Trees

/-- A group without a chosen name has its declared name, unless it is mangled. -/
theorem physicalName_eq {gs : List MemberGroup} {g : MemberGroup} (h : g.nameOverride? = none) :
    physicalName gs g =
      if needsMangling gs g then mangle g.key.name g.versionSet else g.key.name := by
  rw [physicalName, h]

/-! ### Physical keys -/

theorem ensureUniqueAfter_eq_ok {cls : ClassName} {before members : List MergedMember} :
    ensureUniqueAfter cls before members = .ok () ↔
      (∀ m ∈ members, ∀ b ∈ before, b.key ≠ m.key) ∧ (members.map (·.key)).Nodup := by
  induction members generalizing before with
  | nil => simp [ensureUniqueAfter]
  | cons m members ih =>
    rw [ensureUniqueAfter]
    cases hfind : before.find? (·.key = m.key) with
    | some b =>
      constructor
      · intro h
        cases h
      · rintro ⟨hnew, -⟩
        have hkey : b.key = m.key := by simpa using List.find?_some hfind
        exact absurd hkey (hnew m List.mem_cons_self b (List.mem_of_find?_eq_some hfind))
    | none =>
      have hm : ∀ b ∈ before, b.key ≠ m.key := by simpa using hfind
      rw [ih, List.map_cons, List.nodup_cons, List.forall_mem_cons]
      constructor
      · rintro ⟨hnew, hnodup⟩
        refine ⟨⟨hm, fun m' hm' b hb ↦ hnew m' hm' b (List.mem_append_left _ hb)⟩, ?_, hnodup⟩
        intro hmem
        obtain ⟨m', hm', hkey⟩ := List.mem_map.1 hmem
        exact hnew m' hm' m (List.mem_append_right _ (List.mem_singleton_self m)) hkey.symm
      · rintro ⟨⟨-, hnew⟩, hmem, hnodup⟩
        refine ⟨fun m' hm' b hb ↦ ?_, hnodup⟩
        rcases List.mem_append.1 hb with hb | hb
        · exact hnew m' hm' b hb
        · rw [List.mem_singleton.1 hb]
          exact fun hkey ↦ hmem (hkey ▸ List.mem_map_of_mem hm')

/-- The physical keys are accepted if they differ. -/
theorem ensureUnique_eq_ok {cls : ClassName} {members : List MergedMember} :
    ensureUnique cls members = .ok () ↔ (members.map (·.key)).Nodup := by
  rw [ensureUnique, ensureUniqueAfter_eq_ok]
  exact and_iff_right fun _ _ _ hb ↦ absurd hb List.not_mem_nil

namespace MergedClass

variable {c : MergedClass} {k : MemberKey} {b : MergedMember}

theorem mem_of_member?_eq_some (h : c.member? k = some b) : b ∈ c.members :=
  List.mem_of_find?_eq_some h

theorem key_of_member?_eq_some (h : c.member? k = some b) : b.key = k := by
  simpa using List.find?_some h

/-- Where the physical keys are distinct, a look-up finds each member. -/
theorem member?_of_nodup (hunique : (c.members.map (·.key)).Nodup) (hb : b ∈ c.members) :
    c.member? b.key = some b := by
  obtain ⟨b', hb'⟩ : ∃ b', c.member? b.key = some b' :=
    Option.isSome_iff_exists.1 (List.find?_isSome.2 ⟨b, hb, decide_eq_true rfl⟩)
  rw [hb', List.inj_on_of_nodup_map hunique (mem_of_member?_eq_some hb') hb
    (key_of_member?_eq_some hb')]

end MergedClass

/-! ### The result -/

/-- The bodies that a group collects. -/
def MemberGroup.bodies (g : MemberGroup) : List (Version × Body) :=
  g.decls.filterMap fun d ↦ d.2.body.map (d.1, ·)

theorem MemberGroup.mem_bodies {g : MemberGroup} {v : Version} {b : Body} :
    (v, b) ∈ g.bodies ↔ ∃ m, (v, m) ∈ g.decls ∧ m.body = some b := by
  simp only [bodies, List.mem_filterMap, Option.map_eq_some_iff, Prod.exists, Prod.mk.injEq]
  constructor
  · rintro ⟨w, m, hm, a, ha, rfl, rfl⟩
    exact ⟨m, hm, ha⟩
  · rintro ⟨m, hm, hb⟩
    exact ⟨v, m, hm, b, hb, rfl, rfl⟩

theorem MemberGroup.functional_decls {g : MemberGroup} (hg : g.versions.Nodup) :
    OrderedMap.Functional g.decls :=
  OrderedMap.functional_of_nodup hg

theorem MemberGroup.functional_bodies {g : MemberGroup} (hg : g.versions.Nodup) :
    OrderedMap.Functional g.bodies := by
  intro v a b ha hb
  obtain ⟨m, hm, hma⟩ := mem_bodies.1 ha
  obtain ⟨m', hm', hmb⟩ := mem_bodies.1 hb
  rw [functional_decls hg hm hm', hmb] at hma
  exact (Option.some.inj hma).symm

/-- The member that a group becomes among the groups of its class. -/
def Declarations.toMember (d : Declarations) (g : MemberGroup) : MergedMember :=
  NamedGroup.toMember ⟨g, physicalName d.groups g⟩

namespace Trees

/-- The members of a merged class: those of the groups, and the bridges. -/
def members (ts : Trees) (r : Reconciled) : List MergedMember :=
  ts.declarations.groups.map ts.declarations.toMember ++ r.bridges

theorem members_eq (ts : Trees) (r : Reconciled) :
    (groupMembers ts.declarations).map NamedGroup.toMember ++ r.bridges = ts.members r := by
  rw [groupMembers, List.map_map]
  rfl

/-- The merged class of trees with a reconciled inheritance. -/
def assemble (cls : ClassName) (ts : Trees) (r : Reconciled) : MergedClass where
  name := cls
  versions := ts.versionSet
  access := reconcileAccess (ts.map fun t ↦ (t.1, t.2.access))
  inheritance := r.table
  members := ts.members r

end Trees

variable {m : Merger} {cls : ClassName} {ts : Trees} {c : MergedClass} {v : Version} {t : ClassTree}

/-- **When a merge succeeds, and with which result.** -/
theorem Merger.merge_eq_ok : m.merge cls ts = .ok c ↔
    ts.OneClass cls ∧ ∃ r, m.reconcile cls ts = .ok r ∧
      ((ts.members r).map (·.key)).Nodup ∧ c = ts.assemble cls r := by
  simp only [Merger.merge, Trees.members_eq]
  rw [Outcome.bind_eq_ok]
  constructor
  · rintro ⟨⟨⟩, hcheck, h⟩
    obtain ⟨r, hr, h⟩ := Outcome.bind_eq_ok.1 h
    obtain ⟨⟨⟩, hunique, h⟩ := Outcome.bind_eq_ok.1 h
    cases h
    exact ⟨Trees.check_eq_ok.1 hcheck, r, hr, ensureUnique_eq_ok.1 hunique, rfl⟩
  · rintro ⟨hone, r, hr, hunique, rfl⟩
    exact ⟨(), Trees.check_eq_ok.2 hone, Outcome.bind_eq_ok.2 ⟨r, hr,
      Outcome.bind_eq_ok.2 ⟨(), ensureUnique_eq_ok.2 hunique, rfl⟩⟩⟩

/-! ### The conflict -/

/-- Whether the error reports two members of one physical key. -/
def MergeError.IsConflict : MergeError → Prop
  | unresolvedConflict .. => True
  | noVersions _ | duplicateVersion .. | identityMismatch .. | ambiguousInheritance .. => False

theorem Trees.not_isConflict_of_checkAfter {seen : List Version} {e : MergeError}
    (he : ts.checkAfter cls seen = .error e) : ¬ e.IsConflict := by
  induction ts generalizing seen with
  | nil => cases he
  | cons t ts ih =>
    rw [checkAfter] at he
    split at he
    · cases he
      exact id
    · split at he
      · cases he
        exact id
      · exact ih he

theorem Trees.not_isConflict_of_check {e : MergeError} (he : ts.check cls = .error e) :
    ¬ e.IsConflict := by
  rw [check] at he
  split at he
  · cases he
    exact id
  · exact not_isConflict_of_checkAfter he

theorem isConflict_of_ensureUniqueAfter {before members : List MergedMember} {e : MergeError}
    (he : ensureUniqueAfter cls before members = .error e) : e.IsConflict := by
  induction members generalizing before with
  | nil => cases he
  | cons b members ih =>
    rw [ensureUniqueAfter] at he
    split at he
    · cases he
      exact trivial
    · exact ih he

/-- **When a merge ends in a conflict.** -/
theorem Merger.merge_conflict_iff : (∃ e, m.merge cls ts = .error e ∧ e.IsConflict) ↔
    ts.OneClass cls ∧ ∃ r, m.reconcile cls ts = .ok r ∧ ¬ ((ts.members r).map (·.key)).Nodup := by
  simp only [Merger.merge, Trees.members_eq]
  constructor
  · rintro ⟨e, he, hconflict⟩
    rcases Outcome.bind_eq_error.1 he with he | ⟨⟨⟩, hcheck, he⟩
    · exact absurd hconflict (Trees.not_isConflict_of_check he)
    rcases Outcome.bind_eq_error.1 he with he | ⟨r, hr, he⟩
    · rw [eq_of_reconcileInheritance_eq_error he] at hconflict
      exact hconflict.elim
    rcases Outcome.bind_eq_error.1 he with he | ⟨⟨⟩, -, he⟩
    · refine ⟨Trees.check_eq_ok.1 hcheck, r, hr, fun hunique ↦ ?_⟩
      rw [ensureUnique_eq_ok.2 hunique] at he
      cases he
    · cases he
  · rintro ⟨hone, r, hr, hrepeated⟩
    cases hensure : ensureUnique cls (ts.members r) with
    | ok u => exact absurd (ensureUnique_eq_ok.1 hensure) hrepeated
    | error e =>
      refine ⟨e, ?_, isConflict_of_ensureUniqueAfter hensure⟩
      exact Outcome.bind_eq_error.2 (.inr ⟨(), Trees.check_eq_ok.2 hone,
        Outcome.bind_eq_error.2 (.inr ⟨r, hr, Outcome.bind_eq_error.2 (.inl hensure)⟩)⟩)

/-! ### Its versions and tables -/

theorem mem_versions_of_merge (hc : m.merge cls ts = .ok c) :
    v ∈ c.versions ↔ ∃ t, (v, t) ∈ ts := by
  obtain ⟨-, r, -, -, rfl⟩ := Merger.merge_eq_ok.1 hc
  exact Trees.mem_versionSet

/-- **The table of the visibilities has for the version what its tree declares.** -/
theorem forVersion_access (hone : ts.OneClass cls) (ht : (v, t) ∈ ts) :
    (reconcileAccess (ts.map fun t ↦ (t.1, t.2.access))).forVersion v = t.access :=
  forVersion_reconcileAccess (hone.functional.map ClassTree.access) (List.mem_map_of_mem ht)

/-- **The table of the inheritances has for the version what its tree declares.** -/
theorem forVersion_inheritance (hone : ts.OneClass cls) {r : Reconciled}
    (hr : m.reconcile cls ts = .ok r) (ht : (v, t) ∈ ts) :
    r.table.forVersion v = t.inheritance := by
  obtain ⟨c, -, rfl⟩ := reconcileInheritance_eq_ok.1 hr
  exact Versioned.forVersion_ofDeclared
    (OrderedMap.functional_of_nodup hone.nodup_inheritance) (List.mem_map_of_mem ht)

/-! ### Its members -/

/-- No member of a group is taken for a bridge. -/
theorem Declarations.isBridge_toMember (d : Declarations) (g : MemberGroup) :
    (d.toMember g).isBridge = false := rfl

/-- What reconciling adds are bridges. -/
theorem isBridge_of_mem_bridges {h : Hierarchy} {pinned : Option ClassName} {d : Declared}
    {r : Reconciled} (hr : reconcileInheritance h cls pinned d = .ok r) {b : MergedMember}
    (hb : b ∈ r.bridges) : b.isBridge = true := by
  obtain ⟨c, -, rfl⟩ := reconcileInheritance_eq_ok.1 hr
  obtain ⟨e, -, rfl⟩ := List.mem_map.1 hb
  exact hasBridgeName_bridgeName e.1

end ClassWeave
