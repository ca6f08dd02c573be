import ClassWeave.Proofs.Merge.VersionOrder

/-!
# What every merged class satisfies

The stored form, the projection, the linker and the verifier read a merged class through its tables
and look its members up by physical key. What they rely on is collected in `MergedClass.IsMergeOf`
and holds of whatever a merge gives, for every hierarchy and every input (`isMergeOf_of_merge`).

Its parts have different origins, and each is proved where it arises:

* a table of visibilities covers what it was made of (`Versioned.Covers`): no version is wider than
  the physical value, and the overrides are the versions that are narrower;
* the member of a group gathers the declarations of the group (`MergedMember.Gathers`), which are
  those of one slot, and everything else that is asked of it follows from that;
* a bridge belongs to the versions whose superclass it leads to;
* that no physical key comes twice is what the merge has checked.
-/

namespace ClassWeave

/-! ### Tables of visibilities -/

/-- A table with the widest of the declared visibilities as its physical value, and the narrower
ones as its overrides. -/
structure Versioned.Covers (t : Versioned Visibility) (declared : List (Version × Visibility)) :
    Prop where
  rank_le : ∀ e ∈ declared, e.2.rank ≤ t.physical.rank
  forVersion : ∀ e ∈ declared, t.forVersion e.1 = e.2
  overrides : ∀ e, e ∈ t.overrides.entries ↔ e ∈ declared ∧ e.2.rank < t.physical.rank

namespace Versioned

variable {t : Versioned Visibility} {declared declared' : List (Version × Visibility)}

theorem Covers.congr (h : t.Covers declared) (hmem : ∀ e, e ∈ declared' ↔ e ∈ declared) :
    t.Covers declared' where
  rank_le e he := h.rank_le e ((hmem e).1 he)
  forVersion e he := h.forVersion e ((hmem e).1 he)
  overrides e := by rw [h.overrides, hmem]

/-- The versions with an override are declared. -/
theorem Covers.mem_of_mem_keys (h : t.Covers declared) {v : Version} (hv : v ∈ t.overrides.keys) :
    v ∈ declared.map (·.1) := by
  obtain ⟨e, he, rfl⟩ := List.mem_map.1 hv
  exact List.mem_map_of_mem ((h.overrides e).1 he).1

/-- The visibilities that a table has for the given versions. -/
def inVersions (t : Versioned Visibility) (versions : VersionSet) : List (Version × Visibility) :=
  versions.toList.map fun v ↦ (v, t.forVersion v)

theorem mem_inVersions {versions : VersionSet} {e : Version × Visibility} :
    e ∈ t.inVersions versions ↔ e.1 ∈ versions ∧ t.forVersion e.1 = e.2 := by
  rw [inVersions, List.mem_map]
  constructor
  · rintro ⟨v, hv, rfl⟩
    exact ⟨hv, rfl⟩
  · rintro ⟨hv, he⟩
    exact ⟨e.1, hv, Prod.ext rfl he⟩

/-- A table of one visibility covers the versions, all of which have it. -/
theorem covers_uniform (a : Visibility) (versions : VersionSet) :
    (uniform a).Covers ((uniform a).inVersions versions) where
  rank_le e he := by
    rw [← (mem_inVersions.1 he).2]
    exact Nat.le_refl _
  forVersion e he := (mem_inVersions.1 he).2
  overrides e := by
    constructor
    · intro he
      exact absurd he List.not_mem_nil
    · rintro ⟨he, hlt⟩
      rw [← (mem_inVersions.1 he).2] at hlt
      exact absurd hlt (Nat.lt_irrefl _)

end Versioned

/-- **The table of the visibilities covers what the versions declare.** -/
theorem covers_reconcileAccess {declared : List (Version × Visibility)}
    (h : OrderedMap.Functional declared) : (reconcileAccess declared).Covers declared where
  rank_le e he := Visibility.rank_le_widest (List.mem_map_of_mem he)
  forVersion e he := forVersion_reconcileAccess h he
  overrides e := by
    rw [reconcileAccess_eq, Versioned.mem_overrides_ofDeclared h]
    -- a declared visibility is no wider than the widest, so to differ is to be narrower
    refine and_congr_right fun he ↦ ⟨fun hne ↦ ?_, fun hlt heq ↦ ?_⟩
    · exact Nat.lt_of_le_of_ne (Visibility.rank_le_widest (List.mem_map_of_mem he))
        fun hrank ↦ hne (Visibility.rank_injective hrank)
    · rw [heq] at hlt
      exact absurd hlt (Nat.lt_irrefl _)

/-! ### Members -/

/-- A member of a class that exists in the given versions. -/
structure MergedMember.WellMade (versions : VersionSet) (m : MergedMember) : Prop where
  exists_version : ∃ v, v ∈ m.declaredVersions
  declaredVersions : ∀ v ∈ m.declaredVersions, v ∈ versions
  bodies : ∀ v ∈ m.bodies.keys, v ∈ m.declaredVersions
  overridden : ∀ v ∈ m.access.overrides.keys, v ∈ m.declaredVersions
  access : m.access.Covers (m.access.inVersions m.declaredVersions)

/-- A member that holds the given declarations, each for its version. -/
structure MergedMember.Gathers (m : MergedMember) (decls : List (Version × Member)) : Prop where
  declaredVersions : ∀ v, v ∈ m.declaredVersions ↔ ∃ d, (v, d) ∈ decls
  groupKey : ∀ e ∈ decls, e.2.groupKey = m.groupKey
  access : m.access.Covers (decls.map fun e ↦ (e.1, e.2.access))
  bodies : ∀ v b, m.bodies.get? v = some b ↔ ∃ d, (v, d) ∈ decls ∧ d.body = some b

/-- What a member gathers makes it well made. -/
theorem MergedMember.Gathers.wellMade {m : MergedMember} {decls : List (Version × Member)}
    {versions : VersionSet} (h : m.Gathers decls) (hne : decls ≠ [])
    (hversions : ∀ e ∈ decls, e.1 ∈ versions) : m.WellMade versions := by
  have hdeclared : ∀ e ∈ decls, e.1 ∈ m.declaredVersions := fun e he ↦
    (h.declaredVersions e.1).2 ⟨e.2, he⟩
  have hoverridden : ∀ v ∈ m.access.overrides.keys, v ∈ m.declaredVersions := by
    intro v hv
    obtain ⟨a, ha, rfl⟩ := List.mem_map.1 (h.access.mem_of_mem_keys hv)
    obtain ⟨e, he, rfl⟩ := List.mem_map.1 ha
    exact hdeclared e he
  refine ⟨?_, ?_, ?_, hoverridden, h.access.congr fun e ↦ ?_⟩
  · obtain ⟨e, he⟩ := List.exists_mem_of_ne_nil _ hne
    exact ⟨e.1, hdeclared e he⟩
  · intro v hv
    obtain ⟨d, hd⟩ := (h.declaredVersions v).1 hv
    exact hversions _ hd
  · intro v hv
    obtain ⟨b, hb⟩ := OrderedMap.mem_keys.1 hv
    obtain ⟨d, hd, -⟩ := (h.bodies v b).1 hb
    exact hdeclared _ hd
  · -- the visibility that the table has for a version is the declared one
    have hforVersion : ∀ v d, (v, d) ∈ decls → m.access.forVersion v = d.access := fun v d hd ↦
      h.access.forVersion (v, d.access) (List.mem_map.2 ⟨(v, d), hd, rfl⟩)
    rw [Versioned.mem_inVersions, h.declaredVersions, List.mem_map]
    constructor
    · rintro ⟨⟨d, hd⟩, hv⟩
      rw [hforVersion _ d hd] at hv
      exact ⟨(e.1, d), hd, Prod.ext rfl hv⟩
    · rintro ⟨⟨v, d⟩, hd, rfl⟩
      exact ⟨⟨d, hd⟩, hforVersion v d hd⟩

namespace Declarations

variable {d : Declarations} {g : MemberGroup}

/-- **The member of a group gathers the declarations of the group.** -/
theorem gathers_toMember (hd : d.versions.Nodup) (hg : g ∈ d.groups) :
    (d.toMember g).Gathers g.decls := by
  have hnodup := nodup_versions_of_mem_groups hd hg
  refine ⟨fun v ↦ ?_, ?_, ?_, ?_⟩
  · show v ∈ OrderedSet.ofList g.versions ↔ _
    rw [OrderedSet.mem_ofList, MemberGroup.versions, List.mem_map]
    constructor
    · rintro ⟨e, he, rfl⟩
      exact ⟨e.2, he⟩
    · rintro ⟨m, hm⟩
      exact ⟨(v, m), hm, rfl⟩
  · intro e he
    exact groupKey_of_mem_decls hd hg he
  · exact covers_reconcileAccess ((MemberGroup.functional_decls hnodup).map Member.access)
  · intro v b
    rw [← MemberGroup.mem_bodies]
    exact OrderedMap.get?_ofList (MemberGroup.functional_bodies hnodup)

end Declarations

/-- A bridge is well made where it serves some of the versions. -/
theorem MergedMember.wellMade_bridge {versions served : VersionSet} (c : ClassName)
    (hserved : ∃ v, v ∈ served) (hsub : ∀ v ∈ served, v ∈ versions) :
    (MergedMember.bridge c served).WellMade versions where
  exists_version := hserved
  declaredVersions := hsub
  bodies _ hv := absurd hv List.not_mem_nil
  overridden _ hv := absurd hv List.not_mem_nil
  access := Versioned.covers_uniform _ _

/-! ### Classes -/

/-- What a merge promises about the class that it makes of the trees. -/
structure MergedClass.IsMergeOf (c : MergedClass) (ts : Trees) : Prop where
  versions : ∀ v, v ∈ c.versions ↔ ∃ t, (v, t) ∈ ts
  keys : (c.members.map (·.key)).Nodup
  members : ∀ m ∈ c.members, m.WellMade c.versions
  /-- Each member that is not a bridge holds the `n`-th declaration of its key, for some `n`, of
  each version that has so many. -/
  gathers : ∀ m ∈ c.members, m.isBridge = false →
    ∃ n, m.Gathers (ts.declarations.slot m.groupKey n)
  /-- Each bridge serves the versions whose superclass, another than the physical one, it leads
  to. -/
  bridges : ∀ m ∈ c.members, m.isBridge = true → ∃ s served, m = .bridge s served ∧
    s ≠ c.inheritance.physical.superclass ∧ s.isObject = false ∧
    ∀ v, v ∈ served ↔ ∃ t, (v, t) ∈ ts ∧ t.superclass = s
  access : c.access.Covers (ts.map fun e ↦ (e.1, e.2.access))
  inheritance : ∀ e ∈ ts, c.inheritance.forVersion e.1 = e.2.inheritance
  overridden : ∀ v, v ∈ c.inheritance.overrides.keys ↔
    ∃ t, (v, t) ∈ ts ∧ t.inheritance ≠ c.inheritance.physical
  interfaces : ∀ i, i ∈ c.inheritance.physical.interfaces ↔ ∃ e ∈ ts, i ∈ e.2.interfaces

section Merge

variable {m : Merger} {cls : ClassName} {ts : Trees} {c : MergedClass} {r : Reconciled}
  {b : MergedMember}

/-- The member of a group gathers a slot of its key. -/
theorem Trees.exists_gathers_slot (hone : ts.OneClass cls) {g : MemberGroup}
    (hg : g ∈ ts.declarations.groups) :
    ∃ n, (ts.declarations.toMember g).Gathers (ts.declarations.slot g.key n) := by
  have hd := hone.nodup_declarations
  obtain ⟨n, -, hslot⟩ := (Declarations.mem_groups hd).1 hg
  have hdecls : g.decls = ts.declarations.slot g.key n := congrArg MemberGroup.decls hslot
  exact ⟨n, hdecls ▸ Declarations.gathers_toMember hd hg⟩

/-- **The member of a group is well made.** -/
theorem Trees.wellMade_toMember (hone : ts.OneClass cls) {g : MemberGroup}
    (hg : g ∈ ts.declarations.groups) :
    (ts.declarations.toMember g).WellMade ts.versionSet := by
  have hd := hone.nodup_declarations
  obtain ⟨e, he⟩ := Declarations.exists_mem_decls hd hg
  refine (Declarations.gathers_toMember hd hg).wellMade (List.ne_nil_of_mem he) fun e he ↦ ?_
  obtain ⟨t, ht, -⟩ := exists_of_mem_decls hd hg he
  exact mem_versionSet.2 ⟨t, ht⟩

/-- **A bridge of the reconciled inheritance serves the versions whose superclass it leads to.** -/
theorem Merger.exists_bridge_of_mem (hr : m.reconcile cls ts = .ok r) (hb : b ∈ r.bridges) :
    ∃ s served, b = .bridge s served ∧ s ≠ r.table.physical.superclass ∧ s.isObject = false ∧
      (∃ v, v ∈ served) ∧ ∀ v, v ∈ served ↔ ∃ t, (v, t) ∈ ts ∧ t.superclass = s := by
  obtain ⟨p, -, rfl⟩ := reconcileInheritance_eq_ok.1 hr
  obtain ⟨⟨s, served⟩, he, rfl⟩ := List.mem_map.1 hb
  obtain ⟨hserved, w, hw⟩ := Declared.exists_mem_bridgeVersions he
  dsimp only at hserved hw
  obtain ⟨-, -, -, hphysical, hobject⟩ := Declared.mem_bridgeVersions.1 hw
  refine ⟨s, served, rfl, hphysical, hobject, ⟨w, hserved ▸ hw⟩, fun v ↦ ?_⟩
  rw [hserved, Declared.mem_bridgeVersions]
  constructor
  · rintro ⟨i, hi, hs, -⟩
    obtain ⟨t, ht, rfl⟩ := Trees.mem_inheritance.1 hi
    exact ⟨t, ht, hs⟩
  · rintro ⟨t, ht, hs⟩
    exact ⟨t.inheritance, Trees.mem_inheritance.2 ⟨t, ht, rfl⟩, hs, hphysical, hobject⟩

/-- **A bridge is well made.** -/
theorem Merger.wellMade_of_mem_bridges (hr : m.reconcile cls ts = .ok r) (hb : b ∈ r.bridges) :
    b.WellMade ts.versionSet := by
  obtain ⟨s, served, rfl, -, -, hserved, hmem⟩ := exists_bridge_of_mem hr hb
  refine MergedMember.wellMade_bridge s hserved fun v hv ↦ ?_
  obtain ⟨t, ht, -⟩ := (hmem v).1 hv
  exact Trees.mem_versionSet.2 ⟨t, ht⟩

/-- The versions with an override of the inheritance are those that differ from the physical one. -/
theorem mem_keys_overrides_inheritance (hone : ts.OneClass cls)
    (hr : m.reconcile cls ts = .ok r) {v : Version} :
    v ∈ r.table.overrides.keys ↔ ∃ t, (v, t) ∈ ts ∧ t.inheritance ≠ r.table.physical := by
  obtain ⟨p, -, rfl⟩ := reconcileInheritance_eq_ok.1 hr
  have hfun := OrderedMap.functional_of_nodup hone.nodup_inheritance
  rw [OrderedMap.keys, List.mem_map]
  constructor
  · rintro ⟨i, hi, rfl⟩
    obtain ⟨hdeclared, hne⟩ := (Versioned.mem_overrides_ofDeclared hfun).1 hi
    obtain ⟨e, he, rfl⟩ := List.mem_map.1 hdeclared
    exact ⟨e.2, he, hne⟩
  · rintro ⟨t, ht, hne⟩
    have hdeclared : (v, t.inheritance) ∈ ts.inheritance := List.mem_map.2 ⟨(v, t), ht, rfl⟩
    exact ⟨_, (Versioned.mem_overrides_ofDeclared hfun).2 ⟨hdeclared, hne⟩, rfl⟩

/-- **The member of a merged class that is not a bridge is that of a group.** -/
theorem Merger.exists_group_of_mem (hc : m.merge cls ts = .ok c) (hb : b ∈ c.members)
    (hbridge : b.isBridge = false) :
    ∃ g ∈ ts.declarations.groups, ts.declarations.toMember g = b := by
  obtain ⟨-, r, hr, -, rfl⟩ := Merger.merge_eq_ok.1 hc
  rcases List.mem_append.1 hb with hb | hb
  · exact List.mem_map.1 hb
  · rw [isBridge_of_mem_bridges hr hb] at hbridge
    cases hbridge

/-- A bridge of a merged class comes from the reconciled inheritance. -/
theorem Trees.mem_bridges_of_mem
    (hb : b ∈ (ts.assemble cls r).members) (hbridge : b.isBridge = true) : b ∈ r.bridges := by
  rcases List.mem_append.1 hb with hb | hb
  · obtain ⟨g, -, rfl⟩ := List.mem_map.1 hb
    cases hbridge
  · exact hb

theorem Merger.eq_bridge_of_mem (hc : m.merge cls ts = .ok c) (hb : b ∈ c.members)
    (hbridge : b.isBridge = true) : ∃ s served, b = .bridge s served := by
  obtain ⟨-, r, hr, -, rfl⟩ := Merger.merge_eq_ok.1 hc
  obtain ⟨s, served, hb, -⟩ := exists_bridge_of_mem hr (Trees.mem_bridges_of_mem hb hbridge)
  exact ⟨s, served, hb⟩

/-- A bridge is declared under its physical name, so a mangled member is no bridge. -/
theorem Merger.isBridge_eq_false_of_isMangled (hc : m.merge cls ts = .ok c) (hb : b ∈ c.members)
    (hmangled : b.isMangled = true) : b.isBridge = false := by
  rw [Bool.eq_false_iff]
  intro hbridge
  obtain ⟨s, served, rfl⟩ := eq_bridge_of_mem hc hb hbridge
  exact absurd rfl (of_decide_eq_true hmangled)

/-- **The look-up of a physical key finds the member that has it.** -/
theorem Merger.member?_key (hc : m.merge cls ts = .ok c) (hb : b ∈ c.members) :
    c.member? b.key = some b := by
  obtain ⟨-, r, -, hunique, rfl⟩ := Merger.merge_eq_ok.1 hc
  exact MergedClass.member?_of_nodup hunique hb

/-- **What a merge gives is a merge of its trees.** -/
theorem isMergeOf_of_merge (hc : m.merge cls ts = .ok c) : c.IsMergeOf ts := by
  have hmerge := hc
  obtain ⟨hone, r, hr, hunique, rfl⟩ := Merger.merge_eq_ok.1 hc
  refine ⟨fun v ↦ Trees.mem_versionSet, hunique, fun b hb ↦ ?_, fun b hb hbridge ↦ ?_,
    fun b hb hbridge ↦ ?_, ?_, fun e he ↦ ?_, fun v ↦ ?_, fun i ↦ ?_⟩
  · rcases List.mem_append.1 hb with hb | hb
    · obtain ⟨g, hg, rfl⟩ := List.mem_map.1 hb
      exact Trees.wellMade_toMember hone hg
    · exact Merger.wellMade_of_mem_bridges hr hb
  · obtain ⟨g, hg, rfl⟩ := Merger.exists_group_of_mem hmerge hb hbridge
    exact Trees.exists_gathers_slot hone hg
  · obtain ⟨s, served, hb, hphysical, hobject, -, hmem⟩ :=
      Merger.exists_bridge_of_mem hr (Trees.mem_bridges_of_mem hb hbridge)
    exact ⟨s, served, hb, hphysical, hobject, hmem⟩
  · exact covers_reconcileAccess (hone.functional.map ClassTree.access)
  · exact forVersion_inheritance hone hr he
  · exact mem_keys_overrides_inheritance hone hr
  · obtain ⟨p, -, rfl⟩ := reconcileInheritance_eq_ok.1 hr
    show i ∈ ts.inheritance.physicalInterfaces ↔ _
    rw [Declared.mem_physicalInterfaces]
    constructor
    · rintro ⟨_, hd, hi⟩
      obtain ⟨e, he, rfl⟩ := List.mem_map.1 hd
      exact ⟨e, he, hi⟩
    · rintro ⟨e, he, hi⟩
      exact ⟨_, List.mem_map_of_mem he, hi⟩

theorem isMergeOf_of_merge_threeReleases :
    ∃ c, (⟨meetingSupers, .empty⟩ : Merger).merge ⟨"x/C"⟩ threeReleases = .ok c ∧
      c.IsMergeOf threeReleases := by
  obtain ⟨c, hc⟩ : ∃ c, (⟨meetingSupers, .empty⟩ : Merger).merge ⟨"x/C"⟩ threeReleases = .ok c :=
    Outcome.exists_eq_ok (by decide +kernel)
  exact ⟨c, hc, isMergeOf_of_merge hc⟩

end Merge

end ClassWeave
