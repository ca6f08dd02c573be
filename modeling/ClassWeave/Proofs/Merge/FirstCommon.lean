import ClassWeave.Proofs.Merge.Inheritance

/-!
# The superclass that the first version finds

Of complete chains the physical superclass is the first class on the chain of the *first* version
that lies on the chains of all versions (`Declared.physicalSuper_of_head?`), whichever version comes
first (`reconcileInheritance_of_perm`). Each version has such a class, the root at the latest, but
they need not have the same one: where one version has `P` below `Q` and another one `Q` below `P`,
both are common, and neither is the deeper one.

So the order of the versions matters for some hierarchies, although every chain is complete.
`table_order_irrelevant_iff` says for which: it does not matter exactly where all versions find the
same class first. `crossed_supers_depend_on_order` is a hierarchy in which it matters.
-/

namespace ClassWeave

namespace Declared

variable {d d' : Declared} {h : Hierarchy} {cls c : ClassName} {e : Version × Inheritance}

/-- The first class on the chain of a version that lies on the chains of all versions. -/
def firstCommon? (d : Declared) (h : Hierarchy) (e : Version × Inheritance) : Option ClassName :=
  (h.chain e.1 e.2.superclass).find? (common (d.chains h))

/-- The deepest common class is searched along the chain of the first version. -/
theorem deepestCommon_of_head? (hhead : d.head? = some e) :
    deepestCommon (d.chains h) = (d.firstCommon? h e).getD .object := by
  obtain ⟨rest, rfl⟩ := List.head?_eq_some_iff.1 hhead
  rfl

/-- Which classes are common has nothing to do with the order of the versions. -/
theorem firstCommon?_perm (hperm : d.Perm d') (e : Version × Inheritance) :
    d.firstCommon? h e = d'.firstCommon? h e := by
  have hcommon : common (d.chains h) = common (d'.chains h) :=
    funext fun _ ↦ (hperm.map _).all_eq
  rw [firstCommon?, firstCommon?, hcommon]

theorem Complete.perm (hcomplete : d.Complete h) (hperm : d.Perm d') : d'.Complete h :=
  fun e he ↦ hcomplete e (hperm.mem_iff.2 he)

/-- Complete chains have the root in common. -/
theorem common_object (hcomplete : d.Complete h) : common (d.chains h) .object = true :=
  mem_common_iff.2 fun e he ↦ Hierarchy.isTruncated_eq_false_iff.1 (hcomplete e he)

/-- Each version has a first common class. -/
theorem exists_firstCommon? (hcomplete : d.Complete h) (he : e ∈ d) :
    ∃ c, d.firstCommon? h e = some c := by
  have hobject : ClassName.object ∈ h.chain e.1 e.2.superclass :=
    List.mem_of_getLast? (Hierarchy.leadsTo_chain (hcomplete e he)).getLast?
  exact Option.isSome_iff_exists.1
    (List.find?_isSome.2 ⟨.object, hobject, common_object hcomplete⟩)

/-- A superclass on which all versions agree is the first common class of each. -/
theorem firstCommon?_eq_of_agree (he : e ∈ d) (hsame : ∀ e' ∈ d, e'.2.superclass = c) :
    d.firstCommon? h e = some c := by
  have hcommon : common (d.chains h) c = true := mem_common_iff.2 fun e' he' ↦ by
    rw [hsame e' he']
    exact .refl
  obtain ⟨rest, hrest⟩ := Chain.exists_walk_eq_cons (h.above? e.1) h.size [] c
  rw [firstCommon?, hsame e he, Hierarchy.chain, hrest, List.find?_cons_of_pos hcommon]

/-- **The physical superclass is what the first version finds.** -/
theorem physicalSuper_of_head? (cls : ClassName) (hd : (d.map (·.1)).Nodup)
    (hcomplete : d.Complete h) (hhead : d.head? = some e) :
    ∃ c, d.firstCommon? h e = some c ∧ d.physicalSuper h cls none = .ok c := by
  have he : e ∈ d := List.mem_of_head? hhead
  obtain ⟨c, hc⟩ := exists_firstCommon? hcomplete he
  refine ⟨c, hc, ?_⟩
  unfold physicalSuper
  split
  · rename_i hnil
    have hsuper := superclass_mem_distinctSupers hd he
    rw [hnil] at hsuper
    exact absurd hsuper List.not_mem_nil
  · -- one superclass, on which all versions agree
    rename_i c' hone
    have hsame : ∀ e' ∈ d, e'.2.superclass = c' := fun e' he' ↦
      superclass_eq_of_distinctSupers hd hone he'
    rw [firstCommon?_eq_of_agree he hsame] at hc
    rw [Option.some.inj hc]
  · exact absurd ‹none = some _› (Option.some_ne_none _).symm
  · rw [commonAncestor_eq_of_complete hcomplete, deepestCommon_of_head? hhead, hc, Option.getD_some]

end Declared

section Table

variable {d d' : Declared} {h : Hierarchy} {e : Version × Inheritance}

/-- The table to which complete chains are reconciled. -/
theorem reconcileInheritance_of_head? (cls : ClassName) (hd : (d.map (·.1)).Nodup)
    (hcomplete : d.Complete h) (hhead : d.head? = some e) :
    ∃ c r, d.firstCommon? h e = some c ∧ reconcileInheritance h cls none d = .ok r ∧
      r.table = .ofDeclared ⟨c, d.physicalInterfaces⟩ d := by
  obtain ⟨c, hc, hsuper⟩ := Declared.physicalSuper_of_head? cls hd hcomplete hhead
  exact ⟨c, _, hc, reconcileInheritance_eq_ok.2 ⟨c, hsuper, rfl⟩, rfl⟩

/-- No version at all leaves nothing to put into an order. -/
theorem reconcileInheritance_nil (h : Hierarchy) (cls : ClassName) :
    reconcileInheritance h cls none [] = .ok ⟨.ofDeclared ⟨.object, []⟩ [], []⟩ := rfl

/-- **Whichever version is put in front**, its first class makes the table of all. -/
theorem reconcileInheritance_of_perm (cls : ClassName) (hd : (d.map (·.1)).Nodup)
    (hcomplete : d.Complete h) (hperm : d.Perm d') (hhead : d'.head? = some e) :
    ∃ c r, d.firstCommon? h e = some c ∧ reconcileInheritance h cls none d' = .ok r ∧
      r.table = .ofDeclared ⟨c, d.physicalInterfaces⟩ d := by
  have hd' : (d'.map (·.1)).Nodup := (hperm.map _).nodup_iff.1 hd
  obtain ⟨c, r, hc, hr, htable⟩ :=
    reconcileInheritance_of_head? cls hd' (hcomplete.perm hperm) hhead
  refine ⟨c, r, (Declared.firstCommon?_perm hperm e).trans hc, hr, ?_⟩
  rw [htable, ← Declared.physicalInterfaces_congr hperm]
  exact (Versioned.ofDeclared_congr (OrderedMap.functional_of_nodup hd) fun _ ↦
    hperm.mem_iff).symm

/-- The table of a version in front tells the class that it finds first. -/
theorem firstCommon?_of_table_eq {cls : ClassName} {r : Reconciled} (hd : (d.map (·.1)).Nodup)
    (hcomplete : d.Complete h) (he : e ∈ d)
    (hsame : ∀ d' r', d.Perm d' → reconcileInheritance h cls none d' = .ok r' →
      r.table = r'.table) : d.firstCommon? h e = some r.table.physical.superclass := by
  obtain ⟨c, r', hc, hr', htable⟩ :=
    reconcileInheritance_of_perm cls hd hcomplete (List.perm_cons_erase he) rfl
  rw [hc, hsame _ r' (List.perm_cons_erase he) hr', htable]
  rfl

/-- Versions that find the same class first have one table, whichever of them is in front. -/
theorem table_eq_of_firstCommon? {cls : ClassName} {r r' : Reconciled}
    (hd : (d.map (·.1)).Nodup) (hcomplete : d.Complete h) (hperm : d.Perm d')
    (hsame : ∀ e ∈ d, ∀ e' ∈ d, d.firstCommon? h e = d.firstCommon? h e')
    (hr : reconcileInheritance h cls none d = .ok r)
    (hr' : reconcileInheritance h cls none d' = .ok r') : r.table = r'.table := by
  cases d with
  | nil =>
    obtain rfl := List.nil_perm.1 hperm
    rw [Except.ok.inj (hr.symm.trans hr')]
  | cons e rest =>
    obtain ⟨e', rest', rfl⟩ := List.exists_cons_of_ne_nil fun hnil : d' = [] ↦
      List.cons_ne_nil e rest (hnil ▸ hperm).eq_nil
    obtain ⟨c, r₁, hc, hr₁, htable⟩ :=
      reconcileInheritance_of_perm cls hd hcomplete (.refl _) rfl
    obtain ⟨c', r₂, hc', hr₂, htable'⟩ := reconcileInheritance_of_perm cls hd hcomplete hperm rfl
    rw [hsame e List.mem_cons_self e' (hperm.mem_iff.2 List.mem_cons_self), hc'] at hc
    rw [Except.ok.inj (hr.symm.trans hr₁), Except.ok.inj (hr'.symm.trans hr₂), htable, htable',
      Option.some.inj hc]

/-- **Complete chains are reconciled in every order, and to one table exactly if all versions find
the same class first.** The superclass is what the version in front finds; the interfaces never
depend on the order. -/
theorem table_order_irrelevant_iff (cls : ClassName) (hd : (d.map (·.1)).Nodup)
    (hcomplete : d.Complete h) :
    (∀ d', d.Perm d' → ∃ r, reconcileInheritance h cls none d' = .ok r ∧
      r.table.physical.interfaces = d.physicalInterfaces ∧
      ∀ e, d'.head? = some e → d.firstCommon? h e = some r.table.physical.superclass) ∧
    ((∀ d' r r', d.Perm d' → reconcileInheritance h cls none d = .ok r →
        reconcileInheritance h cls none d' = .ok r' → r.table = r'.table) ↔
      ∀ e ∈ d, ∀ e' ∈ d, d.firstCommon? h e = d.firstCommon? h e') := by
  have hany : ∀ d', d.Perm d' → ∃ r, reconcileInheritance h cls none d' = .ok r ∧
      r.table.physical.interfaces = d.physicalInterfaces ∧
      ∀ e, d'.head? = some e → d.firstCommon? h e = some r.table.physical.superclass := by
    intro d' hperm
    cases hhead : d'.head? with
    | none =>
      obtain rfl := List.head?_eq_none_iff.1 hhead
      obtain rfl := List.perm_nil.1 hperm
      exact ⟨_, reconcileInheritance_nil h cls, rfl, fun _ h ↦ nomatch h⟩
    | some e =>
      obtain ⟨c, r, hc, hr, htable⟩ :=
        reconcileInheritance_of_perm cls hd hcomplete hperm hhead
      refine ⟨r, hr, by rw [htable]; rfl, fun e' he' ↦ ?_⟩
      rw [← Option.some.inj he', hc, htable]
      rfl
  refine ⟨hany, fun hsame e he e' he' ↦ ?_, fun hsame d' r r' hperm hr hr' ↦
    table_eq_of_firstCommon? hd hcomplete hperm hsame hr hr'⟩
  obtain ⟨r, hr, -, -⟩ := hany d (.refl d)
  have hfirst : ∀ e ∈ d, d.firstCommon? h e = some r.table.physical.superclass := fun e he ↦
    firstCommon?_of_table_eq hd hcomplete he fun d' r' hperm hr' ↦ hsame d' r r' hperm hr hr'
  rw [hfirst e he, hfirst e' he']

/-! ### Versions that cross -/

/-- Two versions of a class, each with another superclass. -/
def crossedReleases : Declared := [(⟨"a"⟩, ⟨⟨"x/P"⟩, []⟩), (⟨"b"⟩, ⟨⟨"x/Q"⟩, []⟩)]

/-- Superclasses that the first version has in one order and the second in the other. -/
def crossedSupers : Hierarchy :=
  (((Hierarchy.empty.insert ⟨"a"⟩ ⟨"x/P"⟩ ⟨"x/Q"⟩).insert ⟨"a"⟩ ⟨"x/Q"⟩ .object).insert
    ⟨"b"⟩ ⟨"x/Q"⟩ ⟨"x/P"⟩).insert ⟨"b"⟩ ⟨"x/P"⟩ .object

theorem table_order_irrelevant_iff_crossedReleases :
    ¬ ∀ d' r r', crossedReleases.Perm d' →
      reconcileInheritance crossedSupers ⟨"x/C"⟩ none crossedReleases = .ok r →
      reconcileInheritance crossedSupers ⟨"x/C"⟩ none d' = .ok r' → r.table = r'.table := by
  have hiff := (table_order_irrelevant_iff (d := crossedReleases) (h := crossedSupers) ⟨"x/C"⟩
    (by decide) (by decide +kernel)).2
  intro hsame
  have hfirst := hiff.1 hsame (⟨"a"⟩, ⟨⟨"x/P"⟩, []⟩) (by decide) (⟨"b"⟩, ⟨⟨"x/Q"⟩, []⟩) (by decide)
  exact absurd hfirst (by decide +kernel)

/-- **The superclass of two complete chains that cross depends on the order of the versions.** -/
theorem crossed_supers_depend_on_order :
    (crossedReleases.map (·.1)).Nodup ∧ crossedReleases.Complete crossedSupers ∧
      (reconcileInheritance crossedSupers ⟨"x/C"⟩ none crossedReleases).toOption.map (·.table) =
        some ⟨⟨⟨"x/P"⟩, []⟩, .ofList [(⟨"b"⟩, ⟨⟨"x/Q"⟩, []⟩)]⟩ ∧
      (reconcileInheritance crossedSupers ⟨"x/C"⟩ none crossedReleases.reverse).toOption.map
        (·.table) = some ⟨⟨⟨"x/Q"⟩, []⟩, .ofList [(⟨"a"⟩, ⟨⟨"x/P"⟩, []⟩)]⟩ := by
  refine ⟨by decide, ?_, ?_, ?_⟩
  · decide +kernel
  · decide +kernel
  · decide +kernel

end Table

end ClassWeave
