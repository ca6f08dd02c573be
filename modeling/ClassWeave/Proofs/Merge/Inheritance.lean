import ClassWeave.Merge.Inheritance
import ClassWeave.Proofs.Merge.Access
import ClassWeave.Proofs.Merge.Hierarchy
import ClassWeave.Proofs.Names
import ClassWeave.Proofs.Ordered.Set
import ClassWeave.Proofs.Outcome

/-!
# Inheritance and the order of the versions

What reconciling makes of the declared inheritances depends on their *set*, with one exception: the
deepest common class is searched along the chain of the first version. The search finds the same
class on every chain as soon as the versions never contradict each other about a superclass
(`Hierarchy.Agrees`) and every chain is complete. `Declared.Settled` collects the three situations
in which no order is left to matter, and `physicalSuper_congr` is the result for all of them.

Interfaces and overrides are sets of entries; bridges are made for a list without repetitions, so a
change of the order permutes them (`bridged_perm`).
-/

namespace ClassWeave

namespace Declared

variable {d d' : Declared} {h : Hierarchy} {cls c : ClassName} {pinned : Option ClassName}

/-! ### The declared superclasses -/

theorem functional_supers (hd : (d.map (·.1)).Nodup) :
    OrderedMap.Functional (d.map fun e ↦ (e.1, e.2.superclass)) :=
  (OrderedMap.functional_of_nodup hd).map Inheritance.superclass

theorem mem_values_supers (hd : (d.map (·.1)).Nodup) :
    c ∈ d.supers.values ↔ ∃ e ∈ d, e.2.superclass = c := by
  rw [OrderedMap.mem_values]
  simp only [supers, OrderedMap.get?_ofList (functional_supers hd), List.mem_map, Prod.mk.injEq]
  constructor
  · rintro ⟨v, e, he, -, hc⟩
    exact ⟨e, he, hc⟩
  · rintro ⟨e, he, hc⟩
    exact ⟨e.1, e, he, rfl, hc⟩

theorem supers_congr (hd : (d.map (·.1)).Nodup) (hperm : d.Perm d') : d.supers = d'.supers :=
  OrderedMap.ofList_congr (functional_supers hd) fun _ ↦ (hperm.map _).mem_iff

theorem distinctSupers_congr (hd : (d.map (·.1)).Nodup) (hperm : d.Perm d') :
    d.distinctSupers = d'.distinctSupers := by
  rw [distinctSupers, distinctSupers, supers_congr hd hperm]

theorem superclass_mem_distinctSupers (hd : (d.map (·.1)).Nodup) {e : Version × Inheritance}
    (he : e ∈ d) : e.2.superclass ∈ d.distinctSupers.toList :=
  OrderedSet.mem_toList_ofList.2 ((mem_values_supers hd).2 ⟨e, he, rfl⟩)

/-- A superclass that is the only one is that of each version. -/
theorem superclass_eq_of_distinctSupers (hd : (d.map (·.1)).Nodup)
    (hone : d.distinctSupers.toList = [c]) {e : Version × Inheritance} (he : e ∈ d) :
    e.2.superclass = c := by
  have hsuper := superclass_mem_distinctSupers hd he
  rw [hone] at hsuper
  exact List.mem_singleton.1 hsuper

/-- Superclasses that all agree are one at most. -/
theorem length_distinctSupers_le_one (hd : (d.map (·.1)).Nodup)
    (hsame : ∀ e ∈ d, ∀ e' ∈ d, e.2.superclass = e'.2.superclass) :
    d.distinctSupers.toList.length ≤ 1 := by
  have hmem : ∀ c ∈ d.distinctSupers.toList, ∃ e ∈ d, e.2.superclass = c := fun c hc ↦
    (mem_values_supers hd).1 (OrderedSet.mem_toList_ofList.1 hc)
  have hnodup := d.distinctSupers.nodup_toList
  cases hlist : d.distinctSupers.toList with
  | nil => exact Nat.zero_le _
  | cons a l =>
    cases l with
    | nil => exact Nat.le_refl _
    | cons b l =>
      rw [hlist] at hmem hnodup
      obtain ⟨e, he, rfl⟩ := hmem a List.mem_cons_self
      obtain ⟨e', he', rfl⟩ := hmem b (List.mem_cons_of_mem _ List.mem_cons_self)
      rw [hsame e he e' he'] at hnodup
      exact absurd List.mem_cons_self (List.nodup_cons.1 hnodup).1

/-! ### The deepest common class -/

/-- Whether a class lies on all chains. -/
def common (chains : List (List ClassName)) (c : ClassName) : Bool := chains.all (·.contains c)

theorem deepestCommon_cons (first : List ClassName) (rest : List (List ClassName)) :
    deepestCommon (first :: rest) = (first.find? (common (first :: rest))).getD .object := rfl

/-- If a search for a common class finds the same one on each chain, the chains may be permuted. -/
theorem deepestCommon_perm {chains chains' : List (List ClassName)}
    (hfind : ∀ l ∈ chains, ∀ l' ∈ chains, l.find? (common chains) = l'.find? (common chains))
    (hperm : chains.Perm chains') : deepestCommon chains = deepestCommon chains' := by
  have hcommon : common chains = common chains' := funext fun _ ↦ hperm.all_eq
  cases chains with
  | nil => rw [List.nil_perm.1 hperm]
  | cons l chains =>
    cases chains' with
    | nil => exact absurd hperm.symm (List.not_perm_nil_cons _ _)
    | cons l' chains' =>
      have hl' : l' ∈ l :: chains := hperm.mem_iff.2 List.mem_cons_self
      rw [deepestCommon_cons, deepestCommon_cons, ← hcommon, hfind l List.mem_cons_self l' hl']

/-- The superclass chain of each version. -/
def chains (d : Declared) (h : Hierarchy) : List (List ClassName) :=
  d.map fun e ↦ h.chain e.1 e.2.superclass

/-- A class is common if every version reaches it from its superclass on. -/
theorem mem_common_iff :
    common (d.chains h) c = true ↔ ∀ e ∈ d, h.Reaches e.1 e.2.superclass c := by
  simp only [common, chains, List.all_map, List.all_eq_true, Function.comp_apply,
    List.contains_iff_mem, Hierarchy.mem_chain_iff]

/-- The hierarchy knows every chain up to the root. -/
def Complete (d : Declared) (h : Hierarchy) : Prop :=
  ∀ e ∈ d, Hierarchy.isTruncated (h.chain e.1 e.2.superclass) = false

instance (d : Declared) (h : Hierarchy) : Decidable (d.Complete h) :=
  inferInstanceAs (Decidable (∀ _ ∈ _, _))

/-- **Complete chains that agree have the same class as their first common one.** -/
theorem find?_common_chains (hagree : h.Agrees) (hcomplete : d.Complete h)
    {e e' : Version × Inheritance} (he : e ∈ d) (he' : e' ∈ d) :
    (h.chain e.1 e.2.superclass).find? (common (d.chains h)) =
      (h.chain e'.1 e'.2.superclass).find? (common (d.chains h)) := by
  refine Chain.find?_eq_of_agree ?_ (h.above?_object e.1) (h.above?_object e'.1)
    (Hierarchy.leadsTo_chain (hcomplete e he)) (Hierarchy.leadsTo_chain (hcomplete e' he')) ?_
  · intro a b b' hb hb'
    exact hagree _ _ _ _ _ (Hierarchy.superOf?_of_above? hb) (Hierarchy.superOf?_of_above? hb')
  · intro c hc
    have hall := mem_common_iff.1 hc
    exact ⟨Hierarchy.mem_chain_iff.2 (hall e he), Hierarchy.mem_chain_iff.2 (hall e' he')⟩

/-- **The deepest common class of complete chains that agree does not depend on their order.** -/
theorem deepestCommon_chains_congr (hagree : h.Agrees) (hcomplete : d.Complete h)
    (hperm : d.Perm d') : deepestCommon (d.chains h) = deepestCommon (d'.chains h) := by
  refine deepestCommon_perm (fun l hl l' hl' ↦ ?_) (hperm.map _)
  obtain ⟨e, he, rfl⟩ := List.mem_map.1 hl
  obtain ⟨e', he', rfl⟩ := List.mem_map.1 hl'
  exact find?_common_chains hagree hcomplete he he'

theorem commonAncestor_eq_of_complete (hcomplete : d.Complete h) :
    d.commonAncestor h cls = .ok (deepestCommon (d.chains h)) := by
  have hall : (d.chains h).all fun c ↦ !Hierarchy.isTruncated c := by
    rw [List.all_eq_true]
    intro l hl
    obtain ⟨e, he, rfl⟩ := List.mem_map.1 hl
    rw [hcomplete e he]
    rfl
  refine if_pos ?_
  rw [Bool.or_eq_true]
  exact .inl hall

/-- What leaves the order of the versions no say in the superclass: that they agree on it, that it
is pinned, or that the hierarchy is free of contradictions and knows every chain up to the root. -/
def Settled (h : Hierarchy) (pinned : Option ClassName) (d : Declared) : Prop :=
  (∀ e ∈ d, ∀ e' ∈ d, e.2.superclass = e'.2.superclass) ∨ pinned.isSome ∨
    h.Agrees ∧ d.Complete h

/-- **A settled superclass does not depend on the order of the versions.** -/
theorem physicalSuper_congr (hd : (d.map (·.1)).Nodup) (hsettled : d.Settled h pinned)
    (hperm : d.Perm d') : d.physicalSuper h cls pinned = d'.physicalSuper h cls pinned := by
  unfold physicalSuper
  rw [← distinctSupers_congr hd hperm]
  split
  · rfl
  · rfl
  · rfl
  · -- several superclasses, none of them pinned
    rename_i hnil hone
    rcases hsettled with hsame | hpinned | ⟨hagree, hcomplete⟩
    · have hlength := length_distinctSupers_le_one hd hsame
      match hlist : d.distinctSupers.toList with
      | [] => exact absurd hlist hnil
      | [c] => exact absurd hlist (hone c)
      | a :: b :: l =>
        rw [hlist] at hlength
        exact absurd hlength (by simp)
    · cases hpinned
    · have hcomplete' : d'.Complete h := fun e he ↦ hcomplete e (hperm.mem_iff.2 he)
      rw [commonAncestor_eq_of_complete hcomplete, commonAncestor_eq_of_complete hcomplete',
        deepestCommon_chains_congr hagree hcomplete hperm]

/-! ### Interfaces and bridges -/

/-- **The physical interfaces do not depend on the order of the versions.** -/
theorem physicalInterfaces_congr (hperm : d.Perm d') :
    d.physicalInterfaces = d'.physicalInterfaces := by
  cases d with
  | nil => rw [List.nil_perm.1 hperm]
  | cons e d =>
    cases d' with
    | nil => exact absurd hperm.symm (List.not_perm_nil_cons _ _)
    | cons e' d' =>
      have he' : e' ∈ e :: d := hperm.mem_iff.2 List.mem_cons_self
      have hunion : OrderedSet.ofList ((e :: d).flatMap (·.2.interfaces)) =
          OrderedSet.ofList ((e' :: d').flatMap (·.2.interfaces)) :=
        OrderedSet.ofList_congr fun _ ↦ (hperm.flatMap_right _).mem_iff
      rw [physicalInterfaces, physicalInterfaces, hunion, hperm.all_eq]
      -- the versions are compared with the first of them, but agree with it only if all agree
      by_cases hall : (e' :: d').all (·.2.interfaces = e.2.interfaces)
      · have hsame : e'.2.interfaces = e.2.interfaces := by
          simpa using List.all_eq_true.1 hall e' List.mem_cons_self
        rw [hsame]
      · have hall' : ¬ (e' :: d').all (·.2.interfaces = e'.2.interfaces) := by
          intro hsame
          have he : e.2.interfaces = e'.2.interfaces := by
            simpa using List.all_eq_true.1 hsame e (hperm.mem_iff.1 List.mem_cons_self)
          rw [he] at hall
          exact hall hsame
        rw [if_neg hall, if_neg hall']

/-- **The physical interfaces are those that some version declares.** -/
theorem mem_physicalInterfaces : c ∈ d.physicalInterfaces ↔ ∃ e ∈ d, c ∈ e.2.interfaces := by
  cases d with
  | nil => simp [physicalInterfaces]
  | cons e d =>
    rw [physicalInterfaces]
    split
    · rename_i hall
      constructor
      · intro hc
        exact ⟨e, List.mem_cons_self, hc⟩
      · rintro ⟨e', he', hc⟩
        have hsame : e'.2.interfaces = e.2.interfaces := by
          simpa using List.all_eq_true.1 hall e' he'
        rwa [← hsame]
    · rw [OrderedSet.mem_toList_ofList, List.mem_flatMap]

/-- The declarations whose superclass needs a bridge. -/
def needed (physical : ClassName) (d : Declared) : Declared :=
  d.filter fun e ↦ e.2.superclass ≠ physical && !e.2.superclass.isObject

/-- The versions that give the class a superclass, among those that need a bridge to it. -/
def bridgeVersions (physical : ClassName) (d : Declared) (c : ClassName) : VersionSet :=
  .ofList (((d.needed physical).filter (·.2.superclass = c)).map (·.1))

theorem bridged_eq (physical : ClassName) (d : Declared) : d.bridged physical =
    ((d.needed physical).map (·.2.superclass)).eraseDups.map
      fun c ↦ (c, d.bridgeVersions physical c) := rfl

/-- A bridge serves the versions whose superclass it leads to. -/
theorem mem_bridgeVersions {physical : ClassName} {v : Version} :
    v ∈ d.bridgeVersions physical c ↔
      ∃ i, (v, i) ∈ d ∧ i.superclass = c ∧ c ≠ physical ∧ c.isObject = false := by
  rw [bridgeVersions, OrderedSet.mem_ofList, List.mem_map]
  simp only [needed, List.mem_filter, Bool.and_eq_true, decide_eq_true_iff, Bool.not_eq_true',
    Prod.exists]
  constructor
  · rintro ⟨w, i, ⟨⟨hi, hphysical, hobject⟩, rfl⟩, rfl⟩
    exact ⟨i, hi, rfl, hphysical, hobject⟩
  · rintro ⟨i, hi, rfl, hphysical, hobject⟩
    exact ⟨v, i, ⟨⟨hi, hphysical, hobject⟩, rfl⟩, rfl⟩

/-- There is a bridge to each superclass that some version needs one for. -/
theorem mem_supers_needed {physical : ClassName} :
    c ∈ ((d.needed physical).map (·.2.superclass)).eraseDups ↔
      ∃ v, v ∈ d.bridgeVersions physical c := by
  simp only [List.mem_eraseDups, bridgeVersions, OrderedSet.mem_ofList, List.mem_map,
    List.mem_filter, decide_eq_true_iff]
  constructor
  · rintro ⟨e, he, hs⟩
    exact ⟨e.1, e, ⟨he, hs⟩, rfl⟩
  · rintro ⟨-, e, ⟨he, hs⟩, -⟩
    exact ⟨e, he, hs⟩

/-- There are no bridges but those to superclasses of versions. -/
theorem exists_mem_bridgeVersions {physical : ClassName} {b : ClassName × VersionSet}
    (hb : b ∈ d.bridged physical) :
    b.2 = d.bridgeVersions physical b.1 ∧ ∃ v, v ∈ d.bridgeVersions physical b.1 := by
  rw [bridged_eq] at hb
  obtain ⟨s, hs, rfl⟩ := List.mem_map.1 hb
  exact ⟨rfl, mem_supers_needed.1 hs⟩

/-- A list without its repetitions is without repetitions. -/
theorem nodup_eraseDups (l : List ClassName) : l.eraseDups.Nodup := by
  induction h : l.length using Nat.strong_induction_on generalizing l with
  | _ n ih =>
    cases l with
    | nil => exact List.nodup_nil
    | cons a l =>
      have hlength : (l.filter fun b ↦ !b == a).length < n := by
        rw [← h, List.length_cons]
        exact Nat.lt_succ_of_le (List.length_filter_le _ _)
      rw [List.eraseDups_cons, List.nodup_cons, List.mem_eraseDups, List.mem_filter]
      exact ⟨fun hmem ↦ by simp at hmem, ih _ hlength _ rfl⟩

/-- **The order of the versions permutes the bridges.** -/
theorem bridged_perm (physical : ClassName) (hperm : d.Perm d') :
    (d.bridged physical).Perm (d'.bridged physical) := by
  have hneeded : (d.needed physical).Perm (d'.needed physical) := hperm.filter _
  have hversions : ∀ c, d.bridgeVersions physical c = d'.bridgeVersions physical c := fun c ↦
    OrderedSet.ofList_congr fun _ ↦ ((hneeded.filter _).map _).mem_iff
  rw [bridged_eq, bridged_eq]
  simp only [hversions]
  refine List.Perm.map _ ((List.perm_ext_iff_of_nodup (nodup_eraseDups _) (nodup_eraseDups _)).2 ?_)
  intro c
  rw [List.mem_eraseDups, List.mem_eraseDups, (hneeded.map _).mem_iff]

end Declared

/-! ### The result -/

section Reconcile

variable {d d' : Declared} {h : Hierarchy} {cls : ClassName} {pinned : Option ClassName}
  {r : Reconciled}

/-- Reconciling fails only for want of a superclass. -/
theorem reconcileInheritance_eq_ok :
    reconcileInheritance h cls pinned d = .ok r ↔
      ∃ c, d.physicalSuper h cls pinned = .ok c ∧
        r = ⟨.ofDeclared ⟨c, d.physicalInterfaces⟩ d,
          (d.bridged c).map fun b ↦ .bridge b.1 b.2⟩ := by
  rw [reconcileInheritance, Outcome.bind_eq_ok]
  refine exists_congr fun c ↦ and_congr_right fun _ ↦ ?_
  rw [Except.ok.injEq, eq_comm]
  rfl

/-- **No two bridges share a key.** There is one for each class, whose descriptor it has. -/
theorem nodup_keys_bridges (hr : reconcileInheritance h cls pinned d = .ok r) :
    (r.bridges.map (·.key)).Nodup := by
  obtain ⟨c, -, rfl⟩ := reconcileInheritance_eq_ok.1 hr
  have hclasses : ((d.bridged c).map (·.1)).Nodup := by
    rw [Declared.bridged_eq, List.map_map, Function.comp_def, List.map_id']
    exact Declared.nodup_eraseDups _
  rw [List.map_map, List.nodup_map_iff_inj_on (List.Nodup.of_map _ hclasses)]
  intro a ha b hb hkey
  have hdesc : "()" ++ a.1.descriptor = "()" ++ b.1.descriptor := congrArg MemberKey.desc hkey
  have hlist := congrArg String.toList hdesc
  rw [String.toList_append, String.toList_append] at hlist
  refine List.inj_on_of_nodup_map hclasses ha hb (ClassName.descriptor_inj ?_)
  exact String.toList_inj.1 (List.append_cancel_left hlist)

/-- What reconciling fails with. -/
theorem eq_of_reconcileInheritance_eq_error {e : MergeError}
    (he : reconcileInheritance h cls pinned d = .error e) :
    e = .ambiguousInheritance cls d.supers := by
  rcases Outcome.bind_eq_error.1 he with he | ⟨c, -, he⟩
  · unfold Declared.physicalSuper Declared.commonAncestor at he
    split at he
    · cases he
    · cases he
    · cases he
    · -- several superclasses, none of them pinned
      dsimp only at he
      split at he
      · cases he
      · cases he
        rfl
  · cases he

/-- **Reconciling a settled inheritance, up to the order of the bridges, does not depend on the
order of the versions.** -/
theorem reconcileInheritance_perm (hd : (d.map (·.1)).Nodup) (hsettled : d.Settled h pinned)
    (hperm : d.Perm d') (hr : reconcileInheritance h cls pinned d = .ok r) :
    ∃ r', reconcileInheritance h cls pinned d' = .ok r' ∧ r.table = r'.table ∧
      r.bridges.Perm r'.bridges := by
  obtain ⟨c, hc, rfl⟩ := reconcileInheritance_eq_ok.1 hr
  rw [Declared.physicalSuper_congr hd hsettled hperm] at hc
  refine ⟨_, reconcileInheritance_eq_ok.2 ⟨c, hc, rfl⟩, ?_, (Declared.bridged_perm c hperm).map _⟩
  rw [Declared.physicalInterfaces_congr hperm]
  exact Versioned.ofDeclared_congr (OrderedMap.functional_of_nodup hd) fun _ ↦ hperm.mem_iff

end Reconcile

end ClassWeave
