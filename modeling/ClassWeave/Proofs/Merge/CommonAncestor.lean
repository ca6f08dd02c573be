import ClassWeave.Proofs.Merge.FirstCommon

/-!
# The superclass that all versions share

Where the versions of a class disagree on its superclass, and none is pinned, they get a class that
they all extend (`superclass_common_and_deepest`): the root, or a class that every version reaches
from its own superclass on. Where the hierarchy knows every chain up to the root and the versions
never contradict each other, there is no deeper one: whatever else they all extend, the class that
they get extends too.

A chain that ends before the root leaves the answer in doubt, and the answer is accepted only if it
is the superclass of some version itself. That is enough, whatever the unknown part of the hierarchy
looks like (`reconcileInheritance_of_containedIn`). Suppose that more is known, and a class below
the old answer turns out to be common. It stands before the answer on the chain of the first
version, and the version whose superclass the answer is reaches it from there: a cycle.
-/

namespace ClassWeave

namespace Declared

variable {d : Declared} {h h' : Hierarchy} {cls c : ClassName} {pinned : Option ClassName}

/-! ### A common ancestor -/

theorem reaches_of_mem_firstCommon? {e : Version × Inheritance}
    (hc : d.firstCommon? h e = some c) : ∀ e ∈ d, h.Reaches e.1 e.2.superclass c :=
  mem_common_iff.1 (List.find?_some hc)

/-- The deepest common class is the root if it is not common. -/
theorem deepestCommon_chains (d : Declared) (h : Hierarchy) :
    deepestCommon (d.chains h) = .object ∨
      ∀ e ∈ d, h.Reaches e.1 e.2.superclass (deepestCommon (d.chains h)) := by
  cases hhead : d.head? with
  | none =>
    obtain rfl := List.head?_eq_none_iff.1 hhead
    exact .inl rfl
  | some e =>
    rw [deepestCommon_of_head? hhead]
    cases hc : d.firstCommon? h e with
    | none => exact .inl rfl
    | some c => exact .inr (reaches_of_mem_firstCommon? hc)

theorem commonAncestor_eq (h : Hierarchy) (cls : ClassName) (d : Declared) :
    d.commonAncestor h cls =
      if (d.chains h).all (fun l ↦ !Hierarchy.isTruncated l) ||
          d.supers.values.contains (deepestCommon (d.chains h)) then
        .ok (deepestCommon (d.chains h))
      else .error (.ambiguousInheritance cls d.supers) := rfl

/-- An answer that is accepted is the deepest common class. -/
theorem commonAncestor_eq_ok : d.commonAncestor h cls = .ok c ↔
    (d.Complete h ∨ c ∈ d.supers.values) ∧ c = deepestCommon (d.chains h) := by
  have hcomplete : ((d.chains h).all fun l ↦ !Hierarchy.isTruncated l) = true ↔ d.Complete h := by
    simp only [chains, List.all_map, List.all_eq_true, Function.comp_apply, Bool.not_eq_true',
      Complete]
  rw [commonAncestor_eq]
  split
  · rename_i haccept
    rw [Bool.or_eq_true, List.contains_iff_mem] at haccept
    rw [Except.ok.injEq, eq_comm]
    refine ⟨?_, And.right⟩
    rintro rfl
    exact ⟨haccept.imp_left hcomplete.1, rfl⟩
  · rename_i hreject
    refine iff_of_false ?_ ?_
    · intro hok
      cases hok
    · rintro ⟨haccept, rfl⟩
      rw [Bool.or_eq_true, List.contains_iff_mem] at hreject
      exact hreject (haccept.imp_left hcomplete.2)

/-- **The superclass of all versions is the root, or above each of them.** -/
theorem common_of_physicalSuper (hd : (d.map (·.1)).Nodup)
    (hc : d.physicalSuper h cls none = .ok c) :
    c = .object ∨ ∀ e ∈ d, h.Reaches e.1 e.2.superclass c := by
  unfold physicalSuper at hc
  split at hc
  · exact .inl (Except.ok.inj hc).symm
  · -- one superclass, on which all versions agree
    rename_i hone
    cases hc
    refine .inr fun e he ↦ ?_
    rw [superclass_eq_of_distinctSupers hd hone he]
    exact .refl
  · exact absurd ‹none = some _› (Option.some_ne_none _).symm
  · obtain ⟨-, rfl⟩ := commonAncestor_eq_ok.1 hc
    exact deepestCommon_chains d h

/-! ### The deepest one -/

/-- What is common to a chain stands behind the first common class of it. -/
theorem reaches_of_firstCommon? {e : Version × Inheritance} {b : ClassName} (he : e ∈ d)
    (hc : d.firstCommon? h e = some c) (hb : ∀ e ∈ d, h.Reaches e.1 e.2.superclass b) :
    h.Reaches e.1 c b := by
  obtain ⟨before, after, hsplit⟩ := List.append_of_mem (Hierarchy.mem_chain_iff.2 (hb e he))
  rw [firstCommon?, hsplit] at hc
  obtain ⟨rest, hrest, hsuffix⟩ := Chain.exists_suffix_of_find? (mem_common_iff.2 hb) hc
  rw [← hsplit] at hrest
  exact Hierarchy.reaches_of_suffix hrest (hsuffix.subset List.mem_cons_self)

/-- **No class that all versions extend is deeper**, where chains are complete and agree. -/
theorem deepest_of_physicalSuper (hd : (d.map (·.1)).Nodup) (hagree : h.Agrees)
    (hcomplete : d.Complete h) (hc : d.physicalSuper h cls none = .ok c) {b : ClassName}
    (hb : ∀ e ∈ d, h.Reaches e.1 e.2.superclass b) {e : Version × Inheritance} (he : e ∈ d) :
    h.Reaches e.1 c b := by
  obtain ⟨first, rest, rfl⟩ := List.exists_cons_of_ne_nil (List.ne_nil_of_mem he)
  obtain ⟨c', hfirst, hc'⟩ := physicalSuper_of_head? cls hd hcomplete rfl
  obtain rfl : c = c' := Except.ok.inj (hc.symm.trans hc')
  have hfind : firstCommon? (first :: rest) h e = some c :=
    (find?_common_chains hagree hcomplete he List.mem_cons_self).trans hfirst
  exact reaches_of_firstCommon? he hfind hb

/-! ### More of the hierarchy -/

/-- **The first common class stays the first when more becomes known**, if it is the superclass of
some version. -/
theorem firstCommon?_of_containedIn (hsub : h.ContainedIn h') (hacyclic : h'.Acyclic)
    {first e : Version × Inheritance} (he : e ∈ d) (hdirect : e.2.superclass = c)
    (hc : d.firstCommon? h first = some c) : d.firstCommon? h' first = some c := by
  have hcommon := reaches_of_mem_firstCommon? hc
  obtain ⟨-, before, after, hsplit, -⟩ := List.find?_eq_some_iff_append.1 hc
  obtain ⟨more, hmore⟩ := Hierarchy.chain_prefix hsub first.1 first.2.superclass
  rw [hsplit, List.append_assoc] at hmore
  have hcommon' : common (d.chains h') c = true := mem_common_iff.2 fun e he ↦
    (hcommon e he).of_containedIn hsub
  refine List.find?_eq_some_iff_append.2 ⟨hcommon', before, after ++ more, hmore.symm, ?_⟩
  intro b hb
  rw [Bool.not_eq_true', Bool.eq_false_iff]
  intro hcommon_b
  -- the version whose superclass is `c` goes from `c` to `b`, the first one from `b` to `c`
  have hup : h'.Reaches e.1 c b := hdirect ▸ mem_common_iff.1 hcommon_b e he
  have hchain : (before ++ c :: (after ++ more)).IsChain fun a b ↦ h'.above? first.1 a = some b :=
    hmore ▸ Chain.isChain_walk (h'.above? first.1) h'.size [] first.2.superclass
  have hdown : Relation.TransGen h'.Rises b c :=
    Relation.TransGen.mono (fun _ _ hstep ↦ ⟨first.1, hstep⟩) b c
      (Chain.transGen_of_isChain hchain hb)
  exact hacyclic b (hdown.trans_left hup.rises)

/-- **The deepest common class stays what it is when more becomes known**, if it is the superclass
of some version. -/
theorem deepestCommon_of_containedIn (hsub : h.ContainedIn h') (hacyclic : h'.Acyclic)
    {e : Version × Inheritance} (he : e ∈ d)
    (hdirect : e.2.superclass = deepestCommon (d.chains h)) :
    deepestCommon (d.chains h') = deepestCommon (d.chains h) := by
  obtain ⟨first, rest, hd⟩ := List.exists_cons_of_ne_nil (List.ne_nil_of_mem he)
  have hhead : d.head? = some first := by rw [hd, List.head?_cons]
  rw [deepestCommon_of_head? hhead] at hdirect ⊢
  rw [deepestCommon_of_head? hhead]
  cases hc : d.firstCommon? h first with
  | some c =>
    rw [hc, Option.getD_some] at hdirect
    rw [firstCommon?_of_containedIn hsub hacyclic he hdirect hc]
  | none =>
    -- some version extends the root, and above the root there is nothing to be common
    rw [hc, Option.getD_none] at hdirect
    cases hc' : d.firstCommon? h' first with
    | none => rfl
    | some b =>
      have hb := reaches_of_mem_firstCommon? hc' e he
      rw [hdirect] at hb
      rw [Option.getD_some, Option.getD_none, Hierarchy.eq_object_of_reaches hb]

/-- **An answer that is accepted stays the answer when more becomes known.** -/
theorem commonAncestor_of_containedIn (hd : (d.map (·.1)).Nodup) (hsub : h.ContainedIn h')
    (hacyclic : h'.Acyclic) (hc : d.commonAncestor h cls = .ok c) :
    d.commonAncestor h' cls = .ok c := by
  obtain ⟨haccept, rfl⟩ := commonAncestor_eq_ok.1 hc
  rcases haccept with hcomplete | hdirect
  · have hchains : d.chains h' = d.chains h := List.map_congr_left fun e he ↦
      Hierarchy.chain_eq_of_complete hsub (hcomplete e he)
    have hcomplete' : d.Complete h' := fun e he ↦ by
      rw [Hierarchy.chain_eq_of_complete hsub (hcomplete e he)]
      exact hcomplete e he
    exact commonAncestor_eq_ok.2 ⟨.inl hcomplete', by rw [hchains]⟩
  · obtain ⟨e, he, hsuper⟩ := (mem_values_supers hd).1 hdirect
    exact commonAncestor_eq_ok.2 ⟨.inr hdirect,
      (deepestCommon_of_containedIn hsub hacyclic he hsuper).symm⟩

/-- The hierarchy has a say in the superclass only where the versions disagree on it and none is
pinned. -/
theorem physicalSuper_of_commonAncestor
    (hanswer : d.commonAncestor h cls = .ok c → d.commonAncestor h' cls = .ok c)
    (hc : d.physicalSuper h cls pinned = .ok c) : d.physicalSuper h' cls pinned = .ok c := by
  unfold physicalSuper at hc ⊢
  split at hc
  · exact hc
  · exact hc
  · exact hc
  · exact hanswer hc

end Declared

section Reconciled

variable {d : Declared} {h h' : Hierarchy} {cls : ClassName} {pinned : Option ClassName}
  {r : Reconciled}

/-- **Versions get a superclass that they all extend, and no deeper one exists** where the hierarchy
knows every chain up to the root and the versions do not contradict each other. Without that, the
class may be the root although some chain is not known to get there. -/
theorem superclass_common_and_deepest (hd : (d.map (·.1)).Nodup)
    (hr : reconcileInheritance h cls none d = .ok r) :
    (r.table.physical.superclass = .object ∨
      ∀ e ∈ d, h.Reaches e.1 e.2.superclass r.table.physical.superclass) ∧
    ((∀ e ∈ d, h.Reaches e.1 e.2.superclass .object) → h.Agrees →
      ∀ c, (∀ e ∈ d, h.Reaches e.1 e.2.superclass c) →
        ∀ e ∈ d, h.Reaches e.1 r.table.physical.superclass c) := by
  obtain ⟨c, hc, rfl⟩ := reconcileInheritance_eq_ok.1 hr
  refine ⟨Declared.common_of_physicalSuper hd hc, fun hroot hagree b hb e he ↦ ?_⟩
  have hcomplete : d.Complete h := fun e he ↦ Hierarchy.isTruncated_eq_false_iff.2 (hroot e he)
  exact Declared.deepest_of_physicalSuper hd hagree hcomplete hc hb he

/-- Two releases whose superclasses differ and have one superclass themselves. -/
def forkedSupers : Hierarchy :=
  (((Hierarchy.empty.insert ⟨"a"⟩ ⟨"x/P"⟩ ⟨"x/R"⟩).insert ⟨"a"⟩ ⟨"x/R"⟩ .object).insert
    ⟨"b"⟩ ⟨"x/Q"⟩ ⟨"x/R"⟩).insert ⟨"b"⟩ ⟨"x/R"⟩ .object

theorem superclass_common_and_deepest_forkedSupers :
    ∃ r, reconcileInheritance forkedSupers ⟨"x/C"⟩ none crossedReleases = .ok r ∧
      r.table.physical.superclass = ⟨"x/R"⟩ ∧
      (∀ e ∈ crossedReleases, forkedSupers.Reaches e.1 e.2.superclass ⟨"x/R"⟩) ∧
      ∀ c, (∀ e ∈ crossedReleases, forkedSupers.Reaches e.1 e.2.superclass c) →
        ∀ e ∈ crossedReleases, forkedSupers.Reaches e.1 ⟨"x/R"⟩ c := by
  obtain ⟨r, hr⟩ := Outcome.exists_eq_ok
    (x := reconcileInheritance forkedSupers ⟨"x/C"⟩ none crossedReleases) (by decide +kernel)
  have hsuper : r.table.physical.superclass = ⟨"x/R"⟩ := by
    have hok : (reconcileInheritance forkedSupers ⟨"x/C"⟩ none crossedReleases).toOption.map
        (·.table.physical.superclass) = some ⟨"x/R"⟩ := by decide +kernel
    rw [hr] at hok
    exact Option.some.inj hok
  have hroot : crossedReleases.Complete forkedSupers := by decide +kernel
  obtain ⟨hcommon, hdeepest⟩ := superclass_common_and_deepest (by decide) hr
  rw [hsuper] at hcommon hdeepest
  exact ⟨r, hr, hsuper, hcommon.resolve_left (by decide),
    hdeepest (fun e he ↦ Hierarchy.isTruncated_eq_false_iff.1 (hroot e he)) (by decide +kernel)⟩

/-- **Learning more of the hierarchy never changes an accepted answer.** What is learnt may complete
the chains in any way that makes no class stand above itself; the versions need not even agree. -/
theorem reconcileInheritance_of_containedIn (hd : (d.map (·.1)).Nodup) (hsub : h.ContainedIn h')
    (hacyclic : h'.Acyclic) (hr : reconcileInheritance h cls pinned d = .ok r) :
    reconcileInheritance h' cls pinned d = .ok r := by
  obtain ⟨c, hc, hresult⟩ := reconcileInheritance_eq_ok.1 hr
  have hc' : d.physicalSuper h' cls pinned = .ok c :=
    Declared.physicalSuper_of_commonAncestor
      (Declared.commonAncestor_of_containedIn hd hsub hacyclic) hc
  exact reconcileInheritance_eq_ok.2 ⟨c, hc', hresult⟩

/-- What is known of the superclasses: one of them extends the other. -/
def knownSupers : Hierarchy := Hierarchy.empty.insert ⟨"a"⟩ ⟨"x/P"⟩ ⟨"x/Q"⟩

/-- The same, and how the other one goes on. -/
def learntSupers : Hierarchy :=
  ((knownSupers.insert ⟨"a"⟩ ⟨"x/Q"⟩ ⟨"x/R"⟩).insert ⟨"b"⟩ ⟨"x/Q"⟩ ⟨"x/R"⟩).insert
    ⟨"b"⟩ ⟨"x/R"⟩ .object

theorem reconcileInheritance_of_containedIn_learntSupers :
    ¬ crossedReleases.Complete knownSupers ∧ knownSupers.ContainedIn learntSupers ∧
      learntSupers.Acyclic ∧
      ∃ r, reconcileInheritance knownSupers ⟨"x/C"⟩ none crossedReleases = .ok r ∧
        reconcileInheritance learntSupers ⟨"x/C"⟩ none crossedReleases = .ok r := by
  have hsub : knownSupers.ContainedIn learntSupers := by decide +kernel
  have hacyclic : learntSupers.Acyclic := by
    refine Hierarchy.acyclic_of_height
      (fun c ↦ if c = ⟨"x/P"⟩ then 0 else if c = ⟨"x/Q"⟩ then 1 else if c = ⟨"x/R"⟩ then 2 else 3)
      ?_
    decide +kernel
  obtain ⟨r, hr⟩ := Outcome.exists_eq_ok
    (x := reconcileInheritance knownSupers ⟨"x/C"⟩ none crossedReleases) (by decide +kernel)
  exact ⟨by decide +kernel, hsub, hacyclic, r, hr,
    reconcileInheritance_of_containedIn (by decide) hsub hacyclic hr⟩

end Reconciled

end ClassWeave
