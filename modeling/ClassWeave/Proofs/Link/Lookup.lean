import ClassWeave.Link.Basic
import ClassWeave.Proofs.Chain
import ClassWeave.Proofs.Ordered.Map

/-!
# Where a redirect is looked up

A redirect that is on record for a class also holds for its subclasses, as far as they inherit the
member. So the look-up starts at the owner of a call site and follows the superclasses that the
target gives it; it stops at a class that declares the member, that the target does not have, or
that was passed before. Constructors are looked up on their owner alone.

The look-up of the linker collects the classes first, with a bound on their number, and then tries
them. `Search` is the look-up class by class, without a bound. That it ends for every index, cyclic
or not, and always with the answer of the linker, is `search_iff`. The bound is the number of classes
of the index, and a class that is passed has a view and is therefore one of them
(`mem_keys_of_above?`); so the classes are a walk that no bound has ended, and along such a walk the
look-up is the search (`search_redirectOn?`). Which class it ends at is said by its distance from the
owner (`RedirectedOn`, `search_some_iff`). The two together are the main statement,
`redirectFor?_follows_superclasses`.
-/

namespace ClassWeave.Linker

variable {l : Linker} {s site : CallSite} {insn replacement : Insn} {c d : ClassName}
  {passed : List ClassName} {o o' : Option (CallSite × Insn)} {k : ℕ}

/-! ### The superclasses of a class -/

/-- The class that so many steps along the superclasses of the target lead to. -/
def ancestor? (l : Linker) (c : ClassName) : ℕ → Option ClassName
  | 0 => some c
  | k + 1 => (l.ancestor? c k).bind l.above?

/-- The first step may be taken apart as well as the last one. -/
theorem ancestor?_succ (l : Linker) (c : ClassName) (k : ℕ) :
    l.ancestor? c (k + 1) = (l.above? c).bind (l.ancestor? · k) := by
  induction k with
  | zero => exact (Option.bind_fun_some _).symm
  | succ k ih =>
    rw [ancestor?, ih, Option.bind_assoc]
    rfl

/-- A class that the search for a redirect passes: no redirect is on record for it, and the target
has the class and does not declare the member there. -/
structure LooksPast (l : Linker) (s : CallSite) (c : ClassName) : Prop where
  unlisted : l.redirects.get? { s with owner := c } = none
  undeclared : ∃ view, l.index.view? c l.target = some view ∧
    ∀ m ∈ view.members, ¬ (m.name = s.name ∧ m.desc = s.desc ∧ m.kind = s.usage.kind)

/-- The redirect of a site is the one on record `k` superclasses above a class: the first that is
found on the way, where the way is passed without coming to a class twice. -/
structure RedirectedOn (l : Linker) (s : CallSite) (c : ClassName) (k : ℕ) (site : CallSite)
    (replacement : Insn) : Prop where
  owner : l.ancestor? c k = some site.owner
  site_eq : site = { s with owner := site.owner }
  listed : l.redirects.get? site = some replacement
  /-- Constructors are not inherited. -/
  construction : s.name = constructorName → k = 0
  passes : ∀ i < k, ∃ d, l.ancestor? c i = some d ∧ l.LooksPast s d
  distinct : ∀ i < k, ∀ j < i, l.ancestor? c i ≠ l.ancestor? c j

/-! ### The search without a bound -/

/-- The search for the redirect of a site, which has come to a class and has passed others. -/
inductive Search (l : Linker) (s : CallSite) :
    List ClassName → ClassName → Option (CallSite × Insn) → Prop where
  | found {passed : List ClassName} {c : ClassName} {replacement : Insn}
      (hget : l.redirects.get? { s with owner := c } = some replacement) :
      Search l s passed c (some ({ s with owner := c }, replacement))
  | construction {passed : List ClassName} {c : ClassName}
      (hget : l.redirects.get? { s with owner := c } = none) (hname : s.name = constructorName) :
      Search l s passed c none
  | again {passed : List ClassName} {c : ClassName}
      (hget : l.redirects.get? { s with owner := c } = none) (hmem : c ∈ passed) :
      Search l s passed c none
  | absent {passed : List ClassName} {c : ClassName}
      (hget : l.redirects.get? { s with owner := c } = none)
      (hview : l.index.view? c l.target = none) : Search l s passed c none
  | declared {passed : List ClassName} {c : ClassName} {view : ClassView}
      (hget : l.redirects.get? { s with owner := c } = none)
      (hview : l.index.view? c l.target = some view)
      (hdeclared : ∃ m ∈ view.members, m.name = s.name ∧ m.desc = s.desc ∧
        m.kind = s.usage.kind) : Search l s passed c none
  | step {passed : List ClassName} {c : ClassName} {view : ClassView}
      {o : Option (CallSite × Insn)} (hpast : l.LooksPast s c)
      (hname : s.name ≠ constructorName) (hmem : c ∉ passed)
      (hview : l.index.view? c l.target = some view)
      (hrest : Search l s (c :: passed) view.superclass o) : Search l s passed c o

/-- Where the search passes a class it does not end there. -/
theorem Search.exists_of_looksPast (h : l.Search s passed c o) (hpast : l.LooksPast s c)
    (hname : s.name ≠ constructorName) (hmem : c ∉ passed) :
    ∃ view, l.index.view? c l.target = some view ∧
      l.Search s (c :: passed) view.superclass o := by
  obtain ⟨hunlisted, view, hview, hundeclared⟩ := hpast
  cases h with
  | found hget =>
    rw [hunlisted] at hget
    cases hget
  | construction _ hname' => exact absurd hname' hname
  | again _ hmem' => exact absurd hmem' hmem
  | absent _ hview' =>
    rw [hview] at hview'
    cases hview'
  | declared _ hview' hdeclared =>
    cases hview.symm.trans hview'
    obtain ⟨m, hm, hsite⟩ := hdeclared
    exact absurd hsite (hundeclared m hm)
  | step _ _ _ hview' hrest => exact ⟨_, hview', hrest⟩

/-- Where the search finds no redirect and does not go on, there is none. -/
theorem Search.eq_none (h : l.Search s passed c o)
    (hget : l.redirects.get? { s with owner := c } = none)
    (hstop : s.name = constructorName ∨ c ∈ passed ∨ ¬ l.LooksPast s c) : o = none := by
  cases h with
  | found hget' =>
    rw [hget] at hget'
    cases hget'
  | construction => rfl
  | again => rfl
  | absent => rfl
  | declared => rfl
  | step hpast hname hmem => exact absurd hpast (hstop.resolve_left hname |>.resolve_left hmem)

/-- **The search has no more than one answer.** -/
theorem Search.unique (h : l.Search s passed c o) (h' : l.Search s passed c o') : o = o' := by
  induction h with
  | found hget =>
    cases h' with
    | found hget' => rw [Option.some.inj (hget.symm.trans hget')]
    | construction hget' | again hget' | absent hget' | declared hget' =>
      rw [hget] at hget'
      cases hget'
    | step hpast =>
      rw [hpast.unlisted] at hget
      cases hget
  | construction hget hname => exact (h'.eq_none hget (.inl hname)).symm
  | again hget hmem => exact (h'.eq_none hget (.inr (.inl hmem))).symm
  | absent hget hview =>
    refine (h'.eq_none hget (.inr (.inr ?_))).symm
    rintro ⟨-, view, hview', -⟩
    rw [hview] at hview'
    cases hview'
  | declared hget hview hdeclared =>
    refine (h'.eq_none hget (.inr (.inr ?_))).symm
    rintro ⟨-, view, hview', hundeclared⟩
    cases hview.symm.trans hview'
    obtain ⟨m, hm, hsite⟩ := hdeclared
    exact hundeclared m hm hsite
  | step hpast hname hmem hview _ ih =>
    obtain ⟨view, hview', hrest⟩ := h'.exists_of_looksPast hpast hname hmem
    cases hview.symm.trans hview'
    exact ih hrest

/-! ### The look-up of the linker -/

theorem declares_eq_true {view : ClassView} (hview : l.index.view? c l.target = some view) :
    l.declares s c = true ↔ ∃ m ∈ view.members, m.name = s.name ∧ m.desc = s.desc ∧
      m.kind = s.usage.kind := by
  simp only [declares, hview, Option.any_some, List.any_eq_true, Bool.and_eq_true,
    decide_eq_true_iff, and_assoc]

/-- A class with a view is one of the index. -/
theorem mem_keys_of_above? (h : l.above? c = some d) : c ∈ l.index.classes.keys := by
  obtain ⟨view, hview, -⟩ := Option.map_eq_some_iff.1 h
  obtain ⟨merged, hmerged, -⟩ := Option.bind_eq_some_iff.1 hview
  exact OrderedMap.mem_keys.2 ⟨merged, hmerged⟩

/-- **Step**: the look-up is through with a class as the search is, if it goes on as the search does
after a class that it looks past. -/
theorem search_redirectOn?_cons {cs : List ClassName}
    (hrest : l.redirects.get? { s with owner := c } = none → l.declares s c = false →
      l.Search s passed c (l.redirectOn? s cs)) :
    l.Search s passed c (l.redirectOn? s (c :: cs)) := by
  rw [redirectOn?]
  cases hget : l.redirects.get? { s with owner := c } with
  | some replacement => exact .found hget
  | none =>
    dsimp only
    cases hdeclares : l.declares s c with
    | false => exact hrest hget hdeclares
    | true =>
      cases hview : l.index.view? c l.target with
      | none => exact .absent hget hview
      | some view => exact .declared hget hview ((declares_eq_true hview).1 hdeclares)

/-- **A look-up along a walk is the search**, if no redirect is on record for the classes that were
passed. -/
theorem search_redirectOn? (hname : s.name ≠ constructorName) {cs : List ClassName}
    (hwalk : Chain.IsWalk l.above? passed c cs)
    (hunlisted : ∀ d ∈ passed, l.redirects.get? { s with owner := d } = none) :
    l.Search s passed c (l.redirectOn? s cs) := by
  have hpast : ∀ {c view}, l.index.view? c l.target = some view →
      l.redirects.get? { s with owner := c } = none → l.declares s c = false →
      l.LooksPast s c := fun hview hget hdeclares ↦ by
    refine ⟨hget, _, hview, fun m hm hsite ↦ ?_⟩
    rw [(declares_eq_true hview).2 ⟨m, hm, hsite⟩] at hdeclares
    cases hdeclares
  induction hwalk with
  | last hlast =>
    exact search_redirectOn?_cons fun hget _ ↦ .absent hget (Option.map_eq_none_iff.1 hlast)
  | @again passed c d hnew hnext hpassed =>
    obtain ⟨view, hview, rfl⟩ := Option.map_eq_some_iff.1 hnext
    refine search_redirectOn?_cons fun hget hdeclares ↦
      .step (hpast hview hget hdeclares) hname hnew hview ?_
    -- the walk does not go on to a class that was passed, the search does and stops there
    have hall : ∀ d ∈ c :: passed, l.redirects.get? { s with owner := d } = none :=
      List.forall_mem_cons.2 ⟨hget, hunlisted⟩
    exact .again (hall _ hpassed) hpassed
  | step hnew hnext hfresh hrest ih =>
    obtain ⟨view, hview, rfl⟩ := Option.map_eq_some_iff.1 hnext
    refine search_redirectOn?_cons fun hget hdeclares ↦
      .step (hpast hview hget hdeclares) hname hnew hview (ih ?_)
    exact List.forall_mem_cons.2 ⟨hget, hunlisted⟩

/-- **The search ends for every index, with the answer of the linker.** -/
theorem search_iff (hsite : insn.site? = some s) :
    l.Search s [] s.owner o ↔ o = l.redirectFor? insn := by
  have hanswer : l.Search s [] s.owner (l.redirectFor? insn) := by
    rw [redirectFor?, hsite]
    show l.Search s [] s.owner
      (l.redirectOn? s (if s.name = constructorName then [s.owner] else l.ownerChain s.owner))
    by_cases hname : s.name = constructorName
    · rw [if_pos hname]
      exact search_redirectOn?_cons fun hget _ ↦ .construction hget hname
    · rw [if_neg hname]
      have hwalk : Chain.IsWalk l.above? [] s.owner (l.ownerChain s.owner) :=
        Chain.isWalk_walk (fun _ _ ↦ mem_keys_of_above?) (List.length_map _).le
      exact search_redirectOn? hname hwalk (List.forall_mem_nil _)
  exact ⟨fun h ↦ h.unique hanswer, fun h ↦ h ▸ hanswer⟩

/-! ### Where it ends -/

/-- One superclass further up from the superclass is one more from the class. -/
theorem redirectedOn_succ_iff {view : ClassView} (hview : l.index.view? c l.target = some view) :
    l.RedirectedOn s c (k + 1) site replacement ↔
      s.name ≠ constructorName ∧ l.LooksPast s c ∧
        l.RedirectedOn s view.superclass k site replacement ∧
        ∀ i < k, l.ancestor? view.superclass i ≠ some c := by
  have habove : l.above? c = some view.superclass := by rw [above?, hview]; rfl
  have hsucc : ∀ i, l.ancestor? c (i + 1) = l.ancestor? view.superclass i := fun i ↦ by
    rw [ancestor?_succ, habove, Option.bind_some]
  constructor
  · rintro ⟨howner, hsite, hlisted, hname, hpasses, hdistinct⟩
    obtain ⟨d, hd, hpast⟩ := hpasses 0 (Nat.succ_pos k)
    obtain rfl : c = d := Option.some.inj hd
    refine ⟨fun h ↦ Nat.succ_ne_zero k (hname h), hpast,
      ⟨hsucc k ▸ howner, hsite, hlisted, fun h ↦ absurd (hname h) (Nat.succ_ne_zero k),
        fun i hi ↦ hsucc i ▸ hpasses (i + 1) (Nat.succ_lt_succ hi), fun i hi j hj ↦ ?_⟩,
      fun i hi ↦ ?_⟩
    · rw [← hsucc i, ← hsucc j]
      exact hdistinct _ (Nat.succ_lt_succ hi) _ (Nat.succ_lt_succ hj)
    · rw [← hsucc i]
      exact hdistinct _ (Nat.succ_lt_succ hi) 0 (Nat.succ_pos i)
  · rintro ⟨hname, hpast, ⟨howner, hsite, hlisted, -, hpasses, hdistinct⟩, hnot⟩
    refine ⟨(hsucc k).trans howner, hsite, hlisted, fun h ↦ absurd h hname, fun i hi ↦ ?_,
      fun i hi j hj ↦ ?_⟩
    · cases i with
      | zero => exact ⟨c, rfl, hpast⟩
      | succ i => exact hsucc i ▸ hpasses i (Nat.lt_of_succ_lt_succ hi)
    · cases i with
      | zero => exact absurd hj (Nat.not_lt_zero j)
      | succ i =>
        rw [hsucc i]
        cases j with
        | zero => exact hnot i (Nat.lt_of_succ_lt_succ hi)
        | succ j =>
          rw [hsucc j]
          exact hdistinct i (Nat.lt_of_succ_lt_succ hi) j (Nat.lt_of_succ_lt_succ hj)

/-- **The search finds the redirect of the first superclass that has one**, if none of those that
were passed before is on the way there. -/
theorem search_some_iff : l.Search s passed c (some (site, replacement)) ↔
    ∃ k, l.RedirectedOn s c k site replacement ∧
      ∀ i < k, ∀ d ∈ passed, l.ancestor? c i ≠ some d := by
  constructor
  · intro h
    generalize ho : some (site, replacement) = o at h
    induction h with
    | found hget =>
      cases ho
      exact ⟨0, ⟨rfl, rfl, hget, fun _ ↦ rfl, fun _ hi ↦ absurd hi (Nat.not_lt_zero _),
        fun _ hi ↦ absurd hi (Nat.not_lt_zero _)⟩, fun _ hi ↦ absurd hi (Nat.not_lt_zero _)⟩
    | construction => cases ho
    | again => cases ho
    | absent => cases ho
    | declared => cases ho
    | @step passed c view o hpast hname hmem hview _ ih =>
      obtain ⟨k, hredirected, hnot⟩ := ih ho
      refine ⟨k + 1, (redirectedOn_succ_iff hview).2 ⟨hname, hpast, hredirected,
        fun i hi ↦ hnot i hi c List.mem_cons_self⟩, fun i hi d hd ↦ ?_⟩
      cases i with
      | zero =>
        rintro heq
        obtain rfl : c = d := Option.some.inj heq
        exact hmem hd
      | succ i =>
        rw [ancestor?_succ, above?, hview]
        exact hnot i (Nat.lt_of_succ_lt_succ hi) d (List.mem_cons_of_mem _ hd)
  · rintro ⟨k, h, hnot⟩
    induction k generalizing passed c with
    | zero =>
      obtain rfl : c = site.owner := Option.some.inj h.owner
      have hlisted := h.listed
      rw [h.site_eq] at hlisted ⊢
      exact .found hlisted
    | succ k ih =>
      obtain ⟨d, hd, -, view, hview, -⟩ := h.passes 0 (Nat.succ_pos k)
      obtain rfl : c = d := Option.some.inj hd
      obtain ⟨hname, hpast, hrest, hself⟩ := (redirectedOn_succ_iff hview).1 h
      have hmem : c ∉ passed := fun hc ↦ hnot 0 (Nat.succ_pos k) c hc rfl
      refine .step hpast hname hmem hview (ih hrest fun i hi d hd ↦ ?_)
      rcases List.mem_cons.1 hd with rfl | hd
      · exact hself i hi
      · have hne := hnot (i + 1) (Nat.succ_lt_succ hi) d hd
        rwa [ancestor?_succ, above?, hview] at hne

/-- **The look-up of a redirect follows the superclasses of the target.** It gives the redirect on
record for the first of them that has one, up to a class that declares the member, that does not
exist or that was passed before, and for a constructor the one of the owner alone; and the search
class by class ends for every index, with this answer. -/
theorem redirectFor?_follows_superclasses (l : Linker) (insn : Insn) :
    (∀ site replacement, l.redirectFor? insn = some (site, replacement) ↔
      ∃ s k, insn.site? = some s ∧ l.RedirectedOn s s.owner k site replacement) ∧
    ∀ s, insn.site? = some s → ∀ o, l.Search s [] s.owner o ↔ o = l.redirectFor? insn := by
  refine ⟨fun site replacement ↦ ?_, fun s hsite o ↦ search_iff hsite⟩
  cases hsite : insn.site? with
  | none =>
    have hnone : l.redirectFor? insn = none := by
      rw [redirectFor?, hsite]
      rfl
    rw [hnone]
    refine iff_of_false (fun h ↦ nomatch h) ?_
    rintro ⟨s, k, h, -⟩
    cases h
  | some s =>
    rw [eq_comm, ← search_iff hsite, search_some_iff]
    constructor
    · rintro ⟨k, h, -⟩
      exact ⟨s, k, rfl, h⟩
    · rintro ⟨s', k, h, hredirected⟩
      cases h
      exact ⟨k, hredirected, fun _ _ _ hd ↦ absurd hd List.not_mem_nil⟩

/-- A class without members. -/
def bareClass (cls superclass : String) : ClassTree where
  name := ⟨cls⟩
  access := .publicAccess
  superclass := ⟨superclass⟩

/-- Two classes, each of which extends the other one. A redirect is on record for the second. -/
def loopLinker : Linker where
  index := .ofList ([bareClass "x/A" "x/B", bareClass "x/B" "x/A"].map
    (MergedClass.universal · (.ofList [⟨"a"⟩])))
  redirects := .ofList [⟨⟨⟨"x/B"⟩, "run", "()V", .call⟩,
    .member (.invoke .static) ⟨"x/Compat"⟩ "run" "(Lx/B;)V"⟩]
  target := ⟨"a"⟩

theorem redirectFor?_follows_superclasses_loop :
    (∃ s k, (Insn.member (.invoke .virtual) ⟨"x/A"⟩ "run" "()V").site? = some s ∧
      loopLinker.RedirectedOn s s.owner k ⟨⟨"x/B"⟩, "run", "()V", .call⟩
        (.member (.invoke .static) ⟨"x/Compat"⟩ "run" "(Lx/B;)V")) ∧
      (Insn.member (.invoke .virtual) ⟨"x/A"⟩ "stop" "()V").site? =
          some ⟨⟨"x/A"⟩, "stop", "()V", .call⟩ ∧
        loopLinker.Search ⟨⟨"x/A"⟩, "stop", "()V", .call⟩ [] ⟨"x/A"⟩ none := by
  obtain ⟨hrun, -⟩ := redirectFor?_follows_superclasses loopLinker
    (.member (.invoke .virtual) ⟨"x/A"⟩ "run" "()V")
  obtain ⟨-, hstop⟩ := redirectFor?_follows_superclasses loopLinker
    (.member (.invoke .virtual) ⟨"x/A"⟩ "stop" "()V")
  exact ⟨(hrun _ _).1 (by decide +kernel), rfl, (hstop _ rfl none).2 (by decide +kernel)⟩

end ClassWeave.Linker
