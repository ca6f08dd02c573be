import ClassWeave.Proofs.Link.Leaks

/-!
# Where a member is missing

The verifier looks for a member on the superclasses that the target gives the owner, in their order.
It ends with the first class that is not in the index or that it has met before, and for a
constructor after the owner (`OnChain`). A member leaks if it is declared there and never for the
target.

The check collects the classes first, with a bound on their number, and asks all of them.
`LeakSearch` is the same search class by class: it ends early where the target declares the member,
and remembers otherwise whether there was a declaration at all. That it ends for every index, cyclic
or not, and with the verdict of the check, is `leakSearch_iff`; the two accounts together are
`isMemberLeak_follows_superclasses`.
-/

namespace ClassWeave

/-- The key of a constructor, which is not inherited. -/
def MemberKey.IsConstructor (key : MemberKey) : Prop :=
  key.kind = .method ∧ key.name = constructorName

namespace MergedIndex

variable {i : MergedIndex} {target : Version} {key : MemberKey} {owner c : ClassName}
  {found leak leak' : Bool} {passed : List ClassName} {k : ℕ}

/-! ### The chain of an owner -/

/-- The class `k` superclasses above the owner is one that the search comes to. -/
structure OnChain (i : MergedIndex) (target : Version) (owner : ClassName) (key : MemberKey)
    (k : ℕ) (c : ClassName) : Prop where
  reached : Chain.after? (i.above? target) owner k = some c
  indexed : (i.get? c).isSome
  /-- No class before it, nor the class itself, repeats an earlier one. -/
  distinct : ∀ j ≤ k, ∀ j' < j,
    Chain.after? (i.above? target) owner j' ≠ Chain.after? (i.above? target) owner j
  construction : key.IsConstructor → k = 0

/-- The class has a member of that declared name, descriptor and kind. -/
def Declares (i : MergedIndex) (key : MemberKey) (c : ClassName) (m : MergedMember) : Prop :=
  ∃ merged, i.get? c = some merged ∧ m ∈ merged.members ∧ m.declaredKey = key

theorem mem_declared_iff {m : MergedMember} : m ∈ i.declared key c ↔ i.Declares key c m := by
  simp only [mem_declared, MergedClass.declared, List.mem_filter, decide_eq_true_iff, Declares]

theorem memberChain_of_constructor (h : key.IsConstructor) :
    i.memberChain target owner key = [owner] := if_pos h

theorem memberChain_of_inherited (h : ¬ key.IsConstructor) :
    i.memberChain target owner key = Chain.walk (i.above? target) i.size [] owner := if_neg h

/-- **The classes of the index on which a member is looked up are those of the chain.** -/
theorem mem_memberChain_iff (hc : (i.get? c).isSome) :
    c ∈ i.memberChain target owner key ↔ ∃ k, i.OnChain target owner key k c := by
  constructor
  · intro hmem
    by_cases hinit : key.IsConstructor
    · rw [memberChain_of_constructor hinit, List.mem_singleton] at hmem
      subst hmem
      refine ⟨0, rfl, hc, fun j hj j' hj' ↦ ?_, fun _ ↦ rfl⟩
      exact absurd (Nat.lt_of_lt_of_le hj' hj) (Nat.not_lt_zero j')
    · obtain ⟨k, hk, hdistinct⟩ := Chain.exists_after?_distinct
        (Chain.reaches_iff.1 (reaches_of_mem_memberChain hmem))
      exact ⟨k, hk, hc, hdistinct, fun h ↦ absurd h hinit⟩
  · rintro ⟨k, h⟩
    refine mem_memberChain ?_
    split
    · rename_i hinit
      have hreached := h.reached
      rw [h.construction hinit] at hreached
      exact (Option.some.inj hreached).symm
    · exact Chain.reaches_iff.2 ⟨k, h.reached⟩

/-- **A member leaks if a class of the chain declares it and none does for the target.** -/
theorem isMemberLeak_iff_onChain : i.isMemberLeak target owner key = true ↔
    (∃ k c m, i.OnChain target owner key k c ∧ i.Declares key c m) ∧
      ∀ k c m, i.OnChain target owner key k c → i.Declares key c m →
        target ∉ m.declaredVersions := by
  have hon : ∀ m, i.DeclaredOn (i.memberChain target owner key) key m ↔
      ∃ k c, i.OnChain target owner key k c ∧ i.Declares key c m := by
    intro m
    constructor
    · rintro ⟨c, hc, hdeclared⟩
      have hdeclares : i.Declares key c m := mem_declared_iff.1 (mem_declared.2 hdeclared)
      obtain ⟨merged, hget, -⟩ := hdeclared
      obtain ⟨k, hk⟩ := (mem_memberChain_iff (hget ▸ rfl)).1 hc
      exact ⟨k, c, hk, hdeclares⟩
    · rintro ⟨k, c, hk, hdeclares⟩
      exact ⟨c, (mem_memberChain_iff hk.indexed).2 ⟨k, hk⟩,
        mem_declared.1 (mem_declared_iff.2 hdeclares)⟩
  rw [isMemberLeak_iff]
  refine and_congr ?_ ?_
  · simp only [hon]
    exact ⟨fun ⟨m, k, c, h⟩ ↦ ⟨k, c, m, h⟩, fun ⟨k, c, m, h⟩ ↦ ⟨m, k, c, h⟩⟩
  · simp only [hon, MergedMember.inVersion, decide_eq_false_iff_not]
    exact ⟨fun h k c m hk hm ↦ h m ⟨k, c, hk, hm⟩, fun h m ⟨k, c, hk, hm⟩ ↦ h k c m hk hm⟩

/-! ### The search without a bound -/

/-- Whether the target declares the member in one of the classes of the index. -/
def declaresIn (i : MergedIndex) (target : Version) (key : MemberKey) (c : ClassName) : Bool :=
  (i.declared key c).any (·.inVersion target)

/-- Whether the member is declared in the class for any version. -/
def declaresAny (i : MergedIndex) (key : MemberKey) (c : ClassName) : Bool :=
  !(i.declared key c).isEmpty

/-- The search for a missing member, which has come to a class, has passed others and has found
declarations for other versions there, or none. -/
inductive LeakSearch (i : MergedIndex) (target : Version) (key : MemberKey) :
    Bool → List ClassName → ClassName → Bool → Prop where
  | platform {found : Bool} {passed : List ClassName} {c : ClassName} (hget : i.get? c = none) :
      LeakSearch i target key found passed c found
  | again {found : Bool} {passed : List ClassName} {c : ClassName} (hget : (i.get? c).isSome)
      (hmem : c ∈ passed) : LeakSearch i target key found passed c found
  | declared {found : Bool} {passed : List ClassName} {c : ClassName} (hget : (i.get? c).isSome)
      (hmem : c ∉ passed) (hin : i.declaresIn target key c = true) :
      LeakSearch i target key found passed c false
  | construction {found : Bool} {passed : List ClassName} {c : ClassName}
      (hget : (i.get? c).isSome) (hmem : c ∉ passed) (hin : i.declaresIn target key c = false)
      (hinit : key.IsConstructor) :
      LeakSearch i target key found passed c (found || i.declaresAny key c)
  | step {found leak : Bool} {passed : List ClassName} {c d : ClassName}
      (habove : i.above? target c = some d) (hmem : c ∉ passed)
      (hin : i.declaresIn target key c = false) (hinit : ¬ key.IsConstructor)
      (hrest : LeakSearch i target key (found || i.declaresAny key c) (c :: passed) d leak) :
      LeakSearch i target key found passed c leak

/-- **The search has no more than one verdict.** -/
theorem LeakSearch.unique (h : i.LeakSearch target key found passed c leak)
    (h' : i.LeakSearch target key found passed c leak') : leak = leak' := by
  induction h with
  | platform hget => cases h' <;> grind [isSome_of_above?]
  | again hget hmem => cases h' <;> grind
  | declared hget hmem hin => cases h' <;> grind
  | construction hget hmem hin hinit => cases h' <;> grind
  | step habove hmem hin hinit hrest ih => cases h' <;> grind [isSome_of_above?]

/-! ### The verdict of the check -/

/-- The verdict on classes that were collected, where others were searched before. -/
def verdict (i : MergedIndex) (target : Version) (key : MemberKey) (found : Bool)
    (cs : List ClassName) : Bool :=
  (found || cs.any (i.declaresAny key)) && cs.all (!i.declaresIn target key ·)

theorem verdict_nil : i.verdict target key found [] = found := by
  rw [verdict, List.any_nil, List.all_nil, Bool.or_false, Bool.and_true]

/-- The first of the classes settles it or is searched like those before. -/
theorem verdict_cons {cs : List ClassName} : i.verdict target key found (c :: cs) =
    (!i.declaresIn target key c && i.verdict target key (found || i.declaresAny key c) cs) := by
  rw [verdict, verdict, List.any_cons, List.all_cons, Bool.or_assoc, Bool.and_left_comm]

theorem isMemberLeak_eq_verdict : i.isMemberLeak target owner key =
    i.verdict target key false (i.memberChain target owner key) := by
  have hany : ∀ cs : List ClassName,
      (!(cs.flatMap (i.declared key)).isEmpty) = cs.any (i.declaresAny key) := by
    intro cs
    rw [Bool.eq_iff_iff]
    simp only [Bool.not_eq_true', List.isEmpty_eq_false_iff_exists_mem,
      List.any_eq_true, List.mem_flatMap, declaresAny]
    exact ⟨fun ⟨m, c, hc, hm⟩ ↦ ⟨c, hc, m, hm⟩, fun ⟨c, hc, m, hm⟩ ↦ ⟨m, c, hc, hm⟩⟩
  rw [isMemberLeak, verdict, Bool.false_or, List.all_flatMap]
  simp only [hany, declaresIn, List.not_any_eq_all_not]

/-- A class that is not in the index declares nothing. -/
theorem declared_of_absent (h : i.get? c = none) : i.declared key c = [] := by
  rw [declared, h]

/-- A class of the index settles the search, or it goes on from there. -/
theorem LeakSearch.cons {d : ClassName} (habove : i.above? target c = some d) (hmem : c ∉ passed)
    (hinit : ¬ key.IsConstructor)
    (hrest : i.LeakSearch target key (found || i.declaresAny key c) (c :: passed) d leak) :
    i.LeakSearch target key found passed c (!i.declaresIn target key c && leak) := by
  cases hin : i.declaresIn target key c with
  | true => exact .declared (isSome_of_above? habove) hmem hin
  | false => exact .step habove hmem hin hinit hrest

/-- A class that is not in the index ends the search. -/
theorem leakSearch_of_absent (hget : i.get? c = none) :
    i.LeakSearch target key found passed c (i.verdict target key found [c]) := by
  have hverdict : i.verdict target key found [c] = found := by
    rw [verdict_cons, verdict_nil, declaresIn, declaresAny, declared_of_absent hget]
    exact Bool.or_false found
  rw [hverdict]
  exact .platform hget

/-- A constructor is looked up in its own class alone. -/
theorem leakSearch_constructor (hinit : key.IsConstructor) :
    i.LeakSearch target key found [] c (i.verdict target key found [c]) := by
  cases hget : (i.get? c).isSome with
  | false => exact leakSearch_of_absent (Option.not_isSome_iff_eq_none.1 (Bool.eq_false_iff.1 hget))
  | true =>
    rw [verdict_cons, verdict_nil]
    cases hin : i.declaresIn target key c with
    | true => exact .declared hget List.not_mem_nil hin
    | false => exact .construction hget List.not_mem_nil hin hinit

/-- **The verdict on a walk is that of the search**, if the classes that were passed are classes of
the index. -/
theorem leakSearch_walk (hinit : ¬ key.IsConstructor) {cs : List ClassName}
    (hwalk : Chain.IsWalk (i.above? target) passed c cs)
    (hpassed : ∀ d ∈ passed, (i.get? d).isSome) :
    i.LeakSearch target key found passed c (i.verdict target key found cs) := by
  induction hwalk generalizing found with
  | last hlast => exact leakSearch_of_absent (Option.map_eq_none_iff.1 hlast)
  | @again passed c d hnew hnext hseen =>
    -- the walk does not go on to a class that was passed, the search does and stops there
    have hall : ∀ d ∈ c :: passed, (i.get? d).isSome :=
      List.forall_mem_cons.2 ⟨isSome_of_above? hnext, hpassed⟩
    rw [verdict_cons, verdict_nil]
    exact .cons hnext hnew hinit (.again (hall d hseen) hseen)
  | step hnew hnext hfresh hrest ih =>
    rw [verdict_cons]
    refine .cons hnext hnew hinit (ih ?_)
    exact List.forall_mem_cons.2 ⟨isSome_of_above? hnext, hpassed⟩

/-- **The search ends for every index, with the verdict of the check.** -/
theorem leakSearch_iff : i.LeakSearch target key false [] owner leak ↔
    leak = i.isMemberLeak target owner key := by
  have hverdict : i.LeakSearch target key false [] owner (i.isMemberLeak target owner key) := by
    rw [isMemberLeak_eq_verdict]
    by_cases hinit : key.IsConstructor
    · rw [memberChain_of_constructor hinit]
      exact leakSearch_constructor hinit
    · rw [memberChain_of_inherited hinit]
      exact leakSearch_walk hinit (isWalk_above? i target owner) (List.forall_mem_nil _)
  exact ⟨fun h ↦ h.unique hverdict, fun h ↦ h ▸ hverdict⟩

/-- **Member leaks are decided by the superclasses of the target.** A member is reported exactly if
a class of the chain declares it and no class of the chain does for the target; and the search class
by class ends for every index, with this verdict. -/
theorem isMemberLeak_follows_superclasses (i : MergedIndex) (target : Version) (owner : ClassName)
    (key : MemberKey) :
    (i.isMemberLeak target owner key = true ↔
      (∃ k c m, i.OnChain target owner key k c ∧ i.Declares key c m) ∧
        ∀ k c m, i.OnChain target owner key k c → i.Declares key c m →
          target ∉ m.declaredVersions) ∧
    ∀ leak, i.LeakSearch target key false [] owner leak ↔
      leak = i.isMemberLeak target owner key :=
  ⟨isMemberLeak_iff_onChain, fun _ ↦ leakSearch_iff⟩

/-- A class of two versions. -/
def pairedClass (cls superclass : String) (members : List MergedMember) : MergedClass :=
  { MergedClass.universal { name := ⟨cls⟩, access := .publicAccess, superclass := ⟨superclass⟩ }
      (.ofList [⟨"a"⟩, ⟨"b"⟩]) with members := members }

/-- Two classes, each of which extends the other one. One version of the second has a method. -/
def loopIndex : MergedIndex :=
  .ofList [pairedClass "x/A" "x/B" [],
    pairedClass "x/B" "x/A" [.universal (.ofList [⟨"b"⟩])
      { name := "run", desc := "()V", kind := .method, access := .publicAccess }]]

theorem isMemberLeak_follows_superclasses_loop :
    (∃ k c m, loopIndex.OnChain ⟨"a"⟩ ⟨"x/A"⟩ ⟨"run", "()V", .method⟩ k c ∧
      loopIndex.Declares ⟨"run", "()V", .method⟩ c m) ∧
      loopIndex.LeakSearch ⟨"a"⟩ ⟨"run", "()V", .method⟩ false [] ⟨"x/A"⟩ true ∧
      loopIndex.LeakSearch ⟨"b"⟩ ⟨"run", "()V", .method⟩ false [] ⟨"x/A"⟩ false ∧
      loopIndex.LeakSearch ⟨"a"⟩ ⟨"stop", "()V", .method⟩ false [] ⟨"x/A"⟩ false := by
  obtain ⟨hleak, hsearch⟩ := isMemberLeak_follows_superclasses loopIndex ⟨"a"⟩ ⟨"x/A"⟩
    ⟨"run", "()V", .method⟩
  obtain ⟨-, hpresent⟩ := isMemberLeak_follows_superclasses loopIndex ⟨"b"⟩ ⟨"x/A"⟩
    ⟨"run", "()V", .method⟩
  obtain ⟨-, hunknown⟩ := isMemberLeak_follows_superclasses loopIndex ⟨"a"⟩ ⟨"x/A"⟩
    ⟨"stop", "()V", .method⟩
  exact ⟨(hleak.1 (by decide +kernel)).1, (hsearch true).2 (by decide +kernel),
    (hpresent false).2 (by decide +kernel), (hunknown false).2 (by decide +kernel)⟩

end MergedIndex

end ClassWeave
