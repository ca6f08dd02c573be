import ClassWeave.Chain
import Mathlib.Data.List.Chain
import Mathlib.Data.List.Nodup
import Mathlib.Data.List.Perm.Subperm
import Mathlib.Data.Nat.Find
import Mathlib.Logic.Relation

/-!
# Walks along superclasses

A walk starts at its class and takes one step of `next` after the other (`isChain_walk`). The bound
that it is given is never what ends it, as long as it is no smaller than the number of classes that
have a next one: a class that is passed has a next one, and no class is passed twice. `IsWalk` is
the walk without its bound. What is to be shown of every walk is shown of it by induction, and holds
of the walk with a bound since that is one (`isWalk_walk`).

What a walk collects is closed under `next` (`IsWalk.closed`), and consists of the classes that can
be reached at all (`IsWalk.mem_of_reaches`, `reaches_of_mem_walk`), cycles or not.

A walk with more steps at hand goes on where the other one ends (`walk_prefix`), so a class that
stands before another one on a walk still does (`transGen_of_isChain`).

Two chains to a class without a next one agree from any class on that they share, as soon as their
step functions never contradict each other (`suffix_unique`). The first class that they have in
common with further chains is then the same, whichever of the two is searched
(`find?_eq_of_agree`).
-/

namespace ClassWeave.Chain

variable {next : ClassName → Option ClassName} {fuel : ℕ} {passed : List ClassName}
  {a b c : ClassName}

/-! ### Steps -/

/-- A walk starts at its class. -/
theorem exists_walk_eq_cons (next : ClassName → Option ClassName) (fuel : ℕ)
    (passed : List ClassName) (c : ClassName) : ∃ rest, walk next fuel passed c = c :: rest := by
  cases fuel with
  | zero => exact ⟨[], rfl⟩
  | succ fuel =>
    rw [walk]
    split
    · exact ⟨[], rfl⟩
    · split
      · exact ⟨[], rfl⟩
      · exact ⟨_, rfl⟩

theorem mem_walk_self : c ∈ walk next fuel passed c := by
  obtain ⟨rest, h⟩ := exists_walk_eq_cons next fuel passed c
  exact h ▸ List.mem_cons_self

/-- Each class of a walk is the next one of the class before it. -/
theorem isChain_walk (next : ClassName → Option ClassName) (fuel : ℕ)
    (passed : List ClassName) (c : ClassName) :
    (walk next fuel passed c).IsChain fun a b ↦ next a = some b := by
  induction fuel generalizing passed c with
  | zero => exact List.isChain_singleton c
  | succ fuel ih =>
    rw [walk]
    split
    · exact List.isChain_singleton c
    · rename_i d hd
      split
      · exact List.isChain_singleton c
      · have hrest := ih (c :: passed) d
        obtain ⟨rest, h⟩ := exists_walk_eq_cons next fuel (c :: passed) d
        rw [h] at hrest ⊢
        exact List.isChain_cons_cons.2 ⟨hd, hrest⟩

/-- **A walk collects nothing but what can be reached.** -/
theorem reaches_of_mem_walk (h : b ∈ walk next fuel passed c) :
    Relation.ReflTransGen (fun a b ↦ next a = some b) c b := by
  induction fuel generalizing passed c with
  | zero =>
    rw [walk, List.mem_singleton] at h
    exact h ▸ .refl
  | succ fuel ih =>
    rw [walk] at h
    split at h
    · exact List.mem_singleton.1 h ▸ .refl
    · rename_i d hd
      split at h
      · exact List.mem_singleton.1 h ▸ .refl
      · rcases List.mem_cons.1 h with rfl | h
        · exact .refl
        · exact .head hd (ih h)

/-! ### Walks without a bound -/

/-- A walk that has come to a class and has passed others, and the classes that it goes through from
there on: the ways in which a walk without a bound can end or go on. -/
inductive IsWalk (next : ClassName → Option ClassName) :
    List ClassName → ClassName → List ClassName → Prop where
  | last {passed : List ClassName} {c : ClassName} (hlast : next c = none) :
      IsWalk next passed c [c]
  | again {passed : List ClassName} {c d : ClassName} (hnew : c ∉ passed)
      (hnext : next c = some d) (hpassed : d ∈ c :: passed) : IsWalk next passed c [c]
  | step {passed cs : List ClassName} {c d : ClassName} (hnew : c ∉ passed)
      (hnext : next c = some d) (hfresh : d ∉ c :: passed)
      (hrest : IsWalk next (c :: passed) d cs) : IsWalk next passed c (c :: cs)

theorem IsWalk.exists_eq_cons {cs : List ClassName} (h : IsWalk next passed c cs) :
    ∃ rest, cs = c :: rest := by
  cases h with
  | last | again => exact ⟨[], rfl⟩
  | step => exact ⟨_, rfl⟩

theorem isWalk_walk_of_passed {keys : List ClassName} (hkeys : ∀ a b, next a = some b → a ∈ keys)
    (hpassed : passed ⊆ keys) (hnodup : (c :: passed).Nodup)
    (hfuel : keys.length ≤ fuel + passed.length) :
    IsWalk next passed c (walk next fuel passed c) := by
  induction fuel generalizing passed c with
  | zero =>
    -- all keys are passed, so the class at which the bound is reached has no next one
    refine .last (Option.eq_none_iff_forall_ne_some.2 fun d hd ↦ ?_)
    have hsub : c :: passed ⊆ keys := List.cons_subset.2 ⟨hkeys c d hd, hpassed⟩
    have hlength := (hnodup.subperm hsub).length_le
    rw [List.length_cons] at hlength
    omega
  | succ fuel ih =>
    rw [walk]
    cases hc : next c with
    | none => exact .last hc
    | some d =>
      dsimp only
      have hnew : c ∉ passed := (List.nodup_cons.1 hnodup).1
      by_cases hd : d ∈ c :: passed
      · rw [if_pos (List.mem_cons.1 hd)]
        exact .again hnew hc hd
      · rw [if_neg (mt List.mem_cons.2 hd)]
        refine .step hnew hc hd (ih ?_ (List.nodup_cons.2 ⟨hd, hnodup⟩) ?_)
        · exact List.cons_subset.2 ⟨hkeys c d hc, hpassed⟩
        · rw [List.length_cons]
          omega

/-- **The bound is never what ends a walk**, if it is no smaller than the number of classes that
have a next one. The classes in `keys` are those. -/
theorem isWalk_walk {keys : List ClassName} (hkeys : ∀ a b, next a = some b → a ∈ keys)
    (hfuel : keys.length ≤ fuel) : IsWalk next [] c (walk next fuel [] c) :=
  isWalk_walk_of_passed hkeys (List.nil_subset _) (List.nodup_singleton c) hfuel

/-- **A walk misses no step.** What comes next after a class of the walk is in the walk or was
passed before it. -/
theorem IsWalk.closed {cs : List ClassName} (h : IsWalk next passed c cs) (ha : a ∈ cs)
    (hab : next a = some b) : b ∈ cs ∨ b ∈ passed := by
  induction h with
  | last hlast =>
    rw [List.mem_singleton.1 ha, hlast] at hab
    cases hab
  | again hnew hnext hpassed =>
    obtain rfl := List.mem_singleton.1 ha
    obtain rfl := Option.some.inj (hnext.symm.trans hab)
    exact (List.mem_cons.1 hpassed).imp_left List.mem_singleton.2
  | step hnew hnext hfresh hrest ih =>
    rcases List.mem_cons.1 ha with rfl | ha
    · obtain rfl := Option.some.inj (hnext.symm.trans hab)
      obtain ⟨rest, rfl⟩ := hrest.exists_eq_cons
      exact .inl (List.mem_cons_of_mem _ List.mem_cons_self)
    · rcases ih ha with h | h
      · exact .inl (List.mem_cons_of_mem _ h)
      · rcases List.mem_cons.1 h with rfl | h
        · exact .inl List.mem_cons_self
        · exact .inr h

/-- **A walk reaches what can be reached.** -/
theorem IsWalk.mem_of_reaches {cs : List ClassName} (hwalk : IsWalk next [] c cs)
    (h : Relation.ReflTransGen (fun a b ↦ next a = some b) c b) : b ∈ cs := by
  induction h with
  | refl =>
    obtain ⟨rest, rfl⟩ := hwalk.exists_eq_cons
    exact List.mem_cons_self
  | tail _ hstep ih => exact (hwalk.closed ih hstep).resolve_right List.not_mem_nil

/-! ### Counting steps -/

/-- The class that so many steps lead to. -/
def after? (next : ClassName → Option ClassName) (c : ClassName) : ℕ → Option ClassName
  | 0 => some c
  | k + 1 => (after? next c k).bind next

theorem after?_add (next : ClassName → Option ClassName) (c : ClassName) (j k : ℕ) :
    after? next c (j + k) = (after? next c j).bind (after? next · k) := by
  induction k with
  | zero => exact (Option.bind_fun_some _).symm
  | succ k ih =>
    rw [Nat.add_succ, after?, ih, Option.bind_assoc]
    rfl

theorem reaches_iff : Relation.ReflTransGen (fun a b ↦ next a = some b) c b ↔
    ∃ k, after? next c k = some b := by
  constructor
  · intro h
    induction h with
    | refl => exact ⟨0, rfl⟩
    | tail _ hstep ih =>
      obtain ⟨k, hk⟩ := ih
      exact ⟨k + 1, by rw [after?, hk, Option.bind_some, hstep]⟩
  · rintro ⟨k, hk⟩
    induction k generalizing b with
    | zero => exact Option.some.inj hk ▸ .refl
    | succ k ih =>
      obtain ⟨a, ha, hab⟩ := Option.bind_eq_some_iff.1 hk
      exact (ih ha).tail hab

/-- **What can be reached can be reached without passing a class twice**: by as few steps as lead
there. -/
theorem exists_after?_distinct (h : ∃ k, after? next c k = some b) :
    ∃ k, after? next c k = some b ∧ ∀ j ≤ k, ∀ i < j, after? next c i ≠ after? next c j := by
  classical
  refine ⟨Nat.find h, Nat.find_spec h, fun j hj i hi heq ↦ ?_⟩
  -- what leads on from the second visit of a class would lead on from the first one as well
  refine Nat.find_min h (m := i + (Nat.find h - j)) (by omega) ?_
  rw [after?_add, heq, ← after?_add, Nat.add_sub_cancel' hj]
  exact Nat.find_spec h

/-! ### Longer walks -/

theorem singleton_prefix_walk (next : ClassName → Option ClassName) (fuel : ℕ)
    (passed : List ClassName) (c : ClassName) : [c] <+: walk next fuel passed c := by
  obtain ⟨rest, hrest⟩ := exists_walk_eq_cons next fuel passed c
  exact hrest ▸ ⟨rest, rfl⟩

/-- **A walk by fewer steps is the beginning of a walk by more.** -/
theorem walk_prefix {next' : ClassName → Option ClassName} {fuel' : ℕ}
    (hnext : ∀ a b, next a = some b → next' a = some b) (hfuel : fuel ≤ fuel')
    (passed : List ClassName) (c : ClassName) :
    walk next fuel passed c <+: walk next' fuel' passed c := by
  induction fuel generalizing fuel' passed c with
  | zero => exact singleton_prefix_walk next' fuel' passed c
  | succ fuel ih =>
    obtain ⟨fuel', rfl⟩ : ∃ n, fuel' = n + 1 := ⟨fuel' - 1, by omega⟩
    rw [walk]
    cases hc : next c with
    | none => exact singleton_prefix_walk next' _ passed c
    | some d =>
      dsimp only
      rw [walk, hnext c d hc]
      dsimp only
      split
      · exact List.prefix_rfl
      · exact List.cons_prefix_cons.2 ⟨rfl, ih (Nat.le_of_succ_le_succ hfuel) (c :: passed) d⟩

/-- A class that stands before another one on a chain leads to it, in one step at least. -/
theorem transGen_of_isChain {before after : List ClassName}
    (h : (before ++ b :: after).IsChain fun a b ↦ next a = some b) (ha : a ∈ before) :
    Relation.TransGen (fun a b ↦ next a = some b) a b := by
  have htrans : (before ++ b :: after).IsChain (Relation.TransGen fun a b ↦ next a = some b) :=
    h.imp fun _ _ ↦ Relation.TransGen.single
  exact (List.pairwise_append.1 htrans.pairwise).2.2 a ha b List.mem_cons_self

/-! ### Chains that agree -/

/-- A chain of steps whose end is `last`. -/
structure LeadsTo (next : ClassName → Option ClassName) (last : ClassName)
    (l : List ClassName) : Prop where
  isChain : l.IsChain fun a b ↦ next a = some b
  getLast? : l.getLast? = some last

theorem LeadsTo.suffix {last : ClassName} {l l' : List ClassName} (h : LeadsTo next last l)
    (hs : l' <:+ l) (hne : l' ≠ []) : LeadsTo next last l' where
  isChain := h.isChain.suffix hs
  getLast? := by
    obtain ⟨l₀, rfl⟩ := hs
    rw [← List.getLast?_append_of_ne_nil l₀ hne]
    exact h.getLast?

section Agree

variable {next' : ClassName → Option ClassName} {last : ClassName} {l l' : List ClassName}

/-- **Two chains to one end agree from a common class on**, if nothing follows the end and the
steps never contradict each other. -/
theorem suffix_unique (hagree : ∀ a b b', next a = some b → next' a = some b' → b = b')
    (hlast : next last = none) (hlast' : next' last = none) (hl : LeadsTo next last (c :: l))
    (hl' : LeadsTo next' last (c :: l')) : l = l' := by
  induction l generalizing c l' with
  | nil =>
    obtain rfl : c = last := by simpa using hl.getLast?
    cases l' with
    | nil => rfl
    | cons b l' =>
      -- the other chain would go on where this one has come to the end
      rw [(List.isChain_cons_cons.1 hl'.isChain).1] at hlast'
      cases hlast'
  | cons a l ih =>
    obtain ⟨ha, -⟩ := List.isChain_cons_cons.1 hl.isChain
    cases l' with
    | nil =>
      obtain rfl : c = last := by simpa using hl'.getLast?
      rw [ha] at hlast
      cases hlast
    | cons b l' =>
      obtain ⟨hb, -⟩ := List.isChain_cons_cons.1 hl'.isChain
      obtain rfl : a = b := hagree _ _ _ ha hb
      rw [ih (hl.suffix (List.suffix_cons _ _) (List.cons_ne_nil _ _))
        (hl'.suffix (List.suffix_cons _ _) (List.cons_ne_nil _ _))]

/-- What a search finds stands no later than any other hit. -/
theorem exists_suffix_of_find? {p : ClassName → Bool} {before after : List ClassName} (ha : p a)
    (h : (before ++ a :: after).find? p = some b) :
    ∃ rest, b :: rest <:+ before ++ a :: after ∧ a :: after <:+ b :: rest := by
  induction before with
  | nil =>
    rw [List.nil_append, List.find?_cons_of_pos ha] at h
    obtain rfl : a = b := Option.some.inj h
    exact ⟨after, List.suffix_rfl, List.suffix_rfl⟩
  | cons x before ih =>
    rw [List.cons_append] at h ⊢
    by_cases hx : p x
    · rw [List.find?_cons_of_pos hx] at h
      obtain rfl : x = b := Option.some.inj h
      exact ⟨before ++ a :: after, List.suffix_rfl,
        (List.suffix_append before _).trans (List.suffix_cons x _)⟩
    · rw [List.find?_cons_of_neg hx] at h
      obtain ⟨rest, hrest, hsuffix⟩ := ih h
      exact ⟨rest, hrest.trans (List.suffix_cons _ _), hsuffix⟩

/-- **A search for a common class finds the same one on each of two chains that agree.** -/
theorem find?_eq_of_agree (hagree : ∀ a b b', next a = some b → next' a = some b' → b = b')
    (hlast : next last = none) (hlast' : next' last = none) (hl : LeadsTo next last l)
    (hl' : LeadsTo next' last l') {p : ClassName → Bool} (hp : ∀ c, p c → c ∈ l ∧ c ∈ l') :
    l.find? p = l'.find? p := by
  cases h : l.find? p with
  | none =>
    refine (List.find?_eq_none.2 fun c _ hpc ↦ ?_).symm
    exact List.find?_eq_none.1 h c (hp c hpc).1 hpc
  | some a =>
    have ha : p a := List.find?_some h
    obtain ⟨b, hb⟩ : ∃ b, l'.find? p = some b :=
      Option.isSome_iff_exists.1 (List.find?_isSome.2 ⟨a, (hp a ha).2, ha⟩)
    have hpb : p b := List.find?_some hb
    rw [hb]
    -- each of the two finds stands no later than the other, on both chains
    obtain ⟨before, after, rfl⟩ := List.append_of_mem (hp b hpb).1
    obtain ⟨before', after', rfl⟩ := List.append_of_mem (hp a ha).2
    obtain ⟨rest, hrest, hab⟩ := exists_suffix_of_find? hpb h
    obtain ⟨rest', hrest', hba⟩ := exists_suffix_of_find? ha hb
    have hafter : rest = after' :=
      suffix_unique hagree hlast hlast' (hl.suffix hrest (List.cons_ne_nil _ _))
        (hl'.suffix (List.suffix_append _ _) (List.cons_ne_nil _ _))
    have hafter' : after = rest' :=
      suffix_unique hagree hlast hlast' (hl.suffix (List.suffix_append _ _) (List.cons_ne_nil _ _))
        (hl'.suffix hrest' (List.cons_ne_nil _ _))
    rw [hafter, hafter'] at hab
    have heq : b :: rest' = a :: after' := hab.eq_of_length_le hba.length_le
    rw [(List.cons.inj heq).1]

end Agree

end ClassWeave.Chain
