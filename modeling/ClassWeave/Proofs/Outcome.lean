import Mathlib.Data.List.Forall2

/-!
# Computations that may fail

Inversion of the three ways in which failing computations are composed here: one after the other
(`bind_eq_ok`, `bind_eq_error`), one for each member of a list (`mapM_eq_ok`), and along a list with
a state (`foldlM_eq_ok_of_steps`, `foldlM_invariant`). Everything else about them is derived from
these, and no other module unfolds the monad. Where one after the other is tried until one succeeds,
there is a first success or only failures (`forall₂_or_first`).
-/

namespace ClassWeave.Outcome

variable {ε α β σ : Type}

/-- A composition succeeds exactly when both parts do. -/
theorem bind_eq_ok {x : Except ε α} {f : α → Except ε β} {b : β} :
    x >>= f = .ok b ↔ ∃ a, x = .ok a ∧ f a = .ok b := by
  cases x with
  | error e =>
    constructor
    · intro h
      cases h
    · rintro ⟨a, h, -⟩
      cases h
  | ok a =>
    constructor
    · intro h
      exact ⟨a, rfl, h⟩
    · rintro ⟨a', h, h'⟩
      cases h
      exact h'

/-- A composition fails where the first part fails, or else the second. -/
theorem bind_eq_error {x : Except ε α} {f : α → Except ε β} {e : ε} :
    x >>= f = .error e ↔ x = .error e ∨ ∃ a, x = .ok a ∧ f a = .error e := by
  cases x with
  | error e' =>
    constructor
    · intro h
      cases h
      exact .inl rfl
    · rintro (h | ⟨a, h, -⟩)
      · cases h
        rfl
      · cases h
  | ok a =>
    constructor
    · intro h
      exact .inr ⟨a, rfl, h⟩
    · rintro (h | ⟨a', h, h'⟩)
      · cases h
      · cases h
        exact h'

theorem pure_eq_ok {a b : α} : (pure a : Except ε α) = .ok b ↔ a = b := by
  constructor
  · intro h
    cases h
    rfl
  · rintro rfl
    rfl

/-- A mapped computation succeeds exactly when the computation does. -/
theorem map_eq_ok {x : Except ε α} {f : α → β} {b : β} :
    f <$> x = .ok b ↔ ∃ a, x = .ok a ∧ f a = b := by
  cases x with
  | error e =>
    constructor
    · intro h
      cases h
    · rintro ⟨a, h, -⟩
      cases h
  | ok a =>
    constructor
    · intro h
      exact ⟨a, rfl, Except.ok.inj h⟩
    · rintro ⟨a', h, rfl⟩
      cases h
      rfl

/-- A computation gives something exactly when it succeeds. -/
theorem isSome_toOption_iff {x : Except ε α} : x.toOption.isSome = true ↔ ∃ a, x = .ok a := by
  cases x with
  | ok a => exact iff_of_true rfl ⟨a, rfl⟩
  | error e =>
    refine iff_of_false (fun h ↦ nomatch h) ?_
    rintro ⟨a, h⟩
    cases h

theorem exists_eq_ok {x : Except ε α} (h : x.toOption.isSome = true) : ∃ a, x = .ok a :=
  isSome_toOption_iff.1 h

/-- A computation for each member of a list succeeds exactly when each of them does. -/
theorem mapM_eq_ok {f : α → Except ε β} {l : List α} {l' : List β} :
    l.mapM f = .ok l' ↔ List.Forall₂ (fun a b ↦ f a = .ok b) l l' := by
  induction l generalizing l' with
  | nil => rw [List.mapM_nil, pure_eq_ok, List.forall₂_nil_left_iff, eq_comm]
  | cons a l ih =>
    rw [List.mapM_cons, bind_eq_ok, List.forall₂_cons_left_iff]
    constructor
    · rintro ⟨b, hb, h⟩
      obtain ⟨bs, hbs, h⟩ := bind_eq_ok.1 h
      exact ⟨b, bs, hb, ih.1 hbs, (pure_eq_ok.1 h).symm⟩
    · rintro ⟨b, bs, hb, hbs, rfl⟩
      exact ⟨b, hb, bind_eq_ok.2 ⟨bs, ih.2 hbs, rfl⟩⟩

/-- A computation over a list succeeds exactly when it does for each member. -/
theorem exists_mapM_eq_ok {f : α → Except ε β} {l : List α} :
    (∃ l', l.mapM f = .ok l') ↔ ∀ a ∈ l, ∃ b, f a = .ok b := by
  simp only [mapM_eq_ok]
  induction l with
  | nil => simp
  | cons a l ih =>
    rw [List.forall_mem_cons, ← ih]
    simp only [List.forall₂_cons_left_iff]
    constructor
    · rintro ⟨_, b, bs, hb, hbs, rfl⟩
      exact ⟨⟨b, hb⟩, bs, hbs⟩
    · rintro ⟨⟨b, hb⟩, bs, hbs⟩
      exact ⟨b :: bs, b, bs, hb, hbs, rfl⟩

/-- Each result of a computation over a list belongs to a member of it. -/
theorem exists_of_mapM_eq_ok {f : α → Except ε β} {l : List α} {l' : List β} {b : β}
    (h : l.mapM f = .ok l') (hb : b ∈ l') : ∃ a ∈ l, f a = .ok b := by
  induction mapM_eq_ok.1 h with
  | nil => exact absurd hb List.not_mem_nil
  | @cons a b' as bs hab hrest ih =>
    rcases List.mem_cons.1 hb with rfl | hb
    · exact ⟨a, List.mem_cons_self, hab⟩
    · obtain ⟨a', ha', hab'⟩ := ih (mapM_eq_ok.2 hrest) hb
      exact ⟨a', List.mem_cons_of_mem _ ha', hab'⟩

/-- A computation over a list fails as it does for one of the members. -/
theorem exists_of_mapM_eq_error {f : α → Except ε β} {l : List α} {e : ε}
    (h : l.mapM f = .error e) : ∃ a ∈ l, f a = .error e := by
  induction l with
  | nil => cases h
  | cons a l ih =>
    rw [List.mapM_cons] at h
    rcases bind_eq_error.1 h with ha | ⟨b, -, h⟩
    · exact ⟨a, List.mem_cons_self, ha⟩
    · rcases bind_eq_error.1 h with hl | ⟨bs, -, h⟩
      · obtain ⟨a', ha', hfails⟩ := ih hl
        exact ⟨a', List.mem_cons_of_mem _ ha', hfails⟩
      · cases h

/-- Of a list whose members fail or succeed, all fail or there is a first that succeeds. -/
theorem forall₂_or_first {R : α → β → Prop} {S : α → Prop} {l : List α}
    (h : ∀ a ∈ l, (∃ b, R a b) ∨ S a) :
    (∃ bs, List.Forall₂ R l bs) ∨ ∃ earlier a later bs,
      l = earlier ++ a :: later ∧ List.Forall₂ R earlier bs ∧ S a := by
  induction l with
  | nil => exact .inl ⟨[], .nil⟩
  | cons a l ih =>
    rcases h a List.mem_cons_self with ⟨b, hb⟩ | ha
    · rcases ih fun a' ha' ↦ h a' (List.mem_cons_of_mem _ ha') with
        ⟨bs, hbs⟩ | ⟨earlier, a', later, bs, rfl, hbs, ha'⟩
      · exact .inl ⟨b :: bs, .cons hb hbs⟩
      · exact .inr ⟨a :: earlier, a', later, b :: bs, rfl, .cons hb hbs, ha'⟩
    · exact .inr ⟨[], a, l, [], rfl, .nil, ha⟩

/-- Each member of a list has a partner in a list that corresponds to it. -/
theorem exists_of_forall₂ {R : α → β → Prop} {l : List α} {l' : List β} (h : List.Forall₂ R l l')
    {a : α} (ha : a ∈ l) : ∃ b, R a b := by
  induction h with
  | nil => exact absurd ha List.not_mem_nil
  | cons hab _ ih =>
    rcases List.mem_cons.1 ha with rfl | ha
    · exact ⟨_, hab⟩
    · exact ih ha

/-- Where each step succeeds, a fold succeeds with the fold of the steps' results. -/
theorem foldlM_eq_ok_of_steps {step : σ → α → Except ε σ} (next : σ → α → σ) {l : List α}
    (h : ∀ a ∈ l, ∀ s, step s a = .ok (next s a)) (s : σ) :
    l.foldlM step s = .ok (l.foldl next s) := by
  induction l generalizing s with
  | nil => rfl
  | cons a l ih =>
    rw [List.foldlM_cons, List.foldl_cons, bind_eq_ok]
    exact ⟨next s a, h a List.mem_cons_self s, ih (fun b hb ↦ h b (List.mem_cons_of_mem _ hb)) _⟩

/-- **Step to run**: what each successful step keeps, a successful fold keeps. -/
theorem foldlM_invariant {step : σ → α → Except ε σ} {P : σ → Prop}
    (hstep : ∀ s a s', step s a = .ok s' → P s → P s') {l : List α} {s t : σ}
    (h : l.foldlM step s = .ok t) (hs : P s) : P t := by
  induction l generalizing s with
  | nil =>
    rw [List.foldlM_nil, pure_eq_ok] at h
    exact h ▸ hs
  | cons a l ih =>
    rw [List.foldlM_cons, bind_eq_ok] at h
    obtain ⟨s', hs', h⟩ := h
    exact ih h (hstep s a s' hs' hs)

/-- Where the state does not decide whether a step succeeds, a fold succeeds exactly when each of its
steps does. -/
theorem exists_foldlM_eq_ok {step : σ → α → Except ε σ} {P : α → Prop}
    (hstep : ∀ a s, (∃ s', step s a = .ok s') ↔ P a) {l : List α} {s : σ} :
    (∃ t, l.foldlM step s = .ok t) ↔ ∀ a ∈ l, P a := by
  induction l generalizing s with
  | nil => exact ⟨fun _ _ ha ↦ absurd ha List.not_mem_nil, fun _ ↦ ⟨s, rfl⟩⟩
  | cons a l ih =>
    rw [List.forall_mem_cons]
    simp only [List.foldlM_cons, bind_eq_ok]
    constructor
    · rintro ⟨t, s', hs', ht⟩
      exact ⟨(hstep a s).1 ⟨s', hs'⟩, ih.1 ⟨t, ht⟩⟩
    · rintro ⟨ha, hl⟩
      obtain ⟨s', hs'⟩ := (hstep a s).2 ha
      obtain ⟨t, ht⟩ := ih.2 hl
      exact ⟨t, s', hs', ht⟩

end ClassWeave.Outcome
