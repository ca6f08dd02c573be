import ClassWeave.Proofs.Link.Construction
import ClassWeave.Proofs.Link.Unredirected

/-!
# One step of the linker

A body is linked one instruction after the other, with the instructions done as a state. What one
step makes of them is said once (`Linker.advance`, `Linker.advance_cases`), and what every step
keeps is kept to the end of a body (`Linker.linkFrom_invariant`). What a linked member and a linked
tree are made of is said likewise (`Linker.linkMember_cases`, `Linker.exists_of_link_eq_ok`), so
facts about linked trees come down to facts about one step.
-/

namespace ClassWeave.Linker

variable {l : Linker} {insn : Insn} {done done' : List Insn} {next : Option Insn}
  {cls : ClassName} {member : String}

/-! ### Steps -/

/-- What an instruction makes of those done, with the one behind it known, and the number of
changes. A constructor call without a `NEW` fails with its site. -/
def advance (l : Linker) (done : List Insn) (insn : Insn) (next : Option Insn) :
    Except CallSite (List Insn × ℕ) :=
  match l.bridgeCast? insn with
  | some cast => .ok (done ++ [cast], 1)
  | none =>
    let declared := (l.demangle? insn).getD insn
    match l.redirectFor? declared with
    | none => .ok (done ++ [declared], if (l.demangle? insn).isSome then 1 else 0)
    | some (site, replacement) =>
      match applyRedirect done site replacement next with
      | none => .error site
      | some (done, casts) => .ok (done, casts + 1)

/-- **Linking is one step after the other.** -/
theorem linkFrom_cons (l : Linker) (cls : ClassName) (member : String) (done : List Insn)
    (insn : Insn) (rest : List Insn) :
    l.linkFrom cls member done (insn :: rest) =
      match l.advance done insn rest.head? with
      | .error site => .error (.unmatchedConstructor cls member site.text)
      | .ok (done, n) => (fun r ↦ (r.1, r.2 + n)) <$> l.linkFrom cls member done rest := by
  rw [linkFrom, advance]
  cases l.bridgeCast? insn with
  | some cast => rfl
  | none =>
    dsimp only
    cases l.redirectFor? ((l.demangle? insn).getD insn) with
    | none => rfl
    | some found =>
      obtain ⟨site, replacement⟩ := found
      dsimp only
      cases applyRedirect done site replacement rest.head? with
      | none => rfl
      | some applied => rfl

/-- **What one step can do.** -/
theorem advance_cases {n : ℕ} (h : l.advance done insn next = .ok (done', n)) :
    (∃ cls, l.bridgeCast? insn = some (.type .checkCast cls) ∧
      done' = done ++ [.type .checkCast cls]) ∨
    (l.bridgeCast? insn = none ∧ l.redirectFor? ((l.demangle? insn).getD insn) = none ∧
      done' = done ++ [(l.demangle? insn).getD insn]) ∨
    ∃ site replacement casts, l.Redirects insn site replacement ∧
      applyRedirect done site replacement next = some (done', casts) := by
  rw [advance] at h
  cases hbridge : l.bridgeCast? insn with
  | some cast =>
    simp only [hbridge] at h
    cases h
    obtain ⟨cls, rfl⟩ := exists_of_bridgeCast? hbridge
    exact .inl ⟨cls, rfl, rfl⟩
  | none =>
    simp only [hbridge] at h
    cases hredirect : l.redirectFor? ((l.demangle? insn).getD insn) with
    | none =>
      simp only [hredirect] at h
      cases h
      exact .inr (.inl ⟨rfl, rfl, rfl⟩)
    | some found =>
      obtain ⟨site, replacement⟩ := found
      simp only [hredirect] at h
      cases happly : applyRedirect done site replacement next with
      | none =>
        simp only [happly] at h
        cases h
      | some applied =>
        simp only [happly] at h
        cases h
        exact .inr (.inr ⟨site, replacement, applied.2, ⟨hbridge, hredirect⟩, happly⟩)

/-- **Step to run**: what each step keeps, of the instructions done and of the rest, is kept to the
end of the body. -/
theorem linkFrom_invariant {P : List Insn → List Insn → Prop}
    (hstep : ∀ done insn rest done' n, P done (insn :: rest) →
      l.advance done insn rest.head? = .ok (done', n) → P done' rest)
    {rest out : List Insn} {n : ℕ} (h : l.linkFrom cls member done rest = .ok (out, n))
    (hstart : P done rest) : P out [] := by
  induction rest generalizing done out n with
  | nil =>
    rw [linkFrom] at h
    cases h
    exact hstart
  | cons insn rest ih =>
    rw [linkFrom_cons] at h
    cases hadvance : l.advance done insn rest.head? with
    | error site =>
      rw [hadvance] at h
      cases h
    | ok step =>
      obtain ⟨done', k⟩ := step
      rw [hadvance] at h
      obtain ⟨⟨out', n'⟩, hlink, heq⟩ := Outcome.map_eq_ok.1 h
      obtain ⟨rfl, -⟩ := Prod.mk.inj heq
      exact ih hlink (hstep _ _ _ _ _ hstart hadvance)

/-! ### Members and trees -/

/-- A linked member has no instructions and is left alone, or has its instructions linked. -/
theorem linkMember_cases {m m' : Member} {n : ℕ} (h : l.linkMember cls m = .ok (m', n)) :
    (m' = m ∧ m.insns = []) ∨
      ∃ maxLocals insns linked, m.body = some (.code maxLocals insns) ∧
        l.linkBody cls m.name insns = .ok (linked, n) ∧
        m' = { m with body := some (.code maxLocals linked) } := by
  obtain ⟨name, desc, kind, isStatic, isSynthetic, access, body⟩ := m
  cases body with
  | none =>
    cases h
    exact .inl ⟨rfl, rfl⟩
  | some b =>
    obtain ⟨⟨linked, k⟩, hlink, h⟩ := Outcome.bind_eq_ok.1 h
    cases Outcome.pure_eq_ok.1 h
    cases b with
    | fails fault => exact .inl ⟨rfl, rfl⟩
    | code maxLocals insns => exact .inr ⟨maxLocals, insns, linked, rfl, hlink, rfl⟩

/-- A linked tree has its members linked and then its types renamed. -/
theorem exists_of_link_eq_ok {t t' : ClassTree} {n : ℕ} (h : l.link t = .ok (t', n)) :
    ∃ members, t' = (l.redirects.renameTypes { t with members := members }).1 ∧
      List.Forall₂ (fun m m' : Member ↦ ∃ k, l.linkMember t.name m = .ok (m', k))
        t.members members := by
  obtain ⟨linked, hlinked, h⟩ := Outcome.bind_eq_ok.1 h
  obtain ⟨rfl, -⟩ := Prod.mk.inj (Outcome.pure_eq_ok.1 h)
  refine ⟨linked.map (·.1), rfl, ?_⟩
  rw [List.forall₂_map_right_iff]
  exact (Outcome.mapM_eq_ok.1 hlinked).imp fun m r hlink ↦ ⟨r.2, hlink⟩

end ClassWeave.Linker
