import ClassWeave.Proofs.Link.Step

/-!
# The loop over a body

The linker takes the instructions done along and the rest of the body off the front. A program that
works in place has one list and a position instead: it inserts a cast behind the position, drops a
pair in front of it, and moves the position along. `Linker.turn?` is one turn of that loop, with
every position checked against the list, and `Linker.Runs` is the loop.

Where the position is the length of what is done, a turn does what one step of the linker does
(`Linker.turn?_append`): no check fails, since a turn drops only from what is done and leaves the
position behind what it adds. So the rest gets shorter by one with each turn, the loop ends, and it
looks at each instruction of the body once (`Linker.exists_endsInRange`). This takes replacements
that name a member (`Linker.RedirectsToMembers`), as those of a run do. A raw `DUP` in the place of a
call could be taken for the one of its own construction.
-/

namespace ClassWeave

namespace Linker

open Construction (findNew asConstructorCall? adapt)

variable {l : Linker} {insn replacement : Insn} {insns done rest : List Insn} {site : CallSite}
  {i : ℕ}

/-! ### Positions -/

/-- Exchanges the instruction at a position. -/
def replaceAt? (insns : List Insn) (i : ℕ) (insn : Insn) : Option (List Insn) :=
  if i < insns.length then some (insns.set i insn) else none

/-- Puts an instruction in front of a position, which may be the end. -/
def insertAt? (insns : List Insn) (i : ℕ) (insn : Insn) : Option (List Insn) :=
  if i ≤ insns.length then some (insns.take i ++ insn :: insns.drop i) else none

/-- Drops two instructions from a position on. -/
def dropPairAt? (insns : List Insn) (i : ℕ) : Option (List Insn) :=
  if i + 2 ≤ insns.length then some (insns.take i ++ insns.drop (i + 2)) else none

/-- Moves a position to the front. -/
def back? (i n : ℕ) : Option ℕ := if n ≤ i then some (i - n) else none

theorem getElem?_mid (done : List Insn) (insn : Insn) (rest : List Insn) :
    (done ++ insn :: rest)[done.length]? = some insn := by
  rw [List.getElem?_append_right (Nat.le_refl _), Nat.sub_self]
  rfl

theorem replaceAt?_mid (done : List Insn) (insn insn' : Insn) (rest : List Insn) :
    replaceAt? (done ++ insn :: rest) done.length insn' = some (done ++ insn' :: rest) := by
  have hlt : done.length < (done ++ insn :: rest).length := by
    rw [List.length_append, List.length_cons]
    omega
  rw [replaceAt?, if_pos hlt, List.set_append_right _ _ (Nat.le_refl _), Nat.sub_self]
  rfl

theorem insertAt?_mid (done : List Insn) (insn insn' : Insn) (rest : List Insn) :
    insertAt? (done ++ insn :: rest) (done.length + 1) insn' =
      some (done ++ insn :: insn' :: rest) := by
  have hle : done.length + 1 ≤ (done ++ insn :: rest).length := by
    rw [List.length_append, List.length_cons]
    omega
  have hlength : (done ++ [insn]).length = done.length + 1 := List.length_append
  rw [insertAt?, if_pos hle, List.append_cons done insn rest, List.take_left' hlength,
    List.drop_left' hlength]
  simp

theorem dropPairAt?_mid (front : List Insn) (insn insn' : Insn) (rest : List Insn) :
    dropPairAt? (front ++ insn :: insn' :: rest) front.length = some (front ++ rest) := by
  have hle : front.length + 2 ≤ (front ++ insn :: insn' :: rest).length := by
    simp only [List.length_append, List.length_cons]
    omega
  rw [dropPairAt?, if_pos hle, List.take_left, List.drop_append]
  simp

theorem back?_eq_some (n k : ℕ) : back? (n + k) k = some n := by
  rw [back?, if_pos (Nat.le_add_left k n), Nat.add_sub_cancel]

/-! ### One turn -/

/-- Where the loop stands after a turn, and the number of changes that the turn made. -/
structure Turn where
  insns : List Insn
  next : ℕ
  changes : ℕ

/-- Adapts the `NEW` of the constructor call of a class that was replaced at a position, and gives
the position of the replacement afterwards. Without a `NEW` there is nothing inside; where a
position is out of range there is nothing at all. -/
def adaptAt? (insns : List Insn) (i : ℕ) (c : ClassName) : Option (Option (List Insn × ℕ)) := do
  let replacement ← insns[i]?
  match findNew insns i c with
  | none => return none
  | some j =>
    match asConstructorCall? replacement with
    | some (owner, call) =>
      let insns ← replaceAt? insns i call
      return some (← replaceAt? insns j (.type .new owner), i)
    | none => return some (← dropPairAt? insns j, ← back? i 2)

/-- Puts the replacement of a call site at a position, with what comes along. -/
def redirectAt? (insns : List Insn) (i : ℕ) (site : CallSite) (replacement : Insn) :
    Option (Except CallSite Turn) := do
  let insns ← replaceAt? insns i replacement
  if site.isConstruction then
    match ← adaptAt? insns i site.owner with
    | none => return .error site
    | some (insns, i) => return .ok ⟨insns, i + 1, 1⟩
  else
    match returnCast? site replacement with
    | none => return .ok ⟨insns, i + 1, 1⟩
    | some cast =>
      if (insns[i + 1]?).any (·.isRaw "POP") then return .ok ⟨insns, i + 1, 1⟩
      else return .ok ⟨← insertAt? insns (i + 1) cast, i + 2, 2⟩

/-- One turn of the loop over a body. It fails with the site of a constructor call without a `NEW`,
and gives nothing where a position is out of range. -/
def turn? (l : Linker) (insns : List Insn) (i : ℕ) : Option (Except CallSite Turn) := do
  let insn ← insns[i]?
  match l.bridgeCast? insn with
  | some cast => return .ok ⟨← replaceAt? insns i cast, i + 1, 1⟩
  | none =>
    let declared := (l.demangle? insn).getD insn
    let insns ← replaceAt? insns i declared
    match l.redirectFor? declared with
    | none => return .ok ⟨insns, i + 1, if (l.demangle? insn).isSome then 1 else 0⟩
    | some (site, replacement) => redirectAt? insns i site replacement

/-- Every replacement of the table names a member. -/
def RedirectsToMembers (l : Linker) : Prop :=
  ∀ s replacement, l.redirects.get? s = some replacement → replacement.site?.isSome = true

theorem get?_of_redirectOn? {s : CallSite} {cs : List ClassName}
    (h : l.redirectOn? s cs = some (site, replacement)) :
    l.redirects.get? site = some replacement := by
  induction cs with
  | nil => cases h
  | cons c cs ih =>
    rw [redirectOn?] at h
    cases hget : l.redirects.get? { s with owner := c } with
    | some replacement' =>
      simp only [hget] at h
      cases h
      exact hget
    | none =>
      simp only [hget] at h
      split at h
      · cases h
      · exact ih h

/-- A redirect that is found is on record. -/
theorem get?_of_redirectFor? (h : l.redirectFor? insn = some (site, replacement)) :
    l.redirects.get? site = some replacement := by
  obtain ⟨s, -, h⟩ := Option.bind_eq_some_iff.1 h
  exact get?_of_redirectOn? h

/-- What stands behind a call has no part in the search for its `NEW`. -/
theorem findNew_append {front : List Insn} {c : ClassName} (h : i < front.length)
    (rest : List Insn) : findNew (front ++ rest) i c = findNew front i c := by
  ext j
  rw [Construction.findNew_eq_some_iff, Construction.findNew_eq_some_iff,
    Construction.opens_append h]

/-- **Adapting in place** does to the instructions up to the call what the linker does to those
done. -/
theorem adaptAt?_mid (hmember : replacement.site?.isSome = true) (done rest : List Insn)
    (c : ClassName) : adaptAt? (done ++ replacement :: rest) done.length c =
      some ((adapt done replacement c).map fun front ↦ (front ++ rest, front.length - 1)) := by
  have hfind : findNew (done ++ replacement :: rest) done.length c =
      findNew (done ++ [replacement]) done.length c := by
    rw [List.append_cons, findNew_append]
    rw [List.length_append]
    exact Nat.lt_succ_self _
  rw [adaptAt?, getElem?_mid, hfind]
  cases hopens : findNew (done ++ [replacement]) done.length c with
  | none =>
    rw [adapt, hopens]
    rfl
  | some j =>
    have hopens := Construction.findNew_eq_some_iff.1 hopens
    obtain ⟨front, text, middle, rfl, rfl, -⟩ := hopens.exists_eq_append hmember
    rw [hopens.adapt_eq, Construction.adaptedPair]
    cases hcall : asConstructorCall? replacement with
    | some call =>
      obtain ⟨owner, call⟩ := call
      have hnew : replaceAt? (front ++ .type .new c :: .raw text :: middle ++ call :: rest)
          front.length (.type .new owner) =
            some (front ++ .type .new owner :: .raw text :: middle ++ call :: rest) := by
        rw [List.append_assoc, List.append_assoc]
        exact replaceAt?_mid front _ _ (.raw text :: middle ++ call :: rest)
      simp only [Option.bind_eq_bind, Option.bind_some, Option.pure_def, hcall, replaceAt?_mid, hnew,
        Option.map_some]
      simp
    | none =>
      have hpair : dropPairAt? (front ++ .type .new c :: .raw text :: middle ++ replacement :: rest)
          front.length = some (front ++ (middle ++ replacement :: rest)) := by
        rw [List.append_assoc]
        exact dropPairAt?_mid front _ _ (middle ++ replacement :: rest)
      have hback : back? (front ++ .type .new c :: .raw text :: middle).length 2 =
          some (front ++ middle).length := by
        have hlength : (front ++ .type .new c :: .raw text :: middle).length =
            (front ++ middle).length + 2 := by
          simp only [List.length_append, List.length_cons]
          omega
        rw [hlength, back?_eq_some]
      simp only [Option.bind_eq_bind, Option.bind_some, Option.pure_def, hcall, hpair, hback,
        Option.map_some]
      simp

theorem head?_of_append (done : List Insn) (insn : Insn) (rest : List Insn) :
    (done ++ insn :: rest)[done.length + 1]? = rest.head? := by
  rw [List.append_cons, List.getElem?_append_right (by simp), List.head?_eq_getElem?]
  simp

/-- **A redirect in place** does behind the instructions done what the linker does. -/
theorem redirectAt?_mid (hmember : replacement.site?.isSome = true) (done : List Insn)
    (insn : Insn) (rest : List Insn) (site : CallSite) :
    redirectAt? (done ++ insn :: rest) done.length site replacement =
      some (match applyRedirect done site replacement rest.head? with
        | none => .error site
        | some (front, casts) => .ok ⟨front ++ rest, front.length, casts + 1⟩) := by
  rw [redirectAt?, replaceAt?_mid, applyRedirect]
  simp only [Option.bind_eq_bind, Option.bind_some, Option.pure_def]
  by_cases hsite : site.isConstruction = true
  · rw [if_pos hsite, if_pos hsite, adaptAt?_mid hmember]
    cases hadapt : adapt done replacement site.owner with
    | none => rfl
    | some front =>
      have hlength : front.length - 1 + 1 = front.length := by
        obtain ⟨j, hj, -⟩ := Option.map_eq_some_iff.1 hadapt
        obtain ⟨front', position, hfront, hposition, -⟩ :=
          (Construction.findNew_eq_some_iff.1 hj).exists_adapt hmember rest
        obtain rfl : front = front' := Option.some.inj (hadapt.symm.trans hfront)
        omega
      simp only [Option.map_some, Option.bind_some, hlength]
  · rw [if_neg hsite, if_neg hsite]
    cases returnCast? site replacement with
    | none => simp
    | some cast =>
      simp only [head?_of_append, insertAt?_mid]
      split
      · simp
      · simp

/-- **A turn is a step of the linker**, at the position where the instructions done end. No position
is out of range. -/
theorem turn?_append (hmembers : l.RedirectsToMembers) (done : List Insn) (insn : Insn)
    (rest : List Insn) : l.turn? (done ++ insn :: rest) done.length =
      some ((l.advance done insn rest.head?).map fun r ↦ ⟨r.1 ++ rest, r.1.length, r.2⟩) := by
  rw [turn?, getElem?_mid, advance]
  simp only [Option.bind_eq_bind, Option.bind_some, Option.pure_def]
  cases hbridge : l.bridgeCast? insn with
  | some cast =>
    simp only [replaceAt?_mid, Option.bind_some, Except.map, List.length_append,
      List.length_singleton, List.append_assoc, List.singleton_append]
  | none =>
    simp only [replaceAt?_mid, Option.bind_some]
    cases hredirect : l.redirectFor? ((l.demangle? insn).getD insn) with
    | none =>
      simp only [Except.map, List.length_append, List.length_singleton, List.append_assoc,
        List.singleton_append]
    | some found =>
      obtain ⟨site, replacement⟩ := found
      dsimp only
      rw [redirectAt?_mid (hmembers _ _ (get?_of_redirectFor? hredirect))]
      cases applyRedirect done site replacement rest.head? with
      | none => rfl
      | some applied => rfl

/-! ### The whole loop -/

/-- The loop from a position on: the instructions that it looks at, one for each turn, and how it
ends. -/
inductive Runs (l : Linker) :
    List Insn → ℕ → List Insn → Except CallSite (List Insn × ℕ) → Prop where
  | finished {insns : List Insn} {i : ℕ} (hend : insns.length ≤ i) :
      Runs l insns i [] (.ok (insns, 0))
  | turn {insns examined : List Insn} {i : ℕ} {insn : Insn} {t : Turn}
      {out : Except CallSite (List Insn × ℕ)} (hget : insns[i]? = some insn)
      (hturn : l.turn? insns i = some (.ok t)) (hrest : Runs l t.insns t.next examined out) :
      Runs l insns i (insn :: examined) (out.map fun r ↦ (r.1, r.2 + t.changes))
  | unmatched {insns : List Insn} {i : ℕ} {insn : Insn} {site : CallSite}
      (hget : insns[i]? = some insn) (hturn : l.turn? insns i = some (.error site)) :
      Runs l insns i [insn] (.error site)

/-- **The loop does not branch.** -/
theorem Runs.unique {examined examined' : List Insn} {out out' : Except CallSite (List Insn × ℕ)}
    (h : l.Runs insns i examined out) (h' : l.Runs insns i examined' out') :
    examined = examined' ∧ out = out' := by
  induction h generalizing examined' out' with
  | finished hend =>
    have hnone := List.getElem?_eq_none hend
    cases h' with
    | finished _ => exact ⟨rfl, rfl⟩
    | turn hget _ _ | unmatched hget _ =>
      rw [hnone] at hget
      cases hget
  | turn hget hturn _ ih =>
    cases h' with
    | finished hend =>
      rw [List.getElem?_eq_none hend] at hget
      cases hget
    | turn hget' hturn' hrest' =>
      obtain rfl := Option.some.inj (hget.symm.trans hget')
      obtain rfl := Except.ok.inj (Option.some.inj (hturn.symm.trans hturn'))
      obtain ⟨rfl, rfl⟩ := ih hrest'
      exact ⟨rfl, rfl⟩
    | unmatched _ hturn' => cases hturn.symm.trans hturn'
  | unmatched hget hturn =>
    cases h' with
    | finished hend =>
      rw [List.getElem?_eq_none hend] at hget
      cases hget
    | turn _ hturn' _ => cases hturn.symm.trans hturn'
    | unmatched hget' hturn' =>
      obtain rfl := Option.some.inj (hget.symm.trans hget')
      cases hturn.symm.trans hturn'
      exact ⟨rfl, rfl⟩

/-- **The loop ends with what the linker gives.** It looks at the instructions of the rest in their
order, and at all of them unless it fails. -/
theorem exists_runs_linkFrom (hmembers : l.RedirectsToMembers) (cls : ClassName) (member : String)
    (done rest : List Insn) : ∃ examined out, l.Runs (done ++ rest) done.length examined out ∧
      examined <+: rest ∧ (∀ r, out = .ok r → examined = rest) ∧
      l.linkFrom cls member done rest =
        out.mapError fun site ↦ .unmatchedConstructor cls member site.text := by
  induction rest generalizing done with
  | nil =>
    rw [List.append_nil]
    exact ⟨[], _, .finished (Nat.le_refl _), List.prefix_rfl, fun _ _ ↦ rfl, rfl⟩
  | cons insn rest ih =>
    have hget := getElem?_mid done insn rest
    have hturn := turn?_append hmembers done insn rest
    rw [linkFrom_cons]
    cases hadvance : l.advance done insn rest.head? with
    | error site =>
      rw [hadvance] at hturn
      exact ⟨[insn], _, .unmatched hget hturn, List.cons_prefix_cons.2 ⟨rfl, List.nil_prefix⟩,
        fun r h ↦ (nomatch h), rfl⟩
    | ok step =>
      obtain ⟨done', n⟩ := step
      rw [hadvance] at hturn
      obtain ⟨examined, out, hrest, hprefix, hall, hout⟩ := ih done'
      refine ⟨insn :: examined, _, .turn hget hturn hrest, List.cons_prefix_cons.2 ⟨rfl, hprefix⟩,
        fun r h ↦ ?_, ?_⟩
      · cases out with
        | ok r' => rw [hall r' rfl]
        | error site => cases h
      · dsimp only
        rw [hout]
        cases out with
        | ok r' => rfl
        | error site => rfl

/-- The loop over a body ends in range and as linking the body does. It looks at the instructions of
the body one after the other, and at all of them unless it fails. -/
structure EndsInRange (l : Linker) (cls : ClassName) (member : String)
    (insns examined : List Insn) (out : Except CallSite (List Insn × ℕ)) : Prop where
  runs : l.Runs insns 0 examined out
  inOrder : examined <+: insns
  complete : ∀ r, out = .ok r → examined = insns
  outcome : l.linkBody cls member insns =
    out.mapError fun site ↦ .unmatchedConstructor cls member site.text

/-- **The loop over a body ends in range**, whatever the body and the index are. -/
theorem exists_endsInRange (hmembers : l.RedirectsToMembers) (cls : ClassName) (member : String)
    (insns : List Insn) : ∃ examined out, l.EndsInRange cls member insns examined out := by
  obtain ⟨examined, out, hruns, hprefix, hall, hout⟩ :=
    exists_runs_linkFrom hmembers cls member [] insns
  exact ⟨examined, out, hruns, hprefix, hall, hout⟩

end Linker

end ClassWeave
