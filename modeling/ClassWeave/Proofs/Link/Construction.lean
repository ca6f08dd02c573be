import ClassWeave.Link.Basic
import Mathlib.Data.List.Basic

/-!
# The construction that a constructor call ends

A constructor call and the `NEW` of its object are a pair of brackets, and constructions nest. The
search for the `NEW` of a call goes backwards and counts the calls that still wait for theirs. What
it finds is said here without a count (`Construction.Opens`): a `NEW` with its `DUP`, such that the
segment between it and the call closes every other `NEW` of the class in itself.

The count of the search is what the segment behind its place has left over (`Closes`). So there is
one lemma for each kind of instruction that the search may stand at, and one induction over the
search, which gives both directions (`findNewBefore_eq_some_iff`). That a call ends no more than one
construction follows, since a search has one result.

A redirected call takes its `NEW` along (`construction_adapted`). The linker knows the instructions
up to the call only; those behind it have no part in what is open there (`opens_append`).
-/

namespace ClassWeave

namespace Construction

variable {insns segment : List Insn} {insn : Insn} {c : ClassName}
  {position depth n j : ℕ}

/-! ### Brackets -/

/-- The call of a constructor of a class. -/
def constructorCall (c : ClassName) (desc : String) : Insn :=
  .member (.invoke .special) c constructorName desc

/-- Read from its end, a segment never has more `NEW`s of the class than calls of its constructors,
and has as many in all. The calls include `depth` that stand behind the segment and wait. -/
structure Closes (c : ClassName) (depth : ℕ) (segment : List Insn) : Prop where
  total : segment.countP (·.isNew c) = segment.countP (·.constructs c) + depth
  suffix : ∀ tail, tail <:+ segment →
    tail.countP (·.isNew c) ≤ tail.countP (·.constructs c) + depth

/-- The instructions strictly between two positions. -/
def between (insns : List Insn) (j position : ℕ) : List Insn := (insns.take position).drop (j + 1)

/-- A raw `DUP` stands at a position. -/
def IsDup (insns : List Insn) (n : ℕ) : Prop :=
  ∃ text, insns[n]? = some (.raw text) ∧ (Insn.raw text).isRaw "DUP" = true

/-- A construction of the class that is opened at `j` is the innermost one that is still open at a
position, once `depth` calls behind the position have ended theirs. -/
structure Opens (insns : List Insn) (c : ClassName) (depth position j : ℕ) : Prop where
  lt : j < position
  isNew : insns[j]? = some (.type .new c)
  isDup : IsDup insns (j + 1)
  closes : Closes c depth (between insns j position)

theorem isNew_iff : insn.isNew c = true ↔ insn = .type .new c := by
  cases insn with
  | member use owner name desc => simp [Insn.isNew]
  | type use cls => cases use <;> simp [Insn.isNew]
  | raw text => simp [Insn.isNew]

theorem constructs_iff : insn.constructs c = true ↔ ∃ desc, insn = constructorCall c desc := by
  cases insn with
  | member use owner name desc =>
    cases use with
    | field access => simp [Insn.constructs, constructorCall]
    | invoke kind => cases kind <;> simp [Insn.constructs, constructorCall]
  | type use cls => simp [Insn.constructs, constructorCall]
  | raw text => simp [Insn.constructs, constructorCall]

theorem constructs_constructorCall {desc : String} :
    (constructorCall c desc).constructs c = true :=
  constructs_iff.2 ⟨desc, rfl⟩

/-- A `NEW` calls no constructor. -/
theorem isNew_eq_false_of_constructs (h : insn.constructs c = true) : insn.isNew c = false := by
  obtain ⟨desc, rfl⟩ := constructs_iff.1 h
  rfl

theorem isDup_iff : IsDup insns n ↔ (insns[n]?).any (·.isRaw "DUP") = true := by
  rw [IsDup, Option.any_eq_true]
  constructor
  · rintro ⟨text, hget, hraw⟩
    exact ⟨_, hget, hraw⟩
  · rintro ⟨insn, hget, hraw⟩
    cases insn with
    | raw text => exact ⟨text, hget, hraw⟩
    | member use owner name desc => cases hraw
    | type use cls => cases hraw

theorem closes_nil : Closes c depth [] ↔ depth = 0 := by
  constructor
  · intro h
    have htotal := h.total
    rw [List.countP_nil, List.countP_nil] at htotal
    omega
  · rintro rfl
    refine ⟨rfl, fun tail htail ↦ ?_⟩
    rw [List.suffix_nil.1 htail]
    exact Nat.le_refl _

/-- A suffix of a segment with one more instruction is empty or ends in that instruction. -/
theorem closes_concat : Closes c depth (segment ++ [insn]) ↔
    (segment ++ [insn]).countP (·.isNew c) = (segment ++ [insn]).countP (·.constructs c) + depth ∧
      ∀ tail, tail <:+ segment →
        (tail ++ [insn]).countP (·.isNew c) ≤ (tail ++ [insn]).countP (·.constructs c) + depth := by
  constructor
  · intro h
    exact ⟨h.total, fun tail htail ↦
      h.suffix _ (List.suffix_concat_iff.2 (.inr ⟨tail, rfl, htail⟩))⟩
  · rintro ⟨htotal, hsuffix⟩
    refine ⟨htotal, fun tail htail ↦ ?_⟩
    rcases List.suffix_concat_iff.1 htail with rfl | ⟨tail, rfl, hprefix⟩
    · exact Nat.zero_le _
    · exact hsuffix tail hprefix

/-- A call at the end of a segment waits for one more `NEW`. -/
theorem closes_concat_of_constructs (h : insn.constructs c = true) :
    Closes c depth (segment ++ [insn]) ↔ Closes c (depth + 1) segment := by
  have hnew := isNew_eq_false_of_constructs h
  rw [closes_concat]
  simp only [List.countP_append, List.countP_singleton, h, hnew, if_true, Bool.false_eq_true,
    if_false, Nat.add_zero, Nat.add_assoc, Nat.add_comm 1 depth]
  exact ⟨fun ⟨htotal, hsuffix⟩ ↦ ⟨htotal, hsuffix⟩, fun h ↦ ⟨h.total, h.suffix⟩⟩

/-- A `NEW` at the end of a segment is taken by one of the calls that wait. -/
theorem closes_concat_new : Closes c depth (segment ++ [.type .new c]) ↔
    ∃ d, depth = d + 1 ∧ Closes c d segment := by
  have hnew : (Insn.type .new c).isNew c = true := isNew_iff.2 rfl
  have hcall : (Insn.type .new c).constructs c = false := rfl
  rw [closes_concat]
  simp only [List.countP_append, List.countP_singleton, hnew, hcall, if_true, Bool.false_eq_true,
    if_false, Nat.add_zero]
  constructor
  · rintro ⟨htotal, hsuffix⟩
    have hself := hsuffix [] List.nil_suffix
    rw [List.countP_nil, List.countP_nil] at hself
    refine ⟨depth - 1, by omega, by omega, fun tail htail ↦ ?_⟩
    have hle := hsuffix tail htail
    omega
  · rintro ⟨d, rfl, h⟩
    refine ⟨by rw [h.total, Nat.add_assoc], fun tail htail ↦ ?_⟩
    have hle := h.suffix tail htail
    omega

/-- Any other instruction counts for nothing. -/
theorem closes_concat_of_neither (hcall : ¬ insn.constructs c = true)
    (hnew : ¬ insn.isNew c = true) :
    Closes c depth (segment ++ [insn]) ↔ Closes c depth segment := by
  rw [closes_concat]
  simp only [List.countP_append, List.countP_singleton, hcall, hnew, Bool.false_eq_true, if_false,
    Nat.add_zero]
  exact ⟨fun ⟨htotal, hsuffix⟩ ↦ ⟨htotal, hsuffix⟩, fun h ↦ ⟨h.total, h.suffix⟩⟩

/-! ### One position more -/

theorem between_self (insns : List Insn) (n : ℕ) : between insns n (n + 1) = [] := by
  rw [between, List.drop_eq_nil_iff]
  exact List.length_take_le _ _

theorem between_succ (h : j < n) (hn : insns[n]? = some insn) :
    between insns j (n + 1) = between insns j n ++ [insn] := by
  have hlength : n < insns.length := (List.getElem?_eq_some_iff.1 hn).1
  rw [between, List.take_add_one, hn, List.drop_append_of_le_length]
  · rfl
  · rw [List.length_take]
    omega

/-- A construction that is open one position further on is opened at that position, where no call
waits, or before it. -/
theorem opens_succ (hn : insns[n]? = some insn) : Opens insns c depth (n + 1) j ↔
    (j = n ∧ insn = .type .new c ∧ IsDup insns (n + 1) ∧ depth = 0) ∨
      (j < n ∧ insns[j]? = some (.type .new c) ∧ IsDup insns (j + 1) ∧
        Closes c depth (between insns j n ++ [insn])) := by
  constructor
  · rintro ⟨hlt, hnew, hdup, hcloses⟩
    rcases Nat.lt_succ_iff_lt_or_eq.1 hlt with hlt | rfl
    · exact .inr ⟨hlt, hnew, hdup, between_succ hlt hn ▸ hcloses⟩
    · rw [between_self, closes_nil] at hcloses
      exact .inl ⟨rfl, Option.some.inj (hn.symm.trans hnew), hdup, hcloses⟩
  · rintro (⟨rfl, rfl, hdup, hdepth⟩ | ⟨hlt, hnew, hdup, hcloses⟩)
    · refine ⟨Nat.lt_succ_self j, hn, hdup, ?_⟩
      rwa [between_self, closes_nil]
    · exact ⟨Nat.lt_succ_of_lt hlt, hnew, hdup, (between_succ hlt hn).symm ▸ hcloses⟩

/-- Across an instruction that is no `NEW`, only the number of calls that wait may change. -/
theorem opens_succ_of_ne {depth' : ℕ} (hn : insns[n]? = some insn) (hnew : ¬ insn.isNew c = true)
    (hcloses : ∀ segment, Closes c depth (segment ++ [insn]) ↔ Closes c depth' segment) :
    Opens insns c depth (n + 1) j ↔ Opens insns c depth' n j := by
  rw [opens_succ hn, or_iff_right fun h ↦ hnew (isNew_iff.2 h.2.1), hcloses]
  exact ⟨fun ⟨hlt, hnew, hdup, hcloses⟩ ↦ ⟨hlt, hnew, hdup, hcloses⟩,
    fun h ↦ ⟨h.lt, h.isNew, h.isDup, h.closes⟩⟩

/-- A `NEW` is the one that is looked for if no other call waits, -/
theorem opens_zero_succ_of_new (hn : insns[n]? = some (.type .new c)) :
    Opens insns c 0 (n + 1) j ↔ j = n ∧ IsDup insns (n + 1) := by
  rw [opens_succ hn, or_iff_left]
  · simp only [true_and, and_true]
  · rintro ⟨-, -, -, hcloses⟩
    obtain ⟨d, hd, -⟩ := closes_concat_new.1 hcloses
    cases hd

/-- and else belongs to the last of those. -/
theorem opens_succ_succ_of_new (hn : insns[n]? = some (.type .new c)) :
    Opens insns c (depth + 1) (n + 1) j ↔ Opens insns c depth n j := by
  rw [opens_succ hn, or_iff_right fun h ↦ Nat.succ_ne_zero _ h.2.2.2, closes_concat_new]
  constructor
  · rintro ⟨hlt, hnew, hdup, d, hd, hcloses⟩
    exact ⟨hlt, hnew, hdup, Nat.succ.inj hd ▸ hcloses⟩
  · rintro ⟨hlt, hnew, hdup, hcloses⟩
    exact ⟨hlt, hnew, hdup, depth, rfl, hcloses⟩

/-- Behind the end of the body there is nothing to be opened. -/
theorem opens_succ_of_none (hn : insns[n]? = none) :
    Opens insns c depth (n + 1) j ↔ Opens insns c depth n j := by
  have hbetween : between insns j (n + 1) = between insns j n := by
    rw [between, List.take_add_one, hn, Option.toList_none, List.append_nil, between]
  constructor
  · rintro ⟨hlt, hnew, hdup, hcloses⟩
    refine ⟨(Nat.lt_succ_iff_lt_or_eq.1 hlt).resolve_right ?_, hnew, hdup, hbetween ▸ hcloses⟩
    rintro rfl
    rw [hn] at hnew
    cases hnew
  · rintro ⟨hlt, hnew, hdup, hcloses⟩
    exact ⟨Nat.lt_succ_of_lt hlt, hnew, hdup, hbetween.symm ▸ hcloses⟩

/-! ### The search -/

/-- **What the search finds**, with `depth` calls waiting behind the place where it starts. -/
theorem findNewBefore_eq_some_iff :
    findNewBefore insns c n depth = some j ↔ Opens insns c depth n j := by
  fun_induction findNewBefore insns c n depth with
  | case1 depth => exact iff_of_false (fun h ↦ nomatch h) fun h ↦ Nat.not_lt_zero _ h.lt
  | case2 n depth hn ih => rw [ih, opens_succ_of_none hn]
  | case3 n depth insn hn hcall ih =>
    have hnew := isNew_eq_false_of_constructs hcall
    rw [ih, opens_succ_of_ne hn (Bool.eq_false_iff.1 hnew)
      fun _ ↦ closes_concat_of_constructs hcall]
  | case4 n insn hn hcall hnew depth ih => rw [ih, opens_succ_succ_of_new (isNew_iff.1 hnew ▸ hn)]
  | case5 n insn hn hcall hnew hdup =>
    rw [opens_zero_succ_of_new (isNew_iff.1 hnew ▸ hn), isDup_iff, Option.some.injEq, eq_comm]
    exact (and_iff_left hdup).symm
  | case6 n insn hn hcall hnew hdup =>
    rw [opens_zero_succ_of_new (isNew_iff.1 hnew ▸ hn), isDup_iff]
    exact iff_of_false (fun h ↦ nomatch h) fun h ↦ hdup h.2
  | case7 n depth insn hn hcall hnew ih =>
    rw [ih, opens_succ_of_ne hn hnew fun _ ↦ closes_concat_of_neither hcall hnew]

/-- **The search finds the `NEW` that opens the construction.** -/
theorem findNew_eq_some_iff : findNew insns position c = some j ↔ Opens insns c 0 position j :=
  findNewBefore_eq_some_iff

theorem findNew_eq_none_iff : findNew insns position c = none ↔
    ∀ j, ¬ Opens insns c 0 position j := by
  rw [Option.eq_none_iff_forall_ne_some]
  exact forall_congr' fun j ↦ not_congr findNew_eq_some_iff

/-! ### What a redirected call does to its construction -/

/-- What stands behind a position has no part in what is open there. -/
theorem opens_append {front : List Insn} (h : position < front.length) (rest : List Insn) :
    Opens (front ++ rest) c depth position j ↔ Opens front c depth position j := by
  have hbetween : between (front ++ rest) j position = between front j position := by
    rw [between, between, List.take_append_of_le_length (Nat.le_of_lt h)]
  have hget : ∀ i, i ≤ position → (front ++ rest)[i]? = front[i]? := fun i hi ↦
    List.getElem?_append_left (Nat.lt_of_le_of_lt hi h)
  constructor
  · rintro ⟨hlt, hnew, ⟨text, hdup, hraw⟩, hcloses⟩
    exact ⟨hlt, hget j (Nat.le_of_lt hlt) ▸ hnew, ⟨text, hget _ hlt ▸ hdup, hraw⟩,
      hbetween ▸ hcloses⟩
  · rintro ⟨hlt, hnew, ⟨text, hdup, hraw⟩, hcloses⟩
    exact ⟨hlt, (hget j (Nat.le_of_lt hlt)).trans hnew, ⟨text, (hget _ hlt).trans hdup, hraw⟩,
      hbetween.symm ▸ hcloses⟩

/-- What becomes of a body when the construction that is opened at a position goes to another
instruction, and where that instruction, which is in the place of the call, stands afterwards. -/
inductive Adapted : (before : List Insn) → (position j : ℕ) → (after : List Insn) → ℕ → Prop where
  /-- Another constructor gets a `NEW` of its own class. -/
  | retargeted (front middle rest : List Insn) (new dup : Insn) (kind : InvokeKind)
      (owner : ClassName) (desc : String) :
      Adapted
        (front ++ new :: dup :: middle ++ .member (.invoke kind) owner constructorName desc :: rest)
        (front.length + 2 + middle.length) front.length
        (front ++ .type .new owner :: dup :: middle ++ constructorCall owner desc :: rest)
        (front.length + 2 + middle.length)
  /-- Anything else goes without the pair. -/
  | dropped (front middle rest : List Insn) (new dup replacement : Insn)
      (h : asConstructorCall? replacement = none) :
      Adapted (front ++ new :: dup :: middle ++ replacement :: rest)
        (front.length + 2 + middle.length) front.length
        (front ++ middle ++ replacement :: rest) (front.length + middle.length)

theorem asConstructorCall?_eq_some_iff {owner : ClassName} {call : Insn} :
    asConstructorCall? insn = some (owner, call) ↔
      ∃ kind desc, insn = .member (.invoke kind) owner constructorName desc ∧
        call = constructorCall owner desc := by
  cases insn with
  | member use owner' name desc =>
    cases use with
    | field access => simp [asConstructorCall?]
    | invoke kind =>
      by_cases hname : name = constructorName
      · subst hname
        simp only [asConstructorCall?, if_true, Option.some.injEq, Prod.mk.injEq]
        constructor
        · rintro ⟨rfl, rfl⟩
          exact ⟨kind, desc, rfl, rfl⟩
        · rintro ⟨_, _, h, rfl⟩
          cases h
          exact ⟨rfl, rfl⟩
      · simp only [asConstructorCall?, if_neg hname]
        refine iff_of_false ?_ ?_
        · intro h
          cases h
        · rintro ⟨_, _, h, -⟩
          cases h
          exact hname rfl
  | type use cls => simp [asConstructorCall?]
  | raw text => simp [asConstructorCall?]

/-- The instructions in front of a call, around the pair that opens its construction. Of the pair,
neither is the call itself. -/
theorem Opens.exists_eq_append {done : List Insn} {replacement : Insn}
    (h : Opens (done ++ [replacement]) c depth done.length j)
    (hmember : replacement.site?.isSome = true) :
    ∃ front text middle, done = front ++ .type .new c :: .raw text :: middle ∧
      front.length = j ∧ (Insn.raw text).isRaw "DUP" = true := by
  obtain ⟨hlt, hnew, ⟨text, hdup, hraw⟩, -⟩ := h
  rw [List.getElem?_append_left hlt] at hnew
  have hlt' : j + 1 < done.length := by
    refine Nat.lt_of_le_of_ne hlt fun heq ↦ ?_
    rw [heq, List.getElem?_concat_length] at hdup
    cases hdup
    cases hmember
  rw [List.getElem?_append_left hlt'] at hdup
  obtain ⟨_, hnew⟩ := List.getElem?_eq_some_iff.1 hnew
  obtain ⟨_, hdup⟩ := List.getElem?_eq_some_iff.1 hdup
  refine ⟨done.take j, text, done.drop (j + 2), ?_, ?_, hraw⟩
  · conv_lhs => rw [← List.take_append_drop j done, List.drop_eq_getElem_cons hlt, hnew,
      List.drop_eq_getElem_cons hlt', hdup]
  · rw [List.length_take]
    omega

/-- What a replacement makes of the instructions in front of it, around the pair that it takes
along. -/
def adaptedPair (front middle : List Insn) (text : String) (replacement : Insn) : List Insn :=
  match asConstructorCall? replacement with
  | some (owner, call) => front ++ .type .new owner :: .raw text :: middle ++ [call]
  | none => front ++ middle ++ [replacement]

/-- The pair that opens a construction is adapted where it stands. -/
theorem Opens.adapt_eq {front middle : List Insn} {text : String} {replacement : Insn}
    (h : Opens (front ++ .type .new c :: .raw text :: middle ++ [replacement]) c 0
      (front ++ .type .new c :: .raw text :: middle).length front.length) :
    adapt (front ++ .type .new c :: .raw text :: middle) replacement c =
      some (adaptedPair front middle text replacement) := by
  rw [adapt, findNew_eq_some_iff.2 h, Option.map_some, adaptedPair]
  cases asConstructorCall? replacement with
  | some call => simp
  | none => simp

/-- **A construction that is found is adapted, and nothing else changes.** -/
theorem Opens.exists_adapt {done : List Insn} {replacement : Insn}
    (h : Opens (done ++ [replacement]) c 0 done.length j)
    (hmember : replacement.site?.isSome = true) (rest : List Insn) :
    ∃ front position, adapt done replacement c = some front ∧ front.length = position + 1 ∧
      Adapted (done ++ replacement :: rest) done.length j (front ++ rest) position := by
  obtain ⟨front, text, middle, rfl, rfl, -⟩ := h.exists_eq_append hmember
  have hlength : (front ++ .type .new c :: .raw text :: middle).length =
      front.length + 2 + middle.length := by
    simp only [List.length_append, List.length_cons]
    omega
  cases hcall : asConstructorCall? replacement with
  | some call =>
    obtain ⟨owner, call⟩ := call
    obtain ⟨kind, desc, rfl, rfl⟩ := asConstructorCall?_eq_some_iff.1 hcall
    refine ⟨_, front.length + 2 + middle.length, h.adapt_eq, ?_, ?_⟩
    · rw [adaptedPair, hcall]
      simp only [List.length_append, List.length_cons, List.length_nil]
      omega
    · have hadapted :=
        Adapted.retargeted front middle rest (.type .new c) (.raw text) kind owner desc
      rw [hlength, adaptedPair, hcall]
      simpa using hadapted
  | none =>
    refine ⟨_, front.length + middle.length, h.adapt_eq, ?_, ?_⟩
    · rw [adaptedPair, hcall]
      simp only [List.length_append, List.length_cons, List.length_nil, Nat.add_assoc]
    · have hadapted :=
        Adapted.dropped front middle rest (.type .new c) (.raw text) replacement hcall
      rw [hlength, adaptedPair, hcall]
      simpa using hadapted

theorem adapt_eq_none {done : List Insn} {replacement : Insn}
    (h : ∀ j, ¬ Opens (done ++ [replacement]) c 0 done.length j) :
    adapt done replacement c = none := by
  rw [adapt, findNew_eq_none_iff.2 h, Option.map_none]

end Construction

/-! ### The linker -/

namespace Linker

variable {l : Linker} {insn replacement : Insn} {site : CallSite} {done rest : List Insn}

/-- An instruction is no bridge call, and under its declared name it is the site of a redirect. -/
def Redirects (l : Linker) (insn : Insn) (site : CallSite) (replacement : Insn) : Prop :=
  l.bridgeCast? insn = none ∧
    l.redirectFor? ((l.demangle? insn).getD insn) = some (site, replacement)

instance (l : Linker) (insn : Insn) (site : CallSite) (replacement : Insn) :
    Decidable (l.Redirects insn site replacement) :=
  inferInstanceAs (Decidable (_ ∧ _))

/-- A redirected instruction is replaced, and linking goes on behind it unless the replacement
cannot be put in place. -/
theorem linkFrom_cons_of_redirects (h : l.Redirects insn site replacement) (cls : ClassName)
    (member : String) (done rest : List Insn) :
    l.linkFrom cls member done (insn :: rest) =
      match applyRedirect done site replacement rest.head? with
      | none => .error (.unmatchedConstructor cls member site.text)
      | some (done, casts) =>
        (fun r ↦ (r.1, r.2 + casts + 1)) <$> l.linkFrom cls member done rest := by
  rw [linkFrom, h.1]
  dsimp only
  rewrite [h.2]
  rfl

/-- **A redirected constructor call fails without its construction** and otherwise goes on with the
adapted one. -/
theorem linkFrom_cons_of_construction (h : l.Redirects insn site replacement)
    (hsite : site.isConstruction = true) (cls : ClassName) (member : String)
    (done rest : List Insn) :
    l.linkFrom cls member done (insn :: rest) =
      match Construction.adapt done replacement site.owner with
      | none => .error (.unmatchedConstructor cls member site.text)
      | some done => (fun r ↦ (r.1, r.2 + 1)) <$> l.linkFrom cls member done rest := by
  rw [linkFrom_cons_of_redirects h, applyRedirect, if_pos hsite]
  cases Construction.adapt done replacement site.owner with
  | none => rfl
  | some done => rfl

end Linker

namespace Construction

variable {insns : List Insn} {use : MemberUse} {owner : ClassName} {name desc : String}
  {position : ℕ}

/-- **A redirected constructor call is paired with its own `NEW`.** The search finds the one `NEW`
that opens the construction which the call ends. With it, either the `NEW` is retargeted and the
call is made special, or the pair goes, and linking continues behind the replacement; without it,
linking fails. -/
theorem construction_adapted (hinsn : insns[position]? = some (.member use owner name desc))
    (c : ClassName) :
    (∀ j, findNew insns position c = some j ↔ Opens insns c 0 position j) ∧
    (∀ j k, Opens insns c 0 position j → Opens insns c 0 position k → j = k) ∧
    (∀ j, Opens insns c 0 position j → ∃ front position',
      adapt (insns.take position) (.member use owner name desc) c = some front ∧
      front.length = position' + 1 ∧
      Adapted insns position j (front ++ insns.drop (position + 1)) position' ∧
      ∀ (l : Linker) (cls : ClassName) (member : String) (site : CallSite) (before : Insn),
        l.Redirects before site (.member use owner name desc) → site.isConstruction = true →
        site.owner = c →
        l.linkFrom cls member (insns.take position) (before :: insns.drop (position + 1)) =
          (fun r ↦ (r.1, r.2 + 1)) <$>
            l.linkFrom cls member front (insns.drop (position + 1))) ∧
    ((∀ j, ¬ Opens insns c 0 position j) →
      adapt (insns.take position) (.member use owner name desc) c = none ∧
      ∀ (l : Linker) (cls : ClassName) (member : String) (site : CallSite) (before : Insn),
        l.Redirects before site (.member use owner name desc) → site.isConstruction = true →
        site.owner = c →
        l.linkFrom cls member (insns.take position) (before :: insns.drop (position + 1)) =
          .error (.unmatchedConstructor cls member site.text)) := by
  obtain ⟨hlt, hget⟩ := List.getElem?_eq_some_iff.1 hinsn
  have hlength : (insns.take position).length = position :=
    List.length_take_of_le (Nat.le_of_lt hlt)
  have hsplit : insns.take position ++ .member use owner name desc :: insns.drop (position + 1) =
      insns := by
    rw [← hget, ← List.drop_eq_getElem_cons hlt, List.take_append_drop]
  -- what the linker knows, the instructions up to the call, opens the same constructions
  have hopens : ∀ j, Opens (insns.take position ++ [.member use owner name desc]) c 0
      (insns.take position).length j ↔ Opens insns c 0 position j := by
    intro j
    rw [← opens_append (by simp) (insns.drop (position + 1)), List.append_assoc,
      List.singleton_append, hsplit, hlength]
  refine ⟨fun _ ↦ findNew_eq_some_iff, fun j k hj hk ↦ ?_, fun j hj ↦ ?_, fun hnone ↦ ?_⟩
  · exact Option.some.inj ((findNew_eq_some_iff.2 hj).symm.trans (findNew_eq_some_iff.2 hk))
  · obtain ⟨front, position', hadapt, hfront, hadapted⟩ :=
      ((hopens j).2 hj).exists_adapt rfl (insns.drop (position + 1))
    rw [hsplit, hlength] at hadapted
    refine ⟨front, position', hadapt, hfront, hadapted, ?_⟩
    rintro l cls member site before hredirects hsite rfl
    rw [Linker.linkFrom_cons_of_construction hredirects hsite, hadapt]
  · have hadapt := adapt_eq_none fun j ↦ mt (hopens j).1 (hnone j)
    refine ⟨hadapt, ?_⟩
    rintro l cls member site before hredirects hsite rfl
    rw [Linker.linkFrom_cons_of_construction hredirects hsite, hadapt]

/-- A call of a method of `x/Compat`. -/
def compatCall (name desc : String) : Insn := .member (.invoke .static) ⟨"x/Compat"⟩ name desc

/-- An object of `x/B` made of another one, whose construction is nested in the first. The outer
constructor call is replaced already. -/
def nestedWraps : List Insn :=
  [.type .new ⟨"x/B"⟩, .raw "DUP", .type .new ⟨"x/B"⟩, .raw "DUP",
    constructorCall ⟨"x/B"⟩ "()V", compatCall "wrap" "(Lx/B;)Lx/B;",
    .raw "ARETURN"]

/-- A constructor call of `x/B` that ends no construction, replaced already. -/
def loneFactory : List Insn := [.raw "ALOAD 0", compatCall "make" "()Lx/B;", .raw "RETURN"]

/-- The linker that has a factory for each object of `x/B`. -/
def factoryLinker : Linker :=
  ⟨.empty, .ofList [⟨⟨⟨"x/B"⟩, constructorName, "()V", .call⟩, compatCall "make" "()Lx/B;"⟩], ⟨"b"⟩⟩

theorem construction_adapted_nestedWraps :
    (nestedWraps[5]? = some (compatCall "wrap" "(Lx/B;)Lx/B;") ∧
      ∃ front position', adapt (nestedWraps.take 5) (compatCall "wrap" "(Lx/B;)Lx/B;") ⟨"x/B"⟩ =
          some front ∧ front.length = position' + 1 ∧
        Adapted nestedWraps 5 0 (front ++ nestedWraps.drop 6) position') ∧
      (loneFactory[1]? = some (compatCall "make" "()Lx/B;") ∧
        factoryLinker.linkFrom ⟨"x/User"⟩ "use" (loneFactory.take 1)
            (constructorCall ⟨"x/B"⟩ "()V" :: loneFactory.drop 2) =
          .error (.unmatchedConstructor ⟨"x/User"⟩ "use" "call x/B.<init> ()V")) := by
  have hwrap : nestedWraps[5]? = some (compatCall "wrap" "(Lx/B;)Lx/B;") := rfl
  have hmake : loneFactory[1]? = some (compatCall "make" "()Lx/B;") := rfl
  refine ⟨⟨hwrap, ?_⟩, hmake, ?_⟩
  · obtain ⟨hfind, -, hadapt, -⟩ := construction_adapted hwrap ⟨"x/B"⟩
    obtain ⟨front, position', hfront, hlength, hadapted, -⟩ :=
      hadapt 0 ((hfind 0).1 (by decide +kernel))
    exact ⟨front, position', hfront, hlength, hadapted⟩
  · obtain ⟨hfind, -, -, hfails⟩ := construction_adapted hmake ⟨"x/B"⟩
    have hnone : findNew loneFactory 1 ⟨"x/B"⟩ = none := by decide +kernel
    refine (hfails fun j hj ↦ ?_).2 factoryLinker _ _ ⟨⟨"x/B"⟩, constructorName, "()V", .call⟩ _
      (by decide +kernel) rfl rfl
    rw [← hfind, hnone] at hj
    cases hj

end Construction

end ClassWeave
