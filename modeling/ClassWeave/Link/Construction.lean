import ClassWeave.Split.Problem
import ClassWeave.Tree.Code

/-!
# The instructions that start a construction

A constructor call belongs to a `NEW` of the same class with a `DUP` right after it. Constructions
may be nested, so the search for the `NEW` of a call walks backwards and skips as many of them as it
meets other constructor calls of the class. A call that is redirected takes its `NEW` along: another
constructor gets a `NEW` of its own class, anything else drops the pair.
-/

namespace ClassWeave

/-- A call of a constructor of the class. -/
def Insn.constructs (c : ClassName) : Insn → Bool
  | member (.invoke .special) owner name _ => owner = c && name = constructorName
  | _ => false

/-- A `NEW` of the class. -/
def Insn.isNew (c : ClassName) : Insn → Bool
  | type .new cls => cls = c
  | _ => false

namespace Construction

/-- The last `NEW` of the class among the first `n` instructions that is left over when `depth`
calls are waiting for one. It counts only with a `DUP` after it. -/
def findNewBefore (insns : List Insn) (c : ClassName) : (n depth : Nat) → Option Nat
  | 0, _ => none
  | j + 1, depth =>
    match insns[j]? with
    | none => findNewBefore insns c j depth
    | some insn =>
      if insn.constructs c then findNewBefore insns c j (depth + 1)
      else if insn.isNew c then
        match depth with
        | depth + 1 => findNewBefore insns c j depth
        | 0 => if (insns[j + 1]?).any (·.isRaw "DUP") then some j else none
      else findNewBefore insns c j depth

/-- The position of the `NEW` for the constructor call at `at`. -/
def findNew (insns : List Insn) (position : Nat) (c : ClassName) : Option Nat :=
  findNewBefore insns c position 0

/-- The constructor call that a replacement is, if it is one. -/
def asConstructorCall? : Insn → Option (ClassName × Insn)
  | .member (.invoke _) owner name desc =>
    if name = constructorName then some (owner, .member (.invoke .special) owner name desc)
    else none
  | _ => none

/-- Puts a replacement where the instructions `done` end, and adapts the `NEW` of the constructor
call of `c` that it replaces; `none` where there is no such `NEW`. -/
def adapt (done : List Insn) (replacement : Insn) (c : ClassName) : Option (List Insn) :=
  (findNew (done ++ [replacement]) done.length c).map fun j ↦
    match asConstructorCall? replacement with
    | some (owner, call) => done.set j (.type .new owner) ++ [call]
    | none =>
      let insns := done ++ [replacement]
      insns.take j ++ insns.drop (j + 2)

end Construction

end ClassWeave
