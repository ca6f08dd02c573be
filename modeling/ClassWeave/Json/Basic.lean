/-!
# JSON values

An object keeps its fields in the order in which they were written, repetitions included, because
the readers of records decide what a repetition means. An integer is a numeral without fraction and
exponent that fits 64 bits; every other numeral stands for a double.

`invalid` stands for a piece of text that has the form of a value but denotes none: a string with
half of a surrogate pair, a number out of range, a nest that is too deep. A reader that skips a
field skips it unharmed; a reader that wants it finds nothing.
-/

namespace ClassWeave

inductive Json where
  | null
  | bool (b : Bool)
  | int (n : Int)
  | decimal (x : Float)
  | str (s : String)
  | arr (items : List Json)
  | obj (fields : List (String × Json))
  | invalid
  deriving Inhabited, Repr

namespace Json

mutual

/-- Whether every part of the value denotes something. -/
def isSound : Json → Bool
  | .arr items => areSound items
  | .obj fields => fieldsAreSound fields
  | .invalid => false
  | _ => true

def areSound : List Json → Bool
  | [] => true
  | j :: rest => j.isSound && areSound rest

def fieldsAreSound : List (String × Json) → Bool
  | [] => true
  | (_, j) :: rest => j.isSound && fieldsAreSound rest

end

def nat (n : Nat) : Json := .int n

/-- The object that has the fields that are present, in the given order. -/
def record (fields : List (String × Option Json)) : Json :=
  .obj (fields.filterMap fun f ↦ f.2.map fun v ↦ (f.1, v))

def ofList {α : Type _} (f : α → Json) (l : List α) : Json := .arr (l.map f)

/-! ### Reading a value as something simpler -/

def string? : Json → Option String
  | .str s => some s
  | _ => none

def bool? : Json → Option Bool
  | .bool b => some b
  | _ => none

/-- An integer from zero on. -/
def nat? : Json → Option Nat
  | .int (.ofNat n) => some n
  | _ => none

def items? : Json → Option (List Json)
  | .arr items => some items
  | _ => none

def fields? : Json → Option (List (String × Json))
  | .obj fields => some fields
  | _ => none

/-- A list all of whose items can be read. -/
def list? {α : Type} (f : Json → Option α) (j : Json) : Option (List α) :=
  j.items? >>= fun items ↦ items.mapM f

/-- `null`, or a value that can be read. -/
def nullable? {α : Type} (f : Json → Option α) : Json → Option (Option α)
  | .null => some none
  | j => (f j).map some

end Json

end ClassWeave
