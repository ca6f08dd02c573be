import ClassWeave.Json.Numeral

/-!
# Reading JSON

The grammar is the strict one: no comments, no trailing commas, no raw control characters in
strings, nothing but white space after the value. Containers nested deeper than `maxDepth` are
recognised but denote nothing.

The reader recurses on a fuel that bounds the number of steps: each step either consumes a
character or opens the elements of a container just consumed.
-/

namespace ClassWeave.Json.Reader

/-- How many containers may stand inside each other. -/
def maxDepth : Nat := 127

def isSpace (c : Char) : Bool := c = ' ' || c = '\t' || c = '\n' || c = '\r'

def skipSpace (cs : List Char) : List Char := cs.dropWhile isSpace

/-! ### Strings -/

def hexDigit? (c : Char) : Option Nat :=
  if c.isDigit then some (c.toNat - '0'.toNat)
  else if 'a' ≤ c && c ≤ 'f' then some (c.toNat - 'a'.toNat + 10)
  else if 'A' ≤ c && c ≤ 'F' then some (c.toNat - 'A'.toNat + 10)
  else none

def hex4? (a b c d : Char) : Option Nat := do
  some (((← hexDigit? a) * 16 + (← hexDigit? b)) * 256 + ((← hexDigit? c) * 16 + (← hexDigit? d)))

def isHighSurrogate (n : Nat) : Bool := 0xd800 ≤ n && n < 0xdc00

def isLowSurrogate (n : Nat) : Bool := 0xdc00 ≤ n && n < 0xe000

/-- The character that a letter stands for after a backslash. -/
def escape? : Char → Option Char
  | '"' => some '"'
  | '\\' => some '\\'
  | '/' => some '/'
  | 'b' => some '\x08'
  | 'f' => some '\x0c'
  | 'n' => some '\n'
  | 'r' => some '\r'
  | 't' => some '\t'
  | _ => none

/-- Puts a character before a string that was read; half a surrogate pair spoils the string. -/
def push (c : Option Char) (p : Option (List Char) × List Char) :
    Option (List Char) × List Char :=
  ((c.bind fun c ↦ p.1.map (c :: ·)), p.2)

/-- The character of a surrogate pair. -/
def pair (high low : Nat) : Char := .ofNat (0x10000 + (high - 0xd800) * 0x400 + (low - 0xdc00))

/-- Reads a string up to its closing quote, where `high` is the first half of a surrogate pair if
the text before ended in one. The outer `none` is a text that is no string, the inner one a string
that contains half of a surrogate pair. -/
def chars? : Option Nat → List Char → Option (Option (List Char) × List Char)
  | high, '"' :: r => some (if high.isSome then none else some [], r)
  | high, '\\' :: 'u' :: a :: b :: c :: d :: r =>
    match hex4? a b c d with
    | none => none
    | some n =>
      match high with
      | some high =>
        (chars? none r).map (push (if isLowSurrogate n then some (pair high n) else none))
      | none =>
        if isHighSurrogate n then chars? (some n) r
        else (chars? none r).map (push (if isLowSurrogate n then none else some (.ofNat n)))
  | high, '\\' :: c :: r =>
    match escape? c with
    | none => none
    | some c => (chars? none r).map (push (if high.isSome then none else some c))
  | high, c :: r =>
    if c.toNat < 0x20 then none
    else (chars? none r).map (push (if high.isSome then none else some c))
  | _, [] => none

/-! ### Values -/

/-- A container at a given depth. -/
def nested (depth : Nat) (j : Json) : Json := if depth < maxDepth then j else .invalid

mutual

/-- Reads a value that stands inside `depth` containers. -/
def value? : Nat → Nat → List Char → Option (Json × List Char)
  | 0, _, _ => none
  | fuel + 1, depth, cs =>
    match skipSpace cs with
    | '"' :: r => (chars? none r).map fun p ↦
      ((p.1.map fun s ↦ Json.str (.ofList s)).getD .invalid, p.2)
    | '[' :: r =>
      match skipSpace r with
      | ']' :: r => some (nested depth (.arr []), r)
      | r => (elements? fuel (depth + 1) r).map fun p ↦ (nested depth (.arr p.1), p.2)
    | '\x7b' :: r =>
      match skipSpace r with
      | '\x7d' :: r => some (nested depth (.obj []), r)
      | r => (fields? fuel (depth + 1) r).map fun p ↦
        (nested depth ((p.1.map Json.obj).getD .invalid), p.2)
    | 'n' :: 'u' :: 'l' :: 'l' :: r => some (.null, r)
    | 't' :: 'r' :: 'u' :: 'e' :: r => some (.bool true, r)
    | 'f' :: 'a' :: 'l' :: 's' :: 'e' :: r => some (.bool false, r)
    | r => Numeral.read? r

/-- Reads the elements of a list up to its closing bracket. -/
def elements? : Nat → Nat → List Char → Option (List Json × List Char)
  | 0, _, _ => none
  | fuel + 1, depth, cs =>
    match value? fuel depth cs with
    | none => none
    | some (j, r) =>
      match skipSpace r with
      | ',' :: r => (elements? fuel depth r).map fun p ↦ (j :: p.1, p.2)
      | ']' :: r => some ([j], r)
      | _ => none

/-- Reads the fields of an object up to its closing brace. The inner `none` is an object in which
some name contains half of a surrogate pair. -/
def fields? : Nat → Nat → List Char → Option (Option (List (String × Json)) × List Char)
  | 0, _, _ => none
  | fuel + 1, depth, cs =>
    match skipSpace cs with
    | '"' :: r =>
      match chars? none r with
      | none => none
      | some (name, r) =>
        match skipSpace r with
        | ':' :: r =>
          match value? fuel depth r with
          | none => none
          | some (j, r) =>
            let field := name.map fun s ↦ (String.ofList s, j)
            match skipSpace r with
            | ',' :: r => (fields? fuel depth r).map fun p ↦
              ((field.bind fun f ↦ p.1.map (f :: ·)), p.2)
            | '\x7d' :: r => some (field.map ([·]), r)
            | _ => none
        | _ => none
    | _ => none

end

end Reader

/-- Reads a text that holds one value and nothing else. -/
def read? (s : String) : Option Json := do
  let cs := s.toList
  let (j, rest) ← Reader.value? (2 * cs.length + 2) 0 cs
  if (Reader.skipSpace rest).isEmpty then some j else none

/-- Reads a text all of whose parts denote something. -/
def readSound? (s : String) : Option Json := (read? s).filter isSound

end ClassWeave.Json
