import ClassWeave.Json.Basic

/-!
# Writing JSON

`compact` writes a value without any white space, `pretty` with one element to a line and two
blanks for each level. Both write the fields of an object in their order. In strings the quote, the
backslash and the control characters below U+0020 are escaped, everything else stands as it is. A
double is written out exactly, with a fraction or an exponent to tell it from an integer.
-/

namespace ClassWeave.Json

namespace Printer

/-- A hexadecimal digit. -/
def hexDigit (n : Nat) : Char := Nat.digitChar (n % 16)

/-- The form of a character inside a string. -/
def escaped (c : Char) : List Char :=
  if c = '"' then ['\\', '"']
  else if c = '\\' then ['\\', '\\']
  else if c = '\x08' then ['\\', 'b']
  else if c = '\x0c' then ['\\', 'f']
  else if c = '\n' then ['\\', 'n']
  else if c = '\r' then ['\\', 'r']
  else if c = '\t' then ['\\', 't']
  else if c.toNat < 0x20 then ['\\', 'u', '0', '0', hexDigit (c.toNat / 16), hexDigit c.toNat]
  else [c]

/-- A string between its quotes. -/
def quoted (s : String) : List Char := '"' :: (s.toList.flatMap escaped ++ ['"'])

/-- The digits of an integer, after a minus sign where it is negative. -/
def integer (n : Int) : List Char := (toString n).toList

/-- The exact value of a finite double, `m · 2 ^ (e - 1075)` for its significand `m` and its biased
exponent `e`. A double below 1 in its last place is an integer over a power of ten. -/
def decimal (x : Float) : List Char :=
  let bits := x.toBits.toNat
  let e := bits / Nat.pow 2 52 % Nat.pow 2 11
  let m := bits % Nat.pow 2 52 + (if e = 0 then 0 else Nat.pow 2 52)
  let halvings := 1075 - max e 1
  let common := Nat.gcd m (Nat.pow 2 halvings)
  let places := halvings - common.log2
  let digits := m / common * Nat.pow 5 places * Nat.pow 2 (max e 1 - 1075)
  (if Nat.pow 2 63 ≤ bits then ['-'] else []) ++ (toString digits).toList ++
    (if places = 0 then ".0" else "e-" ++ toString places).toList

mutual

def compact : Json → List Char
  | .null => "null".toList
  | .bool true => "true".toList
  | .bool false => "false".toList
  | .int n => integer n
  | .decimal x => decimal x
  | .str s => quoted s
  | .arr items => '[' :: (compactItems items ++ [']'])
  | .obj fields => '\x7b' :: (compactFields fields ++ ['\x7d'])
  | .invalid => "null".toList

def compactItems : List Json → List Char
  | [] => []
  | [j] => compact j
  | j :: k :: rest => compact j ++ ',' :: compactItems (k :: rest)

def compactFields : List (String × Json) → List Char
  | [] => []
  | [(name, j)] => quoted name ++ ':' :: compact j
  | (name, j) :: f :: rest => quoted name ++ ':' :: compact j ++ ',' :: compactFields (f :: rest)

end

/-- The start of a line at a given level. -/
def line (level : Nat) : List Char := '\n' :: List.replicate (2 * level) ' '

mutual

/-- A value whose first line is begun already, its further lines at `level`. -/
def pretty (level : Nat) : Json → List Char
  | .arr [] => ['[', ']']
  | .arr (j :: rest) =>
    '[' :: (line (level + 1) ++ prettyItems (level + 1) (j :: rest) ++ line level ++ [']'])
  | .obj [] => ['\x7b', '\x7d']
  | .obj (f :: rest) =>
    '\x7b' :: (line (level + 1) ++ prettyFields (level + 1) (f :: rest) ++ line level ++ ['\x7d'])
  | .null => "null".toList
  | .bool true => "true".toList
  | .bool false => "false".toList
  | .int n => integer n
  | .decimal x => decimal x
  | .str s => quoted s
  | .invalid => "null".toList

def prettyItems (level : Nat) : List Json → List Char
  | [] => []
  | [j] => pretty level j
  | j :: k :: rest => pretty level j ++ ',' :: (line level ++ prettyItems level (k :: rest))

def prettyFields (level : Nat) : List (String × Json) → List Char
  | [] => []
  | [(name, j)] => quoted name ++ ':' :: ' ' :: pretty level j
  | (name, j) :: f :: rest =>
    quoted name ++ ':' :: ' ' :: pretty level j ++
      ',' :: (line level ++ prettyFields level (f :: rest))

end

end Printer

/-- The text of a value on one line. -/
def compact (j : Json) : String := .ofList (Printer.compact j)

/-- The text of a value laid out over lines. -/
def pretty (j : Json) : String := .ofList (Printer.pretty 0 j)

mutual

/-- The value with the fields of every object in ascending order of their names. -/
def sorted : Json → Json
  | .arr items => .arr (sortedItems items)
  | .obj fields => .obj ((sortedFields fields).mergeSort fun a b ↦ (compare a.1 b.1).isLE)
  | j => j

def sortedItems : List Json → List Json
  | [] => []
  | j :: rest => j.sorted :: sortedItems rest

def sortedFields : List (String × Json) → List (String × Json)
  | [] => []
  | (name, j) :: rest => (name, j.sorted) :: sortedFields rest

end

end ClassWeave.Json
