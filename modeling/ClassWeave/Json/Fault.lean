import ClassWeave.Decimal.Shortest
import ClassWeave.Json.Basic
import ClassWeave.Text.Quoted

/-!
# Why a text is refused

A fault has a cause and a place. The causes are of two kinds: those of the grammar, for a text that
is no JSON, and those of the form, for JSON that is not what was expected.

While a text is read, a place is given by what is still to be read. A fault of the form that shows
only after a value was read `floats`: its place is the end of the innermost container around that
value.
-/

namespace ClassWeave.Json

/-! ### Places -/

/-- A line, counted from one, and the number of bytes before the place on that line. -/
structure Place where
  line : Nat := 1
  column : Nat := 0
  deriving DecidableEq, Repr

namespace Place

def next (p : Place) (c : Char) : Place :=
  if c = '\n' then ⟨p.line + 1, 0⟩ else ⟨p.line, p.column + c.utf8Size⟩

/-- The place behind a text. -/
def behind (cs : List Char) : Place := cs.foldl next {}

/-- Goes on by a number of bytes of a text, or to its end. -/
def advance (p : Place) (n : Nat) : List Char → Place
  | [] => p
  | c :: cs =>
    if c.utf8Size ≤ n then (p.next c).advance (n - c.utf8Size) cs else ⟨p.line, p.column + n⟩

end Place

/-! ### Causes -/

inductive Cause where
  | endInList
  | endInObject
  | endInString
  | endInValue
  | expectedColon
  | expectedValue
  /-- A text that begins like `null`, `true` or `false` and goes on otherwise. -/
  | expectedWord
  | expectedCommaInList
  | expectedCommaInObject
  | nameNotString
  | trailingComma
  | trailingCharacters
  | invalidEscape
  | controlCharacter
  /-- The second half of a surrogate pair where no first half stands before it. -/
  | loneSurrogate
  /-- The first half of a surrogate pair where no escape follows. -/
  | openSurrogate
  | invalidNumber
  | numberOutOfRange
  | tooDeep
  | wrongType (found : Json) (expected : String)
  | wrongValue (found : Json) (expected : String)
  | wrongLength (length : Nat) (expected : String)
  | unknownWord (word : String) (known : List String)
  | missingField (name : String)
  | repeatedField (name : String)
  deriving Repr

/-- What a value is, in a message. -/
def described : Json → String
  | .null | .invalid => "null"
  | .bool b => "boolean `" ++ toString b ++ "`"
  | .int n => "integer `" ++ toString n ++ "`"
  | .decimal x => "floating point `" ++ Decimal.text x ++ "`"
  | .str s => "string " ++ Text.quoted s
  | .arr _ => "sequence"
  | .obj _ => "map"

namespace Cause

/-- The words that are allowed at a place, in a message. -/
def oneOf : List String → String
  | [a, b] => "`" ++ a ++ "` or `" ++ b ++ "`"
  | [a] => "`" ++ a ++ "`"
  | words => "one of " ++ ", ".intercalate (words.map fun w ↦ "`" ++ w ++ "`")

def text : Cause → String
  | endInList => "EOF while parsing a list"
  | endInObject => "EOF while parsing an object"
  | endInString => "EOF while parsing a string"
  | endInValue => "EOF while parsing a value"
  | expectedColon => "expected `:`"
  | expectedValue => "expected value"
  | expectedWord => "expected ident"
  | expectedCommaInList => "expected `,` or `]`"
  | expectedCommaInObject => "expected `,` or `\x7d`"
  | nameNotString => "key must be a string"
  | trailingComma => "trailing comma"
  | trailingCharacters => "trailing characters"
  | invalidEscape => "invalid escape"
  | controlCharacter => "control character (\\u0000-\\u001F) found while parsing a string"
  | loneSurrogate => "lone leading surrogate in hex escape"
  | openSurrogate => "unexpected end of hex escape"
  | invalidNumber => "invalid number"
  | numberOutOfRange => "number out of range"
  | tooDeep => "recursion limit exceeded"
  | wrongType found expected => "invalid type: " ++ found.described ++ ", expected " ++ expected
  | wrongValue found expected => "invalid value: " ++ found.described ++ ", expected " ++ expected
  | wrongLength length expected =>
    "invalid length " ++ toString length ++ ", expected " ++ expected
  | unknownWord word known => "unknown variant `" ++ word ++ "`, expected " ++ oneOf known
  | missingField name => "missing field `" ++ name ++ "`"
  | repeatedField name => "duplicate field `" ++ name ++ "`"

end Cause

/-! ### Faults -/

structure Fault where
  cause : Cause
  /-- What is still to be read. -/
  rest : List Char
  /-- The number of bytes of `rest` that lie before the place. -/
  ahead : Nat := 0
  /-- Whether the place is still to be settled by the container around it. -/
  floats : Bool := false

namespace Fault

/-- A fault just before the rest of a text. -/
def before (cause : Cause) (rest : List Char) : Fault := ⟨cause, rest, 0, false⟩

/-- A fault at the next byte of a text. -/
def next (cause : Cause) (rest : List Char) : Fault := ⟨cause, rest, 1, false⟩

/-- A fault of a value that ends before the rest of a text. -/
def floating (cause : Cause) (rest : List Char) : Fault := ⟨cause, rest, 0, true⟩

/-- Settles the place of a fault that floats; `close` finds the end of the container. -/
def settle (close : List Char → List Char) (f : Fault) : Fault :=
  if f.floats then before f.cause (close f.rest) else f

/-- The place of a fault in the text that was read. -/
def place (text : List Char) (f : Fault) : Place :=
  (Place.behind (text.take (text.length - f.rest.length))).advance f.ahead f.rest

end Fault

/-- A fault with its place. -/
structure Located where
  cause : Cause
  place : Place
  deriving Repr

namespace Located

def message (l : Located) : String :=
  l.cause.text ++ " at line " ++ toString l.place.line ++ " column " ++ toString l.place.column

end Located

end ClassWeave.Json
