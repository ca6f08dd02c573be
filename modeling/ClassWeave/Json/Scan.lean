import ClassWeave.Json.Fault
import ClassWeave.Json.Reader

/-!
# Where JSON goes wrong

A scanner goes over a part of a text and gives what is still to be read, or the first fault. It
accepts what the reader of JSON accepts and denotes something; `skip` also accepts what denotes
nothing, since the value of an unknown field does not matter.

The scanners of containers are told what to do with an item or a field. They recurse on a fuel that
bounds the number of items.
-/

namespace ClassWeave.Json.Scan

open Reader (skipSpace maxDepth)

/-! ### Strings -/

/-- The fault of an escape that wants four hexadecimal digits. -/
def hexFault (cs : List Char) : Fault :=
  if ((cs.take 4).map Char.utf8Size).foldr (· + ·) 0 < 4 then .before .endInString []
  else ⟨.invalidEscape, cs, 4, false⟩

/-- The first fault of a string behind its opening quote; `half` says that the text before ended in
the first half of a surrogate pair. A string that is skipped may hold half of a pair. -/
def stringFault (skipping half : Bool) : List Char → Fault
  | '\\' :: 'u' :: a :: b :: c :: d :: r =>
    match Reader.hex4? a b c d with
    | none => hexFault (a :: b :: c :: d :: r)
    | some n =>
      if skipping then stringFault skipping false r
      else if half = Reader.isLowSurrogate n then
        stringFault skipping (!half && Reader.isHighSurrogate n) r
      else .before .loneSurrogate r
  | '\\' :: 'u' :: r => hexFault r
  | '\\' :: c :: r =>
    if half then .next .openSurrogate (c :: r)
    else if (Reader.escape? c).isSome then stringFault skipping false r
    else .next .invalidEscape (c :: r)
  | ['\\'] | [] => .before .endInString []
  | c :: r =>
    if half then .next .openSurrogate (c :: r)
    else if 0x20 ≤ c.toNat then stringFault skipping false r
    else if skipping then .before .controlCharacter (c :: r)
    else .next .controlCharacter (c :: r)

/-- Reads a string behind its opening quote. -/
def string (cs : List Char) : Except Fault (String × List Char) :=
  match Reader.chars? none cs with
  | some (some s, r) => .ok (.ofList s, r)
  | _ => .error (stringFault false false cs)

def skipString (cs : List Char) : Except Fault (List Char) :=
  match Reader.chars? none cs with
  | some (_, r) => .ok r
  | none => .error (stringFault true false cs)

/-! ### Numerals -/

/-- What is left of a text that is no numeral where a digit is missing, or one is too many. -/
def digitGap (cs : List Char) : List Char :=
  let cs := match cs with
    | '-' :: r => r
    | r => r
  match Numeral.whole? cs with
  | none => match cs with
    | '0' :: r => r
    | r => r
  | some (_, r) =>
    match Numeral.fraction? r with
    | none => r.tail
    | some (_, r) =>
      match r.tail with
      | '-' :: r => r
      | '+' :: r => r
      | r => r

/-- The fault of a text that begins like a numeral; `ended` is the cause if the text breaks off. -/
def numeralFault (ended : Cause) (cs : List Char) : Fault :=
  let r := digitGap cs
  .next (if r.isEmpty then ended else .invalidNumber) r

/-- What is left behind the first digits of an exponent that do not fit 32 bits. -/
def behindExponent (n : Nat) (rest : List Char) : List Char → List Char
  | [] => rest
  | d :: ds =>
    let next := n * 10 + Numeral.digitValue d
    if next < Nat.pow 2 31 then behindExponent next rest ds else ds ++ rest

def numeral (cs : List Char) : Except Fault (Json × List Char) :=
  match Numeral.parts? cs with
  | none => .error (numeralFault .endInValue cs)
  | some p =>
    match p.value with
    | .invalid =>
      .error (.before .numberOutOfRange
        (behindExponent 0 p.rest ((p.exponent.map (·.2)).getD [])))
    | j => .ok (j, p.rest)

def skipNumeral (cs : List Char) : Except Fault (List Char) :=
  match Numeral.parts? cs with
  | none => .error (numeralFault .invalidNumber cs)
  | some p => .ok p.rest

/-! ### Simple values -/

/-- Goes over the rest of a word. -/
def word : List Char → List Char → Except Fault (List Char)
  | [], r => .ok r
  | _ :: _, [] => .error (.before .endInValue [])
  | e :: es, c :: r => if c = e then word es r else .error (.next .expectedWord (c :: r))

/-- Reads a value that is no container. -/
def simple : List Char → Except Fault (Json × List Char)
  | [] => .error (.before .endInValue [])
  | 'n' :: r => (word "ull".toList r).map fun r ↦ (.null, r)
  | 't' :: r => (word "rue".toList r).map fun r ↦ (.bool true, r)
  | 'f' :: r => (word "alse".toList r).map fun r ↦ (.bool false, r)
  | '"' :: r => (string r).map fun p ↦ (.str p.1, p.2)
  | c :: r =>
    if c = '-' || c.isDigit then numeral (c :: r) else .error (.next .expectedValue (c :: r))

/-! ### The frames of containers -/

/-- Where a list ends whose item is at fault. -/
def closeList (cs : List Char) : List Char :=
  match skipSpace cs with
  | ']' :: r => r
  | ',' :: r => skipSpace r
  | r => r

/-- Where an object ends whose field is at fault. -/
def closeObject (cs : List Char) : List Char :=
  match skipSpace cs with
  | '\x7d' :: r => r
  | r => r

def endList (cs : List Char) : Except Fault (List Char) :=
  match skipSpace cs with
  | ']' :: r => .ok r
  | ',' :: r =>
    match skipSpace r with
    | ']' :: r => .error (.next .trailingComma (']' :: r))
    | r => .error (.next .trailingCharacters r)
  | [] => .error (.next .endInList [])
  | r => .error (.next .trailingCharacters r)

def endObject (cs : List Char) : Except Fault (List Char) :=
  match skipSpace cs with
  | '\x7d' :: r => .ok r
  | ',' :: r => .error (.next .trailingComma (',' :: r))
  | [] => .error (.next .endInObject [])
  | r => .error (.next .trailingCharacters r)

/-- Goes over a container at a given depth, from its opening bracket to its end. -/
def framed (close : List Char → List Char) (finish : List Char → Except Fault (List Char))
    (depth : Nat) (cs : List Char) (body : List Char → Except Fault (List Char)) :
    Except Fault (List Char) :=
  if maxDepth ≤ depth then .error (.next .tooDeep cs)
  else
    match body cs.tail with
    | .error f => .error (f.settle close)
    | .ok r => finish r

def inList : Nat → List Char → (List Char → Except Fault (List Char)) → Except Fault (List Char) :=
  framed closeList endList

def inObject : Nat → List Char → (List Char → Except Fault (List Char)) →
    Except Fault (List Char) :=
  framed closeObject endObject

/-! ### Items and fields -/

/-- Goes to the next item of a list; there is none at its end. -/
def item? (first : Bool) (cs : List Char) : Except Fault (Option (List Char)) :=
  match skipSpace cs with
  | [] => .error (.next .endInList [])
  | ']' :: _ => .ok none
  | c :: r =>
    if first then .ok (some (c :: r))
    else if c = ',' then
      match skipSpace r with
      | [] => .error (.next .endInValue [])
      | ']' :: r => .error (.next .trailingComma (']' :: r))
      | r => .ok (some r)
    else .error (.next .expectedCommaInList (c :: r))

/-- Goes over the remaining items of a list. -/
def items (each : List Char → Except Fault (List Char)) :
    Nat → Bool → List Char → Except Fault (List Char)
  | 0, _, cs => .error (.next .endInList cs)
  | fuel + 1, first, cs => do
    match ← item? first cs with
    | none => return cs
    | some r => items each fuel false (← each r)

/-- Reads the name of the next field of an object; there is none at its end. -/
def name? (first : Bool) (cs : List Char) : Except Fault (Option (String × List Char)) :=
  match skipSpace cs with
  | [] => .error (.next .endInObject [])
  | '\x7d' :: _ => .ok none
  | c :: r =>
    if first then
      if c = '"' then some <$> string r else .error (.next .nameNotString (c :: r))
    else if c = ',' then
      match skipSpace r with
      | [] => .error (.next .endInValue [])
      | '"' :: r => some <$> string r
      | '\x7d' :: r => .error (.next .trailingComma ('\x7d' :: r))
      | r => .error (.next .nameNotString r)
    else .error (.next .expectedCommaInObject (c :: r))

/-- Goes over the colon behind the name of a field. -/
def colon (cs : List Char) : Except Fault (List Char) :=
  match skipSpace cs with
  | [] => .error (.next .endInObject [])
  | ':' :: r => .ok r
  | r => .error (.next .expectedColon r)

/-- Goes over the remaining fields of an object; `each` gets the name of a field and what stands
behind it. -/
def fields {σ : Type} (each : σ → String → List Char → Except Fault (σ × List Char)) :
    Nat → Bool → σ → List Char → Except Fault (σ × List Char)
  | 0, _, _, cs => .error (.next .endInObject cs)
  | fuel + 1, first, s, cs => do
    match ← name? first cs with
    | none => return (s, cs)
    | some (name, r) =>
      let (s, r) ← each s name r
      fields each fuel false s r

/-! ### Any value -/

/-- Goes over the fields of an object whose values all look alike. -/
def values (each : List Char → Except Fault (List Char)) (fuel : Nat) (cs : List Char) :
    Except Fault (List Char) :=
  (·.2) <$> fields (fun _ _ r ↦ (colon r >>= each).map fun r ↦ ((), r)) fuel true () cs

/-- Goes over a value all of whose parts must denote something. -/
def any : Nat → Nat → List Char → Except Fault (List Char)
  | 0, _, cs => .error (.next .endInValue cs)
  | fuel + 1, depth, cs =>
    let value := any fuel (depth + 1)
    match skipSpace cs with
    | '[' :: r => inList depth ('[' :: r) (items value fuel true)
    | '\x7b' :: r => inObject depth ('\x7b' :: r) (values value fuel)
    | r => (·.2) <$> simple r

mutual

/-- Goes over a value that is not looked at. -/
def skip : Nat → List Char → Except Fault (List Char)
  | 0, cs => .error (.next .endInValue cs)
  | fuel + 1, cs =>
    match skipSpace cs with
    | '[' :: r =>
      match skipSpace r with
      | [] => .error (.next .endInList [])
      | ']' :: r => .ok r
      | r => skipItems fuel r
    | '\x7b' :: r =>
      match skipSpace r with
      | [] => .error (.next .endInObject [])
      | '\x7d' :: r => .ok r
      | r => skipFields fuel r
    | '"' :: r => skipString r
    | c :: r => if c = '-' || c.isDigit then skipNumeral (c :: r) else (·.2) <$> simple (c :: r)
    | [] => .error (.next .endInValue [])

/-- Goes over the items of a list that is not looked at. -/
def skipItems : Nat → List Char → Except Fault (List Char)
  | 0, cs => .error (.next .endInList cs)
  | fuel + 1, cs => do
    match skipSpace (← skip fuel cs) with
    | ',' :: r => skipItems fuel r
    | ']' :: r => return r
    | [] => throw (.next .endInList [])
    | r => throw (.next .expectedCommaInList r)

/-- Goes over the fields of an object that is not looked at. -/
def skipFields : Nat → List Char → Except Fault (List Char)
  | 0, cs => .error (.next .endInObject cs)
  | fuel + 1, cs =>
    match skipSpace cs with
    | '"' :: r => do
      match skipSpace (← skip fuel (← colon (← skipString r))) with
      | ',' :: r => skipFields fuel r
      | '\x7d' :: r => return r
      | [] => throw (.next .endInObject [])
      | r => throw (.next .expectedCommaInObject r)
    | [] => .error (.next .endInObject [])
    | r => .error (.next .nameNotString r)

end

end ClassWeave.Json.Scan
