import ClassWeave.Json.Scan

/-!
# Expected shapes

A shape says what may stand at a place, and what is wrong with a value or a text that does not have
it. It is for messages: whether a value is accepted, and what it means, is settled by its reader.

A text is gone over from left to right, so that of several faults the first counts. A tagged value
is read to its end before its fields are looked at, since the tag may come last; a fault in them
therefore floats to the end of the container around it.
-/

namespace ClassWeave.Json

open Reader (skipSpace maxDepth)

structure Shape where
  /-- Goes over a value in a text, given a fuel and the depth at which the value stands. -/
  scan : Nat → Nat → List Char → Except Fault (List Char)
  /-- The first thing that is wrong with a value. -/
  misfit? : Json → Option Cause

namespace Shape

open Scan

/-- The first fault of a text that should hold one value and nothing else. -/
def fault? (s : Shape) (text : String) : Option Located :=
  let cs := text.toList
  let located (f : Fault) : Located := ⟨f.cause, f.place cs⟩
  match s.scan (2 * cs.length + 2) 0 cs with
  | .error f => some (located f)
  | .ok r =>
    match skipSpace r with
    | [] => none
    | r => some (located (.next .trailingCharacters r))

/-! ### Simple shapes -/

/-- Reads a value for which `misfit?` finds nothing wrong; it refuses every container. -/
def readSimple (misfit? : Json → Option Cause) (cs : List Char) : Except Fault (Json × List Char) :=
  let refuse (found : Json) (cs : List Char) : Except Fault (Json × List Char) :=
    .error (.before ((misfit? found).getD .expectedValue) cs)
  match skipSpace cs with
  | '[' :: r => refuse (.arr []) ('[' :: r)
  | '\x7b' :: r => refuse (.obj []) ('\x7b' :: r)
  | cs => do
    let (j, r) ← simple cs
    match misfit? j with
    | some cause => throw (.before cause r)
    | none => return (j, r)

/-- The shape of the values that are no containers and for which `misfit?` finds nothing wrong. -/
def ofMisfit (misfit? : Json → Option Cause) : Shape where
  scan _ _ cs := (·.2) <$> readSimple misfit? cs
  misfit? := misfit?

/-- Refuses what is no container; `expected` describes the container. -/
def noContainer (expected : String) (cs : List Char) : Except Fault (List Char) :=
  (·.2) <$> readSimple (fun j ↦ some (.wrongType j expected)) cs

def text : Shape := ofMisfit fun
  | .str _ => none
  | j => some (.wrongType j "a string")

def flag : Shape := ofMisfit fun
  | .bool _ => none
  | j => some (.wrongType j "a boolean")

/-- An integer from zero on below a limit. -/
def natural (limit : Nat) (name : String) : Shape := ofMisfit fun
  | .int n => if 0 ≤ n && n < limit then none else some (.wrongValue (.int n) name)
  | j => some (.wrongType j name)

/-- The name of an alternative. -/
def nameMisfit? (names : List String) : Json → Option Cause
  | .str s => if names.contains s then none else some (.unknownWord s names)
  | j => some (.wrongType j "variant identifier")

/-- `null`, for the content of a word that stands as an object. -/
def unitMisfit? : Json → Option Cause
  | .null => none
  | j => some (.wrongType j "unit")

/-- One of finitely many words. -/
def word (words : List String) : Shape where
  scan _ depth cs :=
    match skipSpace cs with
    | [] => .error (.next .endInValue [])
    | '"' :: r => (·.2) <$> readSimple (nameMisfit? words) ('"' :: r)
    | '\x7b' :: r =>
      if maxDepth ≤ depth then .error (.next .tooDeep ('\x7b' :: r))
      else do
        let (_, r) ← readSimple (nameMisfit? words) r
        let (_, r) ← readSimple unitMisfit? (← colon r)
        match skipSpace r with
        | '\x7d' :: r => return r
        | [] => throw (.before .endInObject [])
        | r => throw (.before .expectedValue r)
    | r => .error (.next .expectedValue r)
  misfit?
    | .str s => nameMisfit? words (.str s)
    | .obj [(s, .obj [])] => nameMisfit? words (.str s)
    | .obj [(s, j)] => (nameMisfit? words (.str s)).or (unitMisfit? j)
    | .obj fields => some (.wrongValue (.obj fields) "map with a single key")
    | j => some (.wrongType j "string or map")

/-! ### Lists and maps -/

def list (s : Shape) : Shape where
  scan fuel depth cs :=
    match skipSpace cs with
    | '[' :: r => inList depth ('[' :: r) (items (s.scan fuel (depth + 1)) fuel true)
    | cs => noContainer "a sequence" cs
  misfit?
    | .arr items => items.findSome? s.misfit?
    | j => some (.wrongType j "a sequence")

def map (s : Shape) : Shape where
  scan fuel depth cs :=
    match skipSpace cs with
    | '\x7b' :: r => inObject depth ('\x7b' :: r) (values (s.scan fuel (depth + 1)) fuel)
    | cs => noContainer "a map" cs
  misfit?
    | .obj fields => fields.findSome? fun f ↦ s.misfit? f.2
    | j => some (.wrongType j "a map")

def nullable (s : Shape) : Shape where
  scan fuel depth cs :=
    match skipSpace cs with
    | 'n' :: r => Scan.word "ull".toList r
    | cs => s.scan fuel depth cs
  misfit?
    | .null => none
    | j => s.misfit? j

/-! ### Records -/

/-- A field of a record. -/
structure Slot where
  name : String
  shape : Shape
  required : Bool

def Slot.needed (name : String) (shape : Shape) : Slot := ⟨name, shape, true⟩

def Slot.optional (name : String) (shape : Shape) : Slot := ⟨name, shape, false⟩

/-- A number of elements in words. -/
def elements (n : Nat) : String := toString n ++ (if n = 1 then " element" else " elements")

/-- A record with a title for messages. -/
structure Form where
  title : String
  slots : List Slot

namespace Form

/-- What is expected of a list in the place of the record. -/
def asList (f : Form) : String := f.title ++ " with " ++ elements f.slots.length

def slot? (f : Form) (name : String) : Option Slot := f.slots.find? (·.name = name)

/-- The first needed field that has not been seen. -/
def missing? (f : Form) (seen : List String) : Option Cause :=
  (f.slots.find? fun s ↦ s.required && !seen.contains s.name).map fun s ↦ .missingField s.name

/-- Goes over one field of the record in an object, after the fields that have been seen. -/
def scanField (f : Form) (fuel depth : Nat) (seen : List String) (name : String) (r : List Char) :
    Except Fault (List String × List Char) :=
  match f.slot? name with
  | none => (colon r >>= skip fuel).map fun r ↦ (seen, r)
  | some s =>
    if seen.contains name then .error (.floating (.repeatedField name) r)
    else (colon r >>= s.shape.scan fuel (depth + 1)).map fun r ↦ (name :: seen, r)

/-- Goes over the fields of the record in an object. -/
def scanFields (f : Form) (fuel depth : Nat) (cs : List Char) : Except Fault (List Char) := do
  let (seen, r) ← fields (f.scanField fuel depth) fuel true [] cs
  match f.missing? seen with
  | some cause => throw (.floating cause r)
  | none => return r

/-- Goes over the fields of the record in a list, from the one with number `n` on. -/
def scanItems (f : Form) (fuel depth : Nat) :
    Nat → List Slot → List Char → Except Fault (List Char)
  | _, [], cs => .ok cs
  | n, s :: slots, cs => do
    match ← item? (n = 0) cs with
    | some r => f.scanItems fuel depth (n + 1) slots (← s.shape.scan fuel (depth + 1) r)
    | none =>
      if s.required then throw (.floating (.wrongLength n f.asList) cs)
      else f.scanItems fuel depth (n + 1) slots cs

/-- What is wrong with the remaining fields of an object. -/
def fieldsMisfit? (f : Form) (seen : List String) : List (String × Json) → Option Cause
  | [] => f.missing? seen
  | (name, j) :: rest =>
    match f.slot? name with
    | none => f.fieldsMisfit? seen rest
    | some s =>
      if seen.contains name then some (.repeatedField name)
      else (s.shape.misfit? j).or (f.fieldsMisfit? (name :: seen) rest)

/-- What is wrong with the remaining items of a list, of which the first has number `n`. -/
def itemsMisfit? (f : Form) (n : Nat) : List Slot → List Json → Option Cause
  | [], [] => none
  | [], more => some (.wrongLength (n + more.length) (elements n ++ " in sequence"))
  | s :: slots, [] =>
    if s.required then some (.wrongLength n f.asList) else f.itemsMisfit? (n + 1) slots []
  | s :: slots, j :: more => (s.shape.misfit? j).or (f.itemsMisfit? (n + 1) slots more)

def misfit? (f : Form) : Json → Option Cause
  | .obj fields => f.fieldsMisfit? [] fields
  | .arr items => f.itemsMisfit? 0 f.slots items
  | j => some (.wrongType j f.title)

end Form

def record (f : Form) : Shape where
  scan fuel depth cs :=
    match skipSpace cs with
    | '\x7b' :: r => inObject depth ('\x7b' :: r) (f.scanFields fuel depth)
    | '[' :: r => inList depth ('[' :: r) (f.scanItems fuel depth 0 f.slots)
    | cs => noContainer f.title cs
  misfit? := f.misfit?

/-! ### Tagged values -/

/-- The alternatives of a tagged value, each with its tag. -/
structure Union where
  title : String
  key : String
  alternatives : List (String × Form)

namespace Union

def tags (u : Union) : List String := u.alternatives.map (·.1)

/-- What is wrong with a value but for its tag. -/
def contentMisfit? (u : Union) (tag : String) (j : Json) : Option Cause :=
  u.alternatives.lookup tag >>= fun f ↦ f.misfit? j

/-- What is wrong with a tag inside a tagged value, where it may also be a number. -/
def tagMisfit? (u : Union) : Json → Option Cause
  | .int (.ofNat n) =>
    if n < u.tags.length then none
    else some (.wrongValue (.int n) ("variant index 0 <= i < " ++ toString u.tags.length))
  | j => nameMisfit? u.tags j

/-- The name of the alternative that a tag tells. -/
def tagOf (u : Union) : Json → String
  | .str s => s
  | .int (.ofNat n) => u.tags[n]?.getD ""
  | _ => ""

def misfit? (u : Union) : Json → Option Cause
  | .obj fields =>
    match fields.filter (·.1 = u.key) with
    | [] => some (.missingField u.key)
    | (_, t) :: more =>
      (u.tagMisfit? t).or <|
        if more.isEmpty then u.contentMisfit? (u.tagOf t) (.obj (fields.filter (·.1 ≠ u.key)))
        else some (.repeatedField u.key)
  | .arr [] => some (.missingField u.key)
  | .arr (t :: items) => (u.tagMisfit? t).or (u.contentMisfit? (u.tagOf t) (.arr items))
  | j => some (.wrongType j u.title)

/-- Goes over the tag of a tagged value. -/
def scanTag (u : Union) (cs : List Char) : Except Fault (List Char) :=
  (·.2) <$> readSimple (nameMisfit? u.tags) cs

/-- Goes over one field of a tagged value; `tagged` says whether the tag has been seen. -/
def scanField (u : Union) (fuel depth : Nat) (tagged : Bool) (name : String) (r : List Char) :
    Except Fault (Bool × List Char) :=
  if name ≠ u.key then (colon r >>= any fuel (depth + 1)).map fun r ↦ (tagged, r)
  else if tagged then .error (.floating (.repeatedField name) r)
  else (colon r >>= u.scanTag).map fun r ↦ (true, r)

/-- Goes over the fields of a tagged value. -/
def scanFields (u : Union) (fuel depth : Nat) (cs : List Char) : Except Fault (List Char) := do
  let (tagged, r) ← fields (u.scanField fuel depth) fuel true false cs
  if tagged then return r else throw (.floating (.missingField u.key) r)

/-- Goes over the items of a tagged value, the first of which is the tag. -/
def scanItems (u : Union) (fuel depth : Nat) (cs : List Char) : Except Fault (List Char) := do
  match ← item? true cs with
  | none => throw (.floating (.missingField u.key) cs)
  | some r => items (any fuel (depth + 1)) fuel false (← u.scanTag r)

/-- What is wrong with the value at the front of a text. -/
def readMisfit? (u : Union) (fuel depth : Nat) (cs : List Char) : Option Cause :=
  Reader.value? fuel depth cs >>= fun p ↦ u.misfit? p.1

end Union

def tagged (u : Union) : Shape where
  scan fuel depth cs :=
    let cs := skipSpace cs
    let content (r : List Char) : Except Fault (List Char) :=
      match u.readMisfit? fuel depth cs with
      | some cause => .error (.floating cause r)
      | none => .ok r
    match cs with
    | '\x7b' :: _ => inObject depth cs (u.scanFields fuel depth) >>= content
    | '[' :: _ => inList depth cs (u.scanItems fuel depth) >>= content
    | cs => noContainer u.title cs
  misfit? := u.misfit?

end Shape

end ClassWeave.Json
