import ClassWeave.Json.Basic
import ClassWeave.Ordered.Map

/-!
# Records, tagged values and maps in JSON

A record is an object with known field names, or the list of its fields in their order. In an
object a known field must not be repeated and an unknown one is ignored; in a list fields may be
missing at the end.

A tagged value is a record with one more field, its tag, that says which fields to expect; in a
list the tag comes first. Since the fields can be told only when the tag is known, all of the value
must be sound. What is inside a tagged value may take some more forms: a tag may also be the number
of its alternative, and a word that stands as an object may have an empty object for its content.
-/

namespace ClassWeave.Json

/-- The fields found in a record. -/
structure Fields where
  get? : String → Option Json

namespace Fields

/-- A field that must be there. -/
def required {α : Type} (fs : Fields) (name : String) (f : Json → Option α) : Option α :=
  fs.get? name >>= f

/-- A field that may be left out. -/
def defaulted {α : Type} (fs : Fields) (name : String) (f : Json → Option α) (default : α) :
    Option α :=
  match fs.get? name with
  | none => some default
  | some j => f j

end Fields

/-- Whether the names that occur in `names` occur once. -/
def known (names : List String) (fields : List (String × Json)) : Bool :=
  decide ((fields.map (·.1)).filter (names.contains ·)).Nodup

/-- Reads a record with the given field names. -/
def record? (names : List String) : Json → Option Fields
  | .obj fields => if known names fields then some ⟨(fields.lookup ·)⟩ else none
  | .arr items =>
    if items.length ≤ names.length then some ⟨((names.zip items).lookup ·)⟩ else none
  | _ => none

/-- Reads the name of an alternative, or, where `numbered`, its number. -/
def tag? (tags : List String) (numbered : Bool) : Json → Option String
  | .str s => if tags.contains s then some s else none
  | .int (.ofNat n) => if numbered then tags[n]? else none
  | _ => none

/-- Splits a tagged value into its tag and the record of its other fields. -/
def tagged? (key : String) (tags : List String) (numbered : Bool) (j : Json) :
    Option (String × Json) :=
  if j.isSound then
    match j with
    | .obj fields =>
      match fields.filter (·.1 == key) with
      | [(_, t)] => (tag? tags numbered t).map fun t ↦ (t, .obj (fields.filter (·.1 != key)))
      | _ => none
    | .arr (t :: rest) => (tag? tags numbered t).map fun t ↦ (t, .arr rest)
    | _ => none
  else none

/-- Reads one of finitely many words, each with its meaning. A word may also be given as an object
whose only field has its name and is `null`, or, where `inTagged`, an empty object. -/
def word? {α : Type} (words : List (String × α)) (inTagged : Bool) : Json → Option α
  | .str s => words.lookup s
  | .obj [(s, .null)] => words.lookup s
  | .obj [(s, .obj [])] => if inTagged then words.lookup s else none
  | _ => none

/-- Reads an object as a map; of a repeated name the last value counts. -/
def map? {κ ν : Type} [Ord κ] [Std.TransOrd κ] (key : String → κ) (f : Json → Option ν) (j : Json) :
    Option (OrderedMap κ ν) := do
  let fields ← j.fields?
  let entries ← fields.mapM fun e ↦ (f e.2).map fun v ↦ (key e.1, v)
  some (.ofList entries)

/-- Writes a map as an object. -/
def ofMap {κ ν : Type} [Ord κ] (key : κ → String) (f : ν → Json) (m : OrderedMap κ ν) : Json :=
  .obj (m.entries.map fun e ↦ (key e.1, f e.2))

end ClassWeave.Json
