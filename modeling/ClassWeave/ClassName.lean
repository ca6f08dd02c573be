import ClassWeave.Version

/-!
# Class names

The name that every version of a class shares, with slashes between its parts. Names are compared
as they are; `ofText` also takes the form with dots.
-/

namespace ClassWeave

structure ClassName where
  text : String
  deriving DecidableEq, Repr, Inhabited

namespace ClassName

instance : Ord ClassName := ⟨compareOn ClassName.text⟩
instance : Std.TransOrd ClassName := inferInstanceAs (Std.TransCmp (compareOn ClassName.text))

instance : Std.LawfulEqOrd ClassName where
  eq_of_compare {a b} h := by
    have h : compare a.text b.text = .eq := h
    cases a; cases b
    simpa using h

/-- The characters of a name with every dot replaced by a slash. -/
def slashed (cs : List Char) : List Char := cs.map fun c ↦ if c = '.' then '/' else c

/-- The class of a name written with dots or with slashes. -/
def ofText (s : String) : ClassName := ⟨.ofList (slashed s.toList)⟩

/-- The root of every superclass chain. -/
def object : ClassName := ⟨"java/lang/Object"⟩

def isObject (c : ClassName) : Bool := c = object

/-- The class as part of a member name. -/
def flattened (c : ClassName) : String := Text.identifier c.text

/-- The descriptor of the class as a type. -/
def descriptor (c : ClassName) : String := "L" ++ c.text ++ ";"

/-- The form of a class name inside a message that lists values. -/
def quoted (c : ClassName) : String := "ClassIdentity(" ++ Text.quoted c.text ++ ")"

end ClassName

end ClassWeave
