import ClassWeave.Text.Blank

/-!
# Visibility

The four levels form a chain from the narrowest to the widest, `rank` gives the place in it.
-/

namespace ClassWeave

inductive Visibility where
  | privateAccess
  | packageAccess
  | protectedAccess
  | publicAccess
  deriving DecidableEq, Repr, Inhabited

/-- A text that names no level. -/
structure UnknownVisibility where
  text : String
  deriving DecidableEq, Repr

def UnknownVisibility.message (e : UnknownVisibility) : String :=
  "unknown visibility `" ++ e.text ++ "`"

namespace Visibility

/-- The levels, the narrowest first. -/
def all : List Visibility := [privateAccess, packageAccess, protectedAccess, publicAccess]

/-- How wide a level is. -/
def rank : Visibility → Nat
  | privateAccess => 0
  | packageAccess => 1
  | protectedAccess => 2
  | publicAccess => 3

/-- The wider of two levels. -/
def wider (a b : Visibility) : Visibility := if a.rank < b.rank then b else a

def word : Visibility → String
  | privateAccess => "private"
  | packageAccess => "package"
  | protectedAccess => "protected"
  | publicAccess => "public"

/-- The level that a text names, blanks around it aside. The package level has no keyword, so the
empty text names it too. -/
def parse (s : String) : Except UnknownVisibility Visibility :=
  match Text.trim s with
  | "public" => .ok publicAccess
  | "protected" => .ok protectedAccess
  | "package" => .ok packageAccess
  | "" => .ok packageAccess
  | "private" => .ok privateAccess
  | other => .error ⟨other⟩

end Visibility

end ClassWeave
