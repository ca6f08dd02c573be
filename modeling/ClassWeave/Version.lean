import ClassWeave.Ordered.Map
import ClassWeave.Ordered.Set
import ClassWeave.Text.Identifier
import ClassWeave.Text.Quoted

/-!
# Versions

A version is an opaque token that names one release of the classes. Versions have no order of their
own; the order by code points only keeps sets of them in one form.
-/

namespace ClassWeave

@[ext]
structure Version where
  id : String
  deriving DecidableEq, Repr, Inhabited

namespace Version

instance : Ord Version := ⟨compareOn Version.id⟩
instance : Std.TransOrd Version := inferInstanceAs (Std.TransCmp (compareOn Version.id))

instance : Std.LawfulEqOrd Version where
  eq_of_compare {a b} h := by
    have h : compare a.id b.id = .eq := h
    cases a; cases b
    simpa using h

/-- The version as part of a member name. -/
def tag (v : Version) : String := Text.identifier v.id

/-- The form of a version inside a message that lists values. -/
def quoted (v : Version) : String := "VersionId(" ++ Text.quoted v.id ++ ")"

/-- The form of a list of versions inside a message. -/
def quotedList (vs : List Version) : String := Text.bracketed (vs.map quoted)

end Version

abbrev VersionSet := OrderedSet Version

end ClassWeave
