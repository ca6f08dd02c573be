import ClassWeave.ClassName

/-!
# Physical names

A declared name that clashes inside a merged class is mangled: the marker `$mv$` and the tag of the
first version follow it. The first marker ends the declared name when a mangled name is taken apart
again. Bridges, the cast accessors that a merge adds, have names of their own.
-/

namespace ClassWeave

def mangleMarker : String := "$mv$"

def bridgeNameStart : String := "mv$castTo$"

/-- The name of a member that exists in the given versions, told apart by the first of them. -/
def mangle (name : String) (versions : VersionSet) : String :=
  match versions.min? with
  | some v => name ++ mangleMarker ++ v.tag
  | none => name

/-- The text before and after the first occurrence of a marker. -/
def splitAtMarker? (marker : List Char) : List Char → Option (List Char × List Char)
  | [] => if marker.isEmpty then some ([], []) else none
  | c :: cs =>
    if marker.isPrefixOf (c :: cs) then some ([], (c :: cs).drop marker.length)
    else (splitAtMarker? marker cs).map fun p ↦ (c :: p.1, p.2)

/-- The declared name and the tag in a mangled name. -/
def demangle? (physical : String) : Option (String × String) :=
  (splitAtMarker? mangleMarker.toList physical.toList).map fun p ↦ (.ofList p.1, .ofList p.2)

/-- The name of the bridge to a superclass. -/
def bridgeName (superclass : ClassName) : String := bridgeNameStart ++ superclass.flattened

/-- Whether a name has the form of a bridge's name. -/
def hasBridgeName (name : String) : Bool := bridgeNameStart.toList.isPrefixOf name.toList

end ClassWeave
