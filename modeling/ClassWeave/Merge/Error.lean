import ClassWeave.ClassName

/-!
# Why a class cannot be merged
-/

namespace ClassWeave

inductive MergeError where
  | noVersions (cls : ClassName)
  | duplicateVersion (cls : ClassName) (version : Version)
  | identityMismatch (expected found : ClassName) (version : Version)
  | unresolvedConflict (cls : ClassName) (name desc : String) (versions : List Version)
  | ambiguousInheritance (cls : ClassName) (supers : OrderedMap Version ClassName)
  deriving DecidableEq

def MergeError.message : MergeError → String
  | noVersions cls => "no versions supplied for " ++ cls.text
  | duplicateVersion cls version =>
    "version " ++ version.id ++ " supplied more than once for " ++ cls.text
  | identityMismatch expected found version =>
    "tree for version " ++ version.id ++ " is " ++ found.text ++ ", expected " ++ expected.text
  | unresolvedConflict cls name desc versions =>
    "unresolved conflict in " ++ cls.text ++ ": " ++ name ++ " " ++ desc ++ " in versions " ++
      Version.quotedList versions
  | ambiguousInheritance cls supers =>
    "cannot pick a physical superclass for " ++ cls.text ++ ": versions extend " ++
      Text.braced (supers.entries.map fun e ↦ e.1.quoted ++ ": " ++ e.2.quoted)

end ClassWeave
