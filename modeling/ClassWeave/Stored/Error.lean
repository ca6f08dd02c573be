import ClassWeave.ClassName

/-!
# Why a stored tree cannot be understood
-/

namespace ClassWeave

inductive SchemaError where
  | notMerged (cls : ClassName)
  | unknownVersion (cls : ClassName) (site : String) (version : Version)
  | badAccess (cls : ClassName) (value : String)
  | missingRef (cls : ClassName) (member : String)
  deriving DecidableEq, Repr

def SchemaError.message : SchemaError → String
  | notMerged cls => cls.text ++ " carries no merged-class annotation"
  | unknownVersion cls site version =>
    cls.text ++ ": " ++ site ++ " names version " ++ version.id ++
      ", which the class was not merged from"
  | badAccess cls value => cls.text ++ ": unknown access value `" ++ value ++ "`"
  | missingRef cls member =>
    cls.text ++ "." ++ member ++ ": modify needs both an owner and a member in its ref"

end ClassWeave
