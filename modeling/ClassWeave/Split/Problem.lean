import ClassWeave.Tree.Note

/-!
# What can go wrong in a split

A warning leaves the split of a class standing, an error ends it. A leak is a mention of something
that the target version does not have.
-/

namespace ClassWeave

inductive SplitWarning where
  | missingStubBody (cls : ClassName) (member : String) (version : Version)
  | directiveFailed (cls : ClassName) (member : String) (kind : DirectiveKind) (reason : String)
  | ignoredDirective (cls : ClassName) (site : String) (kind : DirectiveKind)
  deriving DecidableEq, Repr

def SplitWarning.message : SplitWarning → String
  | missingStubBody cls member version =>
    "stub " ++ cls.text ++ "." ++ member ++ " has no body for version " ++ version.id
  | directiveFailed cls member kind reason =>
    kind.word ++ " on " ++ cls.text ++ "." ++ member ++ " failed: " ++ reason
  | ignoredDirective cls site kind =>
    kind.word ++ " on " ++ site ++ " of " ++ cls.text ++ " has no effect"

/-- A mention of something that a version does not have. The site says where it stands. -/
inductive Leak where
  | absentClass (site : String) (cls : ClassName) (target : Version)
  | absentMember (site : String) (owner : ClassName) (key : MemberKey) (target : Version)
  deriving DecidableEq, Repr

def Leak.text : Leak → String
  | absentClass site cls target => site ++ " references " ++ cls.text ++ ", absent in " ++ target.id
  | absentMember site owner key target =>
    site ++ ": " ++ owner.text ++ "." ++ key.text ++ " is absent in " ++ target.id

inductive SplitError where
  | superConstructorArguments (cls superclass : ClassName) (desc : String)
  | unmatchedConstructor (cls : ClassName) (member site : String)
  | versionLeak (cls : ClassName) (version : Version) (leaks : List Leak)
  deriving DecidableEq, Repr

def SplitError.message : SplitError → String
  | superConstructorArguments cls superclass desc =>
    cls.text ++ ": removing superclass " ++ superclass.text ++ " needs its constructor " ++ desc ++
      " to take no arguments"
  | unmatchedConstructor cls member site =>
    cls.text ++ "." ++ member ++ ": no NEW/DUP pair for the redirected " ++ site
  | versionLeak cls version leaks =>
    cls.text ++ " references things absent in version " ++ version.id ++ ": " ++
      "; ".intercalate (leaks.map Leak.text)

end ClassWeave
