import ClassWeave.ClassName
import ClassWeave.Json.Fault
import ClassWeave.Store.Disk

/-!
# Why a store cannot do what it is asked for
-/

namespace ClassWeave

inductive StoreError where
  | notFound (cls : ClassName) (version : Option Version)
  | io (path : String) (cause : FileError)
  /-- A file that holds no class tree, and what is wrong with it. -/
  | corrupt (path : String) (fault : Option Json.Located)
  | locked (cls : ClassName)
  deriving Repr

namespace StoreError

/-- What lies behind the error, where something does. -/
def cause? : StoreError → Option String
  | io _ cause => some cause.message
  | corrupt _ fault => some ((fault.map Json.Located.message).getD "not a class tree")
  | notFound .. | locked _ => none

/-- What went wrong, without what lies behind it. -/
def summary : StoreError → String
  | notFound cls version =>
    "no class tree for " ++ cls.text ++ ((version.map (" in version " ++ ·.id)).getD "")
  | io path _ => "I/O error on " ++ path
  | corrupt path _ => "corrupt class tree " ++ path
  | locked cls => "class group " ++ cls.text ++ " is already leased"

/-- The cause as it is appended to a message. -/
def appended (e : StoreError) : String := ((e.cause?).map (": " ++ ·)).getD ""

def message (e : StoreError) : String := e.summary ++ e.appended

/-- The message followed by what lies behind it once more. -/
def fullMessage (e : StoreError) : String := e.message ++ e.appended

end StoreError

end ClassWeave
