import ClassWeave.Json.Printer
import ClassWeave.Json.Reader
import ClassWeave.Store.Path
import ClassWeave.Tree.Wire

/-!
# Settings

The settings of a workspace: its versions, where its stores are and how a run goes about its work.
Every section and every field of the settings file may be left out. `resolvedAt` makes the
directories independent of where the program was started.
-/

namespace ClassWeave

/-- The directories of the stores. -/
structure StorePaths where
  /-- The trees of the versions, a directory for each. -/
  input : String := "versions"
  merged : String := "merged"
  /-- The projected trees, a directory for each target. -/
  split : String := "split"
  deriving DecidableEq, Repr

structure LogSettings where
  dir : String := "logs"
  filter : String := "info"
  deriving DecidableEq, Repr

structure Settings where
  /-- The versions in the order of a merge. -/
  versions : List Version := []
  store : StorePaths := {}
  /-- How many jobs may run at a time. -/
  threads : Nat
  /-- The superclass that a class is to have when its versions disagree. -/
  pinnedSuperclasses : OrderedMap ClassName ClassName := .empty
  /-- Whether a projected class that mentions something absent in the target fails. -/
  verify : Bool := true
  logging : LogSettings := {}
  deriving DecidableEq

/-- Why the configured versions cannot be worked with. -/
inductive VersionSetError where
  | empty
  | duplicate (version : Version)
  deriving DecidableEq, Repr

def VersionSetError.message : VersionSetError → String
  | empty => "no versions configured"
  | duplicate version => "version `" ++ version.id ++ "` is listed more than once"

namespace Settings

/-- The first version that an earlier one in the list, or one in `seen`, repeats. -/
def firstRepeated? (seen : List Version) : List Version → Option Version
  | [] => none
  | v :: vs => if v ∈ seen then some v else firstRepeated? (v :: seen) vs

/-- The versions of a run, at least one and each once. -/
def versionSet (s : Settings) : Except VersionSetError (List Version) :=
  if s.versions.isEmpty then .error .empty
  else
    match firstRepeated? [] s.versions with
    | some v => .error (.duplicate v)
    | none => .ok s.versions

/-- The settings with every relative directory taken from `base` on. -/
def resolvedAt (s : Settings) (base : String) : Settings :=
  { s with
    store :=
      { input := Path.join base s.store.input
        merged := Path.join base s.store.merged
        split := Path.join base s.store.split }
    logging := { s.logging with dir := Path.join base s.logging.dir } }

/-! ### The settings file -/

def toJson (s : Settings) : Json :=
  .record [("versions", some (.versions s.versions)),
    ("store", some (.record [("input", some (.str s.store.input)),
      ("merged", some (.str s.store.merged)), ("split", some (.str s.store.split))])),
    ("workers", some (.record [("threads", some (.nat s.threads))])),
    ("merge", some (.record [("pinnedSuperclasses",
      some (.ofMap ClassName.text ClassName.toJson s.pinnedSuperclasses))])),
    ("split", some (.record [("verify", some (.bool s.verify))])),
    ("logging", some (.record [("dir", some (.str s.logging.dir)),
      ("filter", some (.str s.logging.filter))]))]

def storeOfJson? (j : Json) : Option StorePaths := do
  let fs ← j.record? ["input", "merged", "split"]
  some
    { input := ← fs.defaulted "input" Json.string? "versions"
      merged := ← fs.defaulted "merged" Json.string? "merged"
      split := ← fs.defaulted "split" Json.string? "split" }

def loggingOfJson? (j : Json) : Option LogSettings := do
  let fs ← j.record? ["dir", "filter"]
  some
    { dir := ← fs.defaulted "dir" Json.string? "logs"
      filter := ← fs.defaulted "filter" Json.string? "info" }

/-- A section that has one field. -/
def only? {α : Type} (name : String) (f : Json → Option α) (default : α) (j : Json) : Option α := do
  let fs ← j.record? [name]
  fs.defaulted name f default

/-- The settings that a value describes, where `threads` stands for a number of workers that it
leaves out. -/
def ofJson? (threads : Nat) (j : Json) : Option Settings := do
  let fs ← j.record? ["versions", "store", "workers", "merge", "split", "logging"]
  some
    { versions := ← fs.defaulted "versions" Json.versions? []
      store := ← fs.defaulted "store" storeOfJson? {}
      threads := ← fs.defaulted "workers" (only? "threads" Json.nat? threads) threads
      pinnedSuperclasses := ← fs.defaulted "merge"
        (only? "pinnedSuperclasses" (Json.map? ClassName.mk ClassName.ofJson?) .empty) .empty
      verify := ← fs.defaulted "split" (only? "verify" Json.bool? true) true
      logging := ← fs.defaulted "logging" loggingOfJson? {} }

/-- Reads the text of a settings file. -/
def read? (threads : Nat) (text : String) : Option Settings :=
  Json.read? text >>= ofJson? threads

end Settings

end ClassWeave
