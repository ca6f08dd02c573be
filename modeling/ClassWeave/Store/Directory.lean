import ClassWeave.Json.Printer
import ClassWeave.Store.Basic
import ClassWeave.Tree.Shape

/-!
# Stores in a directory

The trees of a version lie in a directory named after it, those without version in the root: the
class `a/B` in the file `a/B.json`. A tree is written to a temporary file first and then moved to
its place. A lease is a file too, and its name begins with a dot as that of the temporary file does;
listings skip such names.
-/

namespace ClassWeave

structure DirectoryStore where
  root : String
  /-- Directories directly below the root that hold the trees of a version. Listings of the trees
  without version skip them. -/
  versions : List Version := []

namespace DirectoryStore

/-- Creates the root of a store. -/
def create (root : String) (versions : List Version) (d : Disk) :
    Except StoreError DirectoryStore × Disk :=
  match d.createDirectories root with
  | (.ok (), d) => (.ok ⟨root, versions⟩, d)
  | (.error e, d) => (.error (.io root e), d)

def classPath (base : String) (c : ClassName) : String := Path.join base (c.text ++ ".json")

def versionRoot (s : DirectoryStore) (v : Version) : String := Path.join s.root v.id

/-! ### Reading -/

def readPath (d : Disk) (path : String) (c : ClassName) (version : Option Version) :
    Except StoreError ClassTree :=
  match d.readFile path with
  | .error .notFound => .error (.notFound c version)
  | .error e => .error (.io path e)
  | .ok text => (ClassTree.read text).mapError (.corrupt path)

/-- The class that a file holds, told from its location below the listed directory. -/
def listedClass? (skipped : List String) (l : Location) : Option ClassName :=
  let name := l.getLast?.getD ""
  let stem := name.toList.take (name.length - ".json".length)
  if l.any (·.toList.head? = some '.') then none
  else if 1 < l.length && skipped.contains (l.head?.getD "") then none
  else if ".json".toList.isSuffixOf name.toList then
    some (.ofText ("/".intercalate (l.dropLast ++ [String.ofList stem])))
  else none

def list (s : DirectoryStore) (d : Disk) (version : Option Version) : List ClassName :=
  let base := match version with
    | some v => s.versionRoot v
    | none => s.root
  if d.isDirectory base then
    let skipped := if Path.same base s.root then s.versions.map (·.id) else []
    let files := d.filesBelow ((d.locate base).toOption.getD [])
    let classes := files.filterMap fun f ↦ listedClass? skipped f.1
    classes.mergeSort fun a b ↦ (compare a b).isLE
  else []

def source (s : DirectoryStore) (d : Disk) : Source where
  read c v := readPath d (classPath (s.versionRoot v) c) c (some v)
  readMerged c := readPath d (classPath s.root c) c none
  list version := .ok (s.list d version)

/-! ### Writing -/

/-- The temporary file of a path. -/
def temporary (path : String) : String :=
  Path.withFileName path ("." ++ Path.fileName path ++ ".tmp")

/-- Writes a text to a temporary file and moves it to its place. -/
def replaceFile (path text : String) (d : Disk) : Except FileError Unit × Disk :=
  match d.writeFile (temporary path) text with
  | .error e => (.error e, d)
  | .ok d =>
    match d.rename (temporary path) path with
    | .error e => (.error e, d)
    | .ok d => (.ok (), d)

def write (s : DirectoryStore) (c : ClassName) (t : ClassTree) (d : Disk) :
    Except StoreError Unit × Disk :=
  let path := classPath s.root c
  match d.createDirectories (Path.parent path) with
  | (.error e, d) => (.error (.io path e), d)
  | (.ok (), d) =>
    match replaceFile path t.toJson.pretty d with
    | (.error e, d) => (.error (.io path e), d)
    | (.ok (), d) => (.ok (), d)

/-! ### Leases -/

/-- The path of a lease before its name gets a dot. -/
def plainLockPath (s : DirectoryStore) (c : ClassName) : String :=
  Path.join s.root (c.text ++ ".lock")

def lockPath (s : DirectoryStore) (c : ClassName) : String :=
  let path := s.plainLockPath c
  Path.withFileName path ("." ++ Path.fileName path)

def lease (s : DirectoryStore) (c : ClassName) (d : Disk) : Except StoreError Unit × Disk :=
  let parent := Path.parent (s.plainLockPath c)
  match d.createDirectories parent with
  | (.error e, d) => (.error (.io parent e), d)
  | (.ok (), d) =>
    match d.createFile (s.lockPath c) with
    | .ok d => (.ok (), d)
    | .error .alreadyExists => (.error (.locked c), d)
    | .error e => (.error (.io (s.lockPath c) e), d)

/-- Removes the file of a lease. -/
def release (s : DirectoryStore) (c : ClassName) (d : Disk) : Disk :=
  (d.removeFile (s.lockPath c)).toOption.getD d

def output (s : DirectoryStore) : Output Disk where
  write := s.write
  lease := s.lease
  release := s.release

end DirectoryStore

end ClassWeave
