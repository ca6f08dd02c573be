import ClassWeave.Ordered.Map
import ClassWeave.Store.Path

/-!
# File trees

A disk is a tree of directories with files for leaves; a location is the list of the names from the
root on. The operations take paths, follow them name by name, and fail as a file system does: on a
missing component, on a file in the place of a directory, on a name or a path that is too long.

`lookup` is what can be seen of a disk at a location, without what is below it.
-/

namespace ClassWeave

inductive FileError where
  | notFound
  | alreadyExists
  | notADirectory
  | isADirectory
  | nameTooLong
  | nulInName
  deriving DecidableEq, Repr

def FileError.message : FileError → String
  | notFound => "No such file or directory (os error 2)"
  | alreadyExists => "File exists (os error 17)"
  | notADirectory => "Not a directory (os error 20)"
  | isADirectory => "Is a directory (os error 21)"
  | nameTooLong => "File name too long (os error 36)"
  | nulInName => "file name contained an unexpected NUL byte"

abbrev Location := List String

/-- What stands at a location. -/
inductive Entry where
  | file (text : String)
  | directory
  deriving DecidableEq, Repr

/-! ### Nodes -/

/-- A file, or a directory with its nodes in ascending order of their names. -/
inductive Node where
  | file (text : String)
  | directory (nodes : List (String × Node))

namespace Node

/-- A directory without entries. -/
def empty : Node := directory []

instance : Inhabited Node := ⟨empty⟩

def entry : Node → Entry
  | file text => .file text
  | directory _ => .directory

/-- The nodes of a directory; a file has none. -/
def nodes : Node → List (String × Node)
  | file _ => []
  | directory nodes => nodes

def child? (n : Node) (name : String) : Option Node := OrderedMap.findEntry? name n.nodes

def at? (n : Node) : Location → Option Node
  | [] => some n
  | name :: l => n.child? name >>= fun m ↦ m.at? l

/-- Puts a node in the place of what is at a location. Directories on the way are made if need
be. -/
def put (new : Node) : Location → Node → Node
  | [], _ => new
  | name :: l, n =>
    directory (OrderedMap.insertEntry name (put new l ((n.child? name).getD empty)) n.nodes)

/-- Removes what is at a location. -/
def erase : Location → Node → Node
  | [], n => n
  | [name], n => directory (n.nodes.filter (·.1 ≠ name))
  | name :: l, n =>
    match n.child? name with
    | some m => directory (OrderedMap.insertEntry name (erase l m) n.nodes)
    | none => n

mutual

/-- Everything from a node on, each with its location; `l` is the location of the node. -/
def listing (l : Location) : Node → List (Location × Entry)
  | file text => [(l, .file text)]
  | directory nodes => (l, .directory) :: listingAll l nodes

def listingAll (l : Location) : List (String × Node) → List (Location × Entry)
  | [] => []
  | (name, n) :: rest => n.listing (l ++ [name]) ++ listingAll l rest

end

end Node

/-! ### Disks -/

/-- The longest names and paths that a disk takes, in bytes. -/
structure SizeLimits where
  name : Nat := 255
  path : Nat := 4095

structure Disk where
  /-- The nodes of the root. -/
  top : List (String × Node)
  /-- Where relative paths start. -/
  workingDirectory : Location
  /-- What names and paths are held to; an ideal disk takes them at any length. -/
  limits : Option SizeLimits := some {}

namespace Disk

/-- The disk with nothing but a working directory. -/
def fresh (workingDirectory : Location) : Disk where
  top := (Node.put .empty workingDirectory .empty).nodes
  workingDirectory := workingDirectory

instance : Inhabited Disk := ⟨fresh []⟩

def root (d : Disk) : Node := .directory d.top

def lookup (d : Disk) (l : Location) : Option Entry := (d.root.at? l).map Node.entry

def put (d : Disk) (l : Location) (n : Node) : Disk := { d with top := (n.put l d.root).nodes }

def erase (d : Disk) (l : Location) : Disk := { d with top := (d.root.erase l).nodes }

/-- Everything below the root. -/
def listing (d : Disk) : List (Location × Entry) := Node.listingAll [] d.top

/-- The files below a directory, each with its location relative to the directory. -/
def filesBelow (d : Disk) (base : Location) : List (Location × String) :=
  (Node.listingAll [] (((d.root.at? base).map Node.nodes).getD [])).filterMap fun e ↦
    match e.2 with
    | .file text => some (e.1, text)
    | .directory => none

/-! ### Paths -/

/-- The way from the root to some place: the names on it, the last one first, each with what it
leads to. -/
abbrev Trail := List (String × Option Node)

/-- What the way leads to. -/
def Trail.here (d : Disk) : Trail → Option Node
  | [] => some d.root
  | (_, n) :: _ => n

def Trail.location (t : Trail) : Location := (t.map (·.1)).reverse

/-- The way to a location. -/
def trailTo (d : Disk) (l : Location) : Trail :=
  l.foldl (fun t name ↦ (name, Trail.here d t >>= (·.child? name)) :: t) []

/-- Goes on by one step of a path, which must start at a directory. -/
def step (d : Disk) (t : Trail) (name : String) : Except FileError Trail :=
  match Trail.here d t with
  | none => .error .notFound
  | some (.file _) => .error .notADirectory
  | some n =>
    if name = "." then .ok t
    else if name = ".." then .ok t.tail
    else if d.limits.any (·.name < name.utf8ByteSize) then .error .nameTooLong
    else .ok ((name, n.child? name) :: t)

/-- The way that a path describes. Each of its steps but the last must lead to a directory. -/
def follow (d : Disk) (path : String) : Except FileError Trail :=
  if path.toList.contains '\x00' then .error .nulInName
  else if path.isEmpty then .error .notFound
  else if d.limits.any (·.path < path.utf8ByteSize) then .error .nameTooLong
  else
    (Path.steps path).foldlM d.step
      (if Path.isAbsolute path then [] else d.trailTo d.workingDirectory)

/-- The location of a path. -/
def locate (d : Disk) (path : String) : Except FileError Location :=
  Trail.location <$> d.follow path

/-- The location of a path and what stands there. -/
def visit (d : Disk) (path : String) : Except FileError (Location × Option Entry) :=
  (fun t : Trail ↦ (t.location, (t.here d).map Node.entry)) <$> d.follow path

/-- What a path leads to. A path that ends in a slash leads to no file. -/
def stat (d : Disk) (path : String) : Except FileError Entry := do
  match (← d.visit path).2 with
  | some (.file text) => if Path.endsInSlash path then throw .notADirectory else return .file text
  | some .directory => return .directory
  | none => throw .notFound

def pathExists (d : Disk) (path : String) : Bool := (d.stat path).toOption.isSome

def isDirectory (d : Disk) (path : String) : Bool := (d.stat path).toOption = some .directory

/-! ### Files and directories -/

def readFile (d : Disk) (path : String) : Except FileError String := do
  match ← d.stat path with
  | .file text => return text
  | .directory => throw .isADirectory

/-- Creates one directory. -/
def createDirectory (d : Disk) (path : String) : Except FileError Disk := do
  match ← d.visit path with
  | (_, some _) => throw .alreadyExists
  | (l, none) => return d.put l .empty

/-- Creates the directories of a path from the last that exists on; `n` is the number of components
that may be missing. On failure the directories made so far remain. -/
def createDirectoriesUpTo (d : Disk) (path : String) : Nat → Except FileError Unit × Disk
  | 0 => (.ok (), d)
  | n + 1 =>
    match d.createDirectory path with
    | .ok d => (.ok (), d)
    | .error .notFound =>
      match d.createDirectoriesUpTo (Path.parent path) n with
      | (.error e, d) => (.error e, d)
      | (.ok (), d) =>
        match d.createDirectory path with
        | .ok d => (.ok (), d)
        | .error e => (if d.isDirectory path then .ok () else .error e, d)
    | .error e => (if d.isDirectory path then .ok () else .error e, d)

/-- Creates a directory and those above it. -/
def createDirectories (d : Disk) (path : String) : Except FileError Unit × Disk :=
  if path.isEmpty then (.ok (), d)
  else d.createDirectoriesUpTo path ((Path.components path).length + 1)

/-- Writes a file, in place of an earlier one. -/
def writeFile (d : Disk) (path text : String) : Except FileError Disk := do
  let (l, e) ← d.visit path
  if e = some .directory || Path.endsInSlash path then throw .isADirectory
  else return d.put l (.file text)

/-- Creates an empty file where there is nothing yet. -/
def createFile (d : Disk) (path : String) : Except FileError Disk := do
  match (← d.visit path).2 with
  | some _ => throw .alreadyExists
  | none => d.writeFile path ""

def removeFile (d : Disk) (path : String) : Except FileError Disk := do
  match ← d.stat path with
  | .file _ => return d.erase (← d.locate path)
  | .directory => throw .isADirectory

/-- Moves a file to another path, in place of a file that is there. -/
def rename (d : Disk) (source target : String) : Except FileError Disk := do
  let text ← d.readFile source
  let d ← d.writeFile target text
  if (d.locate source).toOption = (d.locate target).toOption then return d else d.removeFile source

/-- Writes a file and creates the directories above it. -/
def save (d : Disk) (path text : String) : Except FileError Unit × Disk :=
  match d.createDirectories (Path.parent path) with
  | (.error e, d) => (.error e, d)
  | (.ok (), d) =>
    match d.writeFile path text with
    | .error e => (.error e, d)
    | .ok d => (.ok (), d)

end Disk

end ClassWeave
