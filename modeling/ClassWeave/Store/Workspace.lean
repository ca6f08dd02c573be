import ClassWeave.Log
import ClassWeave.Store.Directory
import ClassWeave.Store.Memory

/-!
# Workspaces

A workspace has stores under names of its own, all directories on one disk, and the leases that are
held on them, which have names too. Opening a store under the name of another one hides the other;
leases on it are still held on the hidden store.
-/

namespace ClassWeave

inductive Store where
  /-- A store in memory; listing one that is not `listable` fails. -/
  | memory (content : MemoryStore) (listable : Bool)
  | directory (d : DirectoryStore)

namespace Store

def source (s : Store) (disk : Disk) : Source :=
  match s with
  | memory content true => content.source
  | memory content false => content.unlistedSource
  | directory d => d.source disk

/-- The store in memory that this is, where it can be listed. -/
def memory? : Store → Option MemoryStore
  | memory content true => some content
  | _ => none

def directory? : Store → Option DirectoryStore
  | directory d => some d
  | memory .. => none

end Store

/-- The number of a store in the order of opening. -/
abbrev StoreId := Nat

/-- A lease that is held on a store. -/
structure HeldLease where
  store : StoreId
  cls : ClassName
  deriving DecidableEq, Repr

structure Workspace where
  disk : Disk
  /-- Every store that was ever opened. -/
  opened : List Store := []
  names : OrderedMap String StoreId := .empty
  leases : OrderedMap String HeldLease := .empty

namespace Workspace

/-- The workspace without stores. -/
def empty (disk : Disk) : Workspace where
  disk := disk

instance : Inhabited Workspace := ⟨empty default⟩

def storeId? (w : Workspace) (name : String) : Option StoreId := w.names.get? name

def store? (w : Workspace) (name : String) : Option Store :=
  w.storeId? name >>= fun i ↦ w.opened[i]?

/-- The trees of a store at this moment. -/
def source? (w : Workspace) (name : String) : Option Source :=
  (w.store? name).map (·.source w.disk)

/-! ### Opening -/

/-- Adds a store under a name. -/
def add (w : Workspace) (name : String) (s : Store) : Workspace :=
  { w with opened := w.opened ++ [s], names := w.names.insert name w.opened.length }

def openMemory (w : Workspace) (name : String) (listable : Bool) : Workspace :=
  w.add name (.memory .empty listable)

/-- Opens a store in the directory at `root`, which is created if need be. -/
def openDirectory (w : Workspace) (name root : String) (versions : List Version) :
    Except StoreError Unit × Workspace :=
  match DirectoryStore.create root versions w.disk with
  | (.error e, disk) => (.error e, { w with disk := disk })
  | (.ok s, disk) => (.ok (), { w with disk := disk }.add name (.directory s))

/-! ### Writing and leases -/

/-- Replaces the content of a store in memory. -/
def setMemory (w : Workspace) (i : StoreId) (content : MemoryStore) (listable : Bool) : Workspace :=
  { w with opened := w.opened.set i (.memory content listable) }

/-- Runs an operation of the output of a store. -/
def onStore {α : Type} (i : StoreId) (absent : α) (inMemory : MemoryStore → α × MemoryStore)
    (inDirectory : DirectoryStore → Disk → α × Disk) (w : Workspace) : α × Workspace :=
  match w.opened[i]? with
  | none => (absent, w)
  | some (.memory content listable) =>
    let (a, content) := inMemory content
    (a, w.setMemory i content listable)
  | some (.directory d) =>
    let (a, disk) := inDirectory d w.disk
    (a, { w with disk := disk })

/-- The store as the output of a run. -/
def output (i : StoreId) : Output Workspace where
  write c t := onStore i (.ok ()) (MemoryStore.output.write c t) fun d ↦ d.output.write c t
  lease c := onStore i (.ok ()) (MemoryStore.output.lease c) fun d ↦ d.output.lease c
  release c w :=
    (onStore i () (fun m ↦ ((), m.release c)) (fun d disk ↦ ((), d.release c disk)) w).2

/-- What there is to say when a lease is given up. -/
def releaseEvents (w : Workspace) (l : HeldLease) : List Event :=
  match w.opened[l.store]? with
  | some (.directory d) =>
    match w.disk.removeFile (d.lockPath l.cls) with
    | .error e => [.releaseFailed (d.lockPath l.cls) e.message]
    | .ok _ => []
  | _ => []

/-- Gives up a lease. -/
def drop (w : Workspace) (l : HeldLease) : Workspace := (output l.store).release l.cls w

/-- Takes a lease and holds it under a name. One held under the name before is given up after
that. -/
def hold (w : Workspace) (name : String) (l : HeldLease) :
    Except StoreError Unit × Workspace × List Event :=
  match (output l.store).lease l.cls w with
  | (.error e, w) => (.error e, w, [])
  | (.ok (), w) =>
    let held := { w with leases := w.leases.insert name l }
    match w.leases.get? name with
    | some old => (.ok (), held.drop old, held.releaseEvents old)
    | none => (.ok (), held, [])

/-- Gives up the lease held under a name; `none` where there is none. -/
def release? (w : Workspace) (name : String) : Option (Workspace × List Event) :=
  (w.leases.get? name).map fun l ↦
    ({ w with leases := w.leases.erase name }.drop l, w.releaseEvents l)

/-! ### Single stores -/

/-- Adds a tree to a listable store in memory. -/
def insert? (w : Workspace) (name : String) (version : Option Version) (t : ClassTree) :
    Option Workspace := do
  let content ← (← w.store? name).memory?
  some (w.setMemory (← w.storeId? name) (content.insert version t) true)

/-- Writes a text to a file below the directory of a store. -/
def putFile (w : Workspace) (s : DirectoryStore) (path text : String) :
    Except FileError Unit × Workspace :=
  let (result, disk) := w.disk.save (Path.join s.root path) text
  (result, { w with disk := disk })

/-- The text of a file below the directory of a store. -/
def file? (w : Workspace) (s : DirectoryStore) (path : String) : Option String :=
  (w.disk.readFile (Path.join s.root path)).toOption

/-- Removes a file below the directory of a store, if it is there. -/
def eraseFile? (w : Workspace) (s : DirectoryStore) (path : String) : Option Workspace :=
  (w.disk.removeFile (Path.join s.root path)).toOption.map fun disk ↦ { w with disk := disk }

/-- The paths of all files below the directory of a store. -/
def files (w : Workspace) (s : DirectoryStore) : List String :=
  let below := w.disk.filesBelow ((w.disk.locate s.root).toOption.getD [])
  (below.map fun f ↦ "/".intercalate f.1).mergeSort fun a b ↦ (compare a b).isLE

end Workspace

end ClassWeave
