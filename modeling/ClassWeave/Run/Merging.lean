import ClassWeave.Merge.Basic
import ClassWeave.Run.Pool
import ClassWeave.Run.Report
import ClassWeave.Store.Basic
import ClassWeave.Stored.Annotated

/-!
# Merge runs

A merge run reads the trees of all versions, groups them by class, merges each group and writes the
annotated result. A tree that cannot be read fails its group, a version that cannot be listed fails
the run before anything is written.
-/

namespace ClassWeave

/-- What becomes of a run: a report or the reason why there is none, the state of the output, and
the events. -/
structure RunResult (σ : Type) where
  outcome : Except String Report
  state : σ
  events : List Event

structure MergeRun where
  /-- The versions in the order of the merge. -/
  versions : List Version
  pinned : OrderedMap ClassName ClassName := .empty
  /-- The order in which the classes are merged, a rearrangement of the classes given to it. -/
  schedule : List ClassName → List ClassName := id

/-- The trees of a class in version order, or the first reason why one cannot be read. -/
abbrev ClassInput := Except StoreError Trees

namespace MergeRun

/-! ### Input -/

/-- Adds what was read for a class in a version. -/
def addTree (groups : OrderedMap ClassName ClassInput) (c : ClassName) (v : Version)
    (read : Except StoreError ClassTree) : OrderedMap ClassName ClassInput :=
  groups.insert c <|
    match (groups.get? c).getD (.ok []), read with
    | .error e, _ => .error e
    | .ok _, .error e => .error e
    | .ok trees, .ok t => .ok (trees ++ [(v, t)])

/-- Adds the trees of a version. -/
def addVersion (input : Source) (v : Version) (classes : List ClassName)
    (groups : OrderedMap ClassName ClassInput) : OrderedMap ClassName ClassInput :=
  classes.foldl (fun groups c ↦ addTree groups c v (input.read c v)) groups

/-- Reads the trees of the versions, and tells which versions could be listed. -/
def loadFrom (input : Source) (groups : OrderedMap ClassName ClassInput) :
    List Version → Except String (OrderedMap ClassName ClassInput) × List Event
  | [] => (.ok groups, [])
  | v :: vs =>
    match input.list (some v) with
    | .error e => (.error ("Failed to list version " ++ v.id ++ ": " ++ e.message), [])
    | .ok classes =>
      let (loaded, events) := loadFrom input (addVersion input v classes groups) vs
      (loaded, .listedVersion v classes.length :: events)

/-- The superclasses that the readable groups tell of. -/
def hierarchy (groups : OrderedMap ClassName ClassInput) : Hierarchy :=
  .ofTrees (groups.values.flatMap fun g ↦ g.toOption.getD [])

/-! ### Groups -/

/-- Why a class was not merged. -/
inductive Failure where
  | unreadable (e : StoreError)
  | lease (e : StoreError)
  | merge (e : MergeError)
  | write (e : StoreError)

def Failure.message : Failure → String
  | unreadable e => e.message
  | lease e => e.fullMessage
  | merge e => e.message
  | write e => e.fullMessage

variable {σ : Type}

/-- Merges and writes one class under a lease that is released in any case. -/
def writeClass (output : Output σ) (merger : Merger) (c : ClassName) (trees : Trees) (s : σ) :
    Except Failure MergedClass × σ :=
  match output.lease c s with
  | (.error e, s) => (.error (.lease e), s)
  | (.ok (), s) =>
    match merger.merge c trees with
    | .error e => (.error (.merge e), output.release c s)
    | .ok merged =>
      match output.write c merged.encode s with
      | (.error e, s) => (.error (.write e), output.release c s)
      | (.ok (), s) => (.ok merged, output.release c s)

/-- The job of one class. -/
def job (output : Output σ) (merger : Merger) (groups : OrderedMap ClassName ClassInput)
    (c : ClassName) (s : σ) : Except Failure MergedClass × σ :=
  match (groups.get? c).getD (.ok []) with
  | .error e => (.error (.unreadable e), s)
  | .ok trees => writeClass output merger c trees s

/-- The events of the job of one class, told from its result. -/
def jobEvents (merger : Merger) (groups : OrderedMap ClassName ClassInput)
    (r : ClassName × Except Failure MergedClass) : List Event :=
  let merging := merger.events r.1 (((groups.get? r.1).getD (.ok [])).toOption.getD [])
  match r.2 with
  | .ok merged => merging ++ [.wroteMerged r.1 merged.members.length]
  | .error (.merge _) | .error (.write _) => merging
  | .error (.unreadable _) | .error (.lease _) => []

def entry (r : ClassName × Except Failure MergedClass) : GroupReport :=
  match r.2 with
  | .ok _ => .written r.1 []
  | .error e => .failed r.1 e.message []

/-! ### The run -/

def run (m : MergeRun) (input : Source) (output : Output σ) (s : σ) : RunResult σ :=
  match loadFrom input .empty m.versions with
  | (.error e, events) => ⟨.error e, s, events⟩
  | (.ok groups, events) =>
    let known := hierarchy groups
    let merger : Merger := ⟨known, m.pinned⟩
    let (results, s) := Pool.run (job output merger groups) (m.schedule groups.keys) s
    let report := { Report.start .merge m.versions with groups := results.map entry }.finish
    { outcome := .ok report
      state := s
      events := events ++ [.mergeStarted groups.size m.versions.length known.size] ++
        results.flatMap (jobEvents merger groups) ++ Pool.events Failure.message results ++
        [.runFinished report.summary] }

end MergeRun

end ClassWeave
