import ClassWeave.Json.Record
import ClassWeave.Tree.Wire

/-!
# Reports

A report has one entry for each class of a run. `finish` puts the entries into the order of the
classes; `summary` counts them.
-/

namespace ClassWeave

inductive RunKind where
  | merge
  | split (target : Version)
  deriving DecidableEq, Repr

inductive GroupStatus where
  | written
  /-- The class does not exist in the target of a split. -/
  | removed
  | failed
  deriving DecidableEq, Repr

def GroupStatus.word : GroupStatus → String
  | written => "written"
  | removed => "removed"
  | failed => "failed"

structure GroupReport where
  cls : ClassName
  status : GroupStatus
  error : Option String := none
  warnings : List String := []
  deriving DecidableEq, Repr

namespace GroupReport

def written (cls : ClassName) (warnings : List String) : GroupReport :=
  ⟨cls, .written, none, warnings⟩

def removed (cls : ClassName) : GroupReport := ⟨cls, .removed, none, []⟩

def failed (cls : ClassName) (error : String) (warnings : List String) : GroupReport :=
  ⟨cls, .failed, some error, warnings⟩

end GroupReport

structure Report where
  kind : RunKind
  versions : List Version
  groups : List GroupReport
  finished : Bool
  deriving DecidableEq, Repr

namespace Report

/-- The report of a run that has done nothing yet. -/
def start (kind : RunKind) (versions : List Version) : Report := ⟨kind, versions, [], false⟩

/-- The report of a run that is over. -/
def finish (r : Report) : Report :=
  { r with
    groups := r.groups.mergeSort fun a b ↦ (compare a.cls b.cls).isLE
    finished := true }

def count (r : Report) (status : GroupStatus) : Nat := (r.groups.filter (·.status = status)).length

def failures (r : Report) : List GroupReport := r.groups.filter (·.status = .failed)

def hasFailures (r : Report) : Bool := !r.failures.isEmpty

def warningCount (r : Report) : Nat := (r.groups.map (·.warnings.length)).foldr (· + ·) 0

/-- The name of the file that a report is saved in. -/
def fileName (r : Report) : String :=
  match r.kind with
  | .merge => "report-merge.json"
  | .split target => "report-split-" ++ target.tag ++ ".json"

/-- The counts of a run in one line; those of removed classes and warnings only where there are
any. -/
def summary (r : Report) : String :=
  let what := match r.kind with
    | .merge => "Merge"
    | .split target => "Split for " ++ target.id
  let counted (n : Nat) (noun : String) : String :=
    if n = 0 then "" else ", " ++ toString n ++ " " ++ noun
  what ++ ": " ++ toString (r.count .written) ++ " written, " ++ toString (r.count .failed) ++
    " failed" ++ counted (r.count .removed) "removed" ++ counted r.warningCount "warnings"

end Report

/-! ### JSON -/

def RunKind.toJson : RunKind → Json
  | merge => .record [("kind", some (.str "merge"))]
  | split target => .record [("kind", some (.str "split")), ("target", some target.toJson)]

def RunKind.ofJson? (j : Json) : Option RunKind := do
  match ← j.tagged? "kind" ["merge", "split"] false with
  | ("merge", j) => (j.record? []).map fun _ ↦ .merge
  | (_, j) =>
    let fs ← j.record? ["target"]
    some (.split (← fs.required "target" Version.ofJson?))

def GroupStatus.ofJson? : Json → Option GroupStatus :=
  Json.word? ([written, removed, failed].map fun s ↦ (s.word, s)) false

def GroupReport.toJson (g : GroupReport) : Json :=
  .record [("class", some g.cls.toJson), ("status", some (.str g.status.word)),
    ("error", g.error.map Json.str), ("warnings", Json.filled Json.str g.warnings)]

def GroupReport.ofJson? (j : Json) : Option GroupReport := do
  let fs ← j.record? ["class", "status", "error", "warnings"]
  some
    { cls := ← fs.required "class" ClassName.ofJson?
      status := ← fs.required "status" GroupStatus.ofJson?
      error := ← fs.defaulted "error" (Json.nullable? Json.string?) none
      warnings := ← fs.defaulted "warnings" (Json.list? Json.string?) [] }

/-- What tells one run from another: an identifier and two moments, as texts. -/
structure RunStamp where
  id : String
  startedAt : String
  finishedAt : String

/-- The saved form of a report. -/
def Report.toJson (r : Report) (stamp : RunStamp) : Json :=
  .record [("runId", some (.str stamp.id)), ("kind", some r.kind.toJson),
    ("versions", some (.versions r.versions)), ("startedAt", some (.str stamp.startedAt)),
    ("finishedAt", some (if r.finished then .str stamp.finishedAt else .null)),
    ("groups", some (.ofList GroupReport.toJson r.groups))]

end ClassWeave
