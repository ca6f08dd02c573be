import ClassWeave.Directive.Reading
import ClassWeave.Link.Basic
import ClassWeave.Link.Leaks
import ClassWeave.Run.Merging
import ClassWeave.Split.Projection

/-!
# Split runs

A split run reads every stored class and projects it onto the target. The redirects that the
projections record concern all classes, so linking, checking and writing wait until every class is
projected. A class that cannot be read or projected is reported and takes no part in the rest.
-/

namespace ClassWeave

structure SplitRun where
  /-- The versions in which a class without notes is taken to exist. -/
  versions : List Version
  target : Version
  /-- Whether a class that still mentions something absent in the target fails. -/
  verify : Bool := true
  /-- The order in which the classes are worked on, in either phase. -/
  schedule : List ClassName → List ClassName := id

namespace SplitRun

/-! ### Input -/

/-- The stored classes: those that can be understood, the directives of each under the name that the
store lists it by, and the others. -/
structure Loaded where
  index : MergedIndex := .empty
  directives : OrderedMap ClassName ClassDirectives := .empty
  failed : List (ClassName × String) := []

/-- Reads one stored class. -/
def loadClass (input : Source) (versions : VersionSet) (c : ClassName) :
    Except String (MergedClass × ClassDirectives) :=
  match input.readMerged c with
  | .error e => .error e.message
  | .ok t =>
    match t.asMerged versions with
    | .error e => .error e.message
    | .ok merged =>
      match t.readDirectives with
      | .error e => .error e.message
      | .ok ds => .ok (merged, ds)

def addClass (input : Source) (versions : VersionSet) (l : Loaded) (c : ClassName) : Loaded :=
  match loadClass input versions c with
  | .ok (merged, ds) =>
    { l with index := l.index.insert merged, directives := l.directives.insert c ds }
  | .error e => { l with failed := l.failed ++ [(c, e)] }

def load (input : Source) (versions : VersionSet) : Except String Loaded :=
  match input.list none with
  | .error e => .error ("Failed to list merged classes: " ++ e.message)
  | .ok classes => .ok (classes.foldl (addClass input versions) {})

/-- Whether the target is a configured version or one of some class. -/
def knowsTarget (r : SplitRun) (l : Loaded) : Bool :=
  r.versions.contains r.target || l.index.classes.values.any fun c ↦ r.target ∈ c.versions

/-! ### Projecting -/

def projector (hooks : HookRegistry) (l : Loaded) : Projector := ⟨hooks, l.index.view?⟩

/-- The directives of a class; one that is stored under another name has none. -/
def directivesOf (l : Loaded) (c : ClassName) : ClassDirectives := (l.directives.get? c).getD {}

def projectClass (r : SplitRun) (hooks : HookRegistry) (l : Loaded) (c : ClassName) :
    Except String Projection :=
  match l.index.get? c with
  | none => .error (c.text ++ " vanished from the index")
  | some merged =>
    match (projector hooks l).project merged (directivesOf l c) r.target with
    | .ok p => .ok p
    | .error e => .error e.message

/-- The projected classes of a run, and the entries of the others. -/
structure Projected where
  classes : OrderedMap ClassName ProjectedClass
  entries : List GroupReport

def collect (results : List (ClassName × Except String Projection)) : Projected where
  classes := .ofList <| results.filterMap fun r ↦
    match r.2 with
    | .ok (.projected p) => some (r.1, p)
    | _ => none
  entries := results.filterMap fun r ↦
    match r.2 with
    | .ok (.projected _) => none
    | .ok .removed => some (.removed r.1)
    | .error e => some (.failed r.1 e [])

/-- The redirects and type remaps of all projections, in the order of the classes. -/
def pool (p : Projected) : RedirectTable :=
  p.classes.values.foldl (fun t c ↦ (t.addAll c.redirects).addTypes c.typeRemaps) .empty

def poolEvents (t : RedirectTable) : List ProjectedClass → List Event
  | [] => []
  | c :: rest =>
    let t' := t.addAll c.redirects
    t.addAllEvents c.redirects ++ t'.addTypesEvents c.typeRemaps ++
      poolEvents (t'.addTypes c.typeRemaps) rest

/-! ### Linking and writing -/

/-- Why a projected class was not written. -/
inductive Failure where
  | split (e : SplitError)
  | store (e : StoreError)

def Failure.message : Failure → String
  | split e => e.message
  | store e => e.fullMessage

variable {σ : Type}

/-- Links a projection and checks the result, if wanted. -/
def finishTree (r : SplitRun) (l : Linker) (p : ProjectedClass) : Except SplitError ClassTree := do
  let (tree, _) ← l.link p.tree
  if r.verify then l.index.check r.target tree
  return tree

/-- The job of one projected class. -/
def job (r : SplitRun) (output : Output σ) (l : Linker) (p : Projected) (c : ClassName) (s : σ) :
    Except Failure Unit × σ :=
  match p.classes.get? c with
  | none => (.ok (), s)
  | some projected =>
    match r.finishTree l projected with
    | .error e => (.error (.split e), s)
    | .ok tree =>
      match output.lease c s with
      | (.error e, s) => (.error (.store e), s)
      | (.ok (), s) =>
        match output.write c tree s with
        | (.error e, s) => (.error (.store e), output.release c s)
        | (.ok (), s) => (.ok (), output.release c s)

def entry (p : Projected) (r : ClassName × Except Failure Unit) : GroupReport :=
  let warnings := ((p.classes.get? r.1).map fun c ↦ c.warnings.map SplitWarning.message).getD []
  match r.2 with
  | .ok () => .written r.1 warnings
  | .error e => .failed r.1 e.message warnings

/-! ### The run -/

def run (r : SplitRun) (hooks : HookRegistry) (input : Source) (output : Output σ) (s : σ) :
    RunResult σ :=
  match load input (.ofList r.versions) with
  | .error e => ⟨.error e, s, []⟩
  | .ok loaded =>
    let loadEvents := loaded.failed.map fun f ↦ Event.loadFailed f.1 f.2
    if !r.knowsTarget loaded then
      ⟨.error ("Unknown target version: " ++ r.target.id), s, loadEvents⟩
    else
      let classes := loaded.index.classes.keys
      let results := Pool.runPure (r.projectClass hooks loaded) (r.schedule classes)
      let projected := collect results
      let table := pool projected
      let linker : Linker := ⟨loaded.index, table, r.target⟩
      let (linked, s) :=
        Pool.run (r.job output linker projected) (r.schedule projected.classes.keys) s
      let report :=
        { Report.start (.split r.target) r.versions with
          groups :=
            (loaded.failed.map fun f : ClassName × String ↦ GroupReport.failed f.1 f.2 []) ++
              projected.entries ++ linked.map (entry projected) }.finish
      { outcome := .ok report
        state := s
        events := loadEvents ++ [.splitStarted classes.length r.target] ++
          loaded.index.classes.values.flatMap (fun c ↦
            (projector hooks loaded).events c (directivesOf loaded c.name) r.target) ++
          Pool.events id results ++ poolEvents .empty projected.classes.values ++
          [.pooledRedirects table.size table.typeCount] ++
          projected.classes.values.flatMap (fun p ↦ linker.events p.tree) ++
          Pool.events Failure.message linked ++ [.runFinished report.summary] }

end SplitRun

end ClassWeave
