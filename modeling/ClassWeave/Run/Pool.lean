import ClassWeave.ClassName
import ClassWeave.Log

/-!
# Running a job for every class

The jobs of a run share a state and run in some order. Each fails by itself only; the results come
back in the order of the classes, whatever the order of the jobs was.
-/

namespace ClassWeave

/-- The end of a job that did not succeed. -/
inductive JobError where
  /-- The causes of a failure, the root first. -/
  | failed (causes : List String)
  /-- A breakdown, with its message where it had one. -/
  | panicked (payload : Option String)
  deriving DecidableEq, Repr

def JobError.message : JobError → String
  | failed causes => ": ".intercalate causes.reverse
  | panicked payload => "worker panicked: " ++ payload.getD "non-string payload"

namespace Pool

variable {σ ε α : Type}

/-- The largest number of jobs that a pool can be told to run at a time. A program that is told more
breaks down. -/
def maxThreads : Nat := Nat.pow 2 61 - 1

/-- Runs the jobs one after the other. -/
def runInOrder (job : ClassName → σ → Except ε α × σ) :
    List ClassName → σ → List (ClassName × Except ε α) × σ
  | [], s => ([], s)
  | c :: cs, s =>
    let (result, s) := job c s
    let (results, s) := runInOrder job cs s
    ((c, result) :: results, s)

/-- Runs a job for each class, and sorts the results. -/
def run (job : ClassName → σ → Except ε α × σ) (classes : List ClassName) (s : σ) :
    List (ClassName × Except ε α) × σ :=
  let (results, s) := runInOrder job classes s
  (results.mergeSort fun a b ↦ (compare a.1 b.1).isLE, s)

/-- Runs a job that has no state. -/
def runPure (job : ClassName → Except ε α) (classes : List ClassName) :
    List (ClassName × Except ε α) :=
  (run (fun c (s : Unit) ↦ (job c, s)) classes ()).1

/-- An event for each failure. -/
def events (message : ε → String) (results : List (ClassName × Except ε α)) : List Event :=
  results.filterMap fun r ↦
    match r.2 with
    | .error e => some (.groupFailed r.1 (message e))
    | .ok _ => none

end Pool

end ClassWeave
