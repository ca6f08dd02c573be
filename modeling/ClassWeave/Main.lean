import ClassWeave.CommandLine.Basic
import Std.Time.DateTime

/-!
# The program

Reads the directories that a call is about from the file system, runs the call on what was read, and
brings what it changed back.
-/

namespace ClassWeave.Program

/-- The path of a location. -/
def pathOf (l : Location) : String := "/" ++ "/".intercalate l

/-- Adds what lies at a location and, if `deep`, below it. A file that holds no text is left out. -/
partial def load (deep : Bool) (l : Location) (d : Disk) : IO Disk := do
  let path := (← IO.currentDir) / pathOf l
  if ← path.isDir then
    let mut d := if (d.lookup l).isSome then d else d.put l .empty
    if deep then
      for entry in ← path.readDir do
        d ← load deep (l ++ [entry.fileName]) d
    return d
  else
    try
      return d.put l (.file (← IO.FS.readFile (pathOf l)))
    catch _ => return d

/-- Adds the directories above a location. -/
def loadAbove (l : Location) (d : Disk) : Disk :=
  if (d.lookup l.dropLast).isSome then d else d.put l.dropLast .empty

/-- Adds what a path leads to, if anything. -/
def loadPath (deep : Bool) (path : String) (d : Disk) : IO Disk := do
  let full := (← IO.currentDir) / path
  if ← full.pathExists then
    let l := Path.components (← IO.FS.realPath full).toString
    load deep l (loadAbove l d)
  else return d

/-- The directories that the settings of a call name. -/
def mentionedPaths (args : List String) (d : Disk) : List String :=
  match CommandLine.Request.ofArguments args with
  | .command config _ =>
    match CommandLine.loadSettings? ⟨0, ⟨"", "", ""⟩⟩ d config with
    | some s => [s.store.input, s.store.merged, s.store.split, s.logging.dir]
    | none => []
  | _ => []

def configPath (args : List String) : String :=
  match CommandLine.Request.ofArguments args with
  | .command config _ => config
  | _ => CommandLine.defaultConfig

/-- Brings a location to the state that it has on the disk. -/
def store (before : Disk) (l : Location) (e : Entry) : IO Unit := do
  if before.lookup l ≠ some e then
    match e with
    | .directory => IO.FS.createDirAll (pathOf l)
    | .file text => IO.FS.writeFile (pathOf l) text

/-- Brings back what changed. -/
def storeChanges (before after : Disk) : IO Unit := do
  for e in before.listing do
    if (after.lookup e.1).isNone then IO.FS.removeFile (pathOf e.1)
  for e in after.listing do
    store before e.1 e.2

/-- The number of processors, where it can be told. -/
def processors : IO Nat := do
  try
    let lines ← IO.FS.lines "/proc/cpuinfo"
    let count := (lines.filter (·.startsWith "processor")).size
    return if count = 0 then 4 else count
  catch _ => return 4

/-- A number with at least the given number of digits. -/
def padded (width n : Nat) : String :=
  let digits := toString n
  String.ofList (List.replicate (width - digits.length) '0') ++ digits

/-- The present moment. -/
def now : IO String := do
  let t := Std.Time.PlainDateTime.ofWallTime (.ofDuration (← Std.Time.Timestamp.now).val)
  let date := "-".intercalate
    [padded 4 t.date.year.toInt.toNat, padded 2 t.date.month.val.toNat,
      padded 2 t.date.day.val.toNat]
  let time := ":".intercalate
    [padded 2 t.time.hour.val.toNat, padded 2 t.time.minute.val.toNat,
      padded 2 t.time.second.val.toNat]
  return date ++ "T" ++ time ++ "." ++ padded 9 t.time.nanosecond.val.toNat ++ "Z"

/-- Random hexadecimal digits. -/
def randomDigits (n : Nat) : IO String := do
  let digits ← (List.range n).mapM fun _ ↦ return Nat.digitChar (← IO.rand 0 15)
  return String.ofList digits

/-- A random identifier of a run. -/
def runId : IO String := do
  let variant := Nat.digitChar (← IO.rand 8 11)
  return "-".intercalate
    [← randomDigits 8, ← randomDigits 4, "4" ++ (← randomDigits 3),
      variant.toString ++ (← randomDigits 3), ← randomDigits 12]

def run (args : List String) : IO UInt32 := do
  let config := configPath args
  let workingDirectory := Path.components (← IO.currentDir).toString
  let mut disk : Disk := { top := [], workingDirectory := workingDirectory }
  for path in [".", CommandLine.baseOf config, config] do
    disk ← loadPath false path disk
  for path in mentionedPaths args disk do
    disk ← loadPath true path disk
  let startedAt ← now
  let stamp : RunStamp := ⟨← runId, startedAt, ← now⟩
  let (outcome, after) := CommandLine.run ⟨← processors, stamp⟩ args disk
  storeChanges disk after
  outcome.lines.forM fun line ↦ IO.println line
  match outcome.error with
  | some message => IO.eprintln ("Error: " ++ message)
  | none =>
    if outcome.code = 2 then
      CommandLine.Topic.program.lines.forM fun line ↦ IO.eprintln line
  return outcome.code.toUInt32

end ClassWeave.Program

def main (args : List String) : IO UInt32 := ClassWeave.Program.run args
