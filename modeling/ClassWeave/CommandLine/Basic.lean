import ClassWeave.CommandLine.Arguments
import ClassWeave.Run.Splitting
import ClassWeave.Settings
import ClassWeave.Store.Directory

/-!
# Commands

What the program does, as a function on a disk: `run` gives the exit code, the lines printed, the
text of an error and the disk afterwards. Whatever a command printed or wrote before it failed
remains.
-/

namespace ClassWeave.CommandLine

/-- What a command leaves behind beside the disk. -/
structure Outcome where
  code : Nat
  lines : List String := []
  /-- What went wrong, where there is more to say than the lines do. -/
  error : Option String := none
  deriving DecidableEq, Repr

/-- Why a command stops early. -/
inductive Stop where
  | failed (message : String)
  /-- The classes that failed are printed already. -/
  | failedClasses
  | breakdown
  deriving DecidableEq, Repr

def Stop.code : Stop → Nat
  | failed _ | failedClasses => 1
  | breakdown => 101

def Stop.error : Stop → Option String
  | failed message => some message
  | failedClasses | breakdown => none

/-- The circumstances of a call. -/
structure Environment where
  /-- The number of workers where the settings have none. -/
  threads : Nat
  stamp : RunStamp

/-- The disk and the lines printed so far. -/
structure Console where
  disk : Disk
  lines : List String := []

/-- A computation on the console that may stop early. -/
abbrev Shell := ExceptT Stop (StateM Console)

namespace Shell

def print (line : String) : Shell Unit := modify fun c ↦ { c with lines := c.lines ++ [line] }

def disk : Shell Disk := return (← get).disk

/-- Runs an operation that changes the disk, even where it fails. -/
def onDisk {ε α : Type} (message : ε → String) (f : Disk → Except ε α × Disk) : Shell α := do
  let c ← get
  let (result, disk) := f c.disk
  set { c with disk := disk }
  match result with
  | .ok a => return a
  | .error e => throw (.failed (message e))

end Shell

open Shell

/-! ### Settings -/

/-- The directory that the settings are about. -/
def baseOf (config : String) : String :=
  let parent := Path.parent config
  if parent.isEmpty then "." else parent

def loadSettings? (env : Environment) (d : Disk) (config : String) : Option Settings := do
  let text ← (d.readFile config).toOption
  let settings ← Settings.read? env.threads text
  some (settings.resolvedAt (baseOf config))

def loadSettings (env : Environment) (config : String) : Shell Settings := do
  match loadSettings? env (← disk) config with
  | some settings => return settings
  | none =>
    throw (.failed ("Failed to load " ++ config ++ " (run 'multiversion init' first)"))

def versionSet (s : Settings) : Shell (List Version) :=
  match s.versionSet with
  | .ok versions => return versions
  | .error e => throw (.failed e.message)

/-- Writes a file that may be there already. -/
def writeFile (path text : String) : Shell Unit :=
  onDisk FileError.message fun d ↦
    match d.writeFile path text with
    | .ok d => (.ok (), d)
    | .error e => (.error e, d)

def init (env : Environment) (config : String) (versions : List String) (force : Bool) :
    Shell Unit := do
  if (← disk).pathExists config && !force then
    throw (.failed (config ++ " already exists (use --force to overwrite)"))
  let settings : Settings :=
    { versions := versions.map fun v ↦ ⟨Text.trim v⟩, threads := env.threads }
  onDisk FileError.message fun d ↦ d.createDirectories (Path.parent config)
  writeFile config settings.toJson.pretty
  print ("Settings written to " ++ config)
  if settings.versions.isEmpty then
    print "  No versions yet: add them to \"versions\" before merging"

/-! ### Status -/

/-- The number of classes in a directory, of one version or of none. -/
def countClasses (s : Settings) (d : Disk) (dir : String) (version : Option Version) : Nat :=
  if d.isDirectory dir then ((⟨dir, s.versions⟩ : DirectoryStore).list d version).length else 0

def yesNo (b : Bool) : String := if b then "true" else "false"

def versionLines (s : Settings) (d : Disk) : List String :=
  match s.versionSet with
  | .error e => ["Versions: " ++ e.message]
  | .ok versions => "Versions:" :: versions.map fun v ↦
    "  " ++ v.id ++ ": " ++ toString (countClasses s d s.store.input (some v)) ++ " classes"

def settingsLines (config : String) (s : Settings) (d : Disk) : List String :=
  let pinned := s.pinnedSuperclasses.size
  ["Configuration: " ++ config, "  Input: " ++ s.store.input, "  Merged: " ++ s.store.merged,
    "  Split: " ++ s.store.split, "  Workers: " ++ toString s.threads,
    "  Verify splits: " ++ yesNo s.verify] ++
  (if pinned = 0 then [] else ["  Pinned superclasses: " ++ toString pinned]) ++
  "" :: versionLines s d ++
  ["Merged classes: " ++ toString (countClasses s d s.store.merged none)]

def status (env : Environment) (config : String) : Shell Unit := do
  let d ← disk
  let body := match loadSettings? env d config with
    | some settings => settingsLines config settings d
    | none => ["Configuration: Not found", "  Run 'multiversion init' to configure"]
  (["Multiversion Status", "===================", ""] ++ body).forM print

/-! ### Runs -/

/-- The name of the log file. -/
def logName : String := "multiversion.log"

/-- Creates the log directory and the log in it. A log that cannot be created ends the program. -/
def startLog (dir : String) : Shell Unit := do
  onDisk FileError.message fun d ↦ d.createDirectories dir
  let path := Path.join dir logName
  if !((← disk).readFile path).toOption.isSome then
    match (← disk).writeFile path "" with
    | .ok d => modify fun c ↦ { c with disk := d }
    | .error _ => throw .breakdown

def openStore (root : String) (versions : List Version) : Shell DirectoryStore :=
  onDisk StoreError.message (DirectoryStore.create root versions)

/-- Prints what a report says and saves it. -/
def conclude (env : Environment) (logDir : String) (r : Report) : Shell Unit := do
  print r.summary
  r.failures.forM fun g ↦
    print ("  FAILED " ++ g.cls.text ++ ": " ++ g.error.getD "unknown error")
  let path := Path.join logDir r.fileName
  onDisk FileError.message fun d ↦ d.createDirectories logDir
  onDisk FileError.message (DirectoryStore.replaceFile path (r.toJson env.stamp).pretty)
  print ("Report: " ++ path)
  if r.hasFailures then throw .failedClasses

/-- Carries out a run on the disk. -/
def carryOut (env : Environment) (s : Settings) (run : Disk → RunResult Disk) : Shell Unit := do
  let result := run (← disk)
  match result.outcome with
  | .error e => throw (.failed e)
  | .ok report =>
    if Pool.maxThreads < s.threads then throw .breakdown
    onDisk id fun _ ↦ (.ok (), result.state)
    conclude env s.logging.dir report

def merge (env : Environment) (config : String) : Shell Unit := do
  let s ← loadSettings env config
  let versions ← versionSet s
  startLog s.logging.dir
  let input ← openStore s.store.input []
  let merged ← openStore s.store.merged versions
  carryOut env s fun d ↦
    MergeRun.run { versions := versions, pinned := s.pinnedSuperclasses } (input.source d)
      merged.output d

def split (env : Environment) (config target : String) : Shell Unit := do
  let s ← loadSettings env config
  let versions ← versionSet s
  startLog s.logging.dir
  let merged ← openStore s.store.merged versions
  let projected ← openStore (Path.join s.store.split target) []
  carryOut env s fun d ↦
    SplitRun.run { versions := versions, target := ⟨target⟩, verify := s.verify } .empty
      (merged.source d) projected.output d

/-! ### The program -/

def Command.perform (env : Environment) (config : String) : Command → Shell Unit
  | .init versions force => CommandLine.init env config versions force
  | .status => CommandLine.status env config
  | .merge => CommandLine.merge env config
  | .split target => CommandLine.split env config target

/-- Carries out what the arguments ask for. -/
def run (env : Environment) (args : List String) (d : Disk) : Outcome × Disk :=
  match Request.ofArguments args with
  | .usageError => ({ code := 2 }, d)
  | .help topic => ({ code := 0, lines := topic.lines }, d)
  | .command config c =>
    let (result, console) := (c.perform env config).run { disk := d }
    match result with
    | .ok () => ({ code := 0, lines := console.lines }, console.disk)
    | .error stop =>
      ({ code := stop.code, lines := console.lines, error := stop.error }, console.disk)

end ClassWeave.CommandLine
