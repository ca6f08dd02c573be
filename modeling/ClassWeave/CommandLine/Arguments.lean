import ClassWeave.Store.Path

/-!
# Arguments

The arguments of the command line: options of the program, the name of a command, options of the
command. A value follows its option as the next argument, unless that begins with a hyphen and has
more to it, or after an equals sign. An option is given once, `--versions` aside.

Arguments are read from left to right. The first one that is wrong, or that asks for help, decides.
-/

namespace ClassWeave.CommandLine

inductive Command where
  | init (versions : List String) (force : Bool)
  | status
  | merge
  | split (target : String)
  deriving DecidableEq, Repr

/-- What help is about. -/
inductive Topic where
  | program
  | init
  | status
  | merge
  | split
  | help
  deriving DecidableEq, Repr

/-- What the arguments ask for. -/
inductive Request where
  | command (config : String) (c : Command)
  | help (topic : Topic)
  | usageError
  deriving DecidableEq, Repr

/-! ### Options -/

/-- An option by its name, which stands after two hyphens. -/
structure OptionSpec where
  name : String
  takesValue : Bool := true
  repeatable : Bool := false
  mayBeEmpty : Bool := true

/-- An option with its value; that of a flag is empty. -/
structure GivenOption where
  name : String
  value : String
  deriving DecidableEq, Repr

/-- Whether an argument can be nothing but an option. -/
def looksLikeOption (arg : String) : Bool := arg.toList.head? = some '-' && arg ≠ "-"

/-- The text before the first equals sign, and the text after it. -/
def splitAtEquals (arg : String) : String × Option String :=
  let cs := arg.toList
  (.ofList (cs.takeWhile (· ≠ '=')),
    ((cs.dropWhile (· ≠ '=')).tail?).map String.ofList)

def OptionSpec.accepts (o : OptionSpec) (given : List GivenOption) (value : String) : Bool :=
  (o.repeatable || given.all (·.name ≠ o.name)) && (o.mayBeEmpty || !value.isEmpty)

/-- Reads options up to the first other argument. Gives them after those `given` already, and the
arguments that are left. -/
def readOptions (topic : Topic) (specs : List OptionSpec) (given : List GivenOption) :
    List String → Except Request (List GivenOption × List String)
  | [] => .ok (given, [])
  | arg :: rest =>
    if !looksLikeOption arg then .ok (given, arg :: rest)
    else if arg = "--" then if rest.isEmpty then .ok (given, []) else .error .usageError
    else if arg = "--help" || arg.toList[1]? = some 'h' then .error (.help topic)
    else
      let (text, attached) := splitAtEquals arg
      match specs.find? fun o ↦ "--" ++ o.name = text, attached, rest with
      | none, _, _ => .error .usageError
      | some o, none, rest =>
        if o.takesValue then
          match rest with
          | [] => .error .usageError
          | value :: rest =>
            if !looksLikeOption value && o.accepts given value then
              readOptions topic specs (given ++ [⟨o.name, value⟩]) rest
            else .error .usageError
        else if o.accepts given "" then readOptions topic specs (given ++ [⟨o.name, ""⟩]) rest
        else .error .usageError
      | some o, some value, rest =>
        if o.takesValue && o.accepts given value then
          readOptions topic specs (given ++ [⟨o.name, value⟩]) rest
        else .error .usageError
  termination_by args => args.length
  decreasing_by all_goals simp_all; try omega

/-- The values that were given for an option. -/
def valuesOf (name : String) (given : List GivenOption) : List String :=
  (given.filter (·.name = name)).map (·.value)

/-! ### Commands -/

/-- The settings file that is used when none is named. -/
def defaultConfig : String := "multiversion.json"

/-- Reads the options of a command, after which nothing may follow. -/
def readCommand (topic : Topic) (specs : List OptionSpec) (args : List String)
    (command : List GivenOption → Option Command) (config : String) : Request :=
  match readOptions topic specs [] args with
  | .error r => r
  | .ok (given, []) => ((command given).map (Request.command config)).getD .usageError
  | .ok _ => .usageError

def splitAtCommas (value : String) : List String :=
  (Path.splitOn (· = ',') value.toList).map String.ofList

def initOf (given : List GivenOption) : Command :=
  .init ((valuesOf "versions" given).flatMap splitAtCommas) (!(valuesOf "force" given).isEmpty)

def topic? : String → Option Topic
  | "init" => some .init
  | "status" => some .status
  | "merge" => some .merge
  | "split" => some .split
  | "help" => some .help
  | _ => none

def helpOn : List String → Request
  | [] => .help .program
  | [name] => ((topic? name).map Request.help).getD .usageError
  | _ => .usageError

/-- What a list of arguments asks for. -/
def Request.ofArguments (args : List String) : Request :=
  match readOptions .program [{ name := "config", mayBeEmpty := false }] [] args with
  | .error r => r
  | .ok (given, rest) =>
    let config := (valuesOf "config" given).head?.getD defaultConfig
    match rest with
    | "init" :: args =>
      readCommand .init
        [{ name := "versions", repeatable := true }, { name := "force", takesValue := false }]
        args (some ∘ initOf) config
    | "status" :: args => readCommand .status [] args (fun _ ↦ some .status) config
    | "merge" :: args => readCommand .merge [] args (fun _ ↦ some .merge) config
    | "split" :: args =>
      readCommand .split [{ name := "target" }] args
        (fun given ↦ (valuesOf "target" given).head?.map Command.split) config
    | "help" :: names => helpOn names
    | _ => .usageError

/-! ### Help -/

/-- The lines of help on a topic. -/
def Topic.lines : Topic → List String
  | program =>
    ["Merge per-version class trees into one and split them back per target version", "",
      "Usage: multiversion [OPTIONS] <COMMAND>", "", "Commands:",
      "  init    Write a settings file with defaults",
      "  status  Show settings and per-version class counts",
      "  merge   Merge every class group of the configured versions",
      "  split   Split the merged classes for one target version",
      "  help    Print this message or the help of the given subcommand(s)", "", "Options:",
      "      --config <CONFIG>  Path to the settings file [default: multiversion.json]",
      "  -h, --help             Print help"]
  | init =>
    ["Write a settings file with defaults", "", "Usage: multiversion init [OPTIONS]", "",
      "Options:", "      --versions <VERSIONS>  Versions in provider order (e.g. a,b)",
      "      --force                Overwrite an existing settings file",
      "  -h, --help                 Print help"]
  | status =>
    ["Show settings and per-version class counts", "", "Usage: multiversion status", "",
      "Options:", "  -h, --help  Print help"]
  | merge =>
    ["Merge every class group of the configured versions", "", "Usage: multiversion merge", "",
      "Options:", "  -h, --help  Print help"]
  | split =>
    ["Split the merged classes for one target version", "",
      "Usage: multiversion split --target <TARGET>", "", "Options:",
      "      --target <TARGET>  Version to project for", "  -h, --help             Print help"]
  | help =>
    ["Print this message or the help of the given subcommand(s)", "",
      "Usage: multiversion help [COMMAND]...", "", "Arguments:",
      "  [COMMAND]...  Print help for the subcommand(s)"]

end ClassWeave.CommandLine
