import UsageTypes.Folder
import UsageTypes.Json.Render
import UsageTypes.Options.Read
import UsageTypes.Report

/-!
The command line. Arguments are read from left to right; a run over files prints a line for every
function, or all reports as JSON, and goes on after a file that cannot be read.
-/

namespace UsageTypes

inductive OutputFormat where
  | text | json
  deriving DecidableEq, Repr, Inhabited

/-- A run over files. -/
structure Invocation where
  logLevel : String := "warn"
  config : Option String := none
  path : String
  format : OutputFormat := .text
  strategy : Option StrategyKind := none
  deriving DecidableEq, Repr, Inhabited

inductive Command where
  | version
  | help
  | run (invocation : Invocation)
  /-- The arguments are not understood. -/
  | rejected
  deriving DecidableEq, Repr, Inhabited

/-- An option by its short and its long name. -/
structure Flag where
  short : Char
  long : String

/-- The value of an option at the front of the arguments: behind the name, or the next argument,
which must not look like an option. `none` stands for a missing value. -/
def Flag.value? (flag : Flag) : List String → Option (Option String × List String)
  | [] => none
  | argument :: rest =>
    let next : Option String × List String := match rest with
      | value :: rest =>
        if value.startsWith "-" && value ≠ "-" then (none, rest) else (some value, rest)
      | [] => (none, [])
    if argument = "--" ++ flag.long then some next
    else if argument.startsWith ("--" ++ flag.long ++ "=") then
      some (some (String.ofList (argument.toList.drop (flag.long.length + 3))), rest)
    else match argument.toList with
      | '-' :: c :: cs =>
        if c = flag.short && c ≠ '-' then
          match cs with
          | [] => some next
          | '=' :: cs => some (some (String.ofList cs), rest)
          | cs => some (some (String.ofList cs), rest)
        else none
      | _ => none

namespace Command

def formatFlag : Flag := ⟨'f', "format"⟩
def strategyFlag : Flag := ⟨'s', "strategy"⟩
def logLevelFlag : Flag := ⟨'l', "log-level"⟩
def configFlag : Flag := ⟨'c', "config"⟩

def format? (word : String) : Option OutputFormat :=
  if word = "text" then some .text else if word = "json" then some .json else none

/-- What was read of a run so far. -/
structure Draft where
  logLevel : Option String := none
  config : Option String := none
  path : Option String := none
  format : Option OutputFormat := none
  strategy : Option StrategyKind := none

def Draft.finish (d : Draft) : Command :=
  match d.path with
  | none => .rejected
  | some path => .run
    { logLevel := d.logLevel.getD "warn", config := d.config, path := path,
      format := d.format.getD .text, strategy := d.strategy }

/-- Takes an argument that is no option. -/
def Draft.takePath (d : Draft) (argument : String) : Option Draft :=
  if d.path.isSome || argument = "" then none else some { d with path := some argument }

/-- The arguments behind the name of the command. -/
def readRun (d : Draft) : Nat → Bool → List String → Command
  | 0, _, _ => .rejected
  | _ + 1, _, [] => d.finish
  | fuel + 1, plain, argument :: rest =>
    let takePath : Command := match d.takePath argument with
      | some d => readRun d fuel plain rest
      | none => .rejected
    if plain then takePath
    else if argument = "--" then readRun d fuel true rest
    else if argument = "-h" || argument = "--help" then .help
    else match formatFlag.value? (argument :: rest), strategyFlag.value? (argument :: rest) with
      | some (value, rest), _ =>
        match value.bind format? with
        | some format =>
          if d.format.isSome then .rejected else readRun { d with format := some format } fuel plain rest
        | none => .rejected
      | _, some (value, rest) =>
        match value.bind fun w => (StrategyKind.parse w).toOption with
        | some kind =>
          if d.strategy.isSome then .rejected else readRun { d with strategy := some kind } fuel plain rest
        | none => .rejected
      | none, none => if argument.startsWith "-" && argument ≠ "-" then .rejected else takePath

/-- The arguments before the name of the command. -/
def readAll (d : Draft) : Nat → List String → Command
  | 0, _ => .rejected
  | _ + 1, [] => .rejected
  | fuel + 1, argument :: rest =>
    if argument = "infer" then readRun d (rest.length + 1) false rest
    else if argument = "-V" || argument = "--version" then .version
    else if argument = "-h" || argument = "--help" || argument = "help" then .help
    else match logLevelFlag.value? (argument :: rest), configFlag.value? (argument :: rest) with
      | some (some level, rest), _ =>
        if d.logLevel.isSome then .rejected else readAll { d with logLevel := some level } fuel rest
      | none, some (some config, rest) =>
        if d.config.isSome || config = "" then .rejected
        else readAll { d with config := some config } fuel rest
      | _, _ => .rejected

/-- Reads the arguments of the program. -/
def parse (arguments : List String) : Command := readAll {} (arguments.length + 1) arguments

end Command

/-- What a run leaves behind. -/
structure Outcome where
  exitCode : Nat
  stdout : String := ""
  stderr : String := ""
  deriving DecidableEq, Repr, Inhabited

namespace ParameterReport

def toJson (p : ParameterReport) : Json :=
  let number (n : Nat) : Json := .number (.natural n)
  .object [
    ("declaration", .object [("name", .string p.name), ("index", number p.index),
      ("start_byte", number p.startByte), ("end_byte", number p.endByte), ("line", number p.line),
      ("column", number p.column)] none),
    ("type", .string p.type.display), ("is_optional", .bool p.isOptional)] none

end ParameterReport

namespace FunctionReport

def toJson (f : FunctionReport) : Json :=
  let name : Json := match f.name with
    | some name => .string name
    | none => .null
  .object [("name", name), ("line", .number (.natural f.line)),
    ("parameters", .array (f.parameters.map (·.toJson)) none)] none

end FunctionReport

namespace FileReport

def toJson (r : FileReport) : Json :=
  .object [("path", .string r.path), ("functions", .array (r.functions.map (·.toJson)) none)] none

/-- A line for every function. -/
def toLines (r : FileReport) : String :=
  String.join (r.functions.map fun f =>
    r.path ++ ":" ++ toString f.line ++ ": " ++ f.name.getD "<anonymous>" ++ "(" ++ f.display ++ ")\n")

end FileReport

/-- A record on lines of its own; the later ones are indented. -/
def LogRecord.toLines (r : LogRecord) : String :=
  (r.displayAligned.replace "\n" "\n    ") ++ "\n"

/-- A failed run: what failed, and the causes, which are numbered if there are several. The later
lines of a cause stand below its first one. -/
def failure (context : String) (causes : List String) : Outcome :=
  let numbered := causes.zipIdx.map fun (c, i) =>
    "    " ++ toString i ++ ": " ++ c.replace "\n" "\n       " ++ "\n"
  let listed := match causes with
    | [] => ""
    | [c] => "\nCaused by:\n    " ++ c.replace "\n" "\n    " ++ "\n"
    | _ => "\nCaused by:\n" ++ String.join numbered
  { exitCode := 1, stderr := "Error: " ++ context ++ "\n" ++ listed }

/-- Reads and infers a source text under a path. -/
def inferSource (settings : Settings) (path text : String) :
    Except Fault (FileReport × List LogRecord) :=
  (Source.parse path text).map fun source =>
    let program := Program.ofTree source.tree
    (⟨path, program.infer settings⟩, Report.program program settings path)

/-- Reads and infers the file at a path. -/
def inferFile (settings : Settings) (disk : Disk) (path : String) : Except Fault FileReport :=
  match disk.text path with
  | .error f => .error f
  | .ok text => (inferSource settings path text).map (·.1)

/-- Reads options from the file at a path. -/
def Options.load (disk : Disk) (path : String) : Except Fault Options :=
  (disk.text path).bind Options.parse

namespace Invocation

/-- The options of a run: those of its file, with the strategy that the arguments name. -/
def options (invocation : Invocation) (disk : Disk) : Except (String × Fault) Options :=
  let loaded : Except (String × Fault) Options := match invocation.config with
    | none => .ok {}
    | some path =>
      match Options.load disk path with
      | .ok options => .ok options
      | .error f => .error ("failed to load config " ++ path, f)
  loaded.map fun o => match invocation.strategy with
    | some kind => { o with strategy := kind }
    | none => o

def level (invocation : Invocation) : LogLevel :=
  (LogLevel.ofName? (lower invocation.logLevel)).getD .warn

/-- The part of a run for one file. -/
def oneFile (invocation : Invocation) (settings : Settings) (path text : String) :
    Outcome × List FileReport :=
  match inferSource settings path text with
  | .ok (report, records) =>
    ({ exitCode := 0
       stdout := if invocation.format = .text then report.toLines else ""
       stderr := String.join ((records.filter (·.within invocation.level)).map (·.toLines)) }, [report])
  | .error f =>
    let skipping : LogRecord := ⟨.error, "paraminfer", "skipping " ++ path⟩
    ({ exitCode := 1, stderr := skipping.toLines ++ f.message ++ "\n" }, [])

/-- Runs over the files under a path. -/
def run (invocation : Invocation) (disk : Disk) : Outcome :=
  match invocation.options disk with
  | .error (context, f) => failure context f.causes
  | .ok options =>
    match disk invocation.path with
    | .error _ => failure ("path not found: " ++ invocation.path) []
    | .ok _ =>
      match disk.sources invocation.path with
      | [] =>
        { exitCode := 0
          stderr := "No TypeScript files found under " ++ invocation.path ++ "\n" }
      | files =>
        let parts := files.map fun (path, text) => invocation.oneFile (.ofOptions options) path text
        let reports := parts.flatMap (·.2)
        { exitCode := if parts.all (·.1.exitCode = 0) then 0 else 1
          stdout := if invocation.format = .json then
              (Json.array (reports.map (·.toJson)) none).render ++ "\n"
            else String.join (parts.map (·.1.stdout))
          stderr := String.join (parts.map (·.1.stderr)) }

end Invocation

namespace Command

/-- Runs a command. -/
def execute (command : Command) (disk : Disk) : Outcome :=
  match command with
  | version => { exitCode := 0, stdout := "paraminfer 0.1.0\n" }
  | help => { exitCode := 0 }
  | rejected => { exitCode := 2 }
  | run invocation => invocation.run disk

end Command

end UsageTypes
