/-
Options: what a run is to do.

They come from the config file and the arguments. A variable that both give
has the argument's value in the place of the config's; module paths of the
config stand before those of the arguments. Without `--config` the config is
the file `writ.toml` beside the input; a config that is not there is empty.

What is wrong is found in this order: the config itself, its variables, the
definitions, the modules and module paths of the config, and the module
paths of the arguments.
-/
import Markup.Disk
import Markup.Table
import Markup.CommandLine.Arguments
import Markup.CommandLine.Host
import Markup.Toml.Read

namespace Markup.CommandLine

/-- What a run is to do. -/
structure Options where
  input : Path
  output : Option Path
  /-- Variables of plain text. -/
  presets : Table String
  /-- The modules imported before the document. -/
  modules : List String
  modulePaths : List Path
  watch : Bool
  debug : Bool
  deriving DecidableEq, Repr, Inhabited

/-- What ends a run at once, without a message. -/
inductive Crash where
  /-- The disk does not tell what a file has. -/
  | disk (e : Disk.Error)
  /-- A path is missing, or one in the config is no text. -/
  | noPath
  /-- A value of the config goes past a limit. -/
  | excess (e : Toml.Excess)
  /-- There is no room for what is nested in the input. -/
  | full
  /-- The output has a character that it cannot be handed over with. -/
  | unencodable
  deriving DecidableEq, Repr, Inhabited

/-- Why there are no options. -/
inductive OptionsError where
  | config (m : Toml.Mistake)
  /-- A definition has no `=`, or its flag had no value. -/
  | define (text : Option String)
  | crash (cause : Crash)
  deriving DecidableEq, Repr

/-- What is reported of a definition without `=`. -/
def defineMessage (text : Option String) : String :=
  "invalid define format (expected NAME=VALUE): " ++ text.getD "[]"

/-- The name and the value around the first `=`. -/
def parseDefine (text : String) : Option (String × String) :=
  match Word.splitEquals text.toList with
  | (name, some value) => some (.ofList name, .ofList value)
  | (_, none) => none

namespace Options

/-- The file that the config is read from. -/
def configFile (input : Path) (config : Option String) : Path :=
  match config with
  | some name => if name.isEmpty then input.parent.join ⟨.none, ["writ.toml"]⟩ else .ofText name
  | none => input.parent.join ⟨.none, ["writ.toml"]⟩

/-- The entries that a config's text gives. -/
def readConfig (host : Host) (text : String) : Except OptionsError Toml.Entries :=
  match Toml.read host.configIsFull text with
  | .error (.mistake m) => .error (.config m)
  | .error (.excess e) => .error (.crash (.excess e))
  | .ok entries => .ok entries

/-- The entries of a config file; none if it is not there. -/
def loadConfig (host : Host) (disk : Disk) (path : Path) : Except OptionsError Toml.Entries :=
  match disk.isFile path with
  | .error e => .error (.crash (.disk e))
  | .ok false => .ok []
  | .ok true =>
    match disk.readExactly path with
    | .error e => .error (.crash (.disk e))
    | .ok text => readConfig host text

/-- The entries of a table in a table; none if it is no table. -/
def sectionOf (entries : Toml.Entries) (name : String) : Toml.Entries :=
  match entries.lookup name with
  | some (.table inner) => inner
  | _ => []

/-- The items of an array in a table; none if it is no array. -/
def items (entries : Toml.Entries) (name : String) : List Toml.Value :=
  match entries.lookup name with
  | some (.array items) => items
  | _ => []

/-- The text that a value of the config gives. -/
def writeValue (isFull : Nat → Toml.Value → Bool) (value : Toml.Value) :
    Except OptionsError String :=
  match value.write isFull with
  | .error e => .error (.crash (.excess e))
  | .ok text => .ok text

/-- The presets that the config gives. -/
def configPresets (host : Host) (config : Toml.Entries) : Except OptionsError (Table String) := do
  let entries ← (sectionOf config "variables").mapM fun (name, value) => do
    return (name, ← writeValue host.variableIsFull value)
  return .ofList entries

/-- Enters definitions into the presets, in order. -/
def enterDefines (presets : Table String) : List (Option String) →
    Except OptionsError (Table String)
  | [] => .ok presets
  | given :: rest =>
    match given.bind parseDefine with
    | none => .error (.define given)
    | some (name, value) => enterDefines (presets.insert name value) rest

/-- The module path that a value of the config gives, if it is a text. -/
def configPath : Toml.Value → Except OptionsError Path
  | .text path => .ok (.ofText path)
  | _ => .error (.crash .noPath)

/-- The module path that a flag gives, if it had a value. -/
def givenPath : Option String → Except OptionsError Path
  | some path => .ok (.ofText path)
  | none => .error (.crash .noPath)

/-- The file that the output goes to; none for an empty name. -/
def outputFile (name : Option String) : Option Path :=
  (name.filter fun name => !name.isEmpty).map .ofText

/-- Joins a config and arguments. -/
def merge (host : Host) (config : Toml.Entries) (input : String) (args : Arguments) :
    Except OptionsError Options := do
  let presets ← enterDefines (← configPresets host config) args.defines
  let modules ← (items (sectionOf config "modules") "use").mapM (writeValue host.moduleIsFull)
  let configPaths ← (items (sectionOf config "modules") "paths").mapM configPath
  let givenPaths ← args.modulePaths.mapM givenPath
  return {
    input := .ofText input, output := outputFile args.output, presets := presets,
    modules := modules, modulePaths := configPaths ++ givenPaths,
    watch := args.watch, debug := args.debug }

/-- The options that arguments give. -/
def resolve (host : Host) (disk : Disk) (args : Arguments) : Except OptionsError Options :=
  match args.input with
  | none => .error (.crash .noPath)
  | some input =>
    match loadConfig host disk (configFile (.ofText input) args.config) with
    | .error e => .error e
    | .ok config => merge host config input args

end Options

end Markup.CommandLine
