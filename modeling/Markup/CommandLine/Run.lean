/-
A run of the command.

A run reads its input, expands it and writes the output, or says what is
wrong. It writes nothing unless the whole document has been expanded. Where
the disk refuses to read, the run says so of its input, also if a module was
asked for. Where a file that has to be text is none, where there is no room
for what is nested in the input, or where the output has a character that it
cannot be handed over with, it ends at once (`Crash`).
-/
import Markup.Compile
import Markup.Node.Outline
import Markup.CommandLine.Options
import Markup.CommandLine.Usage

namespace Markup.CommandLine

/-- Why a file has no output. -/
inductive FileError where
  /-- The disk refuses to read the file, or to say whether a module is there. -/
  | refused (fault : Disk.Fault) (path : Path)
  /-- Its text has no output. -/
  | text (e : CompileError) (source : String)
  | crash (cause : Crash)
  deriving DecidableEq, Repr

/-- An error of the disk while a file is expanded. -/
def FileError.ofDisk : Disk.Error → FileError
  | .refused fault path => refused fault path
  | e => crash (.disk e)

/-- The setting that options give. -/
def Options.setting (o : Options) (host : Host) (now : BuiltIn.Moment) : Setting :=
  ⟨o.input.text, o.presets.entries, o.modulePaths, now, host.limit⟩

/-- The imports of the modules that options name. -/
def Options.prelude (o : Options) : List Node :=
  o.modules.map fun name => .use name (BuiltIn.moduleNames.contains name) .builtIn

/-- Expands nodes and puts a newline behind the output. -/
def finishFile (host : Host) (o : Options) (disk : Disk) (now : BuiltIn.Moment)
    (source : String) (nodes : List Node) : Except FileError String :=
  match (o.setting host now).output disk source (o.prelude ++ nodes) with
  | .error (.disk e) => .error (.ofDisk e)
  | .error e => .error (.text e source)
  | .ok text => .ok (text ++ "\n")

/-- Expands a text. Also gives the outlines made on the way, if they are wanted. -/
def compileText (host : Host) (o : Options) (disk : Disk) (now : BuiltIn.Moment)
    (source : String) : String × Except FileError String :=
  match Token.scan source with
  | .error e => ("", .error (.text (.text (.tokens e)) source))
  | .ok tokens =>
    let outline := if o.debug then Token.outline tokens else ""
    match Node.parseWithin host.isFull tokens with
    | .error .full => (outline, .error (.crash .full))
    | .error (.refused e) => (outline, .error (.text (.text (.tree e)) source))
    | .ok nodes =>
      let outline := outline ++ if o.debug then Node.outline nodes else ""
      (outline, finishFile host o disk now source nodes)

/-- Expands the input. Also gives the outlines made on the way, if they are wanted. -/
def compileFile (host : Host) (o : Options) (disk : Disk) (now : BuiltIn.Moment) :
    String × Except FileError String :=
  match disk.readText o.input with
  | .error e => ("", .error (.ofDisk e))
  | .ok source => compileText host o disk now source

/-- An error in a text as it is shown. -/
def renderError (e : CompileError) (source fileName : String) : String :=
  match e with
  | .text e => snippet e.message e.span source fileName
  | .expand errors => ExpandError.renderAll errors fileName
  | .disk _ => ""

/-- What a run prints, and the disk behind it. -/
structure Effect where
  stdout : String
  stderr : String
  disk : Disk
  deriving Inhabited

/-- What handing an output over has done, and whether it came to its end. -/
structure Handover where
  stdout : String
  disk : Disk
  result : Except Disk.WriteError Unit
  deriving Inhabited

/-- Hands the output over: to its file, or if there is none to be printed. -/
def emit (host : Host) (o : Options) (disk : Disk) (text : String) : Handover :=
  match o.output with
  | none =>
    let (result, stdout) := host.print text
    ⟨stdout, disk, result⟩
  | some path =>
    let (result, disk) := disk.writeText host.unencodable path text
    ⟨"", disk, result⟩

/-- How a message names what the output goes to. -/
def Options.outputName (o : Options) : String :=
  match o.output with
  | none => "None"
  | some path => path.text

/-- How a run ends. -/
inductive Outcome where
  | finished (code : Nat) (effect : Effect)
  /-- It goes on to watch its input. -/
  | watching (o : Options)
  /-- It ends at once, with what it has done by then. -/
  | crashed (cause : Crash) (effect : Effect)
  deriving Inhabited

/-- Ends a run with a message. -/
def failed (code : Nat) (disk : Disk) (message : String) : Outcome :=
  .finished code ⟨"", message, disk⟩

/-- Expands the input once. -/
def runOnce (host : Host) (o : Options) (disk : Disk) (now : BuiltIn.Moment) : Outcome :=
  let (outline, result) := compileFile host o disk now
  match result with
  | .error (.crash cause) => .crashed cause ⟨"", outline, disk⟩
  | .error (.refused fault _) =>
    failed 1 disk
      (outline ++ "error: could not read " ++ o.input.text ++ ": " ++ fault.text ++ "\n")
  | .error (.text e source) => failed 1 disk (outline ++ renderError e source o.input.text ++ "\n")
  | .ok text =>
    let given := emit host o disk text
    match given.result with
    | .ok () => .finished 0 ⟨given.stdout, outline, given.disk⟩
    | .error (.unopened (.refused fault _)) | .error (.broken fault) =>
      .finished 1 ⟨given.stdout,
        outline ++ "error: could not write " ++ o.outputName ++ ": " ++ fault.text ++ "\n", given.disk⟩
    | .error (.unopened e) => .crashed (.disk e) ⟨given.stdout, outline, given.disk⟩
    | .error .unencodable => .crashed .unencodable ⟨given.stdout, outline, given.disk⟩

/-- Does what arguments ask for. -/
def runArguments (host : Host) (args : Arguments) (disk : Disk) (now : BuiltIn.Moment) : Outcome :=
  if args.help then .finished 1 ⟨help, "", disk⟩
  else if args.version then .finished 1 ⟨commandName ++ " " ++ version ++ "\n", "", disk⟩
  else if args.input.isNone then failed 1 disk ("error: missing input file\n" ++ usage)
  else
    match Options.resolve host disk args with
    | .error (.config m) => failed 1 disk ("error: " ++ m.message ++ "\n")
    | .error (.define text) => failed 1 disk ("error: " ++ defineMessage text ++ "\n")
    | .error (.crash cause) => .crashed cause ⟨"", "", disk⟩
    | .ok o => if o.watch then .watching o else runOnce host o disk now

/-- How wrong arguments are reported. -/
def usageReport (e : UsageError) : String :=
  usage ++ commandName ++ ": error: " ++ e.message ++ "\n"

/-- Does what the words of a command line ask for. -/
def run (host : Host) (words : List String) (disk : Disk) (now : BuiltIn.Moment) : Outcome :=
  match Arguments.ofWords words with
  | .error e => failed 2 disk (usageReport e)
  | .ok args => runArguments host args disk now

end Markup.CommandLine
