/-
The command.

What a run does is decided in `Markup.CommandLine`. Here the files that it
looks at are read, and what it prints and writes is handed on. A watch looks
twice a second; its input has changed when its bytes have.
-/
import Std.Time
import Markup.CommandLine.Sources
import Markup.CommandLine.Watch

namespace Markup.CommandLine

/-- The day and the time of day. -/
def currentMoment : IO BuiltIn.Moment := do
  let ⟨date, time⟩ ← Std.Time.PlainDateTime.now
  return ⟨date.year.toInt.toNat, date.month.val.toNat, date.day.val.toNat,
    time.hour.val.toNat, time.minute.val.toNat, time.second.val.toNat⟩

/-- What is at a path. -/
def contentAt (path : Path) : IO (Option Disk.Content) := do
  if path.hasNul then return none
  try
    return some (.file (← IO.FS.readBinFile path.text))
  catch
    | .inappropriateType .. => return some .directory
    | _ => return none

/-- Puts on the disk what is at a path and at the directories that lead to it. -/
def load (disk : Disk) (path : Path) : IO Disk := do
  let mut disk := disk
  for depth in List.range path.names.length do
    let part : Path := ⟨path.root, path.names.take (depth + 1)⟩
    match ← contentAt part with
    | none => return disk
    | some content =>
      disk := disk.place part content
      if content ≠ .directory then return disk
  return disk

/-- The host that the command is run on, with a limit far deeper than a document that ends goes. -/
def thisHost : Host := .roomy 1000

/-- Puts on the disk all that a run looks at beside what is known of it. -/
partial def loadSources (args : Arguments) (disk : Disk) (known : List Path) : IO Disk := do
  match (sources thisHost args disk known).find? fun path => !known.contains path with
  | none => return disk
  | some path => loadSources args (← load disk path) (path :: known)

/-- Whether a path leads to a directory, when what leads there is none but directories. It is
opened and not read, since reading may wait. -/
def isDirectory (path : Path) : IO Bool := do
  if path.hasNul then return false
  try
    let _ ← IO.FS.Handle.mk path.text .readWrite
    return false
  catch
    | .inappropriateType .. => return true
    | _ => return false

/-- The disk that a run with arguments needs. -/
def loadDisk (args : Arguments) : IO Disk := do
  let disk ← loadSources args .empty []
  match args.output with
  | none => return disk
  | some name =>
    let path := Path.ofText name
    let disk ← load disk path.parent
    return if ← isDirectory path then disk.place path .directory else disk

/-- The path of a location. -/
def pathOf : Disk.Location → Path
  | ⟨.root, names⟩ => ⟨.single, names⟩
  | ⟨.above levels, names⟩ => ⟨.none, List.replicate levels ".." ++ names⟩

/-- Writes the files that differ between two disks. -/
def save (before after : Disk) : IO Unit := do
  for (location, entry) in after.entries do
    if before.entry? location ≠ some entry then
      match entry.content with
      | .directory => pure ()
      | .file bytes => IO.FS.writeBinFile (pathOf location).text bytes

/-- Writes and prints what a run did. If a file cannot be written, says only that. Tells whether
all could be written. -/
def carryOut (before : Disk) (effect : Effect) : IO Bool := do
  try
    save before effect.disk
    IO.print effect.stdout
    IO.eprint effect.stderr
    (← IO.getStdout).flush
    return true
  catch e =>
    IO.eprintln ("error: could not write: " ++ toString e)
    return false

/-- What is said at the end of a run that a file ended. -/
def crashText : Crash → String
  | .disk (.refused fault path) => "error: " ++ path.text ++ ": " ++ fault.text
  | .disk .unnameable => "error: a path has a NUL character"
  | .disk .undecodable => "error: a file is not UTF-8"
  | .noPath => "error: a path is not a string"
  | .excess .longInteger => "error: an integer in the config is too long"
  | .excess .tooNested => "error: the config is nested too deep"
  | .full => "error: the input is nested too deep"
  | .unencodable => "error: the output has a character that cannot be written"

/-- Looks at the input for ever. `seen` has its bytes at the last look that found it, and
`change` counts how often they have changed. -/
partial def watch (args : Arguments) (o : Options) (seen : Option Disk.Content) (change : Int)
    (lastChange : Int) : IO UInt32 := do
  let disk ← loadDisk args
  let content := (disk.find o.input).toOption.map (·.content)
  let change := if content = seen then change else change + 1
  let disk := disk.touch o.input change
  match Watch.look thisHost o (← currentMoment) lastChange disk with
  | .error cause =>
    IO.eprintln (crashText cause)
    return 1
  | .ok look =>
    let _ ← carryOut disk look.effect
    IO.sleep 500
    watch args o (content.or seen) change look.lastChange

/-- Does what the words of a command line ask for. -/
def execute (words : List String) : IO UInt32 := do
  let disk ← match Arguments.ofWords words with
    | .error _ => pure .empty
    | .ok args => loadDisk args
  match run thisHost words disk (← currentMoment) with
  | .crashed cause effect =>
    let _ ← carryOut disk effect
    IO.eprintln (crashText cause)
    return 1
  | .finished code effect =>
    return if ← carryOut disk effect then code.toUInt32 else 1
  | .watching o =>
    IO.eprint (Watch.greeting o)
    match Arguments.ofWords words with
    | .error _ => return 2
    | .ok args => watch args o none 0 0

end Markup.CommandLine

/-- The command. -/
def main (words : List String) : IO UInt32 := Markup.CommandLine.execute words
