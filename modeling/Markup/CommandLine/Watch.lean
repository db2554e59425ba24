/-
Watching the input.

The watch looks at its input again and again. At a look it expands the
input if it is there and has another time of change than at the last look
that found it, whether or not it had an output then. Nothing but a crash
ends it from within; it goes on until it is interrupted.
-/
import Markup.CommandLine.Run

namespace Markup.CommandLine.Watch

/-- What a look leaves. -/
structure Look where
  effect : Effect
  /-- When the input had changed, at the last look that found it. -/
  lastChange : Int
  deriving Inhabited

/-- What is printed when the watch begins. -/
def greeting (o : Options) : String := "Watching " ++ o.input.text ++ " for changes...\n"

/-- A fault as it is shown, with the path that it is about, if it is one. -/
def faultText (fault : Disk.Fault) (path : Option Path) : String :=
  let place := match path with
    | none => ""
    | some path => ": " ++ Text.quote path.text
  "error: [Errno " ++ toString fault.code ++ "] " ++ fault.text ++ place ++ "\n"

/-- Expands the input and says that it did, or what is wrong. -/
def refresh (host : Host) (o : Options) (disk : Disk) (now : BuiltIn.Moment) :
    Except Crash Effect :=
  let (outline, result) := compileFile host o disk now
  match result with
  | .error (.crash cause) => .error cause
  | .error (.refused fault path) => .ok ⟨"", outline ++ faultText fault (some path), disk⟩
  | .error (.text e source) =>
    .ok ⟨"", outline ++ renderError e source o.input.text ++ "\n", disk⟩
  | .ok text =>
    let given := emit host o disk text
    match given.result with
    | .ok () => .ok ⟨given.stdout, outline ++ "Expanded " ++ o.input.text ++ "\n", given.disk⟩
    | .error (.unopened (.refused fault path)) =>
      .ok ⟨given.stdout, outline ++ faultText fault (some path), given.disk⟩
    | .error (.broken fault) => .ok ⟨given.stdout, outline ++ faultText fault none, given.disk⟩
    | .error (.unopened e) => .error (.disk e)
    | .error .unencodable => .error .unencodable

/-- A look at the input. -/
def look (host : Host) (o : Options) (now : BuiltIn.Moment) (lastChange : Int) (disk : Disk) :
    Except Crash Look :=
  match disk.modified? o.input with
  | .error e => .error (.disk e)
  | .ok none => .ok ⟨⟨"", "", disk⟩, lastChange⟩
  | .ok (some change) =>
    if change = lastChange then .ok ⟨⟨"", "", disk⟩, lastChange⟩
    else
      match refresh host o disk now with
      | .error cause => .error cause
      | .ok effect => .ok ⟨effect, change⟩

/-- What happens between two looks. -/
structure Pause where
  /-- What others do to the disk. -/
  edit : Disk → Disk
  /-- When the next look is. -/
  now : BuiltIn.Moment

/-- Looks, one more than there are pauses. -/
def looks (host : Host) (o : Options) (now : BuiltIn.Moment) (lastChange : Int) (disk : Disk) :
    List Pause → Except Crash (List Look)
  | [] =>
    match look host o now lastChange disk with
    | .error cause => .error cause
    | .ok one => .ok [one]
  | pause :: pauses =>
    match look host o now lastChange disk with
    | .error cause => .error cause
    | .ok one =>
      match looks host o pause.now one.lastChange (pause.edit one.effect.disk) pauses with
      | .error cause => .error cause
      | .ok more => .ok (one :: more)

/-- A watch that was interrupted. -/
structure Session where
  looks : List Look
  /-- The code that the command ends with. -/
  code : Nat
  deriving Inhabited

/-- The look at which the watch begins says so first. -/
def greet (o : Options) (first : Look) : Look :=
  { first with effect := { first.effect with stderr := greeting o ++ first.effect.stderr } }

/-- A watch from its beginning; it is interrupted behind the last of the looks. -/
def run (host : Host) (o : Options) (now : BuiltIn.Moment) (disk : Disk) (pauses : List Pause) :
    Except Crash Session :=
  match looks host o now 0 disk pauses with
  | .error cause => .error cause
  | .ok looks => .ok ⟨looks.modifyHead (greet o), 0⟩

end Markup.CommandLine.Watch
