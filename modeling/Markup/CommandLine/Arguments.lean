/-
The arguments of the command line.

Each word is first told apart (`Word.classify`): a plain word, one that
begins with a flag, the separator `--`, behind which all words are plain, or
an unknown flag. A flag may be cut short where only one begins so. A flag of
one letter may have its value, or more flags of one letter, right behind it;
any flag may have its value behind `=`. A flag with `--` in the place of such
a value is given, but without a value.

Then the words are read from left to right. The first plain word that is no
flag's value is the input; what is left over is reported at the end.
-/
import Markup.Text.Digit
import Markup.Text.Quoted

namespace Markup.CommandLine

/-- The flags. -/
inductive Flag where
  | help
  | version
  | output
  | define
  | modulePath
  | config
  | watch
  | debug
  deriving DecidableEq, Repr, Inhabited

namespace Flag

/-- How a flag is written. -/
def spellings : Flag → List String
  | help => ["-h", "-help", "--help"]
  | version => ["-v", "-version", "--version"]
  | output => ["-o", "--output"]
  | define => ["-D", "--define"]
  | modulePath => ["-I", "--module-path"]
  | config => ["--config"]
  | watch => ["--watch"]
  | debug => ["--debug"]

/-- Whether a value belongs to a flag. -/
def takesValue : Flag → Bool
  | output | define | modulePath | config => true
  | help | version | watch | debug => false

/-- The flag as a message names it. -/
def describe (flag : Flag) : String := "/".intercalate flag.spellings

/-- All spellings with their flags. -/
def all : List (String × Flag) :=
  [help, version, output, define, modulePath, config, watch, debug].flatMap fun flag =>
    flag.spellings.map (·, flag)

/-- The flag that is written so. -/
def ofSpelling? (text : String) : Option Flag := all.lookup text

end Flag

/-- What is wrong with the arguments. -/
inductive UsageError where
  | ambiguous (word : String) (spellings : List String)
  | missingValue (flag : Flag)
  | unwantedValue (flag : Flag) (value : String)
  | unrecognized (words : List String)
  deriving DecidableEq, Repr

/-- What is reported. -/
def UsageError.message : UsageError → String
  | ambiguous word spellings =>
    "ambiguous option: " ++ word ++ " could match " ++ ", ".intercalate spellings
  | missingValue flag => "argument " ++ flag.describe ++ ": expected one argument"
  | unwantedValue flag value =>
    "argument " ++ flag.describe ++ ": ignored explicit argument " ++ Text.quote value
  | unrecognized words => "unrecognized arguments: " ++ " ".intercalate words

/-! ## Words -/

/-- What a word is. -/
inductive Word where
  | plain (text : String)
  /-- A flag as it is spelled, with what is attached to it. -/
  | flagged (flag : Flag) (spelling : String) (attached : Option String)
  | unknown (text : String)
  /-- The first `--`. -/
  | separator
  deriving DecidableEq, Repr

namespace Word

/-- The parts before and behind the first `=`. -/
def splitEquals (cs : List Char) : List Char × Option (List Char) :=
  match cs.dropWhile (· != '=') with
  | [] => (cs, none)
  | _ :: value => (cs.takeWhile (· != '='), some value)

/-- A text without the newline at its end. -/
def dropLastNewline (cs : List Char) : List Char :=
  if cs.getLast? = some '\n' then cs.dropLast else cs

/-- Whether a word is a negative number, with digits before or behind a point. A newline at the
end does not count. -/
def isNegativeNumber (cs : List Char) : Bool :=
  match dropLastNewline cs with
  | '-' :: cs =>
    match cs.dropWhile Text.isDecimal with
    | [] => !cs.isEmpty
    | '.' :: rest => !rest.isEmpty && rest.all Text.isDecimal
    | _ => false
  | _ => false

/-- The flags that a word behind two dashes may be short for. -/
def longMatches (cs : List Char) : List Word :=
  let (name, value) := splitEquals cs
  (Flag.all.filter fun entry => name.isPrefixOf entry.1.toList).map fun entry =>
    .flagged entry.2 entry.1 (value.map .ofList)

/-- The flags that a word behind one dash may be: one of a letter, with the rest attached, or
one that it is short for. -/
def shortMatches (cs : List Char) : List Word :=
  Flag.all.filterMap fun entry =>
    if entry.1.toList = cs.take 2 then some (.flagged entry.2 entry.1 (some (.ofList (cs.drop 2))))
    else if cs.isPrefixOf entry.1.toList then some (.flagged entry.2 entry.1 none)
    else none

/-- The spelling of a word that is a flag. -/
def spelling? : Word → Option String
  | flagged _ spelling _ => some spelling
  | _ => none

/-- A word that begins with a dash and is no flag as it stands. -/
def classifyOther (text : String) : Except UsageError Word :=
  let cs := text.toList
  let found := if ['-', '-'].isPrefixOf cs then longMatches cs else shortMatches cs
  match found with
  | [word] => .ok word
  | [] =>
    if isNegativeNumber cs || cs.contains ' ' then .ok (.plain text) else .ok (.unknown text)
  | words => .error (.ambiguous text (words.filterMap spelling?))

/-- What a word is that stands before the separator. -/
def classify (text : String) : Except UsageError Word :=
  match text.toList with
  | '-' :: _ :: _ =>
    match Flag.ofSpelling? text with
    | some flag => .ok (.flagged flag text none)
    | none =>
      match splitEquals text.toList with
      | (name, some value) =>
        match Flag.ofSpelling? (.ofList name) with
        | some flag => .ok (.flagged flag (.ofList name) (some (.ofList value)))
        | none => classifyOther text
      | _ => classifyOther text
  | _ => .ok (.plain text)

/-- What the words are. -/
def classifyAll : List String → Except UsageError (List Word)
  | [] => .ok []
  | text :: rest =>
    if text = "--" then .ok (.separator :: rest.map .plain)
    else do
      let word ← classify text
      let words ← classifyAll rest
      return word :: words

end Word

/-! ## Arguments -/

/-- The arguments given. -/
structure Arguments where
  input : Option String
  output : Option String
  /-- Variables, each as name and value around `=`; nothing where a flag had no value. -/
  defines : List (Option String)
  /-- Directories; nothing where a flag had no value. -/
  modulePaths : List (Option String)
  config : Option String
  help : Bool
  version : Bool
  watch : Bool
  debug : Bool
  deriving DecidableEq, Repr, Inhabited

namespace Arguments

/-- No arguments. -/
def none : Arguments := ⟨.none, .none, [], [], .none, false, false, false, false⟩

/-- A flag without a value. -/
def raise (args : Arguments) : Flag → Arguments
  | .help => { args with help := true }
  | .version => { args with version := true }
  | .watch => { args with watch := true }
  | .debug => { args with debug := true }
  | _ => args

/-- A flag with its value, or without one. -/
def assign (args : Arguments) (flag : Flag) (value : Option String) : Arguments :=
  match flag with
  | .output => { args with output := value }
  | .define => { args with defines := args.defines ++ [value] }
  | .modulePath => { args with modulePaths := args.modulePaths ++ [value] }
  | .config => { args with config := value }
  | _ => args

/-- The value that is attached to a flag. -/
def attachedValue (cs : List Char) : Option String :=
  if cs = ['-', '-'] then .none else some (.ofList cs)

/-- A flag with characters attached: its value, or more flags of one letter. Also gives the
last of them if a value is still missing. -/
def attach (args : Arguments) (flag : Flag) (isLong : Bool) :
    List Char → Except UsageError (Arguments × Option Flag)
  | [] =>
    if flag.takesValue then .ok (args.assign flag (some ""), .none)
    else .error (.unwantedValue flag "")
  | c :: cs =>
    if flag.takesValue then .ok (args.assign flag (attachedValue (c :: cs)), .none)
    else if isLong then .error (.unwantedValue flag (.ofList (c :: cs)))
    else
      match Flag.ofSpelling? (.ofList ['-', c]) with
      | .none => .error (.unwantedValue flag (.ofList (c :: cs)))
      | some next =>
        let args := args.raise flag
        match cs with
        | [] => if next.takesValue then .ok (args, some next) else .ok (args.raise next, .none)
        | _ :: _ => args.attach next false cs

/-- A flag as it stands: the arguments with it, or the flag again if its value is missing. -/
def open? (args : Arguments) (flag : Flag) (spelling : String) :
    Option String → Except UsageError (Arguments × Option Flag)
  | some attached =>
    args.attach flag (['-', '-'].isPrefixOf spelling.toList) attached.toList
  | .none => if flag.takesValue then .ok (args, some flag) else .ok (args.raise flag, .none)

/-- Reads words. `wanted` is the flag whose value the next word has to be; `seeks` says whether
the input is still to come; `extra` are the words left over, newest first. -/
def readWords (args : Arguments) (wanted : Option Flag) (seeks : Bool) (extra : List String) :
    List Word → Except UsageError Arguments
  | [] =>
    match wanted with
    | some flag => .error (.missingValue flag)
    | .none => if extra.isEmpty then .ok args else .error (.unrecognized extra.reverse)
  | word :: rest =>
    match wanted, word with
    | some flag, .plain value => (args.assign flag (some value)).readWords .none seeks extra rest
    | some flag, _ => .error (.missingValue flag)
    | .none, .flagged flag spelling attached =>
      match args.open? flag spelling attached with
      | .error e => .error e
      | .ok (args, wanted) => args.readWords wanted seeks extra rest
    | .none, .unknown text => args.readWords .none seeks (text :: extra) rest
    | .none, .plain text =>
      if seeks then
        let args := { args with input := some text }
        match rest with
        | .separator :: rest => args.readWords .none false extra rest
        | rest => args.readWords .none false extra rest
      else args.readWords .none false (text :: extra) rest
    | .none, .separator =>
      if seeks then
        match rest with
        | .plain text :: rest =>
          ({ args with input := some text } : Arguments).readWords .none false extra rest
        | rest => args.readWords .none false extra rest
      else args.readWords .none false ("--" :: extra) rest

/-- The arguments that words give. -/
def ofWords (words : List String) : Except UsageError Arguments := do
  let words ← Word.classifyAll words
  none.readWords .none true [] words

end Arguments

end Markup.CommandLine
