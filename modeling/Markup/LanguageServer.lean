/-
What a language server publishes for an open document.

A text without a tree has one diagnostic, an error. A document that fails to
expand has a warning for each of its errors. One from a module names the
module's file and stands at the node that failed, as does one without a
place. Lines and columns count from 0 here. Nothing is published where the
disk fails or there is no telling what the document's URI names (`Failure`).
What path a URI names is told by another library, which is a parameter here.
-/
import Markup.Document.Expand

namespace Markup.LanguageServer

/-- How grave a diagnostic is. -/
inductive Severity where
  | error
  | warning
  deriving DecidableEq, Repr, Inhabited

/-- A part of a text, with lines and columns from 0. -/
structure Range where
  startLine : Int
  startColumn : Int
  stopLine : Int
  stopColumn : Int
  deriving DecidableEq, Repr, Inhabited

/-- A message about a part of a text. -/
structure Diagnostic where
  range : Range
  message : String
  severity : Severity
  deriving DecidableEq, Repr, Inhabited

/-- A span as a range. -/
def Range.ofSpan (s : Span) : Range :=
  ⟨s.start.line - 1, s.start.column - 1, s.stop.line - 1, s.stop.column - 1⟩

/-- The message for an error of expansion: with the module's file and the macros around it. -/
def errorMessage (e : ExpandError) : String :=
  let file := match e.fileName with
    | some name => name ++ ": "
    | none => ""
  let chain :=
    if e.callStack.isEmpty then "" else " (in expansion: " ++ ExpandError.chain e.callStack ++ ")"
  file ++ e.message ++ chain

/-- The span at which an error is shown: its own if it points into the document. -/
def shownSpan (fallback : Option Span) (e : ExpandError) : Option Span :=
  if e.fileName.isNone && e.span.isSome then e.span else fallback

/-- The warnings for errors of expansion; the last of them is located at the node that failed. -/
def warnings (errors : List ExpandError) : List Diagnostic :=
  let fallback := errors.getLast?.bind (·.span)
  errors.filterMap fun e =>
    (shownSpan fallback e).map fun span => ⟨.ofSpan span, errorMessage e, .warning⟩

/-- Why there are no diagnostics. -/
inductive Failure where
  | disk (e : Disk.Error)
  | uri
  deriving DecidableEq, Repr, Inhabited

/-- The diagnostic for a text without a tree; a place in the text is one column wide. -/
def ofTextError : Node.TextError → Diagnostic
  | .tokens e =>
    let line := e.position.line - 1
    let column := e.position.column - 1
    ⟨⟨line, column, line, column + 1⟩, e.message, .error⟩
  | .tree e => ⟨.ofSpan e.span, e.message, .error⟩

/-- The diagnostics for a text in a file, under a limit on nesting. -/
def diagnose (limit : Nat) (disk : Disk) (fileName source : String) (now : BuiltIn.Moment) :
    Except Failure (List Diagnostic) :=
  match Node.ofText source with
  | .error e => .ok [ofTextError e]
  | .ok nodes =>
    match (Document.expand disk limit nodes (.new fileName source [] [] now)).1 with
    | .ok _ => .ok []
    | .error (.failed errors) => .ok (warnings errors)
    | .error (.disk e) => .error (.disk e)

/-- What a URI names: a path or none, or there is no telling. -/
abbrev UriReader := String → Except Unit (Option String)

/-- The diagnostics for a text that is known by a URI. The file's name is the path that the URI names,
or else the URI itself. -/
def publish (limit : Nat) (pathOf : UriReader) (disk : Disk) (uri source : String)
    (now : BuiltIn.Moment) : Except Failure (List Diagnostic) :=
  match pathOf uri with
  | .error () => .error .uri
  | .ok path =>
    let fileName := (path.filter fun path => !path.isEmpty).getD uri
    diagnose limit disk fileName source now

end Markup.LanguageServer
