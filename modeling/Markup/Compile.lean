/-
From the text of a document to its output.
-/
import Markup.Document.Expand

namespace Markup

/-- Why a text has no output. -/
inductive CompileError where
  | text (e : Node.TextError)
  | expand (errors : List ExpandError)
  /-- The disk gives no module, where it should give one or none. -/
  | disk (e : Disk.Error)
  deriving DecidableEq, Repr

/-- What a document is compiled with beside its text. -/
structure Setting where
  fileName : String
  /-- Variables of plain text. -/
  presets : List (String × String)
  modulePaths : List Path
  now : BuiltIn.Moment
  /-- How deep calls and references may nest. -/
  limit : Nat
  deriving DecidableEq, Repr, Inhabited

/-- The document that a setting gives a text. -/
def Setting.document (s : Setting) (source : String) : Document :=
  .new s.fileName source s.presets s.modulePaths s.now

/-- Expands nodes in the document of a text and strips the output. -/
def Setting.output (s : Setting) (disk : Disk) (source : String) (nodes : List Node) :
    Except CompileError String :=
  match (Document.expand disk s.limit nodes (s.document source)).1 with
  | .error (.failed errors) => .error (.expand errors)
  | .error (.disk e) => .error (.disk e)
  | .ok text => .ok (Text.strip text)

/-- The output of a text. -/
def compile (s : Setting) (disk : Disk) (source : String) : Except CompileError String :=
  match Node.ofText source with
  | .error e => .error (.text e)
  | .ok nodes => s.output disk source nodes

end Markup
