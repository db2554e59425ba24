/-
The text of a document.

`expandNode` gives a node's text and the document behind it, under a limit
on nesting: a call's body, its arguments and a variable's value are expanded
under a limit one lower, and at zero nothing is expanded any more. More
limit never changes an answer other than `tooDeep`.

A macro's body is expanded first. Then, parameter by parameter, the argument
is expanded, stripped, and put for every placeholder of the parameter's name
in the text so far. A variable's value is kept as nodes and expanded at each
use.

`expand` takes nodes at the top of a document. At the first that fails it
locates the error there and reports all errors that the document has.
-/
import Markup.Binary64.Shortest
import Markup.Document.Import

namespace Markup

namespace Document

/-- How a node is expanded. -/
abbrev Expander := Node → Document → Outcome String

/-- Expands nodes in order and joins their texts. -/
def expandAll (one : Expander) : List Node → Document → Outcome String
  | [], doc => (.ok "", doc)
  | node :: rest, doc =>
    match one node doc with
    | (.error e, doc) => (.error e, doc)
    | (.ok text, doc) =>
      match expandAll one rest doc with
      | (.error e, doc) => (.error e, doc)
      | (.ok more, doc) => (.ok (text ++ more), doc)

/-- Puts the arguments for the placeholders in a text, parameter by parameter. -/
def fill (one : Expander) : List String → List Group → String → Document → Outcome String
  | param :: params, group :: groups, text, doc =>
    match expandAll one group.values doc with
    | (.error e, doc) => (.error e, doc)
    | (.ok argument, doc) =>
      fill one params groups (Text.substitute text param (Text.strip argument)) doc
  | _, _, text, doc => (.ok text, doc)

/-- Expands the body of a macro and puts its arguments. -/
def expandBody (one : Expander) (d : Definition) (groups : List Group) (doc : Document) :
    Outcome String :=
  match expandAll one d.body doc with
  | (.error e, doc) => (.error e, doc)
  | (.ok text, doc) => fill one d.params groups text doc

/-- Expands a call of a macro; its name is on the call stack meanwhile. -/
def expandMacro (one : Expander) (name : String) (d : Definition) (groups : List Group)
    (doc : Document) : Outcome String :=
  if groups.length ≠ d.params.length then
    doc.raise (.argumentCount name d.params groups.length)
  else
    let (result, doc) := expandBody one d groups { doc with callStack := doc.callStack ++ [name] }
    (result, { doc with callStack := doc.callStack.dropLast })

/-- Expands a call: of a macro, or else of a variable, which takes no arguments. -/
def expandCall (one : Expander) (name : String) (groups : List Group) (doc : Document) :
    Outcome String :=
  match doc.definitions.get? name with
  | some d => expandMacro one name d groups doc
  | none =>
    match doc.bindings.get? name with
    | none => doc.raise (.unknownName name)
    | some b =>
      if groups.isEmpty then expandAll one b.nodes doc
      else doc.raise (.argumentsForVariable name)

/-- A step that has no text of its own. -/
def silent : Outcome Unit → Outcome String
  | (.ok (), doc) => (.ok "", doc)
  | (.error e, doc) => (.error e, doc)

/-- Expands a node, where `one` expands what is nested in it. -/
def expandWith (disk : Disk) (one : Expander) : Expander
  | .text value _, doc => (.ok value, doc)
  | .number value _, doc => (.ok value.toLiteral, doc)
  | .call name groups _, doc => expandCall one name groups doc
  | .use moduleName builtIn _, doc => silent (doc.importModule disk moduleName builtIn)
  | .define name params body span, doc => (.ok "", doc.define ⟨name, params, body, span⟩)
  | .bind name changes value span, doc => silent (doc.bind name changes value span)
  | .reference name _ _, doc => expandCall one name [] doc
  | .stray _, doc => doc.raise .strayGroup

/-- Expands a node under a limit on nesting. -/
def expandNode (disk : Disk) : (limit : Nat) → Expander
  | 0, _, doc => (.error .tooDeep, doc)
  | limit + 1, node, doc => expandWith disk (expandNode disk limit) node doc

/-! ## The whole document -/

/-- Why a document has no text. -/
inductive Stop where
  /-- The errors that the document had. -/
  | failed (errors : List ExpandError)
  /-- The disk gives no module, where it should give one or none. -/
  | disk (e : Disk.Error)
  deriving DecidableEq, Repr

/-- Locates the last error at the node that failed and hands over all errors. -/
def report (doc : Document) (node : Node) : Except Stop String × Document :=
  let last := (doc.errors.getLast?.map (·.locate node.span doc.source)).toList
  (.error (.failed (doc.errors.dropLast ++ last)), { doc with errors := [] })

/-- Expands nodes at the top of a document and joins their texts. -/
def expand (disk : Disk) (limit : Nat) : List Node → Document → Except Stop String × Document
  | [], doc => (.ok "", doc)
  | node :: rest, doc =>
    match expandNode disk limit node doc with
    | (.error (.raised _), doc) => doc.report node
    | (.error .tooDeep, doc) => (doc.record (doc.errorOf .tooDeep)).report node
    | (.error (.disk e), doc) => (.error (.disk e), doc)
    | (.ok text, doc) =>
      match expand disk limit rest doc with
      | (.error e, doc) => (.error e, doc)
      | (.ok more, doc) => (.ok (text ++ more), doc)

end Document

end Markup
