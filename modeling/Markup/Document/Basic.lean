/-
Documents: what is kept while a text is expanded.

A document knows its file, where modules are looked for, the macros and
variables defined so far, the errors not yet reported and the macros being
expanded. A macro is entered under its own name, a later one in the place of
an earlier. `bind` enters a variable, or changes the value of one that is
there.
-/
import Markup.Disk
import Markup.Table
import Markup.Text.Placeholder
import Markup.Document.Error

namespace Markup

/-- A macro. -/
structure Definition where
  name : String
  params : List String
  body : List Node
  span : Span

/-- A variable, as the node that stands for it in a table. -/
structure Binding where
  name : String
  /-- The value; a node that only refers to a variable has none. -/
  value : Option (List Node)
  /-- Whether the node changes a value that was given before. -/
  changes : Bool
  span : Span

/-- The node that defines the macro. -/
def Definition.toNode (d : Definition) : Node := .define d.name d.params d.body d.span

/-- The node that stands for the variable. -/
def Binding.toNode (b : Binding) : Node :=
  match b.value with
  | none => .reference b.name b.changes b.span
  | some value => .bind b.name b.changes value b.span

/-- The nodes that a use of the variable expands. -/
def Binding.nodes (b : Binding) : List Node := b.value.getD []

/-- The state of expansion. -/
structure Document where
  /-- Where the document's file is. -/
  directory : Path
  fileName : String
  /-- The text that errors without a file of their own point into. -/
  source : String
  definitions : Table Definition
  bindings : Table Binding
  /-- The errors not yet reported, oldest first. -/
  errors : List ExpandError
  /-- Where modules are looked for beside the document's own directory. -/
  modulePaths : List Path
  /-- The macros being expanded, outermost first. -/
  callStack : List String

namespace Document

/-- Enters a macro. -/
def define (doc : Document) (d : Definition) : Document :=
  { doc with definitions := doc.definitions.insert d.name d }

/-- The macro with a body of plain text; its parameters are the text's placeholders. -/
def textDefinition (name body : String) : Definition :=
  ⟨name, Text.placeholders body, [.text body .builtIn], .builtIn⟩

/-- Enters a macro with a body of plain text. -/
def defineText (doc : Document) (name body : String) : Document :=
  doc.define (textDefinition name body)

/-- Gives a variable a value of plain text. -/
def letText (doc : Document) (name value : String) : Document :=
  { doc with
    bindings := doc.bindings.insert name ⟨name, some [.text value .builtIn], false, .builtIn⟩ }

/-- An error at this point, not located yet. -/
def errorOf (doc : Document) (cause : ExpandError.Cause) : ExpandError :=
  ⟨cause, none, "", doc.callStack, none⟩

/-- Keeps an error to be reported. -/
def record (doc : Document) (e : ExpandError) : Document :=
  { doc with errors := doc.errors ++ [e] }

/-- A document for a file, with the ready-made macros and variables of plain text. -/
def new (fileName source : String) (presets : List (String × String))
    (modulePaths : List Path) (now : BuiltIn.Moment) : Document :=
  let path := Path.ofText fileName
  let doc : Document :=
    ⟨path.parent, path.name, source, .empty, .empty, [], modulePaths, []⟩
  let doc := (BuiltIn.bodies now).foldl (fun doc entry => doc.defineText entry.1 entry.2) doc
  presets.foldl (fun doc entry => doc.letText entry.1 entry.2) doc

/-! ## What a step of expansion gives -/

/-- Why a node has no text. -/
inductive Failure where
  /-- An error, which the document has recorded. -/
  | raised (e : ExpandError)
  /-- The nesting went past its limit. -/
  | tooDeep
  /-- The disk gives no module, where it should give one or none. -/
  | disk (e : Disk.Error)
  deriving DecidableEq, Repr

/-- What a step gives, and the document behind it. -/
abbrev Outcome (α : Type) := Except Failure α × Document

/-- Records an error and fails with it. -/
def raise {α : Type} (doc : Document) (cause : ExpandError.Cause) : Outcome α :=
  (.error (.raised (doc.errorOf cause)), doc.record (doc.errorOf cause))

/-- Gives a variable a value, or, if `changes`, another value to one that is there. A node that
gives a value is entered as it is; of one that changes it, only the value is taken. -/
def bind (doc : Document) (name : String) (changes : Bool) (value : List Node) (span : Span) :
    Outcome Unit :=
  if changes then
    match doc.bindings.get? name with
    | none => doc.raise (.neverGiven name)
    | some old =>
      (.ok (), { doc with bindings := doc.bindings.insert name { old with value := some value } })
  else
    (.ok (), { doc with bindings := doc.bindings.insert name ⟨name, some value, changes, span⟩ })

end Document

end Markup
