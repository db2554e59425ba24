/-
Imports.

A module that ships with the language has its text here; any other is a file
with the suffix `.write`, in the directory of the document or, failing
that, in one of its module paths. The first that is a file counts, also if
it is broken. Of a module's tree the definitions and bindings at its top are
taken over, in order; the rest is passed over.
-/
import Markup.Document.Basic

namespace Markup

namespace Node

/-- Why a text has no tree. -/
inductive TextError where
  | tokens (e : ScanError)
  | tree (e : ParseError)
  deriving DecidableEq, Repr

/-- The tree of a text. -/
def ofText (text : String) : Except TextError (List Node) :=
  match Token.scan text with
  | .error e => .error (.tokens e)
  | .ok tokens =>
    match Node.parse tokens with
    | .error e => .error (.tree e)
    | .ok nodes => .ok nodes

theorem ofText_ok_iff {text : String} {nodes : List Node} :
    ofText text = .ok nodes ↔ ∃ tokens, Token.scan text = .ok tokens ∧ Node.parse tokens = .ok nodes := by
  rw [ofText]
  cases Token.scan text with
  | error => simp
  | ok tokens => cases hp : Node.parse tokens <;> simp [hp]

theorem ofText_error_iff {text : String} {e : TextError} :
    ofText text = .error e ↔ (∃ f, Token.scan text = .error f ∧ e = .tokens f) ∨
      ∃ tokens f, Token.scan text = .ok tokens ∧ Node.parse tokens = .error f ∧ e = .tree f := by
  rw [ofText]
  cases Token.scan text with
  | error => simp [eq_comm]
  | ok tokens => cases hp : Node.parse tokens <;> simp [hp, eq_comm]

/-- What is reported. -/
def TextError.message : TextError → String
  | tokens e => e.message
  | tree e => e.message

/-- Where it is reported; a place in the text is one column wide. -/
def TextError.span : TextError → Span
  | tokens e => .ofPosition e.position
  | tree e => e.span

/-- The error as the cause of one of expansion. -/
def TextError.cause : TextError → ExpandError.Cause
  | tokens e => .badTokens e
  | tree e => .badTree e

end Node

/-- The tree of a module that ships with the language. -/
def BuiltIn.moduleNodes? (name : String) : Option (List Node) :=
  (BuiltIn.moduleTexts.lookup name).map fun text => (Node.ofText text).toOption.getD []

namespace Document

/-- The files that a module may be in, in the order in which they are tried. -/
def moduleFiles (doc : Document) (name : String) : List Path :=
  (doc.directory :: doc.modulePaths).map (·.join (.ofText (name ++ ".write")))

/-- The file that a module is read from: the first that there is, or else the first of all. -/
def moduleFile (doc : Document) (disk : Disk) (name : String) : Except Disk.Error Path :=
  (disk.firstFile? (doc.moduleFiles name)).map
    (·.getD (doc.directory.join (.ofText (name ++ ".write"))))

/-- The tree of a module's text. An error in it is recorded before the failed import. -/
def parseModule (doc : Document) (name : String) (path : Path) (text : String) :
    Outcome (List Node) :=
  match Node.ofText text with
  | .ok nodes => (.ok nodes, doc)
  | .error e =>
    let doc := doc.record ⟨e.cause, some e.span, text, [], some path.text⟩
    doc.raise (.brokenModule name)

/-- The tree of a module in a file. -/
def loadFile (doc : Document) (disk : Disk) (name : String) : Outcome (List Node) :=
  match doc.moduleFile disk name with
  | .error e => (.error (.disk e), doc)
  | .ok path =>
    match disk.readText path with
    | .error (.refused _ _) => doc.raise (.unreadableModule name doc.directory)
    | .error e => (.error (.disk e), doc)
    | .ok text => doc.parseModule name path text

/-- The tree of a module. -/
def loadModule (doc : Document) (disk : Disk) (name : String) (builtIn : Bool) :
    Outcome (List Node) :=
  if builtIn then
    match BuiltIn.moduleNodes? name with
    | none => doc.raise (.unknownBuiltIn name)
    | some nodes => (.ok nodes, doc)
  else doc.loadFile disk name

/-- Enters the definitions and bindings among nodes, in order, up to one that fails. -/
def enterAll (doc : Document) : List Node → Outcome Unit
  | [] => (.ok (), doc)
  | .define name params body span :: rest =>
    (doc.define ⟨name, params, body, span⟩).enterAll rest
  | .bind name changes value span :: rest =>
    match doc.bind name changes value span with
    | (.ok (), doc) => doc.enterAll rest
    | (.error e, doc) => (.error e, doc)
  | _ :: rest => doc.enterAll rest

/-- Imports a module. -/
def importModule (doc : Document) (disk : Disk) (name : String) (builtIn : Bool) : Outcome Unit :=
  match doc.loadModule disk name builtIn with
  | (.ok nodes, doc) => doc.enterAll nodes
  | (.error e, doc) => (.error e, doc)

end Document

end Markup
