/-
Errors of expansion.

An error has a cause, from which its message and hints follow, the names of
the macros around it, outermost first, and, once it is located, a span with
the text that the span points into. One from a module names the module's
file.
-/
import Markup.Path
import Markup.Snippet
import Markup.Token.Scan
import Markup.Node.Parse

namespace Markup

/-- Why a document has no text. -/
inductive ExpandError.Cause where
  | unknownName (name : String)
  /-- A variable was called with groups of arguments. -/
  | argumentsForVariable (name : String)
  | argumentCount (name : String) (params : List String) (given : Nat)
  /-- A variable without a value was to be changed. -/
  | neverGiven (name : String)
  | tooDeep
  /-- A module is looked for in `directory` and cannot be read. -/
  | unreadableModule (name : String) (directory : Path)
  /-- A module's text has an error, which stands before this one. -/
  | brokenModule (name : String)
  | unknownBuiltIn (name : String)
  | badTokens (e : ScanError)
  | badTree (e : ParseError)
  /-- A group stands outside a call. -/
  | strayGroup
  /-- An error given in words. -/
  | stated (message : String) (hints : List String)
  deriving DecidableEq, Repr, Inhabited

namespace ExpandError.Cause

/-- What is reported. -/
def message : Cause → String
  | unknownName name => "no macro or variable '" ++ name ++ "' was defined"
  | argumentsForVariable name => "variable '" ++ name ++ "' cannot be given arguments"
  | argumentCount name params given =>
    "macro '" ++ name ++ "' expects " ++ toString params.length ++ " argument(s) but was given " ++
      toString given
  | neverGiven name => "variable '" ++ name ++ "' was never given a value"
  | tooDeep => "expansion recursed too deeply"
  | unreadableModule name _ => "could not read module '" ++ name ++ "'"
  | brokenModule name => "failed to import module '" ++ name ++ "'"
  | unknownBuiltIn name => "unknown internal module '" ++ name ++ "'"
  | badTokens e => e.message
  | badTree e => e.message
  | strayGroup => "unknown value of type ArgList"
  | stated message _ => message

/-- How a macro with parameters is called. -/
def usage (name : String) (params : List String) : String :=
  if params.isEmpty then "usage: (" ++ name ++ ")"
  else "usage: (" ++ name ++ " " ++ " | ".intercalate (params.map ("$" ++ ·)) ++ ")"

/-- What may help. -/
def hints : Cause → List String
  | unknownName name =>
    ["define it first with #def " ++ name ++ " ... #end or #let " ++ name ++ " ..."]
  | argumentsForVariable name => ["write #" ++ name ++ " or (" ++ name ++ ") to use its value"]
  | argumentCount name params _ => [usage name params]
  | neverGiven name => ["use #let " ++ name ++ " ... before changing it with #set"]
  | tooDeep =>
    ["macro calls or variable references nest too deeply, or one refers to itself"]
  | unreadableModule name directory =>
    ["expected a file named '" ++ name ++ ".write' in " ++ directory.text]
  | unknownBuiltIn _ =>
    ["internal modules with definitions: " ++
      ", ".intercalate (BuiltIn.moduleTexts.map (·.1))]
  | stated _ hints => hints
  | brokenModule _ | badTokens _ | badTree _ | strayGroup => []

end ExpandError.Cause

/-- An error of expansion. -/
structure ExpandError where
  cause : ExpandError.Cause
  span : Option Span
  /-- The text that the span points into, or nothing. -/
  source : String
  /-- The macros being expanded, outermost first. -/
  callStack : List String
  /-- The file of the module that the span points into. -/
  fileName : Option String
  deriving DecidableEq, Repr, Inhabited

namespace ExpandError

/-- What is reported. -/
def message (e : ExpandError) : String := e.cause.message

/-- What may help. -/
def hints (e : ExpandError) : List String := e.cause.hints

/-- The macros around an error as a chain. -/
def chain (callStack : List String) : String :=
  " -> ".intercalate (callStack.map fun name => "(" ++ name ++ ")")

/-- The error as it is shown, where `fileName` is the document's file. -/
def render (e : ExpandError) (fileName : String) : String :=
  let fileName := match e.fileName with
    | some name => if name.isEmpty then fileName else name
    | none => fileName
  let head := match e.span with
    | some span =>
      if e.source.isEmpty then "error: " ++ e.message
      else snippet e.message span e.source fileName
    | none => "error: " ++ e.message
  let chain :=
    if e.callStack.isEmpty then "" else "\n  in expansion chain: " ++ chain e.callStack
  let hints :=
    if e.hints.isEmpty then ""
    else String.join (e.hints.map ("\n  = hint: " ++ ·)) ++ "\n"
  head ++ chain ++ hints

/-- Errors as they are shown together. -/
def renderAll (errors : List ExpandError) (fileName : String) : String :=
  "\n".intercalate (errors.map (·.render fileName))

/-- The error with the place where it arose, unless it has one or there is none to tell. -/
def locate (e : ExpandError) (span : Span) (source : String) : ExpandError :=
  if e.span.isNone ∧ span ≠ .builtIn then { e with span := some span, source := source } else e

end ExpandError

end Markup
