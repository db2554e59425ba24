/-
The tree of a document.
-/
import Markup.Binary64.Basic
import Markup.Position

namespace Markup

mutual

/-- A piece of a document. -/
inductive Node where
  | text (value : String) (span : Span)
  | number (value : Binary64) (span : Span)
  /-- A macro or a variable applied to groups of arguments. -/
  | call (name : String) (groups : List Group) (span : Span)
  /-- The import of a module, one that ships with the language or a file. -/
  | use (moduleName : String) (builtIn : Bool) (span : Span)
  /-- The definition of a macro. -/
  | define (name : String) (params : List String) (body : List Node) (span : Span)
  /-- A variable's value; `changes` if it takes the place of an earlier one. -/
  | bind (name : String) (changes : Bool) (value : List Node) (span : Span)
  /-- A variable or a macro without arguments by name. Reading gives `changes` as false;
  it means nothing. -/
  | reference (name : String) (changes : Bool) (span : Span)
  /-- A group outside a call. Reading gives none, and it has no text. -/
  | stray (group : Group)

/-- The values between two pipes of a call. -/
structure Group where
  /-- The place among the groups of the call, from 0. -/
  index : Nat
  values : List Node
  span : Span

end

deriving instance BEq, Repr for Node, Group

instance : Inhabited Node := ⟨.text "" .builtIn⟩

/-- The part of the text that a node was read from. -/
def Node.span : Node → Span
  | .text _ span | .number _ span | .call _ _ span | .use _ _ span | .define _ _ _ span
  | .bind _ _ _ span | .reference _ _ span | .stray ⟨_, _, span⟩ => span

end Markup
