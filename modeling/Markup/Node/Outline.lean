/-
Outlines: the tokens and the tree of a document, one line for each token,
node and group.
-/
import Markup.Binary64.Shortest
import Markup.Token.Basic
import Markup.Node.Basic

namespace Markup

/-- A token's kind as an outline names it. -/
def Token.Kind.label : Token.Kind → String
  | .keyword .letWord => "LET"
  | .keyword .setWord => "SET"
  | .keyword .useWord => "USE"
  | .keyword .defWord => "DEF"
  | .keyword .endWord => "END"
  | .reference => "VARIABLE"
  | .identifier => "IDENTIFIER"
  | .argument => "ARGUMENT"
  | .text => "TEXT"
  | .number _ => "NUMBER"
  | .escape => "ESCAPE"
  | .comment => "COMMENT"
  | .hash => "HASH"
  | .openParen => "LPAREN"
  | .closeParen => "RPAREN"
  | .slash => "FSLASH"
  | .pipe => "PIPE"
  | .endOfInput => "EOF"

/-- A token's line: its place, kind and text. -/
def Token.outlineLine (t : Token) : String :=
  s!"{t.span.start.line}:{t.span.start.column} " ++ t.kind.label ++ " " ++ Text.quote t.raw

/-- The outline of tokens, without the mark of the end. -/
def Token.outline (tokens : List Token) : String :=
  String.join ((tokens.filter (·.kind != .endOfInput)).map fun t => t.outlineLine ++ "\n")

/-- A line of an outline, as deep as it is nested. -/
structure OutlineLine where
  depth : Nat
  text : String
  deriving DecidableEq, Repr

/-- The line as it is written. -/
def OutlineLine.render (line : OutlineLine) : String :=
  .ofList (List.replicate (2 * line.depth) ' ') ++ line.text ++ "\n"

mutual

/-- The lines of a node. -/
def Node.outlineLines (depth : Nat) : Node → List OutlineLine
  | .text value _ => [⟨depth, "Text(" ++ Text.quote value ++ ")"⟩]
  | .number value _ => [⟨depth, "Number(" ++ value.toText ++ ")"⟩]
  | .call name groups _ =>
    ⟨depth, "Call (" ++ name ++ ")"⟩ :: Group.outlineLinesAll (depth + 1) groups
  | .use moduleName builtIn _ =>
    [⟨depth, "Use " ++ moduleName ++ (if builtIn then " (internal)" else " (file)")⟩]
  | .define name params body _ =>
    let head := "Def " ++ name ++ " " ++ " ".intercalate (params.map ("$" ++ ·))
    ⟨depth, .ofList (Text.dropEndWhile Text.isBlank head.toList)⟩ ::
      Node.outlineLinesAll (depth + 1) body
  | .bind name changes value _ =>
    ⟨depth, "Variable #" ++ (if changes then "set " else "let ") ++ name⟩ ::
      Node.outlineLinesAll (depth + 1) value
  | .reference name _ _ => [⟨depth, "Ref #" ++ name⟩]
  | .stray _ => []

/-- The lines of nodes. -/
def Node.outlineLinesAll (depth : Nat) : List Node → List OutlineLine
  | [] => []
  | node :: rest => node.outlineLines depth ++ Node.outlineLinesAll depth rest

/-- The lines of a group. -/
def Group.outlineLines (depth : Nat) : Group → List OutlineLine
  | ⟨index, values, _⟩ =>
    ⟨depth, "Args[" ++ toString index ++ "]"⟩ :: Node.outlineLinesAll (depth + 1) values

/-- The lines of groups. -/
def Group.outlineLinesAll (depth : Nat) : List Group → List OutlineLine
  | [] => []
  | group :: rest => group.outlineLines depth ++ Group.outlineLinesAll depth rest

end

/-- The outline of a document. -/
def Node.outline (nodes : List Node) : String :=
  "Document\n" ++ String.join ((Node.outlineLinesAll 1 nodes).map (·.render))

end Markup
