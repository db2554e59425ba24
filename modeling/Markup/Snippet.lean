/-
Messages with the line of the text they are about.

A snippet gives the message, the place, the line there and carets under the
span: as wide as the span if it stays on its line, else to the line's end,
and one at least. A line that the text does not have is shown empty.
-/
import Markup.Text.Blank
import Markup.Text.Line
import Markup.Position

namespace Markup

/-- The characters of a line without the returns and newline at its end. -/
def Text.withoutEnd (line : List Char) : List Char :=
  dropEndWhile (· == '\r') (dropEndWhile (· == '\n') line)

/-- The line with a number counted from 1; empty if there is none. -/
def Text.lineAt (source : String) (number : Int) : List Char :=
  if 1 ≤ number then withoutEnd ((lines source.toList)[(number - 1).toNat]?.getD []) else []

/-- How many carets stand under a span of a line. -/
def Span.caretCount (span : Span) (line : List Char) : Nat :=
  let width :=
    if span.stop.line = span.start.line then span.stop.column - span.start.column
    else line.length - span.start.column + 1
  max 1 width.toNat

/-- A message with its place and line. -/
def snippet (message : String) (span : Span) (source fileName : String) : String :=
  let line := Text.lineAt source span.start.line
  let number := toString span.start.line
  let column := span.start.column
  let spaces (n : Nat) := String.ofList (List.replicate n ' ')
  let margin := spaces (number.length + 1)
  let carets := String.ofList (List.replicate (span.caretCount line) '^')
  "error: " ++ message ++ "\n" ++
    margin ++ "--> " ++ fileName ++ ":" ++ number ++ ":" ++ toString column ++ "\n" ++
    margin ++ "|\n" ++
    number ++ " | " ++ .ofList line ++ "\n" ++
    margin ++ "| " ++ spaces (column - 1).toNat ++ carets

end Markup
