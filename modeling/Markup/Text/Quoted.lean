/-
A text written between quotes on one line.

Single quotes are used, unless the text holds a single quote and no double
one. The quote itself, the backslash and every character that does not show
are escaped: newline, return and tab by a letter, others by two, four or
eight hexadecimal digits, the fewest that do.
-/
import Markup.Text.Printable

namespace Markup.Text

/-- The low digits of a number in base sixteen, in lower case. -/
def hexDigits (width n : Nat) : List Char :=
  (List.range width).reverse.map fun i => Nat.digitChar (n / Nat.pow 16 i % 16)

/-- One character of a text between `mark`s. -/
def quoteChar (mark c : Char) : List Char :=
  if c == mark || c == '\\' then ['\\', c]
  else if c == '\n' then ['\\', 'n']
  else if c == '\r' then ['\\', 'r']
  else if c == '\t' then ['\\', 't']
  else if isPrintable c then [c]
  else if c.toNat < 0x100 then '\\' :: 'x' :: hexDigits 2 c.toNat
  else if c.toNat < 0x10000 then '\\' :: 'u' :: hexDigits 4 c.toNat
  else '\\' :: 'U' :: hexDigits 8 c.toNat

/-- The quote that needs the fewer escapes. -/
def quoteMark (cs : List Char) : Char :=
  if cs.contains '\'' && !cs.contains '"' then '"' else '\''

/-- A text between quotes. -/
def quoteChars (cs : List Char) : List Char :=
  let mark := quoteMark cs
  mark :: cs.flatMap (quoteChar mark) ++ [mark]

/-- A text between quotes. -/
def quote (s : String) : String := .ofList (quoteChars s.toList)

end Markup.Text
