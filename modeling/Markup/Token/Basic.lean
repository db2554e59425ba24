/-
Tokens, and the characters they are made of.

A token has a kind, the value it stands for, the text it was read from and
its span. A number's kind carries the number.
-/
import Markup.Text.Letter
import Markup.Text.Digit
import Markup.Text.Blank
import Markup.Text.Quoted
import Markup.Binary64.Basic
import Markup.Position

namespace Markup

/-- The words that a `#` makes into directives. -/
inductive Keyword where
  | letWord
  | setWord
  | useWord
  | defWord
  | endWord
  deriving DecidableEq, Repr, Inhabited

/-- A keyword as it is written. -/
def Keyword.name : Keyword → String
  | letWord => "let"
  | setWord => "set"
  | useWord => "use"
  | defWord => "def"
  | endWord => "end"

/-- The keyword that a name is, if it is one. -/
def Keyword.ofName? (name : String) : Option Keyword :=
  [letWord, setWord, useWord, defWord, endWord].find? (·.name = name)

/-- What a token is. -/
inductive Token.Kind where
  /-- A directive, such as `#let`. -/
  | keyword (word : Keyword)
  /-- A name behind a `#` that is no keyword. -/
  | reference
  /-- The name behind an opening parenthesis or a directive; it may be empty behind a directive. -/
  | identifier
  /-- A `$` with the name behind it, which may be empty. -/
  | argument
  | text
  | number (value : Binary64)
  /-- A backslash with a character; the value is the character meant. -/
  | escape
  /-- `#!` and the rest of its line. -/
  | comment
  /-- A `#` without a name. -/
  | hash
  | openParen
  | closeParen
  | slash
  | pipe
  | endOfInput
  deriving DecidableEq, Repr, Inhabited

/-- A piece of a document. -/
structure Token where
  kind : Token.Kind
  /-- What the token stands for. -/
  value : String
  /-- The text it was read from. -/
  raw : String
  span : Span
  deriving DecidableEq, Repr, Inhabited

/-- How a message names a token. -/
def Token.describe (t : Token) : String :=
  match t.kind with
  | .endOfInput => "EOF"
  | .keyword word => "'#" ++ word.name ++ "'"
  | .text => "text " ++ Text.quote (Text.stripWide t.raw)
  | .number _ => "number " ++ Text.quote (Text.stripWide t.raw)
  | .reference => "variable '#" ++ t.value ++ "'"
  | .argument => "argument '$" ++ t.value ++ "'"
  | .identifier => "identifier '" ++ t.value ++ "'"
  | .comment => "comment"
  | _ => "'" ++ t.raw ++ "'"

namespace Text

/-- Whether a character may stand in a name. -/
def isNameChar (c : Char) : Bool :=
  isLetter c || isDigit c || ['-', '_', '!', '\'', '"', '/', '.'].contains c

/-- Whether a character may stand in a run of plain text. -/
def isTextChar (c : Char) : Bool :=
  c ∉ ['(', ')', '#', '|', '\\', '\n', '\r', '\t']

/-- Whether a character may stand in a literal number. -/
def isNumberChar (c : Char) : Bool := c.isDigit || c == '.' || c == '_'

/-- A space or a tab. -/
def isHorizontal (c : Char) : Bool := c == ' ' || c == '\t'

/-- The character that a backslash and a character stand for. -/
def unescape? : Char → Option Char
  | '(' => some '('
  | ')' => some ')'
  | '#' => some '#'
  | '$' => some '$'
  | '\\' => some '\\'
  | 'n' => some '\n'
  | 's' => some ' '
  | 't' => some '\t'
  | _ => none

end Text

end Markup
