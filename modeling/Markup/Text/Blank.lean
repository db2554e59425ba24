/-
Blank characters, in the two senses the language has, and cutting them off
the ends of a text.

`isBlank` is the wide sense: the 29 characters of Unicode 14 that separate
words or lines. A run of them is one piece of white space to the lexer.
`isAsciiBlank` is the narrow one: space, newline, tab and carriage return.
Only these are cut off arguments, values and the output (`strip`).
-/
namespace Markup.Text

/-- Whether a character is blank in the wide sense. -/
def isBlank (c : Char) : Bool :=
  let n := c.toNat
  (9 ≤ n && n ≤ 13) || (28 ≤ n && n ≤ 32) || n == 0x85 || n == 0xA0 || n == 0x1680 ||
    (0x2000 ≤ n && n ≤ 0x200A) || n == 0x2028 || n == 0x2029 || n == 0x202F || n == 0x205F ||
    n == 0x3000

/-- Space, newline, tab or carriage return. -/
def isAsciiBlank (c : Char) : Bool := c == ' ' || c == '\n' || c == '\t' || c == '\r'

/-- Cuts the characters of a class off the end. -/
def dropEndWhile (p : Char → Bool) (cs : List Char) : List Char :=
  (cs.reverse.dropWhile p).reverse

/-- Cuts the characters of a class off both ends. -/
def trimWhile (p : Char → Bool) (cs : List Char) : List Char :=
  dropEndWhile p (cs.dropWhile p)

/-- Cuts ASCII blanks off the start. -/
def stripStart (s : String) : String := .ofList (s.toList.dropWhile isAsciiBlank)

/-- Cuts ASCII blanks off the end. -/
def stripEnd (s : String) : String := .ofList (dropEndWhile isAsciiBlank s.toList)

/-- Cuts ASCII blanks off both ends. -/
def strip (s : String) : String := .ofList (trimWhile isAsciiBlank s.toList)

/-- Whether nothing but ASCII blanks stands in a text. -/
def isAllBlank (s : String) : Bool := s.toList.all isAsciiBlank

/-- Cuts blanks of the wide sense off both ends. -/
def stripWide (s : String) : String := .ofList (trimWhile isBlank s.toList)

end Markup.Text
