/-
Numerals: how a number is written for reading.

`Numeral.digitsOf?` reads digits with single underscores between them.
`Binary64.ofText?` reads a whole text: an optional sign, then digits with
at most one point among them or beside them and an optional exponent, or one
of the words for infinity and "not a number" in any case. Its digits may be
of any decimal system, and blanks around it do not count.
-/
import Markup.Binary64.Basic
import Markup.Text.Blank
import Markup.Text.Digit

namespace Markup

namespace Numeral

/-- The digits that go on after a digit, with single underscores between them, and the rest. -/
def moreDigits (isDigit : Char → Bool) : List Char → List Char × List Char
  | '_' :: c :: cs =>
    if isDigit c then
      let (digits, rest) := moreDigits isDigit cs
      (c :: digits, rest)
    else ([], '_' :: c :: cs)
  | c :: cs =>
    if isDigit c then
      let (digits, rest) := moreDigits isDigit cs
      (c :: digits, rest)
    else ([], c :: cs)
  | [] => ([], [])

/-- Digits with single underscores between them, at least one, and the rest. -/
def digitsOf? (isDigit : Char → Bool) : List Char → Option (List Char × List Char)
  | c :: cs =>
    if isDigit c then
      let (digits, rest) := moreDigits isDigit cs
      some (c :: digits, rest)
    else none
  | [] => none

/-- Decimal digits with single underscores between them, at least one, and the rest. -/
def digits? : List Char → Option (List Char × List Char) := digitsOf? Char.isDigit

/-- A digit in base sixteen. -/
def isHexDigit (c : Char) : Bool :=
  c.isDigit || ('a' ≤ c && c ≤ 'f') || ('A' ≤ c && c ≤ 'F')

/-- The value of a digit, also of one over nine. -/
def digitValue (c : Char) : Nat :=
  if c.isDigit then c.toNat - '0'.toNat else c.toLower.toNat - 'a'.toNat + 10

/-- The value of digits in a base. -/
def valueIn (base : Nat) (digits : List Char) : Nat :=
  digits.foldl (fun n c => base * n + digitValue c) 0

/-- The value of digits in base ten. -/
def value (digits : List Char) : Nat := valueIn 10 digits

/-- Digits before a point and digits behind it, of which one may be missing. -/
def mantissa? (cs : List Char) : Option (List Char × List Char × List Char) :=
  match digits? cs with
  | some (whole, '.' :: rest) =>
    match digits? rest with
    | some (fraction, rest) => some (whole, fraction, rest)
    | none => some (whole, [], rest)
  | some (whole, rest) => some (whole, [], rest)
  | none =>
    match cs with
    | '.' :: rest => (digits? rest).map fun (fraction, rest) => ([], fraction, rest)
    | _ => none

/-- Whether a number is negative, and the text without its sign. -/
def sign : List Char → Bool × List Char
  | '-' :: cs => (true, cs)
  | '+' :: cs => (false, cs)
  | cs => (false, cs)

/-- The exponent that ends a numeral: zero at its end, none if something else is left. -/
def exponent? : List Char → Option Int
  | [] => some 0
  | c :: cs =>
    if c == 'e' || c == 'E' then
      let (negative, cs) := sign cs
      match digits? cs with
      | some (digits, []) => some (if negative then -(value digits : Int) else value digits)
      | _ => none
    else none

/-- The ASCII digit for a decimal digit; any other character is itself. -/
def plainDigit (c : Char) : Char :=
  match Text.decimalValue? c with
  | some value => Char.ofNat ('0'.toNat + value)
  | none => c

/-- Whether a character around a numeral does not count: the blanks but for the four characters
that separate information. -/
def isMargin (c : Char) : Bool := Text.isBlank c && !(28 ≤ c.toNat && c.toNat ≤ 31)

/-- A numeral in ASCII digits, without what stands around it and does not count. -/
def plain (text : String) : List Char := (Text.trimWhile isMargin text.toList).map plainDigit

end Numeral

open Numeral in
/-- The number that a text writes, if it writes one. -/
def Binary64.ofText? (text : String) : Option Binary64 :=
  let (negative, cs) := sign (plain text)
  match mantissa? cs with
  | some (whole, fraction, rest) =>
    (exponent? rest).map fun exponent =>
      .ofDecimal negative (value (whole ++ fraction)) (exponent - fraction.length)
  | none =>
    let word := String.ofList (cs.map Char.toLower)
    if word = "inf" ∨ word = "infinity" then some (.infinite negative)
    else if word = "nan" then some .nan
    else none

end Markup
