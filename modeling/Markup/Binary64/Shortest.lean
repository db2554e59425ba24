/-
The shortest decimal that reads back.

A finite number is a whole number of units `10 ^ -1074`. For one digit, two
digits and so on up to seventeen, `shortestOf` looks at the two decimals
of that many digits around the number and takes the first that reads back as
it; of two the nearer, of two equally near the even one.

`Binary64.toText` places the point: positional notation for numbers from
`10 ^ -4` up to `10 ^ 16`, else an exponent with its sign and at least two
digits. A whole number keeps `.0`; `Binary64.toLiteral` is the same without it.
-/
import Markup.Binary64.Basic

namespace Markup.Binary64

/-- The number in units of `10 ^ -1074`, its sign apart. -/
def units (significand scale : Nat) : Nat := significand * Nat.pow 2 scale * Nat.pow 5 1074

/-- The decimal with `count` digits that stands for a number of `length` digits, if one reads
back. -/
def decimalOf? (number : Binary64) (units length count : Nat) : Option Nat :=
  let step := Nat.pow 10 (length - count)
  let exponent : Int := (length - count : Nat) - 1074
  let low := units / step
  let past := units % step
  let lowReads := ofDecimal false low exponent == number
  let highReads := ofDecimal false (low + 1) exponent == number
  if lowReads && highReads then
    some (if 2 * past < step then low
      else if step < 2 * past then low + 1
      else if low % 2 = 0 then low else low + 1)
  else if lowReads then some low
  else if highReads then some (low + 1)
  else none

/-- The fewest digits that read back as a number of so many units, and the place of the point: the
number is `0.d₁d₂… * 10 ^ point`. -/
def shortestOf (number : Binary64) (units : Nat) : List Char × Int :=
  let length := digitCount units
  let found := (List.range' 1 17).findSome? fun count =>
    (decimalOf? number units length count).map fun digits => (digits, count)
  let (digits, count) := found.getD (units / Nat.pow 10 (length - 17), 17)
  let text := Nat.toDigits 10 digits
  let point : Int := text.length + (length - count : Nat) - 1074
  ((text.reverse.dropWhile (· == '0')).reverse, point)

/-- The fewest digits that read back as a finite number, its sign apart, and the place of the point. -/
def shortestDigits (significand scale : Nat) : List Char × Int :=
  if significand = 0 then (['0'], 1)
  else shortestOf (.finite false significand scale) (units significand scale)

/-- Digits with the point among them or beside them. -/
def positional (digits : List Char) (point : Int) : List Char :=
  if point ≤ 0 then '0' :: '.' :: List.replicate (-point).toNat '0' ++ digits
  else
    let whole := point.toNat
    if digits.length ≤ whole then
      digits ++ List.replicate (whole - digits.length) '0' ++ ['.', '0']
    else digits.take whole ++ '.' :: digits.drop whole

/-- An exponent: its sign and at least two digits. -/
def exponentText (exponent : Int) : List Char :=
  let digits := Nat.toDigits 10 exponent.natAbs
  'e' :: (if exponent < 0 then '-' else '+') ::
    (if digits.length < 2 then '0' :: digits else digits)

/-- Digits with the point after the first, and an exponent. -/
def scientific (digits : List Char) (point : Int) : List Char :=
  let exponent := exponentText (point - 1)
  match digits with
  | [] => exponent
  | [d] => d :: exponent
  | d :: ds => d :: '.' :: ds ++ exponent

/-- The text of a finite number, its sign apart. -/
def finiteText (significand scale : Nat) : List Char :=
  let (digits, point) := shortestDigits significand scale
  if -4 < point ∧ point ≤ 16 then positional digits point else scientific digits point

/-- The shortest text that reads back as the number. -/
def toText : Binary64 → String
  | .finite negative significand scale =>
    .ofList ((if negative then ['-'] else []) ++ finiteText significand scale)
  | .infinite negative => if negative then "-inf" else "inf"
  | .nan => "nan"

/-- A number as a document writes it: a whole one has no point. -/
def toLiteral (number : Binary64) : String :=
  let text := number.toText.toList
  if ['.', '0'].isSuffixOf text then .ofList (text.take (text.length - 2)) else .ofList text

end Markup.Binary64
