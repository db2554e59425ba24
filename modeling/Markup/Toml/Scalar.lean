/-
Numbers, days and times in a TOML file.

Each reader takes the longest number, day or time that stands at the front
and gives the rest. What of it is wrong shows in what is left: `01` is the
number `0` with a `1` behind it.
-/
import Markup.Binary64.Numeral
import Markup.Toml.Value

namespace Markup.Toml

/-- A reader of something at the front of a text. -/
abbrev Front (α : Type) := List Char → Option (α × List Char)

/-! ## Numbers -/

/-- An integer in base sixteen, two or eight, behind its `0`. -/
def prefixedInteger? : Front Nat
  | 'x' :: cs =>
    (Numeral.digitsOf? Numeral.isHexDigit cs).map fun (ds, rest) => (Numeral.valueIn 16 ds, rest)
  | 'b' :: cs =>
    (Numeral.digitsOf? (fun c => c == '0' || c == '1') cs).map fun (ds, rest) =>
      (Numeral.valueIn 2 ds, rest)
  | 'o' :: cs =>
    (Numeral.digitsOf? (fun c => '0' ≤ c && c ≤ '7') cs).map fun (ds, rest) =>
      (Numeral.valueIn 8 ds, rest)
  | _ => none

/-- The digits of an integer: no zero before others. -/
def wholeDigits? : Front (List Char)
  | '0' :: cs => some (['0'], cs)
  | cs => Numeral.digits? cs

/-- The digits behind a point, or none and nothing taken. -/
def fractionDigits : List Char → List Char × List Char
  | '.' :: cs => (Numeral.digits? cs).getD ([], '.' :: cs)
  | cs => ([], cs)

/-- The exponent, or none and nothing taken. -/
def exponent : List Char → Option Int × List Char
  | c :: cs =>
    if c == 'e' || c == 'E' then
      let (negative, digits) := Numeral.sign cs
      match Numeral.digits? digits with
      | some (ds, rest) =>
        let n : Int := Numeral.value ds
        (some (if negative then -n else n), rest)
      | none => (none, c :: cs)
    else (none, c :: cs)
  | [] => (none, [])

/-- A number: an integer, or a float if it has a fraction or an exponent. An integer in base
ten may have too many digits. -/
def number? : Front (Except Excess Value) := fun cs =>
  let based := match cs with
    | '0' :: rest => prefixedInteger? rest
    | _ => none
  match based with
  | some (n, rest) => some (.ok (.integer n), rest)
  | none =>
    let (negative, digits) := Numeral.sign cs
    match wholeDigits? digits with
    | none => none
    | some (whole, rest) =>
      let (fraction, rest) := fractionDigits rest
      let (power, rest) := exponent rest
      if fraction.isEmpty && power.isNone then
        let n : Int := Numeral.value whole
        if digitLimit < whole.length then some (.error .longInteger, rest)
        else some (.ok (.integer (if negative then -n else n)), rest)
      else
        let x := Binary64.ofDecimal negative (Numeral.value (whole ++ fraction))
          (power.getD 0 - fraction.length)
        some (.ok (.float x), rest)

/-! ## Days and times -/

/-- A number of a given count of digits in a range. -/
def fixed? (count low high : Nat) : Front Nat := fun cs =>
  let digits := cs.take count
  let n := Numeral.value digits
  if digits.length = count ∧ digits.all Char.isDigit ∧ low ≤ n ∧ n ≤ high then
    some (n, cs.drop count)
  else none

/-- A character that has to stand at the front. -/
def mark? (c : Char) : Front Unit
  | d :: cs => if c = d then some ((), cs) else none
  | [] => none

/-- A day as year, month and day, whether the calendar has it or not. -/
def date? : Front Date := fun cs => do
  let (year, cs) ← fixed? 4 0 9999 cs
  let ((), cs) ← mark? '-' cs
  let (month, cs) ← fixed? 2 1 12 cs
  let ((), cs) ← mark? '-' cs
  let (day, cs) ← fixed? 2 1 31 cs
  return (⟨year, month, day⟩, cs)

/-- The millionths behind a point; further digits are passed over. -/
def micros : List Char → Nat × List Char
  | '.' :: cs =>
    let digits := cs.takeWhile Char.isDigit
    if digits.isEmpty then (0, '.' :: cs)
    else
      let six := digits.take 6
      (Numeral.value six * Nat.pow 10 (6 - six.length), cs.dropWhile Char.isDigit)
  | cs => (0, cs)

/-- A time as hours, minutes and seconds, with a fraction or without. -/
def time? : Front Time := fun cs => do
  let (hour, cs) ← fixed? 2 0 23 cs
  let ((), cs) ← mark? ':' cs
  let (minute, cs) ← fixed? 2 0 59 cs
  let ((), cs) ← mark? ':' cs
  let (second, cs) ← fixed? 2 0 59 cs
  let (micro, cs) := micros cs
  return (⟨hour, minute, second, micro⟩, cs)

/-- The distance from universal time in minutes. -/
def offset? : Front Int
  | 'Z' :: cs | 'z' :: cs => some (0, cs)
  | c :: cs => do
    if c ≠ '+' ∧ c ≠ '-' then none
    let (hours, cs) ← fixed? 2 0 23 cs
    let ((), cs) ← mark? ':' cs
    let (minutes, cs) ← fixed? 2 0 59 cs
    let offset : Int := 60 * hours + minutes
    return (if c = '-' then -offset else offset, cs)
  | [] => none

/-- The time behind a day, with the distance from universal time if it is given. -/
def timePart? : Front (Time × Option Int)
  | c :: cs => do
    if c ≠ 'T' ∧ c ≠ 't' ∧ c ≠ ' ' then none
    let (time, cs) ← time? cs
    match offset? cs with
    | some (offset, cs) => return ((time, some offset), cs)
    | none => return ((time, none), cs)
  | [] => none

/-- A day, with a time or without. -/
def dateTime? : Front Value := fun cs => do
  let (date, cs) ← date? cs
  match timePart? cs with
  | some ((time, offset), cs) => return (.dateTime date time offset, cs)
  | none => return (.date date, cs)

/-- Whether a year has a 29th of February. -/
def isLeap (year : Nat) : Bool := year % 4 = 0 && (year % 100 ≠ 0 || year % 400 = 0)

/-- How many days a month has. -/
def daysIn (year month : Nat) : Nat :=
  if month = 2 then (if isLeap year then 29 else 28)
  else if month = 4 ∨ month = 6 ∨ month = 9 ∨ month = 11 then 30
  else 31

/-- Whether the calendar has a day; it begins with the year 1. -/
def Date.isValid (d : Date) : Bool := 1 ≤ d.year && d.day ≤ daysIn d.year d.month

end Markup.Toml
