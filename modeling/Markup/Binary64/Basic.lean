/-
Double-precision numbers as exact integers.

A finite number is `significand * 2 ^ scale / 2 ^ 1074`, with its sign
apart, so that rounding and printing are arithmetic on natural numbers.
`Binary64.ofDecimal` is the number nearest to a decimal one; of two equally
near it takes the one with the even significand. From `2 ^ 1024 - 2 ^ 970`
on that is infinity.
-/
namespace Markup

/-- A double-precision number. -/
inductive Binary64 where
  /-- The number `significand * 2 ^ scale / 2 ^ 1074`, negated if `negative`. -/
  | finite (negative : Bool) (significand scale : Nat)
  | infinite (negative : Bool)
  | nan
  deriving DecidableEq, Repr, Inhabited

namespace Binary64

/-- The integer nearest to `a / d`, the even one of two. -/
def roundDiv (a d : Nat) : Nat :=
  let q := a / d
  let r := a % d
  if 2 * r < d then q
  else if d < 2 * r then q + 1
  else if q % 2 = 0 then q else q + 1

/-- The least scale at which `a / d` has a significand under `2 ^ 53` before rounding. -/
def scaleOf (a d : Nat) : Nat := Nat.log2 (a / d) - 52

/-- The number nearest to `a / d / 2 ^ 1074`. -/
def ofScaled (negative : Bool) (a d : Nat) : Binary64 :=
  let scale := scaleOf a d
  let significand := roundDiv a (d * Nat.pow 2 scale)
  let (significand, scale) :=
    if significand = Nat.pow 2 53 then (Nat.pow 2 52, scale + 1) else (significand, scale)
  if 2045 < scale then .infinite negative else .finite negative significand scale

/-- How many decimal digits a number has. -/
def digitCount (n : Nat) : Nat := (Nat.toDigits 10 n).length

/-- The number nearest to `digits * 10 ^ exponent`.

Numbers from `10 ^ 310` on are too large and those under `10 ^ -330` too small
to need the power of ten. -/
def ofDecimal (negative : Bool) (digits : Nat) (exponent : Int) : Binary64 :=
  let top := digitCount digits + exponent
  if digits = 0 ∨ top < -330 then .finite negative 0 0
  else if 310 < top then .infinite negative
  else if 0 ≤ exponent then
    ofScaled negative (digits * Nat.pow 10 exponent.toNat * Nat.pow 2 1074) 1
  else ofScaled negative (digits * Nat.pow 2 1074) (Nat.pow 10 (-exponent).toNat)

end Binary64

end Markup
