/-
Sets of characters given by ranges of code points.

`Ranges.has` looks through ascending ranges from the lowest and stops at the
first one that begins past the character, so the common characters are
found or refused at once.
-/
namespace Markup.Text

/-- Ranges of code points, both ends included, lowest first. -/
abbrev Ranges := List (Nat × Nat)

/-- Whether a code point lies in one of ascending ranges. -/
def Ranges.hasCode : Ranges → Nat → Bool
  | [], _ => false
  | (lo, hi) :: rest, n =>
    if n < lo then false else if n ≤ hi then true else hasCode rest n

/-- Whether a character lies in one of ascending ranges. -/
def Ranges.has (rs : Ranges) (c : Char) : Bool := rs.hasCode c.toNat

end Markup.Text
