/-
Cursors: where reading stands in a text.

A cursor holds the rest of the text and the place where it begins. Whoever
reads takes characters off the rest, and the place follows. `run` and `past`
split the rest in two and lose nothing (`run_append_past`).
-/
import Markup.Position

namespace Markup

/-- The rest of a text and the place where it begins. -/
structure Cursor where
  rest : List Char
  position : Position
  deriving DecidableEq, Repr, Inhabited

namespace Cursor

/-- The cursor at the start of a text. -/
def ofText (text : String) : Cursor := ⟨text.toList, .first⟩

/-- The longest run of characters of a class at the cursor. -/
def run (p : Char → Bool) (cur : Cursor) : List Char := cur.rest.takeWhile p

/-- The cursor behind that run. -/
def past (p : Char → Bool) (cur : Cursor) : Cursor :=
  ⟨cur.rest.dropWhile p, cur.position.advance (cur.run p)⟩

theorem run_append_past (p : Char → Bool) (cur : Cursor) :
    cur.run p ++ (cur.past p).rest = cur.rest := List.takeWhile_append_dropWhile

theorem length_past_le (p : Char → Bool) (cur : Cursor) :
    (cur.past p).rest.length ≤ cur.rest.length := by
  have h := congrArg List.length (run_append_past p cur)
  rw [List.length_append] at h
  omega

/-- The cursor behind some characters. -/
def drop (n : Nat) (cur : Cursor) : Cursor :=
  ⟨cur.rest.drop n, cur.position.advance (cur.rest.take n)⟩

/-- Whether characters stand at the cursor. -/
def startsWith (cs : List Char) (cur : Cursor) : Bool := cs.isPrefixOf cur.rest

end Cursor

end Markup
