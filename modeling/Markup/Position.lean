/-
Places in a text.

Lines and columns count from 1, offsets from 0, all in characters. A newline
is the last character of its line. The places of a text are natural numbers;
they are kept as integers, because a span built by hand may lie anywhere.
-/
namespace Markup

/-- A place between two characters of a text. -/
structure Position where
  line : Int
  column : Int
  offset : Int
  deriving DecidableEq, Repr, Inhabited

/-- The place before the first character. -/
def Position.first : Position := ⟨1, 1, 0⟩

/-- The place after one more character. -/
def Position.step (p : Position) (c : Char) : Position :=
  if c = '\n' then ⟨p.line + 1, 1, p.offset + 1⟩ else ⟨p.line, p.column + 1, p.offset + 1⟩

/-- The place after more characters. -/
def Position.advance (p : Position) (cs : List Char) : Position := cs.foldl step p

/-- A part of a text, from its start up to its stop. -/
structure Span where
  start : Position
  stop : Position
  deriving DecidableEq, Repr, Inhabited

/-- The span of what was not read from a text. -/
def Span.builtIn : Span := ⟨⟨0, 0, 0⟩, ⟨0, 0, 0⟩⟩

/-- The span of one character on its line. -/
def Span.ofPosition (p : Position) : Span := ⟨p, ⟨p.line, p.column + 1, p.offset + 1⟩⟩

theorem Position.advance_nil (p : Position) : p.advance [] = p := rfl

theorem Position.advance_cons (p : Position) (c : Char) (cs : List Char) :
    p.advance (c :: cs) = (p.step c).advance cs := rfl

theorem Position.advance_append (p : Position) (cs ds : List Char) :
    p.advance (cs ++ ds) = (p.advance cs).advance ds := List.foldl_append

theorem Position.offset_step (p : Position) (c : Char) : (p.step c).offset = p.offset + 1 := by
  unfold step; split <;> rfl

theorem Position.offset_advance (p : Position) (cs : List Char) :
    (p.advance cs).offset = p.offset + cs.length := by
  induction cs generalizing p with
  | nil => simp [advance]
  | cons c cs ih =>
    rw [advance_cons, ih, offset_step, List.length_cons]
    omega

end Markup
