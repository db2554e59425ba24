/-
Facts about places: line and column counted in the text before a place, and
places counted anew from another one.

`Position.IsIn` says what a line and a column are without saying how they are
kept, and `isIn_advance` that going over a text character by character keeps
them so. `Position.rebase` makes a place the first of a text, and
`Position.shift` puts the first of a text at a place; both agree with counting
from there (`rebase_advance`, `shift_advance`).
-/
import Markup.Position
import Mathlib.Data.List.Induction

namespace Markup

namespace Position

theorem step_newline (p : Position) : p.step '\n' = ⟨p.line + 1, 1, p.offset + 1⟩ := rfl

theorem step_of_ne {c : Char} (h : c ≠ '\n') (p : Position) :
    p.step c = ⟨p.line, p.column + 1, p.offset + 1⟩ := by
  simp [step, h]

theorem line_advance (p : Position) (cs : List Char) : (p.advance cs).line = p.line + cs.count '\n' := by
  induction cs generalizing p with
  | nil => simp [advance_nil]
  | cons c cs ih =>
    rw [advance_cons, ih, List.count_cons]
    by_cases hc : c = '\n'
    · subst hc
      rw [step_newline]
      simp only [beq_self_eq_true, if_true]
      omega
    · rw [step_of_ne hc]
      simp [hc]

theorem advance_concat (p : Position) (cs : List Char) (c : Char) :
    p.advance (cs ++ [c]) = (p.advance cs).step c := by
  rw [advance_append, advance_cons, advance_nil]

theorem column_advance_first (cs : List Char) :
    (first.advance cs).column = 1 + (cs.reverse.takeWhile (· != '\n')).length := by
  induction cs using List.reverseRecOn with
  | nil => rfl
  | append_singleton cs c ih =>
    rw [advance_concat, List.reverse_append, List.reverse_singleton, List.singleton_append,
      List.takeWhile_cons]
    by_cases hc : c = '\n'
    · subst hc
      simp [step_newline]
    · rw [step_of_ne hc]
      simp only [ih, bne_iff_ne, ne_eq, hc, not_false_eq_true, if_true, List.length_cons]
      omega

/-- A place of a text: its line counts the newlines before it, its column the characters behind
the last of them. -/
structure IsIn (text : List Char) (p : Position) : Prop where
  offset_nonneg : 0 ≤ p.offset
  offset_le : p.offset ≤ text.length
  line : p.line = 1 + (text.take p.offset.toNat).count '\n'
  column : p.column = 1 + ((text.take p.offset.toNat).reverse.takeWhile (· != '\n')).length

theorem offset_advance_first (cs : List Char) : (first.advance cs).offset = cs.length := by
  rw [offset_advance]
  simp [first]

theorem isIn_advance (cs rest : List Char) : (first.advance cs).IsIn (cs ++ rest) := by
  have ho := offset_advance_first cs
  have ht : (cs ++ rest).take (first.advance cs).offset.toNat = cs := by
    rw [ho, Int.toNat_natCast, List.take_left]
  refine ⟨by omega, ?_, ?_, ?_⟩
  · rw [ho, List.length_append]
    exact Int.ofNat_le.2 (Nat.le_add_right _ _)
  · rw [ht, line_advance]
    rfl
  · rw [ht, column_advance_first]

/-- A place of a text, as it is counted from another place of it. -/
def rebase (base p : Position) : Position :=
  ⟨p.line - base.line + 1, if p.line = base.line then p.column - base.column + 1 else p.column,
    p.offset - base.offset⟩

theorem rebase_self (base : Position) : rebase base base = first := by
  simp [rebase, first]

theorem rebase_step {base p : Position} (h : base.line ≤ p.line) (c : Char) :
    rebase base (p.step c) = (rebase base p).step c := by
  by_cases hc : c = '\n'
  · subst hc
    rw [step_newline, step_newline]
    simp only [rebase, mk.injEq]
    have hne : p.line + 1 ≠ base.line := by omega
    simp only [hne, if_false, true_and]
    omega
  · rw [step_of_ne hc, step_of_ne hc]
    simp only [rebase, mk.injEq, true_and]
    split <;> omega

theorem line_le_line_advance (p : Position) (cs : List Char) : p.line ≤ (p.advance cs).line := by
  rw [line_advance]
  omega

/-- Counted from where a text begins, the place behind it is the place behind it on its own. -/
theorem rebase_advance (base : Position) (cs : List Char) :
    rebase base (base.advance cs) = first.advance cs := by
  induction cs using List.reverseRecOn with
  | nil => exact rebase_self base
  | append_singleton cs c ih =>
    rw [advance_concat, advance_concat, rebase_step (line_le_line_advance base cs), ih]

/-- A place of a text, as it is counted where the text begins at another place. -/
def shift (base p : Position) : Position :=
  ⟨base.line + p.line - 1, if p.line = 1 then base.column + p.column - 1 else p.column, base.offset + p.offset⟩

theorem shift_first (base : Position) : shift base first = base := by
  simp [shift, first]

theorem shift_step {p : Position} (h : 1 ≤ p.line) (base : Position) (c : Char) :
    shift base (p.step c) = (shift base p).step c := by
  by_cases hc : c = '\n'
  · subst hc
    rw [step_newline, step_newline]
    simp only [shift, mk.injEq]
    have hne : p.line + 1 ≠ 1 := by omega
    simp only [hne, if_false, true_and]
    omega
  · rw [step_of_ne hc, step_of_ne hc]
    simp only [shift, mk.injEq, true_and]
    split <;> omega

/-- Counted from where a text begins, the place behind it is the place behind it on its own, shifted. -/
theorem shift_advance (base : Position) (cs : List Char) : shift base (first.advance cs) = base.advance cs := by
  induction cs using List.reverseRecOn with
  | nil => exact shift_first base
  | append_singleton cs c ih =>
    rw [advance_concat, advance_concat, shift_step (line_le_line_advance first cs), ih]

end Position

/-- The part of a text that a span covers. -/
def Span.slice (s : Span) (text : List Char) : List Char :=
  (text.drop s.start.offset.toNat).take (s.stop.offset - s.start.offset).toNat

theorem Span.slice_advance (before part after : List Char) :
    (Span.mk (Position.first.advance before) (Position.first.advance (before ++ part))).slice
      (before ++ (part ++ after)) = part := by
  simp only [Span.slice, Position.offset_advance_first, List.length_append, Int.toNat_natCast]
  rw [List.drop_left, show ((before.length + part.length : Nat) - (before.length : Int)).toNat = part.length by omega,
    List.take_left]

end Markup
