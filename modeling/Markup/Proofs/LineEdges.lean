/-
The edges of a variable's value: what cutting blanks off them does, and how
that changes as the value grows by a piece at its end.

Cutting an edge takes the blank text there, and cuts the first piece that is not
blank (`trimEdge_of_blank`, `trimEdge_of_not_blank`). The front of a value is
settled as soon as something stays there; its end is settled only when the value
ends, so `settled` is told whether it does.
-/
import Markup.Node.Parse
import Markup.Proofs.BlankFacts

namespace Markup

namespace Node

/-! ## One piece -/

namespace Piece

/-- Whether a piece is nothing but blanks as they stand in the source. -/
def IsBlank (piece : Piece) : Prop :=
  ∃ value span, piece = ⟨.text value span, true⟩ ∧ Text.isAllBlank value = true

/-- A piece with its text changed, if it is text as it stands in the source. -/
def changed (change : String → String) : Piece → Piece
  | ⟨.text value span, true⟩ => ⟨.text (change value) span, true⟩
  | piece => piece

theorem changed_cases (piece : Piece) :
    (∃ value span, piece = ⟨.text value span, true⟩) ∨
      (∀ change, piece.changed change = piece) ∧ ∀ value span, piece ≠ ⟨.text value span, true⟩ := by
  by_cases h : ∃ value span, piece = ⟨.text value span, true⟩
  · exact .inl h
  · refine .inr ⟨fun change => ?_, fun value span he => h ⟨value, span, he⟩⟩
    unfold changed
    split
    next value span => exact absurd ⟨value, span, rfl⟩ h
    next => rfl

theorem changed_of_not_trimmable (change : String → String) {piece : Piece} (h : piece.trimmable = false) :
    piece.changed change = piece := by
  obtain ⟨value, span, rfl⟩ | ⟨hsame, -⟩ := piece.changed_cases
  · cases h
  · exact hsame change

end Piece

/-! ## One edge -/

theorem trimEdge_cons_blank {piece : Piece} (h : piece.IsBlank) (cut : String → String) (rest : List Piece) :
    trimEdge cut (piece :: rest) = trimEdge cut rest := by
  obtain ⟨value, span, rfl, hb⟩ := h
  rw [trimEdge, if_pos hb]

theorem trimEdge_of_blank {cut : String → String} {blank : List Piece} (h : ∀ piece ∈ blank, piece.IsBlank)
    (pieces : List Piece) : trimEdge cut (blank ++ pieces) = trimEdge cut pieces := by
  induction blank with
  | nil => rfl
  | cons piece blank ih =>
    obtain ⟨hpiece, hrest⟩ := List.forall_mem_cons.1 h
    rw [List.cons_append, trimEdge_cons_blank hpiece, ih hrest]

theorem trimEdge_of_all_blank (cut : String → String) {blank : List Piece} (h : ∀ piece ∈ blank, piece.IsBlank) :
    trimEdge cut blank = [] := by
  have ht : trimEdge cut (blank ++ []) = [] := trimEdge_of_blank h []
  rwa [List.append_nil] at ht

/-- The first piece that is not blank text loses its own blanks, and the others stay as they are. -/
theorem trimEdge_of_not_blank {piece : Piece} (h : ¬ piece.IsBlank) (cut : String → String) (rest : List Piece) :
    trimEdge cut (piece :: rest) = piece.changed cut :: rest := by
  obtain ⟨value, span, rfl⟩ | ⟨hsame, hne⟩ := piece.changed_cases
  · rw [trimEdge, if_neg fun hb => h ⟨value, span, rfl, hb⟩]
    rfl
  · rw [hsame]
    unfold trimEdge
    split
    next value span rest' he => exact absurd (List.cons.inj he).1 (hne value span)
    next => rfl

theorem exists_first_not_blank (pieces : List Piece) :
    (∀ piece ∈ pieces, piece.IsBlank) ∨
      ∃ blank first rest, pieces = blank ++ first :: rest ∧ (∀ piece ∈ blank, piece.IsBlank) ∧ ¬ first.IsBlank := by
  induction pieces with
  | nil => exact .inl nofun
  | cons piece pieces ih =>
    by_cases hp : piece.IsBlank
    · rcases ih with hall | ⟨blank, first, rest, rfl, hblank, hfirst⟩
      · exact .inl (List.forall_mem_cons.2 ⟨hp, hall⟩)
      · exact .inr ⟨piece :: blank, first, rest, rfl, List.forall_mem_cons.2 ⟨hp, hblank⟩, hfirst⟩
    · exact .inr ⟨[], piece, pieces, rfl, nofun, hp⟩

theorem trimEdge_append (cut : String → String) (pieces more : List Piece) :
    trimEdge cut (pieces ++ more) =
      if (trimEdge cut pieces).isEmpty then trimEdge cut more else trimEdge cut pieces ++ more := by
  rcases exists_first_not_blank pieces with hall | ⟨blank, first, rest, rfl, hblank, hfirst⟩
  · rw [trimEdge_of_blank hall, trimEdge_of_all_blank cut hall]
    rfl
  · rw [List.append_assoc, List.cons_append, trimEdge_of_blank hblank, trimEdge_of_blank hblank,
      trimEdge_of_not_blank hfirst, trimEdge_of_not_blank hfirst]
    rfl

theorem trimEdge_of_not_trimmable (cut : String → String) (node : Node) (rest : List Piece) :
    trimEdge cut (⟨node, false⟩ :: rest) = ⟨node, false⟩ :: rest := by
  have hb : ¬ Piece.IsBlank ⟨node, false⟩ := fun ⟨_, _, he, _⟩ => Bool.false_ne_true (congrArg Piece.trimmable he)
  rw [trimEdge_of_not_blank hb, Piece.changed_of_not_trimmable cut rfl]

/-! ## A piece more at the end -/

/-- A piece that stays keeps the end of a value from being cut any further. -/
theorem trimLine_concat_node (pieces : List Piece) (node : Node) :
    trimLine (pieces ++ [⟨node, false⟩]) = trimEdge Text.stripStart pieces ++ [⟨node, false⟩] := by
  have hf : trimEdge Text.stripStart (pieces ++ [⟨node, false⟩]) =
      trimEdge Text.stripStart pieces ++ [⟨node, false⟩] := by
    rw [trimEdge_append, trimEdge_of_not_trimmable]
    split
    next he => rw [List.isEmpty_iff.1 he, List.nil_append]
    next => rfl
  rw [trimLine, hf, List.reverse_append, List.reverse_singleton, List.singleton_append,
    trimEdge_of_not_trimmable]
  simp

/-- Blank text at the end of a value goes. -/
theorem trimLine_concat_blank (pieces : List Piece) {value : String} (hb : Text.isAllBlank value = true)
    (span : Span) : trimLine (pieces ++ [⟨.text value span, true⟩]) = trimLine pieces := by
  have hblank : Piece.IsBlank ⟨.text value span, true⟩ := ⟨value, span, rfl, hb⟩
  rw [trimLine, trimLine, trimEdge_append]
  split
  next he =>
    rw [trimEdge_cons_blank hblank, List.isEmpty_iff.1 he]
    rfl
  next => rw [List.reverse_append, List.reverse_singleton, List.singleton_append, trimEdge_cons_blank hblank]

/-- A text without the blanks at its front, at its end or at both. -/
def cutText (front ends : Bool) (value : String) : String :=
  let value := if front then Text.stripStart value else value
  if ends then Text.stripEnd value else value

/-- Other text at the end of a value loses the blanks at its end, and those at its front if nothing
stays before it. -/
theorem trimLine_concat_text (pieces : List Piece) {value : String} (hb : Text.isAllBlank value = false)
    (span : Span) :
    trimLine (pieces ++ [⟨.text value span, true⟩]) = trimEdge Text.stripStart pieces ++
      [⟨.text (cutText (trimEdge Text.stripStart pieces).isEmpty true value) span, true⟩] := by
  have hone : ∀ (cut : String → String) (v : String) rest, Text.isAllBlank v = false →
      trimEdge cut (⟨.text v span, true⟩ :: rest) = ⟨.text (cut v) span, true⟩ :: rest := by
    intro cut v rest hv
    rw [trimEdge, hv]
    rfl
  rw [trimLine, trimEdge_append]
  split
  next he =>
    have hs := Text.isAllBlank_stripStart value
    rw [hb] at hs
    rw [hone _ _ _ hb, List.isEmpty_iff.1 he, List.reverse_singleton, hone _ _ _ hs]
    rfl
  next he =>
    rw [List.reverse_append, List.reverse_singleton, List.singleton_append, hone _ _ _ hb]
    simp [cutText, he]

/-- The pieces of a value that stay: blanks at its front are cut off, and those at its end if the
value ends there. -/
def settled (ends : Bool) (pieces : List Piece) : List Piece :=
  if ends then trimLine pieces else trimEdge Text.stripStart pieces

theorem settled_concat_node (ends : Bool) (pieces : List Piece) (node : Node) :
    settled ends (pieces ++ [⟨node, false⟩]) = settled false pieces ++ [⟨node, false⟩] := by
  cases ends with
  | true => exact trimLine_concat_node pieces node
  | false =>
    simp only [settled, Bool.false_eq_true, if_false]
    rw [trimEdge_append, trimEdge_of_not_trimmable]
    split
    next he => rw [List.isEmpty_iff.1 he, List.nil_append]
    next => rfl

/-- Blank text goes if it stands at the front, or at the end. -/
theorem settled_concat_blank (ends : Bool) (pieces : List Piece) {value : String}
    (hb : Text.isAllBlank value = true) (span : Span) :
    settled ends (pieces ++ [⟨.text value span, true⟩]) = settled ends pieces ++
      if (trimEdge Text.stripStart pieces).isEmpty || ends then [] else [⟨.text value span, true⟩] := by
  cases ends with
  | true =>
    simp only [settled, if_true, Bool.or_true, List.append_nil]
    exact trimLine_concat_blank pieces hb span
  | false =>
    simp only [settled, Bool.false_eq_true, if_false, Bool.or_false]
    rw [trimEdge_append]
    split
    next he => rw [trimEdge, if_pos hb, List.isEmpty_iff.1 he]; rfl
    next => rfl

/-- Other text stays; it loses the blanks at its front if it stands at the front, and those at its
end if it stands at the end. -/
theorem settled_concat_text (ends : Bool) (pieces : List Piece) {value : String}
    (hb : Text.isAllBlank value = false) (span : Span) :
    settled ends (pieces ++ [⟨.text value span, true⟩]) = settled false pieces ++
      [⟨.text (cutText (trimEdge Text.stripStart pieces).isEmpty ends value) span, true⟩] := by
  cases ends with
  | true => exact trimLine_concat_text pieces hb span
  | false =>
    simp only [settled, cutText, Bool.false_eq_true, if_false]
    rw [trimEdge_append]
    split
    next he => rw [trimEdge, hb, List.isEmpty_iff.1 he]; rfl
    next => rfl

/-- Something stays of a value that has a piece of another kind, or text that is not blank. -/
theorem trimEdge_concat_isEmpty (pieces : List Piece) (piece : Piece) :
    (trimEdge Text.stripStart (pieces ++ [piece])).isEmpty =
      ((trimEdge Text.stripStart pieces).isEmpty && (trimEdge Text.stripStart [piece]).isEmpty) := by
  rw [trimEdge_append]
  split
  next he => rw [he, Bool.true_and]
  next he => simp [he]

theorem mem_trimEdge {cut : String → String} {piece : Piece} (hp : ∀ value span, piece ≠ ⟨.text value span, true⟩)
    {pieces : List Piece} (h : piece ∈ pieces) : piece ∈ trimEdge cut pieces := by
  fun_induction trimEdge cut pieces with
  | case1 value span rest hb ih =>
    rcases List.mem_cons.1 h with rfl | h
    · exact absurd rfl (hp value span)
    · exact ih h
  | case2 value span rest hb =>
    rcases List.mem_cons.1 h with rfl | h
    · exact absurd rfl (hp value span)
    · exact List.mem_cons_of_mem _ h
  | case3 => exact h

theorem mem_trimLine_of_ne {piece : Piece} (hp : ∀ value span, piece ≠ ⟨.text value span, true⟩)
    {pieces : List Piece} (h : piece ∈ pieces) : piece ∈ trimLine pieces := by
  rw [trimLine, List.mem_reverse]
  exact mem_trimEdge hp (List.mem_reverse.2 (mem_trimEdge hp h))

theorem mem_trimLine {piece : Piece} (ht : ∀ value span, piece.node ≠ .text value span)
    {pieces : List Piece} (h : piece ∈ pieces) : piece ∈ trimLine pieces :=
  mem_trimLine_of_ne (fun value span he => ht value span (congrArg Piece.node he)) h

/-- What stays was there, or is what has been cut of a text. -/
inductive CutFrom (pieces : List Piece) (piece : Piece) : Prop where
  | same : piece ∈ pieces → CutFrom pieces piece
  | text {value rest span} : ⟨.text value span, true⟩ ∈ pieces → piece = ⟨.text rest span, true⟩ →
      CutFrom pieces piece

theorem CutFrom.of_subset {pieces more : List Piece} {piece : Piece} (h : CutFrom pieces piece)
    (hs : pieces ⊆ more) : CutFrom more piece := by
  cases h with
  | same hm => exact .same (hs hm)
  | text hm he => exact .text (hs hm) he

theorem cutFrom_of_mem_trimEdge {cut : String → String} {pieces : List Piece} {piece : Piece}
    (h : piece ∈ trimEdge cut pieces) : CutFrom pieces piece := by
  fun_induction trimEdge cut pieces with
  | case1 value span rest hb ih => exact (ih h).of_subset (List.subset_cons_self _ _)
  | case2 value span rest hb =>
    rcases List.mem_cons.1 h with rfl | h
    · exact .text List.mem_cons_self rfl
    · exact .same (List.mem_cons_of_mem _ h)
  | case3 => exact .same h

theorem cutFrom_of_mem_trimLine {pieces : List Piece} {piece : Piece} (h : piece ∈ trimLine pieces) :
    CutFrom pieces piece := by
  rw [trimLine, List.mem_reverse] at h
  cases cutFrom_of_mem_trimEdge h with
  | same hm => exact cutFrom_of_mem_trimEdge (List.mem_reverse.1 hm)
  | text hm he =>
    cases cutFrom_of_mem_trimEdge (List.mem_reverse.1 hm) with
    | same hm => exact .text hm he
    | text hm he' =>
      cases he'
      exact .text hm he

end Node

end Markup
