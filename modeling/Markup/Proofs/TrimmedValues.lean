/-
What trimming does to a variable's value as a whole.

Before and behind what stays of a value there is nothing but blank text
(`exists_cutAtEnds`), and of what stays only the two pieces at its ends can
change (`CutAtEnds`): they lose the blanks on the side where the value ends, a
piece that stays alone on both. Trimming finds exactly this, whatever blank
text stands around it (`trimLine_of_cutAtEnds`), and what has been cut has
nothing left to be cut (`CutAtEnds.again`), so trimming it again changes nothing.
-/
import Markup.Proofs.LineEdges

namespace Markup

namespace Node

/-! ## One text -/

theorem cutText_cutText (front ends : Bool) (value : String) :
    cutText front ends (cutText front ends value) = cutText front ends value := by
  cases front <;> cases ends
  · rfl
  · exact Text.stripEnd_stripEnd value
  · exact Text.stripStart_stripStart value
  · simp only [cutText, if_true, Text.stripEnd_stripStart, Text.strip_strip]

theorem isAllBlank_cutText (front ends : Bool) (value : String) :
    Text.isAllBlank (cutText front ends value) = Text.isAllBlank value := by
  cases front <;> cases ends <;>
    simp [cutText, Text.isAllBlank_stripStart, Text.isAllBlank_stripEnd]

theorem beginsSolid_cutText (ends : Bool) {value : String} (h : Text.isAllBlank value = false) :
    Text.BeginsSolid (cutText true ends value) := by
  cases ends with
  | false => exact Text.beginsSolid_stripStart h
  | true => exact (Text.beginsSolid_stripStart h).stripEnd

theorem endsSolid_cutText (front : Bool) {value : String} (h : Text.isAllBlank value = false) :
    Text.EndsSolid (cutText front true value) := by
  cases front with
  | false => exact Text.endsSolid_stripEnd h
  | true => exact Text.endsSolid_stripEnd ((Text.isAllBlank_stripStart value).trans h)

/-! ## One piece -/

namespace Piece

/-- A piece without the blanks at its front, at its end or at both. -/
def cut (front ends : Bool) (piece : Piece) : Piece := piece.changed (cutText front ends)

theorem trimmable_changed (change : String → String) (piece : Piece) :
    (piece.changed change).trimmable = piece.trimmable := by
  obtain ⟨value, span, rfl⟩ | ⟨hsame, -⟩ := piece.changed_cases
  · rfl
  · rw [hsame]

theorem changed_changed (change other : String → String) (piece : Piece) :
    (piece.changed change).changed other = piece.changed (other ∘ change) := by
  obtain ⟨value, span, rfl⟩ | ⟨hsame, -⟩ := piece.changed_cases
  · rfl
  · rw [hsame, hsame, hsame]

theorem cut_cut (front ends : Bool) (piece : Piece) : (piece.cut front ends).cut front ends = piece.cut front ends := by
  rw [cut, cut, changed_changed]
  exact congrArg (piece.changed ·) (funext (cutText_cutText front ends))

theorem isBlank_cut_iff (front ends : Bool) (piece : Piece) : (piece.cut front ends).IsBlank ↔ piece.IsBlank := by
  obtain ⟨value, span, rfl⟩ | ⟨hsame, -⟩ := piece.changed_cases
  · constructor
    · rintro ⟨_, _, he, hb⟩
      cases he
      exact ⟨value, span, rfl, isAllBlank_cutText front ends value ▸ hb⟩
    · rintro ⟨_, _, he, hb⟩
      cases he
      exact ⟨_, span, rfl, (isAllBlank_cutText front ends value).trans hb⟩
  · rw [cut, hsame]

theorem not_isBlank_cut {piece : Piece} (h : ¬ piece.IsBlank) (front ends : Bool) : ¬ (piece.cut front ends).IsBlank :=
  fun hc => h ((isBlank_cut_iff front ends piece).1 hc)

theorem exists_of_cut {front ends : Bool} {piece : Piece} (hb : ¬ piece.IsBlank) {value : String} {span : Span}
    (h : piece.cut front ends = ⟨.text value span, true⟩) :
    ∃ old, value = cutText front ends old ∧ Text.isAllBlank old = false := by
  obtain ⟨old, span', rfl⟩ | ⟨hsame, hne⟩ := piece.changed_cases
  · cases h
    exact ⟨old, rfl, by simpa using fun ho => hb ⟨old, span, rfl, ho⟩⟩
  · rw [cut, hsame] at h
    exact absurd h (hne value span)

end Piece

/-! ## All pieces -/

/-- What stays of pieces that have no blank text at their ends: all of them, the first without the blanks at
its front and the last without those at its end. -/
inductive CutAtEnds : List Piece → List Piece → Prop where
  | nothing : CutAtEnds [] []
  | alone {piece} : ¬ piece.IsBlank → CutAtEnds [piece] [piece.cut true true]
  | between {first inner last} : ¬ first.IsBlank → ¬ last.IsBlank →
      CutAtEnds (first :: inner ++ [last]) (first.cut true false :: inner ++ [last.cut false true])

/-- All pieces are those that stay, with blank text before and behind. -/
theorem exists_cutAtEnds (pieces : List Piece) :
    ∃ front middle behind kept, pieces = front ++ middle ++ behind ∧ (∀ piece ∈ front ++ behind, piece.IsBlank) ∧
      CutAtEnds middle kept := by
  rcases exists_first_not_blank pieces with hall | ⟨front, first, rest, rfl, hfront, hfirst⟩
  · exact ⟨pieces, [], [], [], by simp, by simpa using hall, .nothing⟩
  -- the end of the pieces is the front of them turned around
  rcases exists_first_not_blank rest.reverse with hall | ⟨behind, last, inner, he, hbehind, hlast⟩
  · refine ⟨front, [first], rest, _, by simp, fun piece hm => ?_, .alone hfirst⟩
    rcases List.mem_append.1 hm with hm | hm
    · exact hfront piece hm
    · exact hall piece (List.mem_reverse.2 hm)
  · have hrest : rest = inner.reverse ++ [last] ++ behind.reverse := by
      rw [← List.reverse_reverse rest, he]
      simp
    refine ⟨front, first :: inner.reverse ++ [last], behind.reverse, _, by simp [hrest], fun piece hm => ?_,
      .between hfirst hlast⟩
    rcases List.mem_append.1 hm with hm | hm
    · exact hfront piece hm
    · exact hbehind piece (List.mem_reverse.1 hm)

/-- Trimming takes the blank text around what stays, and cuts the rest at its ends. -/
theorem trimLine_of_cutAtEnds {front middle behind kept : List Piece}
    (hblank : ∀ piece ∈ front ++ behind, piece.IsBlank) (h : CutAtEnds middle kept) :
    trimLine (front ++ middle ++ behind) = kept := by
  have hfront : ∀ piece ∈ front, piece.IsBlank := fun piece hm => hblank piece (List.mem_append_left _ hm)
  have hbehind : ∀ piece ∈ behind.reverse, piece.IsBlank :=
    fun piece hm => hblank piece (List.mem_append_right _ (List.mem_reverse.1 hm))
  rw [trimLine, List.append_assoc, trimEdge_of_blank hfront]
  cases h with
  | nothing =>
    rw [List.nil_append, trimEdge_of_all_blank _ fun piece hm => hbehind piece (List.mem_reverse.2 hm)]
    rfl
  | @alone piece hpiece =>
    calc (trimEdge Text.stripEnd (trimEdge Text.stripStart ([piece] ++ behind)).reverse).reverse
      _ = (trimEdge Text.stripEnd (behind.reverse ++ [piece.cut true false])).reverse := by
        rw [List.singleton_append, trimEdge_of_not_blank hpiece, List.reverse_cons]
        rfl
      _ = [(piece.cut true false).cut false true] := by
        rw [trimEdge_of_blank hbehind, trimEdge_of_not_blank (Piece.not_isBlank_cut hpiece true false)]
        rfl
      _ = [piece.cut true true] := by rw [Piece.cut, Piece.cut, Piece.changed_changed]; rfl
  | @between first inner last hfirst hlast =>
    have hturned : (first.cut true false :: inner ++ [last] ++ behind).reverse =
        behind.reverse ++ last :: (first.cut true false :: inner).reverse := by simp
    calc (trimEdge Text.stripEnd (trimEdge Text.stripStart (first :: inner ++ [last] ++ behind)).reverse).reverse
      _ = (trimEdge Text.stripEnd (first.cut true false :: inner ++ [last] ++ behind).reverse).reverse := by
        rw [List.append_assoc, List.cons_append, trimEdge_of_not_blank hfirst, List.append_assoc]
        rfl
      _ = (last.cut false true :: (first.cut true false :: inner).reverse).reverse := by
        rw [hturned, trimEdge_of_blank hbehind, trimEdge_of_not_blank hlast]
        rfl
      _ = first.cut true false :: inner ++ [last.cut false true] := by rw [List.reverse_cons, List.reverse_reverse]

/-- What has been cut has nothing to be cut. -/
theorem CutAtEnds.again {middle kept : List Piece} (h : CutAtEnds middle kept) : CutAtEnds kept kept := by
  cases h with
  | nothing => exact .nothing
  | @alone piece hpiece =>
    have ha := CutAtEnds.alone (Piece.not_isBlank_cut hpiece true true)
    rwa [Piece.cut_cut] at ha
  | @between first inner last hfirst hlast =>
    have hb : CutAtEnds (first.cut true false :: inner ++ [last.cut false true]) _ :=
      .between (Piece.not_isBlank_cut hfirst true false) (Piece.not_isBlank_cut hlast false true)
    rwa [Piece.cut_cut, Piece.cut_cut] at hb

theorem CutAtEnds.beginsSolid {middle kept : List Piece} (h : CutAtEnds middle kept) {value : String} {span : Span}
    (hh : kept.head? = some ⟨.text value span, true⟩) : Text.BeginsSolid value := by
  cases h with
  | nothing => cases hh
  | alone hpiece =>
    obtain ⟨old, rfl, hold⟩ := Piece.exists_of_cut hpiece (Option.some.inj hh)
    exact beginsSolid_cutText true hold
  | between hfirst hlast =>
    obtain ⟨old, rfl, hold⟩ := Piece.exists_of_cut hfirst (Option.some.inj hh)
    exact beginsSolid_cutText false hold

theorem CutAtEnds.endsSolid {middle kept : List Piece} (h : CutAtEnds middle kept) {value : String} {span : Span}
    (hh : kept.getLast? = some ⟨.text value span, true⟩) : Text.EndsSolid value := by
  cases h with
  | nothing => cases hh
  | alone hpiece =>
    obtain ⟨old, rfl, hold⟩ := Piece.exists_of_cut hpiece (Option.some.inj hh)
    exact endsSolid_cutText true hold
  | between hfirst hlast =>
    rw [List.getLast?_concat] at hh
    obtain ⟨old, rfl, hold⟩ := Piece.exists_of_cut hlast (Option.some.inj hh)
    exact endsSolid_cutText false hold

/-- Cutting keeps the pieces that are not trimmable. -/
theorem CutAtEnds.filter_eq {middle kept : List Piece} (h : CutAtEnds middle kept) :
    kept.filter (!·.trimmable) = middle.filter (!·.trimmable) := by
  have hone : ∀ (piece : Piece) (front ends : Bool),
      [piece.cut front ends].filter (!·.trimmable) = [piece].filter (!·.trimmable) := by
    intro piece front ends
    cases ht : piece.trimmable with
    | false => rw [Piece.cut, Piece.changed_of_not_trimmable _ ht]
    | true => simp [Piece.cut, Piece.trimmable_changed, ht]
  cases h with
  | nothing => rfl
  | alone => exact hone _ true true
  | @between first inner last =>
    calc ([first.cut true false] ++ inner ++ [last.cut false true]).filter (!·.trimmable)
      _ = ([first] ++ inner ++ [last]).filter (!·.trimmable) := by
        rw [List.filter_append, List.filter_append, hone, hone, ← List.filter_append, ← List.filter_append]

/-- Of a variable's value a part stays that has nothing but blank text before and behind it. In this part only
the first piece and the last one can differ from what they were: a text at an end has lost the blanks on that
side, the only piece those on both, and there no blank is left. All that is not plain text of the source
stays as it is, escaped blanks too, and there is nothing to be trimmed once more. -/
theorem trimLine_cuts_ends (pieces : List Piece) :
    (∃ front middle behind, pieces = front ++ middle ++ behind ∧ (∀ piece ∈ front ++ behind, piece.IsBlank) ∧
      CutAtEnds middle (trimLine pieces)) ∧
    (∀ value span, (trimLine pieces).head? = some ⟨.text value span, true⟩ → Text.BeginsSolid value) ∧
    (∀ value span, (trimLine pieces).getLast? = some ⟨.text value span, true⟩ → Text.EndsSolid value) ∧
    (trimLine pieces).filter (!·.trimmable) = pieces.filter (!·.trimmable) ∧
    trimLine (trimLine pieces) = trimLine pieces := by
  obtain ⟨front, middle, behind, kept, rfl, hblank, hcut⟩ := exists_cutAtEnds pieces
  have hgone : ∀ {blank : List Piece}, (∀ piece ∈ blank, piece.IsBlank) → blank.filter (!·.trimmable) = [] := by
    intro blank hb
    refine List.filter_eq_nil_iff.2 fun piece hm => ?_
    obtain ⟨value, span, rfl, -⟩ := hb piece hm
    exact Bool.false_ne_true
  have hagain : trimLine ([] ++ kept ++ []) = kept := trimLine_of_cutAtEnds nofun hcut.again
  rw [trimLine_of_cutAtEnds hblank hcut]
  refine ⟨⟨front, middle, behind, rfl, hblank, hcut⟩, fun _ _ => hcut.beginsSolid, fun _ _ => hcut.endsSolid, ?_, ?_⟩
  · rw [List.filter_append, List.filter_append, hgone fun piece hm => hblank piece (List.mem_append_left _ hm),
      hgone fun piece hm => hblank piece (List.mem_append_right _ hm), hcut.filter_eq, List.nil_append,
      List.append_nil]
  · rwa [List.nil_append, List.append_nil] at hagain

/-- An escaped blank at the front is kept, and with it the blank behind it. -/
example : trimLine [⟨.text " " .builtIn, true⟩, ⟨.text " " .builtIn, false⟩, ⟨.text " a " .builtIn, true⟩] =
    [⟨.text " " .builtIn, false⟩, ⟨.text " a" .builtIn, true⟩] := rfl

end Node

end Markup
