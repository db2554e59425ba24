/-
Reading can be taken up at every token that is no name.

Such a token begins a lexeme, and so does the end of the text, in which nothing is read
any more. A step sees nothing of what was read before it but the place where it stands,
so the text from there on has, as a text of its own, the tokens from there on, counted
from its start (`scan_drop`). A name is left out because it stands inside of its
lexeme: on its own it would be plain text or a number.
-/
import Markup.Proofs.Excerpts

namespace Markup.Token

theorem moved_endAt (f : Position → Position) (p : Position) : (endAt p).moved f = endAt (f p) := rfl

/-- The lexemes from a token on that is no name, which may be the mark of the end. -/
theorem Reads.exists_from_of_scan {cs : List Char} {pieces : List Piece} (h : Reads cs pieces [])
    {before after : List Token} {t : Token} (he : before ++ t :: after =
      place .first pieces ++ [endAt (Position.first.advance (Piece.textAll pieces))])
    (hk : t.kind ≠ .identifier) : ∃ front back mid, Reads cs front mid ∧ Reads mid back [] ∧
      t.span.start = Position.first.advance (Piece.textAll front) ∧
      t :: after = place (Position.first.advance (Piece.textAll front)) back ++
        [endAt (Position.first.advance (Piece.textAll front ++ Piece.textAll back))] := by
  rcases List.eq_nil_or_concat after with rfl | ⟨more, last, rfl⟩
  · obtain ⟨-, hlast⟩ := List.append_inj' he rfl
    obtain rfl : t = endAt _ := List.singleton_inj.1 hlast
    refine ⟨pieces, [], [], h, .refl [], rfl, ?_⟩
    rw [Piece.textAll_nil, List.append_nil]
    rfl
  · rw [List.concat_eq_append, ← List.cons_append, ← List.append_assoc] at he
    obtain ⟨hplace, hlast⟩ := List.append_inj' he rfl
    obtain ⟨front, back, mid, hf, hb, hback, hstart⟩ := h.exists_from hplace.symm hk
    refine ⟨front, back, mid, hf, hb, hstart, ?_⟩
    have htext : Piece.textAll pieces = Piece.textAll front ++ Piece.textAll back := by
      have hparts := (hf.append hb).append_eq
      rw [h.append_eq, List.append_nil, List.append_nil, Piece.textAll_append] at hparts
      exact hparts
    rw [List.concat_eq_append, ← List.cons_append, hback, hlast, htext]

/-- Reading a text from a token on that is no name gives the tokens from that one on, as they are counted
from its start. -/
theorem scan_drop {text : String} {before after : List Token} {t : Token}
    (h : scan text = .ok (before ++ t :: after)) (hk : t.kind ≠ .identifier) :
    scan (.ofList (text.toList.drop t.span.start.offset.toNat)) =
      .ok ((t :: after).map (Token.moved (Position.rebase t.span.start))) := by
  obtain ⟨pieces, hr, he⟩ := scan_ok_iff.1 h
  obtain ⟨front, back, mid, hf, hb, hstart, hafter⟩ := hr.exists_from_of_scan he hk
  have hmid : text.toList.drop t.span.start.offset.toNat = mid := by
    rw [hstart, Position.offset_advance_first, Int.toNat_natCast, hf.append_eq, List.drop_left]
  have hrebase := Position.rebase_advance (Position.first.advance (Piece.textAll front))
  have hmark : (endAt (Position.first.advance (Piece.textAll front ++ Piece.textAll back))).moved
      (Position.rebase t.span.start) = endAt (Position.first.advance (Piece.textAll back)) := by
    rw [moved_endAt, hstart, Position.advance_append, hrebase]
  rw [hmid, scan_ok_iff]
  refine ⟨back, by rwa [String.toList_ofList], ?_⟩
  rw [hafter, List.map_append, List.map_singleton, hmark, hstart, map_moved_place back hrebase]

/-- The argument in the second line is read again with the line break behind it. -/
theorem scan_drop_argument : ∃ before after t,
    scan "#let x y\n  $a\n b" = .ok (before ++ t :: after) ∧ t = ⟨.argument, "a", "$a", ⟨⟨2, 3, 11⟩, ⟨2, 5, 13⟩⟩⟩ ∧
      scan "$a\n b" = .ok ((t :: after).map (Token.moved (Position.rebase t.span.start))) ∧
      (t :: after).map (Token.moved (Position.rebase t.span.start)) =
        [⟨.argument, "a", "$a", ⟨⟨1, 1, 0⟩, ⟨1, 3, 2⟩⟩⟩, ⟨.text, "b", "b", ⟨⟨2, 2, 4⟩, ⟨2, 3, 5⟩⟩⟩,
          ⟨.endOfInput, "", "", ⟨⟨2, 3, 5⟩, ⟨2, 3, 5⟩⟩⟩] := by
  have hs : scan "#let x y\n  $a\n b" = .ok
      ([⟨.keyword .letWord, "let", "#let", ⟨⟨1, 1, 0⟩, ⟨1, 5, 4⟩⟩⟩, ⟨.identifier, "x", "x", ⟨⟨1, 6, 5⟩, ⟨1, 7, 6⟩⟩⟩,
        ⟨.text, "y", "y", ⟨⟨1, 8, 7⟩, ⟨1, 9, 8⟩⟩⟩, ⟨.text, "\n  ", "\n  ", ⟨⟨1, 9, 8⟩, ⟨2, 3, 11⟩⟩⟩] ++
      ⟨.argument, "a", "$a", ⟨⟨2, 3, 11⟩, ⟨2, 5, 13⟩⟩⟩ ::
      [⟨.text, "b", "b", ⟨⟨3, 2, 15⟩, ⟨3, 3, 16⟩⟩⟩, ⟨.endOfInput, "", "", ⟨⟨3, 3, 16⟩, ⟨3, 3, 16⟩⟩⟩]) := by cbv
  exact ⟨_, _, _, hs, rfl, scan_drop hs (by decide), by decide +kernel⟩

end Markup.Token
