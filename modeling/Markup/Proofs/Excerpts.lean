/-
Parts of a text that begin and end with certain tokens have, as texts of their
own, the tokens that they have there, counted from their start.

A token that is no name begins the lexeme it belongs to, and what closes a call
or a definition is a lexeme alone, so such a part is a row of whole lexemes;
and lexemes stay what they are when the text ends behind them (`Reads.cut`).
-/
import Markup.Proofs.Lexemes
import Markup.Proofs.Moving

namespace Markup.Token

/-- The tokens of a lexeme: the first begins it, and any other is a name. -/
theorem Lexes.place_cases {cs rest : List Char} {own : List Piece} (h : Lexes cs own rest) (p : Position) :
    place p own = [] ∨ (∃ t, place p own = [t] ∧ t.span.start = p) ∨
      ∃ t name, place p own = [t, name] ∧ t.span.start = p ∧ name.kind = .identifier := by
  cases h with
  | dropped => exact .inl rfl
  | call | directive => exact .inr (.inr ⟨_, _, rfl, rfl, rfl⟩)
  | _ => exact .inr (.inl ⟨_, rfl, rfl⟩)

/-- A token that is no name stands behind the tokens of a lexeme, or is the first of them. -/
theorem Lexes.place_split {cs rest : List Char} {own : List Piece} (h : Lexes cs own rest) {p : Position}
    {more before after : List Token} {t : Token} (he : place p own ++ more = before ++ t :: after)
    (hk : t.kind ≠ .identifier) :
    (∃ between, before = place p own ++ between ∧ more = between ++ t :: after) ∨
      before = [] ∧ t.span.start = p ∧ ∃ tail, place p own = t :: tail := by
  rcases List.append_eq_append_iff.1 he with ⟨between, hb, hm⟩ | ⟨tail, ho, ht⟩
  · exact .inl ⟨between, hb, hm⟩
  · cases tail with
    | nil =>
      rw [List.append_nil] at ho
      exact .inl ⟨[], by rw [ho, List.append_nil], ht.symm⟩
    | cons u tail =>
      rw [List.cons_append, List.cons.injEq] at ht
      obtain ⟨rfl, rfl⟩ := ht
      refine .inr ?_
      rcases h.place_cases p with hn | ⟨v, hn, hs⟩ | ⟨v, name, hn, hs, hname⟩ <;> rw [hn] at ho ⊢
      · simp at ho
      · cases before with
        | nil =>
          rw [List.nil_append, List.cons.injEq] at ho
          exact ⟨rfl, by rw [← ho.1, hs], [], by rw [ho.1]⟩
        | cons w before => simp at ho
      · cases before with
        | nil =>
          rw [List.nil_append, List.cons.injEq] at ho
          exact ⟨rfl, by rw [← ho.1, hs], [name], by rw [ho.1]⟩
        | cons w before =>
          cases before with
          | nil =>
            simp only [List.cons_append, List.nil_append, List.cons.injEq] at ho
            exact absurd (ho.2.1 ▸ hname) hk
          | cons x before => simp at ho

theorem Lexes.place_closer {cs rest : List Char} {own : List Piece} (h : Lexes cs own rest) {p : Position}
    {t : Token} {tail : List Token} (he : place p own = t :: tail)
    (hk : t.kind = .closeParen ∨ t.kind = .keyword .endWord) :
    tail = [] ∧ t.span.stop = p.advance (Piece.textAll own) := by
  cases h with
  | close | endWord =>
    cases he
    exact ⟨rfl, by simp⟩
  | directive _ _ _ _ hw =>
    cases he
    simp only [reduceCtorEq, Kind.keyword.injEq, false_or] at hk
    exact absurd hk hw
  | dropped => cases he
  | _ => cases he; simp at hk

/-- The lexemes from a token on that is no name. -/
theorem Reads.exists_from {cs rest : List Char} {pieces : List Piece} (h : Reads cs pieces rest) :
    ∀ {p : Position} {before after : List Token} {t : Token}, place p pieces = before ++ t :: after →
      t.kind ≠ .identifier → ∃ front back mid, Reads cs front mid ∧ Reads mid back rest ∧
        place (p.advance (Piece.textAll front)) back = t :: after ∧
        t.span.start = p.advance (Piece.textAll front) := by
  induction h with
  | refl =>
    intro p before after t he
    simp [place] at he
  | @step cs own mid more rest hl hm ih =>
    intro p before after t he hk
    rw [place_append] at he
    rcases hl.place_split he hk with ⟨between, rfl, hmore⟩ | ⟨rfl, hs, tail, ht⟩
    · obtain ⟨front, back, behind, hf, hb, hp, hs⟩ := ih hmore hk
      refine ⟨own ++ front, back, behind, .step hl hf, hb, ?_, ?_⟩
      · rwa [Piece.textAll_append, Position.advance_append]
      · rwa [Piece.textAll_append, Position.advance_append]
    · exact ⟨[], own ++ more, cs, .refl cs, .step hl hm, by rwa [place_append], hs⟩

/-- The lexemes before a token that closes a call or a definition, and the one that is that token. -/
theorem Reads.exists_closer {cs rest : List Char} {pieces : List Piece} (h : Reads cs pieces rest) :
    ∀ {p : Position} {before after : List Token} {t : Token}, place p pieces = before ++ t :: after →
      (t.kind = .closeParen ∨ t.kind = .keyword .endWord) → ∃ front own mid behind, Reads cs front mid ∧
        Lexes mid own behind ∧ place p front = before ∧ place (p.advance (Piece.textAll front)) own = [t] ∧
        t.span.stop = p.advance (Piece.textAll (front ++ own)) := by
  induction h with
  | refl =>
    intro p before after t he
    simp [place] at he
  | @step cs own mid more rest hl hm ih =>
    intro p before after t he hk
    rw [place_append] at he
    have hn : t.kind ≠ .identifier := by
      rcases hk with hk | hk <;> simp [hk]
    rcases hl.place_split he hn with ⟨between, rfl, hmore⟩ | ⟨rfl, hs, tail, ht⟩
    · obtain ⟨front, last, place', behind, hf, hlast, hp, hplace, hs⟩ := ih hmore hk
      refine ⟨own ++ front, last, place', behind, .step hl hf, hlast, ?_, ?_, ?_⟩
      · rw [place_append, hp]
      · rwa [Piece.textAll_append, Position.advance_append]
      · rwa [List.append_assoc, Piece.textAll_append, Position.advance_append]
    · obtain ⟨rfl, hstop⟩ := hl.place_closer ht hk
      exact ⟨[], own, cs, mid, .refl cs, hl, rfl, ht, hstop⟩

theorem map_moved_place {f : Position → Position} : ∀ (pieces : List Piece) {p q : Position},
    (∀ cs, f (p.advance cs) = q.advance cs) → (place p pieces).map (Token.moved f) = place q pieces
  | [], _, _, _ => rfl
  | .gap chars :: pieces, _, _, h =>
    map_moved_place pieces fun cs => by rw [← Position.advance_append, ← Position.advance_append, h]
  | .token kind value raw :: pieces, p, q, h => by
    have hmore := map_moved_place (f := f) pieces (p := p.advance raw) (q := q.advance raw)
      fun cs => by rw [← Position.advance_append, ← Position.advance_append, h]
    have hstart : f p = q := h []
    simp only [place, List.map_cons, Token.moved, Span.moved, hstart, h, hmore]

/-- The part of a text from a token that is no name up to one that closes a call or a definition has
their tokens and those between them, counted from its start. -/
theorem scan_excerpt {text : String} {before inside after : List Token} {opener closer last : Token}
    (h : scan text = .ok (before ++ opener :: (inside ++ closer :: after) ++ [last]))
    (ho : opener.kind ≠ .identifier) (hc : closer.kind = .closeParen ∨ closer.kind = .keyword .endWord) :
    ∃ mark, mark.kind = .endOfInput ∧
      scan (.ofList ((Span.mk opener.span.start closer.span.stop).slice text.toList)) =
        .ok ((opener :: (inside ++ [closer])).map (Token.moved (Position.rebase opener.span.start)) ++ [mark]) := by
  obtain ⟨pieces, hr, he⟩ := scan_ok_iff.1 h
  have hplace := (List.append_inj' he rfl).1
  obtain ⟨front, back, mid, hf, hb, hback, hstart⟩ := hr.exists_from hplace.symm ho
  rw [← List.cons_append] at hback
  obtain ⟨part, own, _, behind, hpart, hcloser, hopen, hclose, hstop⟩ := hb.exists_closer hback hc
  have hwhole := hpart.append (.step hcloser (.refl behind))
  rw [List.append_nil] at hwhole
  have hown : place (Position.first.advance (Piece.textAll front)) (part ++ own) = opener :: inside ++ [closer] := by
    rw [place_append, hopen, hclose]
  have htext : text.toList = Piece.textAll front ++ (Piece.textAll (part ++ own) ++ behind) := by
    rw [hf.append_eq, hwhole.append_eq]
  have hslice : (Span.mk opener.span.start closer.span.stop).slice text.toList = Piece.textAll (part ++ own) := by
    rw [hstart, hstop, ← Position.advance_append, htext]
    exact Span.slice_advance _ _ _
  have hcut := hwhole.cut (List.nil_append behind).symm
  rw [List.append_nil] at hcut
  refine ⟨endAt (Position.first.advance (Piece.textAll (part ++ own))), rfl, ?_⟩
  rw [hslice, scan_ok_iff]
  refine ⟨part ++ own, by rwa [String.toList_ofList], ?_⟩
  have hmoved := map_moved_place (part ++ own) (Position.rebase_advance opener.span.start)
  rw [hstart, hown, ← hstart] at hmoved
  rw [← hmoved, List.cons_append]

end Markup.Token
