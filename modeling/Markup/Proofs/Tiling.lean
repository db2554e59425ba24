/-
The tokens of a text tile it: they stand in the text in order, hold the
characters of their spans, and only blanks stand between them.

Which blanks, depends on the token before: an argument or a comment swallows
line breaks, a directive and its name swallow spaces and tabs, and elsewhere
only spaces are lost (`mayStandBehind`). The last token marks the end.
-/
import Markup.Proofs.Lexemes

namespace Markup.Token

open Text

/-- Whether a character may stand outside all tokens behind tokens of the given kinds, the last
one first. -/
def mayStandBehind (before : List Kind) (c : Char) : Bool :=
  match before with
  | .argument :: _ | .comment :: _ => isBlank c
  | .keyword .letWord :: _ | .keyword .setWord :: _ | .keyword .useWord :: _ | .keyword .defWord :: _ =>
    isHorizontal c
  | .identifier :: .keyword .letWord :: _ | .identifier :: .keyword .setWord :: _
  | .identifier :: .keyword .useWord :: _ | .identifier :: .keyword .defWord :: _ => isHorizontal c
  | _ => c == ' '

/-- How the tokens of a text stand in it. -/
structure Tiles (text : List Char) (tokens : List Token) : Prop where
  /-- One token marks the end of the text, and it is the last. -/
  last : ∃ (others : List Token) (mark : Token), tokens = others ++ [mark] ∧ mark.kind = .endOfInput ∧
    mark.span.start.offset = text.length ∧ mark.span.stop.offset = text.length ∧
    ∀ t ∈ others, t.kind ≠ .endOfInput
  ordered : tokens.Pairwise fun t u => t.span.stop.offset ≤ u.span.start.offset
  raw : ∀ t ∈ tokens, t.span.start.offset ≤ t.span.stop.offset ∧ t.raw.toList = t.span.slice text
  places : ∀ t ∈ tokens, t.span.start.IsIn text ∧ t.span.stop.IsIn text
  /-- Every character stands in a token, or between two neighbours where it may. -/
  gaps : ∀ (i : Nat) c, text[i]? = some c →
    (∃ t ∈ tokens, t.span.start.offset ≤ i ∧ i < t.span.stop.offset) ∨
      ∃ before after, tokens = before ++ after ∧ (∀ t ∈ before, t.span.stop.offset ≤ i) ∧
        (∀ t ∈ after, i < t.span.start.offset) ∧ mayStandBehind (before.map (·.kind)).reverse c = true

/-! ## Tokens in place -/

theorem mem_place {p : Position} {t : Token} : ∀ {pieces : List Piece}, t ∈ place p pieces →
    ∃ before kind value raw after, pieces = before ++ .token kind value raw :: after ∧
      t = ⟨kind, .ofList value, .ofList raw,
        ⟨p.advance (Piece.textAll before), p.advance (Piece.textAll before ++ raw)⟩⟩
  | .token kind value raw :: rest, h => by
    simp only [place, List.mem_cons] at h
    rcases h with rfl | h
    · exact ⟨[], kind, value, raw, rest, rfl, rfl⟩
    · obtain ⟨before, k, v, r, after, rfl, rfl⟩ := mem_place h
      exact ⟨.token kind value raw :: before, k, v, r, after, rfl, by
        simp [Position.advance_append]⟩
  | .gap chars :: rest, h => by
    obtain ⟨before, k, v, r, after, rfl, rfl⟩ := mem_place (p := p.advance chars) h
    exact ⟨.gap chars :: before, k, v, r, after, rfl, by simp [Position.advance_append]⟩

theorem offset_le_of_mem_place {p : Position} {t : Token} {pieces : List Piece} (h : t ∈ place p pieces) :
    p.offset ≤ t.span.start.offset ∧ t.span.start.offset ≤ t.span.stop.offset ∧
      t.span.stop.offset ≤ p.offset + (Piece.textAll pieces).length := by
  obtain ⟨before, k, v, r, after, rfl, rfl⟩ := mem_place h
  simp only [Position.offset_advance, Piece.textAll_append, Piece.textAll_token, List.length_append]
  omega

theorem pairwise_place (p : Position) (pieces : List Piece) :
    (place p pieces).Pairwise fun t u => t.span.stop.offset ≤ u.span.start.offset := by
  induction pieces generalizing p with
  | nil => exact .nil
  | cons piece pieces ih =>
    cases piece with
    | gap chars => exact ih _
    | token kind value raw =>
      refine List.pairwise_cons.2 ⟨?_, ih _⟩
      intro u hu
      exact (offset_le_of_mem_place hu).1

/-! ## What is passed over -/

/-- Whether all gaps among pieces hold only characters that may stand there. -/
def GapsFit : List Kind → List Piece → Prop
  | _, [] => True
  | before, .token kind _ _ :: rest => GapsFit (kind :: before) rest
  | before, .gap chars :: rest => (∀ c ∈ chars, mayStandBehind before c = true) ∧ GapsFit before rest

theorem GapsFit.append {before : List Kind} {pieces more : List Piece} (h : GapsFit before pieces)
    (hm : ∀ kinds, GapsFit kinds more) : GapsFit before (pieces ++ more) := by
  induction pieces generalizing before with
  | nil => exact hm before
  | cons piece pieces ih =>
    cases piece with
    | token => exact ih h
    | gap => exact ⟨h.1, ih h.2⟩

theorem mayStandBehind_space (before : List Kind) : mayStandBehind before ' ' = true := by
  unfold mayStandBehind
  split <;> rfl

theorem eq_space_of_isTextChar {c : Char} (ht : isTextChar c = true) (hb : isAsciiBlank c = true) : c = ' ' := by
  simp only [isAsciiBlank, Bool.or_eq_true, beq_iff_eq] at hb
  rcases hb with ((rfl | rfl) | rfl) | rfl
  · rfl
  all_goals cases ht

theorem Lexes.gapsFit {cs rest : List Char} {pieces : List Piece} (h : Lexes cs pieces rest)
    (before : List Kind) : GapsFit before pieces := by
  cases h with
  | argument _ hb | comment _ hb => exact ⟨hb.all, trivial⟩
  | @directive _ _ word _ _ _ _ _ _ _ _ _ _ _ hw hb _ ha =>
    cases word with
    | endWord => exact absurd rfl hw
    | letWord | setWord | useWord | defWord => exact ⟨hb.all, ha.all, trivial⟩
  | dropped hc _ _ _ hn hb =>
    refine ⟨?_, trivial⟩
    intro d hd
    have hb := List.all_eq_true.1 hb d hd
    have ht : isTextChar d = true := by
      rcases List.mem_cons.1 hd with rfl | hd
      · exact hc
      · exact hn.all d hd
    rw [eq_space_of_isTextChar ht hb]
    exact mayStandBehind_space before
  | escape | call | close | hash | reference | endWord | pipe | slash | number | text | blank => trivial

theorem Reads.gapsFit {cs rest : List Char} {pieces : List Piece} (h : Reads cs pieces rest) :
    ∀ before, GapsFit before pieces := by
  induction h with
  | refl => exact fun _ => trivial
  | step hl _ ih => exact fun before => (hl.gapsFit before).append ih

/-- Every character of pieces stands in one of their tokens, or where it may. -/
theorem GapsFit.cover {pieces : List Piece} : ∀ {kinds : List Kind} {p : Position} {i : Nat} {c : Char},
    GapsFit kinds pieces → (Piece.textAll pieces)[i]? = some c →
    (∃ t ∈ place p pieces, t.span.start.offset ≤ p.offset + i ∧ p.offset + i < t.span.stop.offset) ∨
      ∃ before after, place p pieces = before ++ after ∧ (∀ t ∈ before, t.span.stop.offset ≤ p.offset + i) ∧
        (∀ t ∈ after, p.offset + i < t.span.start.offset) ∧
        mayStandBehind ((before.map (·.kind)).reverse ++ kinds) c = true := by
  induction pieces with
  | nil =>
    intro kinds p i c _ hc
    cases hc
  | cons piece pieces ih =>
    intro kinds p i c h hc
    cases piece with
    | token kind value raw =>
      have hp := Position.offset_advance p raw
      by_cases hi : i < raw.length
      · exact .inl ⟨_, List.mem_cons_self, by simp only; omega, by simp only; omega⟩
      · have hc' : (Piece.textAll pieces)[i - raw.length]? = some c := by
          rwa [Piece.textAll_token, List.getElem?_append_right (by omega)] at hc
        have hadd : (p.advance raw).offset + (i - raw.length : Nat) = p.offset + i := by omega
        rcases ih (p := p.advance raw) h hc' with ⟨t, ht, h1, h2⟩ | ⟨before, after, he, hb, ha, hm⟩
        · rw [hadd] at h1 h2
          exact .inl ⟨t, List.mem_cons_of_mem _ ht, h1, h2⟩
        · rw [hadd] at hb ha
          refine .inr ⟨⟨kind, .ofList value, .ofList raw, ⟨p, p.advance raw⟩⟩ :: before, after, ?_, ?_, ha, ?_⟩
          · simp only [place, he, List.cons_append]
          · intro t ht
            rcases List.mem_cons.1 ht with rfl | ht
            · simp only; omega
            · exact hb t ht
          · simpa using hm
    | gap chars =>
      have hp := Position.offset_advance p chars
      by_cases hi : i < chars.length
      · refine .inr ⟨[], place p (.gap chars :: pieces), rfl, by simp, ?_, ?_⟩
        · intro t ht
          have hle := (offset_le_of_mem_place (p := p.advance chars) ht).1
          omega
        · rw [Piece.textAll_gap, List.getElem?_append_left hi] at hc
          exact h.1 c (List.mem_of_getElem? hc)
      · have hc' : (Piece.textAll pieces)[i - chars.length]? = some c := by
          rwa [Piece.textAll_gap, List.getElem?_append_right (by omega)] at hc
        have hadd : (p.advance chars).offset + (i - chars.length : Nat) = p.offset + i := by omega
        have hr := ih (p := p.advance chars) h.2 hc'
        rwa [hadd] at hr

/-! ## The whole text -/

theorem exists_last_of_scan {text : String} {tokens : List Token} (h : scan text = .ok tokens) :
    ∃ (others : List Token) (mark : Token), tokens = others ++ [mark] ∧ mark.kind = .endOfInput ∧
      mark.span.start.offset = text.toList.length ∧ mark.span.stop.offset = text.toList.length ∧
      ∀ t ∈ others, t.kind ≠ .endOfInput := by
  obtain ⟨pieces, hr, rfl⟩ := scan_ok_iff.1 h
  have htext : text.toList = Piece.textAll pieces := by simpa using hr.append_eq
  rw [htext]
  refine ⟨_, _, rfl, rfl, ?_, ?_, ?_⟩
  · exact Position.offset_advance_first _
  · exact Position.offset_advance_first _
  · intro t ht hk
    have hm := List.mem_map_of_mem (f := fun t : Token => t.kind) ht
    rw [map_kind_place, hk] at hm
    exact hr.end_notMem_kinds hm

theorem exists_cons_of_scan {text : String} {tokens : List Token} (h : scan text = .ok tokens) :
    ∃ t rest, tokens = t :: rest ∧ ∀ last ∈ (t :: rest).getLast?, last.kind = .endOfInput := by
  obtain ⟨others, mark, he, hmark, -⟩ := exists_last_of_scan h
  obtain ⟨t, rest, rfl⟩ := List.exists_cons_of_ne_nil (show tokens ≠ [] by simp [he])
  refine ⟨t, rest, rfl, ?_⟩
  rw [he, List.getLast?_concat]
  rintro _ ⟨⟩
  exact hmark

theorem pairwise_of_scan {text : String} {tokens : List Token} (h : scan text = .ok tokens) :
    tokens.Pairwise fun t u => t.span.stop.offset ≤ u.span.start.offset := by
  obtain ⟨pieces, hr, rfl⟩ := scan_ok_iff.1 h
  rw [List.pairwise_append]
  refine ⟨pairwise_place _ _, List.pairwise_singleton _ _, ?_⟩
  intro t ht u hu
  have hle := (offset_le_of_mem_place ht).2.2
  rw [List.mem_singleton.1 hu]
  rwa [← Position.offset_advance] at hle

/-- Every token, the mark of the end as well, holds the part of the text that its span says. -/
theorem exists_parts_of_mem {pieces : List Piece} {t : Token}
    (h : t ∈ place .first pieces ++ [endAt (Position.first.advance (Piece.textAll pieces))]) :
    ∃ before part after, Piece.textAll pieces = before ++ (part ++ after) ∧ t.raw.toList = part ∧
      t.span = ⟨Position.first.advance before, Position.first.advance (before ++ part)⟩ := by
  rcases List.mem_append.1 h with h | h
  · obtain ⟨before, kind, value, raw, after, rfl, rfl⟩ := mem_place h
    exact ⟨Piece.textAll before, raw, Piece.textAll after, by simp, by simp, rfl⟩
  · rw [List.mem_singleton.1 h]
    refine ⟨Piece.textAll pieces, [], [], by simp, rfl, ?_⟩
    rw [List.append_nil]
    rfl

theorem tiles_of_scan {text : String} {tokens : List Token} (h : scan text = .ok tokens) :
    Tiles text.toList tokens := by
  have hlast := exists_last_of_scan h
  have hordered := pairwise_of_scan h
  obtain ⟨pieces, hr, rfl⟩ := scan_ok_iff.1 h
  have htext : text.toList = Piece.textAll pieces := by simpa using hr.append_eq
  rw [htext] at hlast ⊢
  refine ⟨hlast, hordered, ?_, ?_, ?_⟩
  · intro t ht
    obtain ⟨before, part, after, hparts, hraw, hspan⟩ := exists_parts_of_mem ht
    rw [hparts, hraw, hspan, Span.slice_advance]
    refine ⟨?_, rfl⟩
    simp only [Position.offset_advance_first, List.length_append]
    omega
  · intro t ht
    obtain ⟨before, part, after, hparts, -, hspan⟩ := exists_parts_of_mem ht
    rw [hparts, hspan]
    refine ⟨Position.isIn_advance _ _, ?_⟩
    rw [← List.append_assoc]
    exact Position.isIn_advance _ _
  · intro i c hc
    have hlt := (List.getElem?_eq_some_iff.1 hc).1
    have hcover := (hr.gapsFit []).cover (p := .first) hc
    rw [show Position.first.offset + (i : Int) = i by simp [Position.first]] at hcover
    rcases hcover with ⟨t, ht, hi⟩ | ⟨before, after, he, hb, ha, hm⟩
    · exact .inl ⟨t, List.mem_append_left _ ht, hi⟩
    · refine .inr ⟨before, after ++ [endAt (Position.first.advance (Piece.textAll pieces))], ?_, hb, ?_, ?_⟩
      · rw [he, List.append_assoc]
      · intro t ht
        rcases List.mem_append.1 ht with ht | ht
        · exact ha t ht
        · rw [List.mem_singleton.1 ht]
          have hs : (endAt (Position.first.advance (Piece.textAll pieces))).span.start.offset =
              (Piece.textAll pieces).length := Position.offset_advance_first _
          omega
      · simpa using hm

/-- The tokens of a text tile it. -/
theorem scan_tiles {text : String} {tokens : List Token} (h : scan text = .ok tokens) :
    Tiles text.toList tokens :=
  tiles_of_scan h

/-- Two spaces are lost behind `#let`, one behind its name, and a line break behind the argument. -/
theorem tiles_line_break_lost : Tiles "#let  a $x \n z".toList
    [⟨.keyword .letWord, "let", "#let", ⟨⟨1, 1, 0⟩, ⟨1, 5, 4⟩⟩⟩,
      ⟨.identifier, "a", "a", ⟨⟨1, 7, 6⟩, ⟨1, 8, 7⟩⟩⟩, ⟨.argument, "x", "$x", ⟨⟨1, 9, 8⟩, ⟨1, 11, 10⟩⟩⟩,
      ⟨.text, "z", "z", ⟨⟨2, 2, 13⟩, ⟨2, 3, 14⟩⟩⟩, ⟨.endOfInput, "", "", ⟨⟨2, 3, 14⟩, ⟨2, 3, 14⟩⟩⟩] :=
  scan_tiles (by cbv)

/-! ## Single tokens -/

theorem mem_scan {text : String} {tokens : List Token} (h : scan text = .ok tokens) {t : Token}
    (ht : t ∈ tokens) (hi : t.kind ≠ .endOfInput) :
    ∃ cs pieces rest value raw start, Lexes cs pieces rest ∧ .token t.kind value raw ∈ pieces ∧
      t = ⟨t.kind, .ofList value, .ofList raw, ⟨start, start.advance raw⟩⟩ := by
  obtain ⟨pieces, hr, rfl⟩ := scan_ok_iff.1 h
  rcases List.mem_append.1 ht with ht | ht
  · obtain ⟨before, kind, value, raw, after, rfl, rfl⟩ := mem_place ht
    have hpiece : Piece.token kind value raw ∈ before ++ .token kind value raw :: after := by simp
    obtain ⟨cs, own, rest, hl, hm⟩ := hr.exists_lexes hpiece
    exact ⟨cs, own, rest, value, raw, Position.first.advance (Piece.textAll before), hl, hm, by
      rw [← Position.advance_append]⟩
  · rw [List.mem_singleton.1 ht] at hi
    exact absurd rfl hi

/-- Every token holds something, names and the mark of the end apart. -/
theorem start_lt_stop_of_scan {text : String} {tokens : List Token} (h : scan text = .ok tokens) {t : Token}
    (ht : t ∈ tokens) (hi : t.kind ≠ .endOfInput) (hn : t.kind ≠ .identifier) :
    t.span.start.offset < t.span.stop.offset := by
  obtain ⟨cs, pieces, rest, value, raw, start, hl, hm, he⟩ := mem_scan h ht hi
  have hraw := List.length_pos_iff.2 (hl.raw_ne_nil hm hn)
  rw [he]
  simp only [Position.offset_advance]
  omega

theorem pipe_value_of_scan {text : String} {tokens : List Token} (h : scan text = .ok tokens) {t : Token}
    (ht : t ∈ tokens) (hk : t.kind = .pipe) : t.value = "|" := by
  obtain ⟨cs, pieces, rest, value, raw, start, hl, hm, he⟩ := mem_scan h ht (by simp [hk])
  rw [hk] at hm
  rw [he, hl.pipe_value hm]

end Markup.Token
