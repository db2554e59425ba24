/-
What reading takes off a text, apart from places.

`Lexes cs pieces rest` says that a lexeme stands at the front of `cs`: its
tokens with what is passed over between and behind them (`Piece`), and the
text behind it. The text behind stays in sight, since every run in a lexeme
goes on as far as it can (`Run`). A step of the scanner finds exactly these
lexemes and counts the places along them (`scanStep_ok_iff`); a whole scan
finds lexemes up to the end of the text (`scan_ok_iff`). So what the tokens
of a text are is a matter of lexemes, and where they stand is one of `place`.
-/
import Markup.Token.Scan
import Markup.Proofs.PositionFacts
import Mathlib.Data.List.Basic

namespace Markup.Token

open Text

/-! ## Runs -/

/-- `run` is the longest run of characters of a class at the front of `cs`, and `rest` what
stands behind it. -/
structure Run (p : Char → Bool) (cs run rest : List Char) : Prop where
  append : cs = run ++ rest
  all : ∀ c ∈ run, p c = true
  stops : ∀ c, rest.head? = some c → p c = false

theorem Run.takeWhile {p : Char → Bool} {cs run rest : List Char} (h : Run p cs run rest) :
    cs.takeWhile p = run := by
  have hr : rest.takeWhile p = [] := by
    cases rest with
    | nil => rfl
    | cons c rest => rw [List.takeWhile_cons, h.stops c rfl]; rfl
  rw [h.append, List.takeWhile_append_of_pos h.all, hr, List.append_nil]

theorem Run.dropWhile {p : Char → Bool} {cs run rest : List Char} (h : Run p cs run rest) :
    cs.dropWhile p = rest := by
  have hr : rest.dropWhile p = rest := by
    cases rest with
    | nil => rfl
    | cons c rest => rw [List.dropWhile_cons, h.stops c rfl]; rfl
  rw [h.append, List.dropWhile_append_of_pos h.all, hr]

theorem run_takeWhile (p : Char → Bool) (cs : List Char) : Run p cs (cs.takeWhile p) (cs.dropWhile p) where
  append := List.takeWhile_append_dropWhile.symm
  all := by simpa only [List.all_eq_true] using List.all_takeWhile (p := p) (l := cs)
  stops c h := by
    have hd := List.head?_dropWhile_not p cs
    rw [h] at hd
    simpa using hd

/-- A run stays the longest one when the text ends anywhere behind it. -/
theorem Run.cut {p : Char → Bool} {cs run w v : List Char} (h : Run p cs run (w ++ v)) :
    Run p (run ++ w) run w := by
  refine ⟨rfl, h.all, ?_⟩
  intro c hc
  obtain ⟨w', rfl⟩ := List.head?_eq_some_iff.1 hc
  exact h.stops c rfl

theorem Run.cut_of_eq {p : Char → Bool} {cs run rest w v : List Char} (h : Run p cs run rest)
    (hr : rest = w ++ v) : Run p (run ++ w) run w := (hr ▸ h).cut

/-- A run that stops before the end of the text is the longest one with any text behind. -/
theorem Run.extend {p : Char → Bool} {cs run rest : List Char} (h : Run p cs run rest) (hne : rest ≠ [])
    (more : List Char) : Run p (cs ++ more) run (rest ++ more) := by
  refine ⟨by rw [h.append, List.append_assoc], h.all, ?_⟩
  rw [List.head?_append_of_ne_nil _ hne]
  exact h.stops

/-! ## Pieces -/

/-- A token without its place, or characters that no token holds. -/
inductive Piece where
  | token (kind : Kind) (value raw : List Char)
  | gap (chars : List Char)

/-- The characters of a piece. -/
def Piece.text : Piece → List Char
  | .token _ _ raw => raw
  | .gap chars => chars

/-- The characters of pieces. -/
def Piece.textAll (pieces : List Piece) : List Char := pieces.flatMap Piece.text

@[simp] theorem Piece.textAll_nil : Piece.textAll [] = [] := rfl

@[simp] theorem Piece.textAll_token (kind : Kind) (value raw : List Char) (pieces : List Piece) :
    Piece.textAll (.token kind value raw :: pieces) = raw ++ Piece.textAll pieces := rfl

@[simp] theorem Piece.textAll_gap (chars : List Char) (pieces : List Piece) :
    Piece.textAll (.gap chars :: pieces) = chars ++ Piece.textAll pieces := rfl

@[simp] theorem Piece.textAll_append (pieces more : List Piece) :
    Piece.textAll (pieces ++ more) = Piece.textAll pieces ++ Piece.textAll more :=
  List.flatMap_append

/-- The tokens among pieces, the first of which begins at a place. -/
def place (p : Position) : List Piece → List Token
  | [] => []
  | .token kind value raw :: rest =>
    ⟨kind, .ofList value, .ofList raw, ⟨p, p.advance raw⟩⟩ :: place (p.advance raw) rest
  | .gap chars :: rest => place (p.advance chars) rest

/-- The kinds of the tokens among pieces. -/
def Piece.kinds : List Piece → List Kind
  | [] => []
  | .token kind _ _ :: rest => kind :: kinds rest
  | .gap _ :: rest => kinds rest

theorem Piece.kinds_append (pieces more : List Piece) :
    Piece.kinds (pieces ++ more) = Piece.kinds pieces ++ Piece.kinds more := by
  induction pieces with
  | nil => rfl
  | cons piece pieces ih => cases piece <;> simp [kinds, ih]

theorem map_kind_place (p : Position) (pieces : List Piece) :
    (place p pieces).map (·.kind) = Piece.kinds pieces := by
  induction pieces generalizing p with
  | nil => rfl
  | cons piece pieces ih => cases piece <;> simp [place, Piece.kinds, ih]

theorem place_append (p : Position) (pieces more : List Piece) :
    place p (pieces ++ more) = place p pieces ++ place (p.advance (Piece.textAll pieces)) more := by
  induction pieces generalizing p with
  | nil => rfl
  | cons piece pieces ih =>
    cases piece <;> simp [place, ih, Position.advance_append]

/-! ## Lexemes -/

/-- A lexeme at the front of a text, and the text behind it. -/
inductive Lexes : List Char → List Piece → List Char → Prop where
  | escape {c value rest} : unescape? c = some value →
      Lexes ('\\' :: c :: rest) [.token .escape [value] ['\\', c]] rest
  | argument {cs name more blanks rest} : Run isNameChar cs name more → Run isBlank more blanks rest →
      Lexes ('$' :: cs) [.token .argument name ('$' :: name), .gap blanks] rest
  | call {cs name rest} : Run isNameChar cs name rest → name ≠ [] →
      Lexes ('(' :: cs) [.token .openParen ['('] ['('], .token .identifier name name] rest
  | close {rest} : Lexes (')' :: rest) [.token .closeParen [')'] [')']] rest
  | comment {cs text more blanks rest} : Run (· != '\n') cs text more → Run isBlank more blanks rest →
      Lexes ('#' :: '!' :: cs)
        [.token .comment (trimWhile isAsciiBlank text) ('#' :: '!' :: text), .gap blanks] rest
  | hash {rest} : Run isNameChar rest [] rest → Lexes ('#' :: rest) [.token .hash ['#'] ['#']] rest
  | reference {cs name rest} : cs.head? ≠ some '!' → Run isNameChar cs name rest → name ≠ [] →
      Keyword.ofName? (.ofList name) = none →
      Lexes ('#' :: cs) [.token .reference name ('#' :: name)] rest
  | endWord {cs name rest} : cs.head? ≠ some '!' → Run isNameChar cs name rest → name ≠ [] →
      Keyword.ofName? (.ofList name) = some .endWord →
      Lexes ('#' :: cs) [.token (.keyword .endWord) name ('#' :: name)] rest
  | directive {cs name word more before cs' ident more' after rest} : cs.head? ≠ some '!' →
      Run isNameChar cs name more → name ≠ [] → Keyword.ofName? (.ofList name) = some word →
      word ≠ .endWord → Run isHorizontal more before cs' → Run isNameChar cs' ident more' →
      Run isHorizontal more' after rest →
      Lexes ('#' :: cs) [.token (.keyword word) name ('#' :: name), .gap before,
        .token .identifier ident ident, .gap after] rest
  | pipe {rest} : Lexes ('|' :: rest) [.token .pipe ['|'] ['|']] rest
  | slash {rest} : Lexes ('/' :: rest) [.token .slash ['/'] ['/']] rest
  | number {c cs more value rest} : c.isDigit = true → Run isNumberChar cs more rest →
      Binary64.ofText? (.ofList (c :: more)) = some value →
      Lexes (c :: cs) [.token (.number value) (c :: more) (c :: more)] rest
  | text {c cs more rest} : isTextChar c = true → c ≠ '$' → c ≠ '/' → c.isDigit = false →
      Run isTextChar cs more rest → (c :: more).all isAsciiBlank = false →
      Lexes (c :: cs) [.token .text (c :: more) (c :: more)] rest
  | dropped {c cs more rest} : isTextChar c = true → c ≠ '$' → c ≠ '/' → c.isDigit = false →
      Run isTextChar cs more rest → (c :: more).all isAsciiBlank = true →
      Lexes (c :: cs) [.gap (c :: more)] rest
  | blank {c cs more rest} : c = '\n' ∨ c = '\r' ∨ c = '\t' → Run isBlank cs more rest →
      Lexes (c :: cs) [.token .text (c :: more) (c :: more)] rest

/-- A lexeme has no token, one that takes no name behind it, or one with its name. -/
theorem Lexes.kinds_cases {cs rest : List Char} {pieces : List Piece} (h : Lexes cs pieces rest) :
    Piece.kinds pieces = [] ∨
      (∃ kind, Piece.kinds pieces = [kind] ∧ kind ≠ .identifier ∧ kind ≠ .openParen ∧ kind ≠ .endOfInput ∧
        ∀ word, kind = .keyword word → word = .endWord) ∨
      Piece.kinds pieces = [.openParen, .identifier] ∨
      ∃ word, word ≠ .endWord ∧ Piece.kinds pieces = [.keyword word, .identifier] := by
  cases h with
  | dropped => exact .inl rfl
  | call => exact .inr (.inr (.inl rfl))
  | directive _ _ _ _ hw => exact .inr (.inr (.inr ⟨_, hw, rfl⟩))
  | endWord => exact .inr (.inl ⟨_, rfl, by simp, by simp, by simp, by simp⟩)
  | _ => exact .inr (.inl ⟨_, rfl, by simp, by simp, by simp, by simp⟩)

theorem Lexes.raw_ne_nil {cs rest : List Char} {pieces : List Piece} (h : Lexes cs pieces rest) {kind : Kind}
    {value raw : List Char} (ht : .token kind value raw ∈ pieces) (hk : kind ≠ .identifier) : raw ≠ [] := by
  rintro rfl
  cases h with
  | call | directive => simp at ht; exact hk ht.1
  | _ => simp at ht

theorem Lexes.pipe_value {cs rest : List Char} {pieces : List Piece} (h : Lexes cs pieces rest)
    {value raw : List Char} (ht : .token .pipe value raw ∈ pieces) : value = ['|'] := by
  cases h with
  | pipe => simp at ht; exact ht.1
  | _ => simp at ht

theorem Lexes.append_eq {cs rest : List Char} {pieces : List Piece} (h : Lexes cs pieces rest) :
    cs = Piece.textAll pieces ++ rest := by
  cases h with
  | argument hn hb => simp [hn.append, hb.append]
  | call hn => simp [hn.append]
  | comment ht hb => simp [ht.append, hb.append]
  | reference _ hn => simp [hn.append]
  | endWord _ hn => simp [hn.append]
  | directive _ hn _ _ _ hb hi ha => simp [hn.append, hb.append, hi.append, ha.append]
  | number _ hn | text _ _ _ _ hn | dropped _ _ _ _ hn | blank _ hn => simp [hn.append]
  | escape | close | hash | pipe | slash => simp

theorem Run.head_cut {p : Char → Bool} {cs run rest : List Char} {c : Char} (h : Run p cs run rest)
    (hne : run ≠ []) (hx : cs.head? ≠ some c) (w : List Char) : (run ++ w).head? ≠ some c := by
  rw [h.append] at hx
  cases run with
  | nil => exact absurd rfl hne
  | cons d run => exact hx

/-- A lexeme stays one when the text ends anywhere behind it. -/
theorem Lexes.cut {cs w v : List Char} {pieces : List Piece} (h : Lexes cs pieces (w ++ v)) :
    Lexes (Piece.textAll pieces ++ w) pieces w := by
  generalize hr : w ++ v = rest at h
  cases h with
  | escape hv => exact .escape hv
  | argument hn hb =>
    subst hr
    have hm := hb.append
    rw [← List.append_assoc] at hm
    simpa using Lexes.argument (hn.cut_of_eq hm) hb.cut
  | call hn hne =>
    subst hr
    simpa using Lexes.call hn.cut hne
  | close => exact .close
  | comment ht hb =>
    subst hr
    have hm := hb.append
    rw [← List.append_assoc] at hm
    simpa using Lexes.comment (ht.cut_of_eq hm) hb.cut
  | hash hn =>
    subst hr
    exact .hash hn.cut
  | reference hx hn hne hk =>
    subst hr
    simpa using Lexes.reference (hn.head_cut hne hx w) hn.cut hne hk
  | endWord hx hn hne hk =>
    subst hr
    simpa using Lexes.endWord (hn.head_cut hne hx w) hn.cut hne hk
  | @directive _ name word more before cs' ident more' after _ hx hn hne hk hw hb hi ha =>
    subst hr
    have h3 : more' = (after ++ w) ++ v := by simp [ha.append]
    have h2 : cs' = (ident ++ (after ++ w)) ++ v := by simp [hi.append, h3]
    have h1 : more = (before ++ (ident ++ (after ++ w))) ++ v := by simp [hb.append, h2]
    simpa using Lexes.directive (hn.head_cut hne hx _) (hn.cut_of_eq h1) hne hk hw (hb.cut_of_eq h2)
      (hi.cut_of_eq h3) ha.cut
  | pipe => exact .pipe
  | slash => exact .slash
  | number hd hn hv =>
    subst hr
    simpa using Lexes.number hd hn.cut hv
  | text hc h1 h2 hd hn hb =>
    subst hr
    simpa using Lexes.text hc h1 h2 hd hn.cut hb
  | dropped hc h1 h2 hd hn hb =>
    subst hr
    simpa using Lexes.dropped hc h1 h2 hd hn.cut hb
  | blank hc hn =>
    subst hr
    simpa using Lexes.blank hc hn.cut

theorem Run.ne_nil {p : Char → Bool} {cs run rest : List Char} (h : Run p cs run rest) (hne : rest ≠ []) :
    cs ≠ [] := by
  rw [h.append]
  exact List.append_ne_nil_of_right_ne_nil _ hne

/-- A lexeme before the end of the text stays one with any text behind. -/
theorem Lexes.extend {cs rest : List Char} {pieces : List Piece} (h : Lexes cs pieces rest) (hne : rest ≠ [])
    (more : List Char) : Lexes (cs ++ more) pieces (rest ++ more) := by
  have hhead : ∀ {cs mid name : List Char}, cs.head? ≠ some '!' → Run isNameChar cs name mid → mid ≠ [] →
      (cs ++ more).head? ≠ some '!' := by
    intro cs mid name hx hn hm
    rwa [List.head?_append_of_ne_nil _ (hn.ne_nil hm)]
  cases h with
  | escape hv => exact .escape hv
  | argument hn hb => exact .argument (hn.extend (hb.ne_nil hne) more) (hb.extend hne more)
  | call hn hname => exact .call (hn.extend hne more) hname
  | close => exact .close
  | comment ht hb => exact .comment (ht.extend (hb.ne_nil hne) more) (hb.extend hne more)
  | hash hn => exact .hash (hn.extend hne more)
  | reference hx hn hname hk => exact .reference (hhead hx hn hne) (hn.extend hne more) hname hk
  | endWord hx hn hname hk => exact .endWord (hhead hx hn hne) (hn.extend hne more) hname hk
  | directive hx hn hname hk hw hb hi ha =>
    have hbehind := hi.ne_nil (ha.ne_nil hne)
    exact .directive (hhead hx hn (hb.ne_nil hbehind)) (hn.extend (hb.ne_nil hbehind) more) hname hk hw
      (hb.extend hbehind more) (hi.extend (ha.ne_nil hne) more) (ha.extend hne more)
  | pipe => exact .pipe
  | slash => exact .slash
  | number hd hn hv => exact .number hd (hn.extend hne more) hv
  | text hc h1 h2 hd hn hb => exact .text hc h1 h2 hd (hn.extend hne more) hb
  | dropped hc h1 h2 hd hn hb => exact .dropped hc h1 h2 hd (hn.extend hne more) hb
  | blank hc hn => exact .blank hc (hn.extend hne more)

/-! ## A step takes a lexeme -/

theorem Run.past_eq {p : Char → Bool} {cs run rest : List Char} (h : Run p cs run rest) (q : Position) :
    (Cursor.mk cs q).past p = ⟨rest, q.advance run⟩ := by
  simp only [Cursor.past, Cursor.run, h.takeWhile, h.dropWhile]

theorem Run.run_eq {p : Char → Bool} {cs run rest : List Char} (h : Run p cs run rest) (q : Position) :
    (Cursor.mk cs q).run p = run := h.takeWhile

theorem scanStep_number {c : Char} (hd : c.isDigit = true) (p : Position) (cur : Cursor) :
    scanStep c p cur = scanNumber c p cur := by
  have hne : ∀ d : Char, d.isDigit = false → c ≠ d := by
    rintro d h rfl
    rw [hd] at h
    cases h
  simp [scanStep, hne '\\' rfl, hne '$' rfl, hne '(' rfl, hne ')' rfl, hne '#' rfl, hne '|' rfl,
    hne '/' rfl, hd]

theorem scanStep_text {c : Char} (hc : isTextChar c = true) (h1 : c ≠ '$') (h2 : c ≠ '/')
    (hd : c.isDigit = false) (p : Position) (cur : Cursor) : scanStep c p cur = scanText c p cur := by
  have hne : ∀ d : Char, isTextChar d = false → c ≠ d := by
    rintro d h rfl
    rw [hc] at h
    cases h
  simp [scanStep, hne '\\' rfl, hne '(' rfl, hne ')' rfl, hne '#' rfl, hne '|' rfl, h1, h2, hd, hc]

theorem scanStep_blank {c : Char} (hc : c = '\n' ∨ c = '\r' ∨ c = '\t') (p : Position) (cur : Cursor) :
    scanStep c p cur = scanBlank c p cur := by
  rcases hc with rfl | rfl | rfl <;> rfl

theorem scanHash_directive {cs : List Char} (h : cs.head? ≠ some '!') (start p : Position) :
    scanHash start ⟨cs, p⟩ = scanDirective start ⟨cs, p⟩ := by
  unfold scanHash
  split
  next rest hr =>
    simp only at hr
    simp [hr] at h
  next => rfl

theorem Run.head_ne {p : Char → Bool} {cs rest : List Char} {c : Char} (h : Run p cs [] rest)
    (hc : p c = true) : cs.head? ≠ some c := by
  intro hh
  rw [h.append, List.nil_append] at hh
  rw [h.stops c hh] at hc
  cases hc

theorem Lexes.scanStep_eq {c : Char} {cs rest : List Char} {pieces : List Piece}
    (h : Lexes (c :: cs) pieces rest) (p : Position) :
    scanStep c p ⟨cs, p.step c⟩ = .ok (place p pieces, ⟨rest, p.advance (Piece.textAll pieces)⟩) := by
  cases h with
  | escape hv => simp [scanStep, scanEscape, hv, place, upTo, Position.advance_cons, Position.advance_nil]
  | argument hn hb =>
    simp [scanStep, scanArgument, hn.run_eq, hn.past_eq, hb.past_eq, place, upTo, Position.advance_cons,
      Position.advance_append]
  | call hn hne =>
    simp [scanStep, scanOpen, hn.run_eq, hn.past_eq, hne, place, upTo, Position.advance_cons,
      Position.advance_nil]
  | comment ht hb =>
    simp [scanStep, scanHash, scanComment, ht.run_eq, ht.past_eq, hb.past_eq, place, upTo,
      Position.advance_cons, Position.advance_append]
  | hash hn =>
    have hx := hn.head_ne (c := '!') rfl
    simp [scanStep, scanHash_directive hx, scanDirective, hn.run_eq, scanSingle, place, upTo,
      Position.advance_cons, Position.advance_nil]
  | reference hx hn hne hk =>
    simp [scanStep, scanHash_directive hx, scanDirective, hn.run_eq, hn.past_eq, hne, hk, place, upTo,
      Position.advance_cons]
  | endWord hx hn hne hk =>
    simp [scanStep, scanHash_directive hx, scanDirective, hn.run_eq, hn.past_eq, hne, hk, place, upTo,
      Position.advance_cons]
  | directive hx hn hne hk hw hb hi ha =>
    simp [scanStep, scanHash_directive hx, scanDirective, scanIdentifier, hn.run_eq, hn.past_eq, hne, hk,
      hw, hb.past_eq, hi.run_eq, hi.past_eq, ha.past_eq, place, upTo, Position.advance_cons,
      Position.advance_append]
  | close | pipe | slash =>
    simp [scanStep, scanSingle, place, upTo, Position.advance_cons, Position.advance_nil]
  | number hd hn hv =>
    simp only [scanStep_number hd, scanNumber, hn.run_eq, hn.past_eq, hv]
    simp [place, upTo, Position.advance_cons]
  | text hc h1 h2 hd hn hb =>
    simp only [scanStep_text hc h1 h2 hd, scanText, hn.run_eq, hn.past_eq, hb]
    simp [place, upTo, Position.advance_cons]
  | dropped hc h1 h2 hd hn hb =>
    simp only [scanStep_text hc h1 h2 hd, scanText, hn.run_eq, hn.past_eq, hb]
    simp [place, Position.advance_cons]
  | blank hc hn =>
    have hb : isBlank c = true := by rcases hc with rfl | rfl | rfl <;> decide
    simp [scanStep_blank hc, scanBlank, hb, hn.run_eq, hn.past_eq, place, upTo, Position.advance_cons]

section

variable {c : Char} {cs : List Char} {start p : Position} {ts : List Token} {next : Cursor}

theorem exists_lexes_of_scanEscape (h : scanEscape start ⟨cs, p⟩ = .ok (ts, next)) :
    ∃ pieces, Lexes ('\\' :: cs) pieces next.rest := by
  unfold scanEscape at h
  split at h
  next => cases h
  next d rest hr =>
  split at h
  next => cases h
  next value hv =>
  cases h
  subst hr
  exact ⟨_, .escape hv⟩

theorem exists_lexes_of_scanOpen (h : scanOpen start ⟨cs, p⟩ = .ok (ts, next)) :
    ∃ pieces, Lexes ('(' :: cs) pieces next.rest := by
  simp only [scanOpen] at h
  split at h
  next => cases h
  next hne =>
  cases h
  exact ⟨_, .call (run_takeWhile _ _) (by simpa [Cursor.run] using hne)⟩

theorem exists_lexes_of_scanDirective (hx : cs.head? ≠ some '!')
    (h : scanDirective start ⟨cs, p⟩ = .ok (ts, next)) : ∃ pieces, Lexes ('#' :: cs) pieces next.rest := by
  have hn := run_takeWhile isNameChar cs
  simp only [scanDirective] at h
  split at h
  next he =>
    cases h
    have he : cs.takeWhile isNameChar = [] := by simpa [Cursor.run] using he
    rw [he] at hn
    have hr : cs.dropWhile isNameChar = cs := by simpa using hn.append.symm
    rw [hr] at hn
    exact ⟨_, .hash hn⟩
  next he =>
  have hne : cs.takeWhile isNameChar ≠ [] := by simpa [Cursor.run] using he
  split at h
  next hk =>
    cases h
    exact ⟨_, .reference hx hn hne hk⟩
  next word hk =>
  split at h
  next hw =>
    cases h
    exact ⟨_, .endWord hx hn hne (hw ▸ hk)⟩
  next hw =>
    cases h
    exact ⟨_, .directive hx hn hne hk hw (run_takeWhile _ _) (run_takeWhile _ _) (run_takeWhile _ _)⟩

theorem exists_lexes_of_scanHash (h : scanHash start ⟨cs, p⟩ = .ok (ts, next)) :
    ∃ pieces, Lexes ('#' :: cs) pieces next.rest := by
  by_cases hx : cs.head? = some '!'
  · obtain ⟨rest, rfl⟩ := List.head?_eq_some_iff.1 hx
    cases h
    exact ⟨_, .comment (run_takeWhile _ _) (run_takeWhile _ _)⟩
  · rw [scanHash_directive hx] at h
    exact exists_lexes_of_scanDirective hx h

theorem exists_lexes_of_scanNumber (hd : c.isDigit = true) (h : scanNumber c start ⟨cs, p⟩ = .ok (ts, next)) :
    ∃ pieces, Lexes (c :: cs) pieces next.rest := by
  simp only [scanNumber] at h
  split at h
  next => cases h
  next value hv =>
  cases h
  exact ⟨_, .number hd (run_takeWhile _ _) hv⟩

theorem exists_lexes_of_scanText (hc : isTextChar c = true) (h1 : c ≠ '$') (h2 : c ≠ '/')
    (hd : c.isDigit = false) (h : scanText c start ⟨cs, p⟩ = .ok (ts, next)) :
    ∃ pieces, Lexes (c :: cs) pieces next.rest := by
  cases h
  cases hb : (c :: cs.takeWhile isTextChar).all isAsciiBlank with
  | true => exact ⟨_, .dropped hc h1 h2 hd (run_takeWhile _ _) hb⟩
  | false => exact ⟨_, .text hc h1 h2 hd (run_takeWhile _ _) hb⟩

theorem exists_lexes_of_scanStep (h : scanStep c p ⟨cs, p.step c⟩ = .ok (ts, next)) :
    ∃ pieces, Lexes (c :: cs) pieces next.rest := by
  unfold scanStep at h
  split at h
  next hc => subst hc; exact exists_lexes_of_scanEscape h
  split at h
  next hc => subst hc; cases h; exact ⟨_, .argument (run_takeWhile _ _) (run_takeWhile _ _)⟩
  next h1 =>
  split at h
  next hc => subst hc; exact exists_lexes_of_scanOpen h
  next h3 =>
  split at h
  next hc => subst hc; cases h; exact ⟨_, .close⟩
  next h4 =>
  split at h
  next hc => subst hc; exact exists_lexes_of_scanHash h
  next h5 =>
  split at h
  next hc => subst hc; cases h; exact ⟨_, .pipe⟩
  next h6 =>
  split at h
  next hc => subst hc; cases h; exact ⟨_, .slash⟩
  next h2 =>
  split at h
  next hd => exact exists_lexes_of_scanNumber hd h
  next hd =>
  split at h
  next hc => exact exists_lexes_of_scanText hc h1 h2 (by simpa using hd) h
  next hc =>
    -- What is neither text nor one of the characters above is a blank that text may not hold.
    simp only [scanBlank] at h
    split at h
    next =>
      cases h
      refine ⟨_, .blank ?_ (run_takeWhile _ _)⟩
      by_contra hn
      simp_all [isTextChar]
    next => cases h

end

/-- A step finds something exactly if a lexeme stands at the cursor. -/
theorem scanStep_ok_iff {c : Char} {cs : List Char} {p : Position} {ts : List Token} {next : Cursor} :
    scanStep c p ⟨cs, p.step c⟩ = .ok (ts, next) ↔ ∃ pieces, Lexes (c :: cs) pieces next.rest ∧
      ts = place p pieces ∧ next.position = p.advance (Piece.textAll pieces) := by
  constructor
  · intro h
    obtain ⟨pieces, hl⟩ := exists_lexes_of_scanStep h
    rw [hl.scanStep_eq p, Except.ok.injEq, Prod.mk.injEq] at h
    obtain ⟨rfl, hn⟩ := h
    exact ⟨pieces, hl, rfl, by rw [← hn]⟩
  · rintro ⟨pieces, hl, rfl, hp⟩
    rw [hl.scanStep_eq p, ← hp]

/-! ## A scan takes lexemes to the end -/

/-- Lexemes at the front of a text, one behind the other, and the text behind them. -/
inductive Reads : List Char → List Piece → List Char → Prop where
  | refl (cs : List Char) : Reads cs [] cs
  | step {cs pieces mid more rest} : Lexes cs pieces mid → Reads mid more rest →
      Reads cs (pieces ++ more) rest

theorem Reads.append_eq {cs rest : List Char} {pieces : List Piece} (h : Reads cs pieces rest) :
    cs = Piece.textAll pieces ++ rest := by
  induction h with
  | refl cs => rfl
  | step hl _ ih => rw [hl.append_eq, ih, Piece.textAll_append, List.append_assoc]

theorem Reads.append {cs mid rest : List Char} {pieces more : List Piece} (h : Reads cs pieces mid)
    (k : Reads mid more rest) : Reads cs (pieces ++ more) rest := by
  induction h with
  | refl => exact k
  | step hl _ ih => exact List.append_assoc .. ▸ .step hl (ih k)

theorem Reads.cut {cs rest : List Char} {pieces : List Piece} (h : Reads cs pieces rest)
    {w v : List Char} (hr : rest = w ++ v) : Reads (Piece.textAll pieces ++ w) pieces w := by
  induction h with
  | refl cs => exact .refl w
  | @step cs pieces mid more rest hl hm ih =>
    have he : mid = (Piece.textAll more ++ w) ++ v := by rw [hm.append_eq, hr, List.append_assoc]
    subst he
    rw [Piece.textAll_append, List.append_assoc]
    exact .step hl.cut (ih hr)

theorem Reads.extend {cs rest : List Char} {pieces : List Piece} (h : Reads cs pieces rest) (hne : rest ≠ [])
    (more : List Char) : Reads (cs ++ more) pieces (rest ++ more) := by
  induction h with
  | refl => exact .refl _
  | step hl hm ih =>
    refine .step (hl.extend ?_ more) (ih hne)
    rw [hm.append_eq]
    exact List.append_ne_nil_of_right_ne_nil _ hne

theorem Reads.end_notMem_kinds {cs rest : List Char} {pieces : List Piece} (h : Reads cs pieces rest) :
    Kind.endOfInput ∉ Piece.kinds pieces := by
  induction h with
  | refl => simp [Piece.kinds]
  | step hl _ ih =>
    rw [Piece.kinds_append, List.mem_append]
    rintro (hk | hk)
    · rcases hl.kinds_cases with he | ⟨kind, he, _, _, hne, _⟩ | he | ⟨word, _, he⟩
      · simp [he] at hk
      · rw [he, List.mem_singleton] at hk
        exact hne hk.symm
      · simp [he] at hk
      · simp [he] at hk
    · exact ih hk

theorem Reads.exists_lexes {cs rest : List Char} {pieces : List Piece} (h : Reads cs pieces rest)
    {piece : Piece} (hp : piece ∈ pieces) : ∃ front own behind, Lexes front own behind ∧ piece ∈ own := by
  induction h with
  | refl => cases hp
  | step hl _ ih =>
    rcases List.mem_append.1 hp with hp | hp
    · exact ⟨_, _, _, hl, hp⟩
    · exact ih hp

/-- The token that marks the end of a text. -/
def endAt (p : Position) : Token := upTo ⟨[], p⟩ p .endOfInput [] []

theorem Reads.scanFrom_append {cs rest : List Char} {pieces : List Piece} (h : Reads cs pieces rest) (p : Position) :
    scanFrom ⟨cs, p⟩ = (scanFrom ⟨rest, p.advance (Piece.textAll pieces)⟩).map (place p pieces ++ ·) := by
  induction h generalizing p with
  | refl cs =>
    rw [Piece.textAll_nil, Position.advance_nil]
    cases scanFrom ⟨cs, p⟩ <;> rfl
  | @step cs pieces mid more rest hl _ ih =>
    cases cs with
    | nil => cases hl
    | cons c cs =>
      rw [Piece.textAll_append, Position.advance_append, place_append]
      have hmore := ih (p.advance (Piece.textAll pieces))
      conv_lhs => unfold scanFrom
      simp only
      split
      next e he => rw [hl.scanStep_eq p] at he; cases he
      next tokens next he =>
      rw [hl.scanStep_eq p] at he
      cases he
      rw [hmore]
      generalize scanFrom ⟨rest, _⟩ = scanned
      cases scanned with
      | error e => rfl
      | ok tokens => simp [Except.map]

theorem Reads.scanFrom_eq {cs rest : List Char} {pieces : List Piece} (h : Reads cs pieces rest) (hr : rest = [])
    (p : Position) : scanFrom ⟨cs, p⟩ = .ok (place p pieces ++ [endAt (p.advance (Piece.textAll pieces))]) := by
  rw [h.scanFrom_append, hr]
  unfold scanFrom
  rfl

theorem reads_of_scanFrom (cur : Cursor) {tokens : List Token} (h : scanFrom cur = .ok tokens) :
    ∃ pieces, Reads cur.rest pieces [] := by
  fun_induction scanFrom cur generalizing tokens with
  | case1 cur hr => exact ⟨[], hr ▸ .refl _⟩
  | case2 cur c rest hr e hs => cases h
  | case3 cur c rest hr ts next hs e he ih => cases h
  | case4 cur c rest hr ts next hs more hm ih =>
    obtain ⟨pieces, hp⟩ := exists_lexes_of_scanStep hs
    obtain ⟨others, ho⟩ := ih hm
    exact ⟨pieces ++ others, hr ▸ .step hp ho⟩

/-- The tokens of a text are those of the lexemes that it is made of, with the mark of its end. -/
theorem scan_ok_iff {text : String} {tokens : List Token} :
    scan text = .ok tokens ↔ ∃ pieces, Reads text.toList pieces [] ∧
      tokens = place .first pieces ++ [endAt (Position.first.advance (Piece.textAll pieces))] := by
  constructor
  · intro h
    obtain ⟨pieces, hr⟩ := reads_of_scanFrom (.ofText text) h
    have hr : Reads text.toList pieces [] := hr
    have he := hr.scanFrom_eq rfl .first
    rw [scan, Cursor.ofText, he, Except.ok.injEq] at h
    exact ⟨pieces, hr, h.symm⟩
  · rintro ⟨pieces, hr, rfl⟩
    exact hr.scanFrom_eq rfl .first

end Markup.Token
