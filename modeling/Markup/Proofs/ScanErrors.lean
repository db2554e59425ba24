/-
Where reading tokens fails.

`Jams cs cause before` says that no lexeme stands at the front of `cs`, and that
the cause lies behind the characters `before`. A scan fails exactly if lexemes lead
up to such a text, for that cause and at that place (`scan_error_iff`).
-/
import Markup.Proofs.Lexemes

namespace Markup.Token

open Text

/-- Why no lexeme stands at the front of a text, and the characters before the place of the failure. -/
inductive Jams : List Char → ScanError.Cause → List Char → Prop where
  | dangling : Jams ['\\'] .danglingEscape []
  | unknown {c rest} : unescape? c = none → Jams ('\\' :: c :: rest) (.unknownEscape c) []
  | nameless {cs} : (∀ c, cs.head? = some c → isNameChar c = false) → Jams ('(' :: cs) .missingName ['(']
  | number {c cs more rest} : c.isDigit = true → Run isNumberChar cs more rest →
      Binary64.ofText? (.ofList (c :: more)) = none → Jams (c :: cs) (.badNumber (.ofList (c :: more))) []

/-! ## A step that fails -/

/-- A character that begins nothing else is blank, so that a step that finds no character for it
has still something to read. -/
theorem isBlank_of_begins_nothing {c : Char} (hc : c ∉ ['\\', '$', '(', ')', '#', '|', '/'])
    (ht : isTextChar c = false) : isBlank c = true := by
  simp only [List.mem_cons, List.not_mem_nil, or_false, not_or] at hc
  obtain ⟨h1, -, h3, h4, h5, h6, -⟩ := hc
  have hb : c = '\n' ∨ c = '\r' ∨ c = '\t' := by
    by_contra hn
    simp_all [isTextChar]
  rcases hb with rfl | rfl | rfl <;> decide

section

variable {c : Char} {cs : List Char} {start p : Position} {e : ScanError}

theorem jams_of_scanEscape (h : scanEscape start ⟨cs, p⟩ = .error e) :
    ∃ cause, Jams ('\\' :: cs) cause [] ∧ e = ⟨cause, start⟩ := by
  unfold scanEscape at h
  split at h
  next hr =>
    obtain rfl : cs = [] := hr
    cases h
    exact ⟨_, .dangling, rfl⟩
  next d rest hr =>
  obtain rfl : cs = d :: rest := hr
  split at h
  next hv =>
    cases h
    exact ⟨_, .unknown hv, rfl⟩
  next => cases h

theorem jams_of_scanOpen (h : scanOpen start ⟨cs, p⟩ = .error e) :
    ∃ cause, Jams ('(' :: cs) cause ['('] ∧ e = ⟨cause, p⟩ := by
  simp only [scanOpen] at h
  split at h
  next he =>
    cases h
    have hrun := run_takeWhile isNameChar cs
    have hname : cs.takeWhile isNameChar = [] := by simpa [Cursor.run] using he
    rw [hname] at hrun
    rw [show cs = cs.dropWhile isNameChar by simpa using hrun.append]
    exact ⟨_, .nameless hrun.stops, rfl⟩
  next => cases h

theorem scanHash_ne_error (start : Position) (cur : Cursor) (e : ScanError) : scanHash start cur ≠ .error e := by
  intro h
  simp only [scanHash, scanDirective, scanSingle, scanComment] at h
  split at h
  next => cases h
  next =>
  split at h
  next => cases h
  next =>
  split at h
  next => cases h
  next => split at h <;> cases h

theorem jams_of_scanNumber (hd : c.isDigit = true) (h : scanNumber c start ⟨cs, p⟩ = .error e) :
    ∃ cause, Jams (c :: cs) cause [] ∧ e = ⟨cause, start⟩ := by
  simp only [scanNumber] at h
  split at h
  next hv =>
    cases h
    exact ⟨_, .number hd (run_takeWhile _ _) hv, rfl⟩
  next => cases h

theorem exists_jams_of_scanStep (h : scanStep c p ⟨cs, p.step c⟩ = .error e) :
    ∃ cause before, Jams (c :: cs) cause before ∧ e = ⟨cause, p.advance before⟩ := by
  unfold scanStep at h
  split at h
  next hc =>
    subst hc
    obtain ⟨cause, hj, rfl⟩ := jams_of_scanEscape h
    exact ⟨cause, [], hj, rfl⟩
  next h1 =>
  split at h
  next => cases h
  next h2 =>
  split at h
  next hc =>
    subst hc
    obtain ⟨cause, hj, rfl⟩ := jams_of_scanOpen h
    exact ⟨cause, ['('], hj, rfl⟩
  next h3 =>
  split at h
  next => cases h
  next h4 =>
  split at h
  next => exact absurd h (scanHash_ne_error _ _ _)
  next h5 =>
  split at h
  next => cases h
  next h6 =>
  split at h
  next => cases h
  next h7 =>
  split at h
  next hd =>
    obtain ⟨cause, hj, rfl⟩ := jams_of_scanNumber hd h
    exact ⟨cause, [], hj, rfl⟩
  next =>
  split at h
  next => cases h
  next ht =>
  -- What is left is blank, so that it is not unexpected.
  have hb : isBlank c = true := isBlank_of_begins_nothing (by simp [*]) (by simpa using ht)
  simp only [scanBlank, hb, if_true] at h
  cases h

end

/-- A step fails exactly where no lexeme stands at the cursor. -/
theorem scanStep_error_iff {c : Char} {cs : List Char} {p : Position} {e : ScanError} :
    scanStep c p ⟨cs, p.step c⟩ = .error e ↔
      ∃ cause before, Jams (c :: cs) cause before ∧ e = ⟨cause, p.advance before⟩ := by
  refine ⟨exists_jams_of_scanStep, ?_⟩
  rintro ⟨cause, before, hj, rfl⟩
  cases hj with
  | dangling => rfl
  | unknown hv => simp [scanStep, scanEscape, hv, Position.advance_nil]
  | nameless hstop =>
    have hrun : Run isNameChar cs [] cs := ⟨rfl, List.forall_mem_nil _, hstop⟩
    simp [scanStep, scanOpen, hrun.run_eq, Position.advance_cons, Position.advance_nil]
  | number hd hn hv =>
    simp only [scanStep_number hd, scanNumber, hn.run_eq, hv]
    rfl

/-! ## A scan that fails -/

theorem Reads.scanFrom_error {cs rest : List Char} {pieces : List Piece} (h : Reads cs pieces rest)
    {cause : ScanError.Cause} {before : List Char} (hj : Jams rest cause before) (p : Position) :
    scanFrom ⟨cs, p⟩ = .error ⟨cause, (p.advance (Piece.textAll pieces)).advance before⟩ := by
  rw [h.scanFrom_append]
  cases rest with
  | nil => cases hj
  | cons c cs =>
    have hs := scanStep_error_iff (p := p.advance (Piece.textAll pieces)).2 ⟨cause, before, hj, rfl⟩
    unfold scanFrom
    simp only
    split
    next he => rw [hs] at he; cases he; rfl
    next he => rw [hs] at he; cases he

theorem reads_of_scanFrom_error (cur : Cursor) {e : ScanError} (h : scanFrom cur = .error e) :
    ∃ pieces rest cause before, Reads cur.rest pieces rest ∧ Jams rest cause before := by
  fun_induction scanFrom cur with
  | case1 cur hr => cases h
  | case2 cur c rest hr e hs =>
    obtain ⟨cause, before, hj, -⟩ := scanStep_error_iff.1 hs
    exact ⟨[], c :: rest, cause, before, hr ▸ .refl _, hj⟩
  | case3 cur c rest hr ts next hs e he ih =>
    obtain ⟨pieces, hl⟩ := exists_lexes_of_scanStep hs
    cases h
    obtain ⟨more, last, cause, before, hm, hj⟩ := ih he
    exact ⟨pieces ++ more, last, cause, before, hr ▸ .step hl hm, hj⟩
  | case4 cur c rest hr ts next hs more hm ih => cases h

theorem scan_error_iff {text : String} {e : ScanError} :
    scan text = .error e ↔ ∃ pieces rest cause before, Reads text.toList pieces rest ∧ Jams rest cause before ∧
      e = ⟨cause, (Position.first.advance (Piece.textAll pieces)).advance before⟩ := by
  constructor
  · intro h
    obtain ⟨pieces, rest, cause, before, hr, hj⟩ := reads_of_scanFrom_error (.ofText text) h
    have hr : Reads text.toList pieces rest := hr
    rw [scan, Cursor.ofText, hr.scanFrom_error hj, Except.error.injEq] at h
    exact ⟨pieces, rest, cause, before, hr, hj, h.symm⟩
  · rintro ⟨pieces, rest, cause, before, hr, hj, rfl⟩
    exact hr.scanFrom_error hj .first

end Markup.Token
