/-
Literal numbers.

A run of digits, points and underscores that begins with a digit writes a number if
it is digits, with one point behind or among them or none, where digits may have single
underscores between them (`IsLiteral`). The reader of numerals takes exactly these
(`ofText?_eq_none_iff`). What else it knows, signs, exponents, words and the digits of
other scripts, cannot stand in such a run.
-/
import Markup.Binary64.Numeral
import Markup.Token.Basic
import Markup.Proofs.BlankFacts

namespace Markup.Numeral

open Text

/-! ## Digits -/

/-- Digits with single underscores between them, at least one. -/
inductive IsDigits : List Char → Prop where
  | single {c : Char} : c.isDigit = true → IsDigits [c]
  | digit {c : Char} {cs : List Char} : c.isDigit = true → IsDigits cs → IsDigits (c :: cs)
  | underscore {c : Char} {cs : List Char} : c.isDigit = true → IsDigits cs → IsDigits (c :: '_' :: cs)

/-- Digits, with one point behind or among them or none. -/
inductive IsLiteral : List Char → Prop where
  | whole {digits : List Char} : IsDigits digits → IsLiteral digits
  | point {digits : List Char} : IsDigits digits → IsLiteral (digits ++ ['.'])
  | fraction {digits more : List Char} : IsDigits digits → IsDigits more → IsLiteral (digits ++ '.' :: more)

theorem IsDigits.exists_cons {cs : List Char} (h : IsDigits cs) : ∃ c more, cs = c :: more ∧ c.isDigit = true := by
  cases h with
  | single hc | digit hc | underscore hc => exact ⟨_, _, rfl, hc⟩

theorem ne_of_isDigit {c d : Char} (hc : c.isDigit = true) (hd : d.isDigit = false) : c ≠ d := by
  rintro rfl
  rw [hc] at hd
  cases hd

theorem moreDigits_digit {c : Char} (hc : c.isDigit = true) (cs : List Char) :
    (moreDigits Char.isDigit (c :: cs)).2 = (moreDigits Char.isDigit cs).2 := by
  have hne : c ≠ '_' := ne_of_isDigit hc rfl
  rw [moreDigits.eq_def]
  split
  next heq => cases heq; exact absurd rfl hne
  next heq => cases heq; simp [hc]
  next heq => cases heq

theorem moreDigits_underscore {c : Char} (hc : c.isDigit = true) (cs : List Char) :
    (moreDigits Char.isDigit ('_' :: c :: cs)).2 = (moreDigits Char.isDigit cs).2 := by
  rw [moreDigits.eq_def]
  simp [hc]

theorem exists_written_of_moreDigits (cs : List Char) : ∃ written,
    cs = written ++ (moreDigits Char.isDigit cs).2 ∧ ∀ c : Char, c.isDigit = true → IsDigits (c :: written) := by
  fun_induction moreDigits Char.isDigit cs with
  | case1 d cs hd digits rest hm ih =>
    obtain ⟨written, hw, hdigits⟩ := ih
    rw [hm] at hw
    exact ⟨'_' :: d :: written, by simp [hw], fun c hc => .underscore hc (hdigits d hd)⟩
  | case3 d cs _ hd digits rest hm ih =>
    obtain ⟨written, hw, hdigits⟩ := ih
    rw [hm] at hw
    exact ⟨d :: written, by simp [hw], fun c hc => .digit hc (hdigits d hd)⟩
  | case2 | case4 | case5 => exact ⟨[], rfl, fun c hc => .single hc⟩

/-- Digits before the end of a numeral, or before its point, are read up to there. -/
theorem IsDigits.moreDigits_append {c : Char} {cs rest : List Char} (h : IsDigits (c :: cs))
    (hr : rest = [] ∨ rest.head? = some '.') : (moreDigits Char.isDigit (cs ++ rest)).2 = rest := by
  generalize hd : c :: cs = digits at h
  induction h generalizing c cs with
  | single hc =>
    cases hd
    rcases hr with rfl | hr
    · rfl
    · obtain ⟨more, rfl⟩ := List.head?_eq_some_iff.1 hr
      rfl
  | digit hc hds ih =>
    cases hd
    obtain ⟨d, more, rfl, hd⟩ := hds.exists_cons
    rw [List.cons_append, moreDigits_digit hd]
    exact ih rfl
  | underscore hc hds ih =>
    cases hd
    obtain ⟨d, more, rfl, hd⟩ := hds.exists_cons
    rw [List.cons_append, List.cons_append, moreDigits_underscore hd]
    exact ih rfl

theorem exists_written_of_digits? {cs digits rest : List Char} (h : digits? cs = some (digits, rest)) :
    ∃ written, cs = written ++ rest ∧ IsDigits written := by
  cases cs with
  | nil => cases h
  | cons c cs =>
    simp only [digits?, digitsOf?] at h
    split at h
    next hc =>
      cases h
      obtain ⟨written, hw, hdigits⟩ := exists_written_of_moreDigits cs
      exact ⟨c :: written, congrArg (c :: ·) hw, hdigits c hc⟩
    next => cases h

theorem IsDigits.exists_digits? {written rest : List Char} (h : IsDigits written)
    (hr : rest = [] ∨ rest.head? = some '.') : ∃ digits, digits? (written ++ rest) = some (digits, rest) := by
  obtain ⟨c, more, rfl, hc⟩ := h.exists_cons
  refine ⟨c :: (moreDigits Char.isDigit (more ++ rest)).1, ?_⟩
  simp only [digits?, digitsOf?, List.cons_append, hc, if_true, h.moreDigits_append hr]

/-! ## A whole run -/

theorem toNat_le_of_isDigit {c : Char} (h : c.isDigit = true) : c.toNat ≤ 57 := by
  simp only [Char.isDigit, Bool.and_eq_true, decide_eq_true_eq, UInt32.le_iff_toNat_le] at h
  exact h.2

/-- A character of a number is no margin, is a plain one, and begins no exponent. -/
theorem plain_of_isNumberChar {c : Char} (h : isNumberChar c = true) :
    isMargin c = false ∧ plainDigit c = c ∧ (c == 'e' || c == 'E') = false := by
  have hall : ∀ n < 96, isNumberChar (Char.ofNat n) = true → isMargin (Char.ofNat n) = false ∧
      plainDigit (Char.ofNat n) = Char.ofNat n ∧ (Char.ofNat n == 'e' || Char.ofNat n == 'E') = false := by
    decide +kernel
  have hc : c.toNat < 96 := by
    simp only [isNumberChar, Bool.or_eq_true, beq_iff_eq] at h
    rcases h with (hd | rfl) | rfl
    · have hle := toNat_le_of_isDigit hd
      omega
    · decide
    · decide
  have hn := hall c.toNat hc
  rw [Char.ofNat_toNat] at hn
  exact hn h

theorem sign_of_isDigit {c : Char} (hc : c.isDigit = true) (more : List Char) :
    sign (c :: more) = (false, c :: more) := by
  have hminus : c ≠ '-' := ne_of_isDigit hc rfl
  have hplus : c ≠ '+' := ne_of_isDigit hc rfl
  unfold sign
  split
  next heq => cases heq; exact absurd rfl hminus
  next heq => cases heq; exact absurd rfl hplus
  next => rfl

/-- Of a literal nothing is left behind its digits. -/
theorem IsLiteral.exists_mantissa? {run : List Char} (h : IsLiteral run) :
    ∃ whole fraction, mantissa? run = some (whole, fraction, []) := by
  cases h with
  | whole hd =>
    obtain ⟨digits, hw⟩ := hd.exists_digits? (.inl rfl)
    rw [List.append_nil] at hw
    exact ⟨digits, [], by simp only [mantissa?, hw]⟩
  | point hd =>
    obtain ⟨digits, hw⟩ := hd.exists_digits? (.inr (List.head?_cons (l := [])))
    have hnone : digits? [] = none := rfl
    exact ⟨digits, [], by simp only [mantissa?, hw, hnone]⟩
  | @fraction _ second hd hs =>
    obtain ⟨digits, hw⟩ := hd.exists_digits? (.inr (List.head?_cons (l := second)))
    obtain ⟨others, hf⟩ := hs.exists_digits? (.inl rfl)
    rw [List.append_nil] at hf
    exact ⟨digits, others, by simp only [mantissa?, hw, hf]⟩

section

variable {run : List Char} (hm : ∀ d ∈ run, isNumberChar d = true)
include hm

theorem plain_run : plain (.ofList run) = run := by
  have hmargin : ∀ d ∈ run, isMargin d = false := fun d hd => (plain_of_isNumberChar (hm d hd)).1
  have hplain : run.map plainDigit = run.map id :=
    List.map_congr_left fun d hd => (plain_of_isNumberChar (hm d hd)).2.1
  rw [plain, String.toList_ofList, trimWhile_eq_self hmargin, hplain, List.map_id]

theorem eq_nil_of_exponent? {rest : List Char} (he : rest <:+ run) {exponent : Int}
    (h : exponent? rest = some exponent) : rest = [] := by
  cases rest with
  | nil => rfl
  | cons d rest =>
    have hd : d ∈ run := he.subset List.mem_cons_self
    simp [exponent?, (plain_of_isNumberChar (hm d hd)).2.2] at h

theorem isLiteral_of_mantissa? {c : Char} (hc : run.head? = some c) (hd : c.isDigit = true)
    {whole fraction rest : List Char} {exponent : Int} (h : mantissa? run = some (whole, fraction, rest))
    (he : exponent? rest = some exponent) : IsLiteral run := by
  unfold mantissa? at h
  split at h
  next whole' rest' hw =>
    obtain ⟨first, hfirst, hdigits⟩ := exists_written_of_digits? hw
    split at h
    next fraction' rest'' hf =>
      cases h
      obtain ⟨second, rfl, hmore⟩ := exists_written_of_digits? hf
      have hnil := eq_nil_of_exponent? hm ⟨first ++ '.' :: second, by simp [hfirst]⟩ he
      rw [hfirst, hnil, List.append_nil]
      exact .fraction hdigits hmore
    next hf =>
      cases h
      have hnil := eq_nil_of_exponent? hm ⟨first ++ ['.'], by simp [hfirst]⟩ he
      rw [hfirst, hnil]
      exact .point hdigits
  next whole' rest' _ hw =>
    cases h
    obtain ⟨first, hfirst, hdigits⟩ := exists_written_of_digits? hw
    have hnil := eq_nil_of_exponent? hm ⟨first, hfirst.symm⟩ he
    rw [hfirst, hnil, List.append_nil]
    exact .whole hdigits
  next hnone =>
    obtain ⟨more, rfl⟩ := List.head?_eq_some_iff.1 hc
    simp [digits?, digitsOf?, hd] at hnone

/-- A run that begins with a digit writes no number exactly if it is no literal. -/
theorem ofText?_eq_none_iff {c : Char} (hc : run.head? = some c) (hd : c.isDigit = true) :
    Binary64.ofText? (.ofList run) = none ↔ ¬ IsLiteral run := by
  obtain ⟨more, rfl⟩ := List.head?_eq_some_iff.1 hc
  have hsome : mantissa? (c :: more) ≠ none := by
    intro hnone
    unfold mantissa? at hnone
    split at hnone
    next => split at hnone <;> cases hnone
    next => cases hnone
    next hw => simp [digits?, digitsOf?, hd] at hw
  obtain ⟨⟨whole, fraction, rest⟩, hmantissa⟩ := Option.ne_none_iff_exists'.1 hsome
  rw [Binary64.ofText?, plain_run hm, sign_of_isDigit hd]
  simp only [hmantissa, Option.map_eq_none_iff]
  constructor
  · intro hnone hl
    obtain ⟨_, _, hnil⟩ := hl.exists_mantissa?
    rw [hmantissa, Option.some.injEq, Prod.mk.injEq, Prod.mk.injEq] at hnil
    rw [hnil.2.2] at hnone
    cases hnone
  · intro hl
    cases he : exponent? rest with
    | none => rfl
    | some exponent => exact absurd (isLiteral_of_mantissa? hm hc hd hmantissa he) hl

end

end Markup.Numeral
