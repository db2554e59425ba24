/-
The characters that a number is written with: digits, a point, signs, the mark of
an exponent, and those of the names of what is no finite number. There is no blank
among them.
-/
import Markup.Binary64.Shortest

namespace Markup.Binary64

/-- Whether a number may be written with a character. -/
def isPrintedChar (c : Char) : Bool :=
  c.isDigit || ['.', '-', '+', 'e', 'i', 'n', 'f', 'a'].contains c

theorem isPrintedChar_of_isDigit {c : Char} (h : c.isDigit = true) : isPrintedChar c = true := by
  rw [isPrintedChar, h, Bool.true_or]

theorem isDigit_of_mem_toDigits {n : Nat} {c : Char} (h : c ∈ Nat.toDigits 10 n) : c.isDigit = true :=
  Nat.isDigit_of_mem_toDigits (by decide) (by decide) h

theorem isDigit_of_mem_shortestOf {number : Binary64} {units : Nat} {c : Char}
    (h : c ∈ (shortestOf number units).1) : c.isDigit = true := by
  rw [shortestOf, List.mem_reverse] at h
  exact isDigit_of_mem_toDigits (List.mem_reverse.1 (List.dropWhile_subset _ h))

theorem isDigit_of_mem_shortestDigits {significand scale : Nat} {c : Char}
    (h : c ∈ (shortestDigits significand scale).1) : c.isDigit = true := by
  rw [shortestDigits] at h
  split at h
  next => rw [List.mem_singleton.1 h]; rfl
  next => exact isDigit_of_mem_shortestOf h

section

variable {digits : List Char} (hd : ∀ c ∈ digits, c.isDigit = true) {point : Int} {c : Char}
include hd

theorem isPrintedChar_of_mem_positional (h : c ∈ positional digits point) : isPrintedChar c = true := by
  have hzero : ∀ n : Nat, c ∈ List.replicate n '0' → isPrintedChar c = true := by
    intro n hm
    rw [(List.mem_replicate.1 hm).2]
    rfl
  have hdigit : c ∈ digits → isPrintedChar c = true := fun hm => isPrintedChar_of_isDigit (hd c hm)
  rw [positional] at h
  split at h
  next =>
    simp only [List.cons_append, List.mem_cons, List.mem_append] at h
    rcases h with rfl | rfl | h | h
    · rfl
    · rfl
    · exact hzero _ h
    · exact hdigit h
  next =>
  simp only at h
  split at h
  next =>
    simp only [List.mem_append, List.mem_cons, List.not_mem_nil, or_false] at h
    rcases h with (h | h) | rfl | rfl
    · exact hdigit h
    · exact hzero _ h
    · rfl
    · rfl
  next =>
    rw [List.mem_append, List.mem_cons] at h
    rcases h with h | rfl | h
    · exact hdigit (List.mem_of_mem_take h)
    · rfl
    · exact hdigit (List.mem_of_mem_drop h)

omit hd in
theorem isPrintedChar_of_mem_exponentText (h : c ∈ exponentText point) : isPrintedChar c = true := by
  have hdigit : c ∈ Nat.toDigits 10 point.natAbs → isPrintedChar c = true :=
    fun hm => isPrintedChar_of_isDigit (isDigit_of_mem_toDigits hm)
  simp only [exponentText, List.mem_cons] at h
  rcases h with rfl | rfl | h
  · rfl
  · split <;> rfl
  · split at h
    next =>
      rcases List.mem_cons.1 h with rfl | h
      · rfl
      · exact hdigit h
    next => exact hdigit h

theorem isPrintedChar_of_mem_scientific (h : c ∈ scientific digits point) : isPrintedChar c = true := by
  unfold scientific at h
  split at h
  next => exact isPrintedChar_of_mem_exponentText h
  next d =>
    rcases List.mem_cons.1 h with rfl | h
    · exact isPrintedChar_of_isDigit (hd c List.mem_cons_self)
    · exact isPrintedChar_of_mem_exponentText h
  next d ds _ =>
    simp only [List.cons_append, List.mem_cons, List.mem_append] at h
    rcases h with rfl | rfl | h | h
    · exact isPrintedChar_of_isDigit (hd c List.mem_cons_self)
    · rfl
    · exact isPrintedChar_of_isDigit (hd c (List.mem_cons_of_mem _ h))
    · exact isPrintedChar_of_mem_exponentText h

end

theorem isPrintedChar_of_mem_toText {number : Binary64} {c : Char} (h : c ∈ number.toText.toList) :
    isPrintedChar c = true := by
  cases number with
  | finite negative significand scale =>
    have hd : ∀ c ∈ (shortestDigits significand scale).1, c.isDigit = true :=
      fun _ hm => isDigit_of_mem_shortestDigits hm
    rw [toText, String.toList_ofList, List.mem_append] at h
    rcases h with h | h
    · cases negative with
      | true => rw [List.mem_singleton.1 h]; rfl
      | false => cases h
    · rw [finiteText] at h
      split at h
      next digits point he =>
      rw [he] at hd
      split at h
      next => exact isPrintedChar_of_mem_positional hd h
      next => exact isPrintedChar_of_mem_scientific hd h
  | infinite negative =>
    have hall : (toText (.infinite negative)).toList.all isPrintedChar = true := by
      cases negative <;> decide +kernel
    exact List.all_eq_true.1 hall c h
  | nan =>
    have hall : (toText .nan).toList.all isPrintedChar = true := by decide +kernel
    exact List.all_eq_true.1 hall c h

theorem isPrintedChar_of_mem_toLiteral {number : Binary64} {c : Char} (h : c ∈ number.toLiteral.toList) :
    isPrintedChar c = true := by
  simp only [toLiteral] at h
  split at h
  next =>
    rw [String.toList_ofList] at h
    exact isPrintedChar_of_mem_toText (List.mem_of_mem_take h)
  next =>
    rw [String.toList_ofList] at h
    exact isPrintedChar_of_mem_toText h

end Markup.Binary64
