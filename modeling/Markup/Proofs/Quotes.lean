/-
Texts between quotes.

What a character becomes shows where it ends, and which it was: one that is escaped
begins with a backslash, and the letter behind that tells how many digits follow
(`QuotedAs.append_inj`). So no two texts are quoted alike (`quote_injective`), and since
nothing that ends a line is shown as itself, a quoted text stands on one line
(`isLineEnd_of_mem_quote`).
-/
import Mathlib.Algebra.Order.Ring.Nat
import Mathlib.Data.List.Basic
import Markup.Text.Line
import Markup.Text.Quoted

namespace Markup.Text

/-! ## Digits -/

theorem hexDigits_succ (width n : Nat) :
    hexDigits (width + 1) n = Nat.digitChar (n / 16 ^ width % 16) :: hexDigits width n := by
  rw [hexDigits, hexDigits, List.range_succ, List.reverse_append]
  rfl

theorem digitChar_inj {m n : Nat} (hm : m < 16) (hn : n < 16) (h : Nat.digitChar m = Nat.digitChar n) : m = n := by
  have hall : ∀ i < 16, ∀ j < 16, Nat.digitChar i = Nat.digitChar j → i = j := by decide
  exact hall m hm n hn h

/-- Digits tell a number, as far as there are digits for it. -/
theorem mod_eq_of_hexDigits {m n : Nat} : ∀ {width : Nat}, hexDigits width m = hexDigits width n →
    m % 16 ^ width = n % 16 ^ width
  | 0, _ => by rw [Nat.pow_zero, Nat.mod_one, Nat.mod_one]
  | width + 1, h => by
    rw [hexDigits_succ, hexDigits_succ, List.cons.injEq] at h
    have hfirst := digitChar_inj (Nat.mod_lt _ (by decide)) (Nat.mod_lt _ (by decide)) h.1
    rw [Nat.mod_pow_succ, Nat.mod_pow_succ, hfirst, mod_eq_of_hexDigits h.2]

theorem length_hexDigits (width n : Nat) : (hexDigits width n).length = width := by
  rw [hexDigits, List.length_map, List.length_reverse, List.length_range]

theorem mem_hexDigits {width n : Nat} {c : Char} (h : c ∈ hexDigits width n) : ∃ d < 16, c = Nat.digitChar d := by
  obtain ⟨i, -, rfl⟩ := List.mem_map.1 h
  exact ⟨_, Nat.mod_lt _ (by decide), rfl⟩

/-! ## One character -/

/-- How a character stands between marks: as itself, as a letter, or as digits. -/
inductive QuotedAs (mark c : Char) : List Char → Prop where
  | shown : c ≠ '\\' → isPrintable c = true → QuotedAs mark c [c]
  | letter {l : Char} : (c, l) ∈ [(mark, mark), ('\\', '\\'), ('\n', 'n'), ('\r', 'r'), ('\t', 't')] →
      QuotedAs mark c ['\\', l]
  | digits {l : Char} {width : Nat} : (l, width) ∈ [('x', 2), ('u', 4), ('U', 8)] → c.toNat < 16 ^ width →
      QuotedAs mark c ('\\' :: l :: hexDigits width c.toNat)

theorem quotedAs_quoteChar (mark c : Char) : QuotedAs mark c (quoteChar mark c) := by
  have hlast : c.toNat < 16 ^ 8 := by
    have hc : c.toNat < 0x110000 := by
      rcases c.valid with hc | ⟨-, hc⟩
      · exact Nat.lt_trans hc (by decide)
      · exact hc
    exact Nat.lt_trans hc (by decide)
  rw [quoteChar]
  split
  next h =>
    simp only [Bool.or_eq_true, beq_iff_eq] at h
    rcases h with rfl | rfl
    · exact .letter (by simp)
    · exact .letter (by simp)
  next h =>
  simp only [Bool.or_eq_true, beq_iff_eq, not_or] at h
  split
  next hc => exact .letter (by simp_all)
  next =>
  split
  next hc => exact .letter (by simp_all)
  next =>
  split
  next hc => exact .letter (by simp_all)
  next =>
  split
  next hp => exact .shown h.2 hp
  next =>
  split
  next hn => exact .digits (by simp) hn
  next =>
  split
  next hn => exact .digits (by simp) hn
  next => exact .digits (by simp) hlast

/-- What a character has become ends where it does, whatever follows, and tells the character. -/
theorem QuotedAs.append_inj {mark c d : Char} (hm : mark = '\'' ∨ mark = '"') {u v r s : List Char}
    (hu : QuotedAs mark c u) (hv : QuotedAs mark d v) (h : u ++ r = v ++ s) : c = d ∧ r = s := by
  cases hu with
  | shown hc =>
    cases hv with
    | shown => simpa using h
    | letter | digits => exact absurd (List.cons.inj h).1 hc
  | @letter l hl =>
    cases hv with
    | shown hd => exact absurd (List.cons.inj h).1.symm hd
    | letter hk =>
      simp only [List.cons_append, List.nil_append, List.cons.injEq, true_and] at h
      obtain ⟨rfl, rfl⟩ := h
      refine ⟨Eq.symm ?_, rfl⟩
      simp only [List.mem_cons, Prod.mk.injEq, List.not_mem_nil, or_false] at hl hk
      rcases hm with rfl | rfl <;> rcases hl with ⟨rfl, rfl⟩ | ⟨rfl, rfl⟩ | ⟨rfl, rfl⟩ | ⟨rfl, rfl⟩ | ⟨rfl, rfl⟩ <;>
        simpa using hk
    | digits hk =>
      simp only [List.cons_append, List.cons.injEq, true_and] at h
      obtain ⟨rfl, -⟩ := h
      simp only [List.mem_cons, Prod.mk.injEq, List.not_mem_nil, or_false] at hl hk
      rcases hm with rfl | rfl <;> rcases hk with ⟨rfl, -⟩ | ⟨rfl, -⟩ | ⟨rfl, -⟩ <;> simp at hl
  | @digits l width hl hc =>
    cases hv with
    | shown hd => exact absurd (List.cons.inj h).1.symm hd
    | letter hk =>
      simp only [List.cons_append, List.cons.injEq, true_and] at h
      obtain ⟨rfl, -⟩ := h
      simp only [List.mem_cons, Prod.mk.injEq, List.not_mem_nil, or_false] at hl hk
      rcases hm with rfl | rfl <;> rcases hl with ⟨rfl, -⟩ | ⟨rfl, -⟩ | ⟨rfl, -⟩ <;> simp at hk
    | @digits k other hk hd =>
      simp only [List.cons_append, List.cons.injEq, true_and] at h
      obtain ⟨rfl, h⟩ := h
      obtain rfl : other = width := by
        simp only [List.mem_cons, Prod.mk.injEq, List.not_mem_nil, or_false] at hl hk
        rcases hl with ⟨rfl, rfl⟩ | ⟨rfl, rfl⟩ | ⟨rfl, rfl⟩ <;> simpa using hk
      obtain ⟨hdigits, rfl⟩ := List.append_inj h (by rw [length_hexDigits, length_hexDigits])
      have hmod := mod_eq_of_hexDigits hdigits
      rw [Nat.mod_eq_of_lt hc, Nat.mod_eq_of_lt hd] at hmod
      exact ⟨Char.toNat_inj.1 hmod, rfl⟩

/-! ## Texts -/

theorem flatMap_quoteChar_inj {mark : Char} (hm : mark = '\'' ∨ mark = '"') : ∀ {cs ds : List Char},
    cs.flatMap (quoteChar mark) = ds.flatMap (quoteChar mark) → cs = ds
  | [], [], _ => rfl
  | [], d :: ds, h | d :: ds, [], h => by
    have hd := quotedAs_quoteChar mark d
    simp only [List.flatMap_nil, List.flatMap_cons] at h
    generalize quoteChar mark d = quoted at h hd
    cases hd <;> cases h
  | c :: cs, d :: ds, h => by
    rw [List.flatMap_cons, List.flatMap_cons] at h
    obtain ⟨rfl, hrest⟩ := (quotedAs_quoteChar mark c).append_inj hm (quotedAs_quoteChar mark d) h
    rw [flatMap_quoteChar_inj hm hrest]

theorem quoteMark_cases (cs : List Char) : quoteMark cs = '\'' ∨ quoteMark cs = '"' := by
  rw [quoteMark]
  split
  · exact .inr rfl
  · exact .inl rfl

theorem quote_injective : Function.Injective quote := by
  intro s t h
  have hchars : quoteChars s.toList = quoteChars t.toList := String.ofList_injective h
  simp only [quoteChars, List.cons_append, List.cons.injEq] at hchars
  obtain ⟨hmark, hbody⟩ := hchars
  rw [← hmark] at hbody
  have hinner := (List.append_inj' hbody rfl).1
  exact String.toList_inj.1 (flatMap_quoteChar_inj (quoteMark_cases s.toList) hinner)

/-! ## Lines -/

/-- The characters that end a line. -/
def lineEnds : List Nat := [10, 11, 12, 13, 28, 29, 30, 0x85, 0x2028, 0x2029]

theorem toNat_mem_lineEnds {c : Char} (h : isLineEnd c = true) : c.toNat ∈ lineEnds := by
  simp only [isLineEnd, Bool.or_eq_true, Bool.and_eq_true, decide_eq_true_eq, beq_iff_eq] at h
  simp only [lineEnds, List.mem_cons, List.not_mem_nil, or_false]
  omega

theorem isLineEnd_of_isPrintable {c : Char} (h : isPrintable c = true) : isLineEnd c = false := by
  have hall : ∀ n ∈ lineEnds, unprintableRanges.hasCode n = true := by decide +kernel
  rw [isPrintable, Ranges.has, Bool.not_eq_true'] at h
  rw [Bool.eq_false_iff]
  intro hend
  rw [hall _ (toNat_mem_lineEnds hend)] at h
  cases h

theorem isLineEnd_of_mem_hexDigits {width n : Nat} {c : Char} (h : c ∈ hexDigits width n) : isLineEnd c = false := by
  have hall : ∀ d < 16, isLineEnd (Nat.digitChar d) = false := by decide
  obtain ⟨d, hd, rfl⟩ := mem_hexDigits h
  exact hall d hd

theorem QuotedAs.isLineEnd {mark c d : Char} (hm : mark = '\'' ∨ mark = '"') {quoted : List Char}
    (h : QuotedAs mark c quoted) (hd : d ∈ quoted) : isLineEnd d = false := by
  cases h with
  | shown _ hp =>
    rw [List.mem_singleton.1 hd]
    exact isLineEnd_of_isPrintable hp
  | letter hl =>
    simp only [List.mem_cons, Prod.mk.injEq, List.not_mem_nil, or_false] at hl hd
    rcases hd with rfl | rfl
    · rfl
    · rcases hm with rfl | rfl <;> rcases hl with ⟨-, rfl⟩ | ⟨-, rfl⟩ | ⟨-, rfl⟩ | ⟨-, rfl⟩ | ⟨-, rfl⟩ <;> rfl
  | digits hl =>
    simp only [List.mem_cons, Prod.mk.injEq, List.not_mem_nil, or_false] at hl hd
    rcases hd with rfl | rfl | hd
    · rfl
    · rcases hl with ⟨rfl, -⟩ | ⟨rfl, -⟩ | ⟨rfl, -⟩ <;> rfl
    · exact isLineEnd_of_mem_hexDigits hd

theorem isLineEnd_of_mem_quote {text : String} {c : Char} (h : c ∈ (quote text).toList) : isLineEnd c = false := by
  have hmark := quoteMark_cases text.toList
  have hend : isLineEnd (quoteMark text.toList) = false := by rcases hmark with he | he <;> rw [he] <;> rfl
  rw [quote, String.toList_ofList, quoteChars] at h
  simp only [List.cons_append, List.mem_cons, List.mem_append, List.mem_flatMap, List.not_mem_nil, or_false] at h
  rcases h with rfl | ⟨d, -, hc⟩ | rfl
  · exact hend
  · exact (quotedAs_quoteChar _ d).isLineEnd hmark hc
  · exact hend

end Markup.Text
