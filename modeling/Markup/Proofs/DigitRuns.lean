/-
How digits come out.

A text of digits is one token, and the number that it writes is the nearest one to their
value. What is printed for that are the digits again exactly if the number is under
`10 ^ 16` and is even or at most `2 ^ 53` (`compile_digits`): these are exact, the other
ones under `10 ^ 16` are rounded to even ones, and from there on an exponent is written.
-/
import Markup.Compile
import Markup.Proofs.BlankFacts
import Markup.Proofs.ExpandSteps
import Markup.Proofs.Lexemes
import Markup.Proofs.NumberLiterals
import Markup.Proofs.PrintedNumbers
import Markup.Proofs.WholeNumbers

namespace Markup

/-! ## What digits write -/

namespace Numeral

theorem moreDigits_of_isDigit {digits : List Char} (hd : ∀ c ∈ digits, c.isDigit = true) :
    moreDigits Char.isDigit digits = (digits, []) := by
  fun_induction moreDigits Char.isDigit digits with
  | case1 | case2 =>
    have hunderscore := hd '_' List.mem_cons_self
    cases hunderscore
  | case3 c cs _ hc more rest hm ih =>
    obtain ⟨rfl, rfl⟩ := Prod.mk.injEq .. ▸ hm ▸ ih fun d hm => hd d (List.mem_cons_of_mem _ hm)
    rfl
  | case4 c cs _ hc => exact absurd (hd c List.mem_cons_self) hc
  | case5 => rfl

theorem ofText?_of_isDigit {digits : List Char} (hne : digits ≠ []) (hd : ∀ c ∈ digits, c.isDigit = true) :
    Binary64.ofText? (.ofList digits) = some (.nearest (value digits)) := by
  have hnumber : ∀ c ∈ digits, Text.isNumberChar c = true := by
    intro c hc
    rw [Text.isNumberChar, hd c hc, Bool.true_or, Bool.true_or]
  obtain ⟨c, more, rfl⟩ := List.exists_cons_of_ne_nil hne
  obtain ⟨hc, hmore⟩ := List.forall_mem_cons.1 hd
  have hdigits : digits? (c :: more) = some (c :: more, []) := by
    simp only [digits?, digitsOf?, hc, moreDigits_of_isDigit hmore, if_true]
  rw [Binary64.ofText?, plain_run hnumber, sign_of_isDigit hc]
  simp only [mantissa?, hdigits, List.append_nil]
  rfl

/-! ## The digits of a value -/

theorem digitChar_of_isDigit {c : Char} (hc : c.isDigit = true) :
    digitValue c < 10 ∧ (digitValue c).digitChar = c ∧ (c ≠ '0' → 0 < digitValue c) := by
  have hall : ∀ n < 58, (Char.ofNat n).isDigit = true → digitValue (Char.ofNat n) < 10 ∧
      (digitValue (Char.ofNat n)).digitChar = Char.ofNat n ∧
      (Char.ofNat n ≠ '0' → 0 < digitValue (Char.ofNat n)) := by
    decide +kernel
  have hn := hall c.toNat (Nat.lt_succ_of_le (toNat_le_of_isDigit hc))
  rw [Char.ofNat_toNat] at hn
  exact hn hc

theorem value_append (digits : List Char) (c : Char) : value (digits ++ [c]) = 10 * value digits + digitValue c := by
  rw [value, valueIn, List.foldl_append]
  rfl

/-- Digits that do not begin with a zero are those of their value, and it is not zero. -/
theorem toDigits_value_of_head_ne {digits : List Char} (hne : digits ≠ []) (hd : ∀ c ∈ digits, c.isDigit = true)
    (hz : digits.head? ≠ some '0') : 0 < value digits ∧ Nat.toDigits 10 (value digits) = digits := by
  induction digits using List.reverseRecOn with
  | nil => exact absurd rfl hne
  | append_singleton front c ih =>
    obtain ⟨hlt, hchar, hpos⟩ := digitChar_of_isDigit (hd c (by simp))
    rw [value_append]
    cases front with
    | nil =>
      have hc := hpos (by simpa using hz)
      have hzero : value [] = 0 := rfl
      rw [hzero, Nat.mul_zero, Nat.zero_add, Nat.toDigits_of_lt_base hlt, hchar]
      exact ⟨hc, rfl⟩
    | cons d front =>
      obtain ⟨hfront, hdigits⟩ := ih (List.cons_ne_nil _ _) (fun e he => hd e (List.mem_append_left _ he)) hz
      refine ⟨by omega, ?_⟩
      rw [← Nat.toDigits_append_toDigits (by decide) hfront hlt, hdigits, Nat.toDigits_of_lt_base hlt, hchar]

/-- Digits are those of their value, if no zero stands before others. -/
theorem toDigits_value {digits : List Char} (hne : digits ≠ []) (hd : ∀ c ∈ digits, c.isDigit = true)
    (hz : digits.head? = some '0' → digits = ['0']) : Nat.toDigits 10 (value digits) = digits := by
  by_cases hhead : digits.head? = some '0'
  · rw [hz hhead]
    decide
  · exact (toDigits_value_of_head_ne hne hd hhead).2

end Numeral

namespace Binary64

theorem toDigits_inj {m n : Nat} (h : Nat.toDigits 10 m = Nat.toDigits 10 n) : m = n := by
  have hvalue := congrArg (fun digits => Nat.ofDigitChars 10 digits 0) h
  simpa only [Nat.ofDigitChars_ten_toDigits] using hvalue

/-- What is written for the number nearest to a whole one is that one's digits exactly if it is under
`10 ^ 16`, and even or at most `2 ^ 53`. -/
theorem toLiteral_nearest_eq_iff (n : Nat) : (nearest n).toLiteral = .ofList (Nat.toDigits 10 n) ↔
    n < 10 ^ 16 ∧ (n ≤ 2 ^ 53 ∨ n % 2 = 0) := by
  have hlarge : ∀ m k, 10 ^ 16 ≤ m → (nearest m).toLiteral ≠ .ofList (Nat.toDigits 10 k) := by
    intro m k hm h
    obtain ⟨c, hc, hdigit⟩ := exists_mem_toLiteral_nearest hm
    rw [h, String.toList_ofList] at hc
    rw [isDigit_of_mem_toDigits hc] at hdigit
    cases hdigit
  by_cases hlt : n < 10 ^ 16
  · by_cases hexact : n ≤ 2 ^ 53 ∨ n % 2 = 0
    · have h : IsExact n := by
        rcases hexact with hle | heven
        · rcases Nat.lt_or_eq_of_le hle with hless | rfl
          · exact isExact_of_lt hless
          · exact isExact_of_even (by decide) (by decide)
        · exact isExact_of_even heven (by omega)
      exact iff_of_true (toLiteral_nearest h hlt) ⟨hlt, hexact⟩
    · -- An odd number is written as the even one that it is rounded to.
      refine iff_of_false (fun h => ?_) (fun h => hexact h.2)
      rw [nearest_of_odd (by omega) (by omega) (by omega)] at h
      generalize hm : 2 * (n / 2 + n / 2 % 2) = m at h
      by_cases hmlt : m < 10 ^ 16
      · rw [toLiteral_nearest (isExact_of_even (by omega) (by omega)) hmlt, String.ofList_inj] at h
        have heq := toDigits_inj h
        omega
      · exact hlarge m n (Nat.not_lt.1 hmlt) h
  · exact iff_of_false (hlarge n n (Nat.not_lt.1 hlt)) (fun h => hlt h.1)

theorem strip_toLiteral (number : Binary64) : Text.strip number.toLiteral = number.toLiteral := by
  have hblank : ∀ c ∈ number.toLiteral.toList, Text.isAsciiBlank c = false := by
    intro c hc
    have hprinted := isPrintedChar_of_mem_toLiteral hc
    cases hb : Text.isAsciiBlank c with
    | false => rfl
    | true =>
      simp only [Text.isAsciiBlank, Bool.or_eq_true, beq_iff_eq] at hb
      rcases hb with ((rfl | rfl) | rfl) | rfl <;> cases hprinted
  rw [Text.strip, Text.trimWhile_eq_self hblank, String.ofList_toList]

end Binary64

/-! ## Documents of digits -/

namespace Node

theorem exists_ofText_of_isDigit {source : String} (hne : source ≠ "") (hd : ∀ c ∈ source.toList, c.isDigit = true) :
    ∃ span, ofText source = .ok [.number (.nearest (Numeral.value source.toList)) span] := by
  obtain ⟨c, more, hcs⟩ := List.exists_cons_of_ne_nil (show source.toList ≠ [] by simpa using hne)
  have hvalue := Numeral.ofText?_of_isDigit (by simp [hcs]) hd
  generalize Binary64.nearest (Numeral.value source.toList) = number at hvalue
  rw [hcs] at hd hvalue
  obtain ⟨hc, hmore⟩ := List.forall_mem_cons.1 hd
  have hrun : Token.Run Text.isNumberChar more more [] := by
    refine ⟨(List.append_nil _).symm, fun d hm => ?_, nofun⟩
    rw [Text.isNumberChar, hmore d hm, Bool.true_or, Bool.true_or]
  have hreads := Token.Reads.step (.number hc hrun hvalue) (.refl [])
  rw [← hcs] at hreads
  have hscan := Token.scan_ok_iff.2 ⟨_, hreads, rfl⟩
  refine ⟨⟨.first, Position.first.advance source.toList⟩, ?_⟩
  simp only [ofText, hscan, List.append_nil, Token.place, List.singleton_append]
  rfl

end Node

theorem compile_eq_of_isDigit {source : String} (hne : source ≠ "") (hd : ∀ c ∈ source.toList, c.isDigit = true)
    {setting : Setting} (hl : 0 < setting.limit) (disk : Disk) :
    compile setting disk source = .ok (Binary64.nearest (Numeral.value source.toList)).toLiteral := by
  obtain ⟨span, hnodes⟩ := Node.exists_ofText_of_isDigit hne hd
  have hnode : ∀ doc : Document, Document.expandNode disk setting.limit
      (.number (.nearest (Numeral.value source.toList)) span) doc =
        (.ok (Binary64.nearest (Numeral.value source.toList)).toLiteral, doc) := by
    intro doc
    rw [← Nat.sub_add_cancel hl]
    rfl
  simp only [compile, hnodes, Setting.output, Document.expand_cons_of_ok (hnode _)]
  simp only [Document.expand, Except.map, String.append_empty, Binary64.strip_toLiteral]

/-- A run of digits, without a zero before others, is compiled under every setting that leaves room for a
node and with every disk, and to that very run exactly if its value is under `10 ^ 16`, and even or at most
`2 ^ 53`. -/
theorem compile_digits {source : String} (hne : source ≠ "") (hd : ∀ c ∈ source.toList, c.isDigit = true)
    (hz : source.toList.head? = some '0' → source = "0") {setting : Setting} (hl : 0 < setting.limit) (disk : Disk) :
    ∃ text, compile setting disk source = .ok text ∧
      (text = source ↔ Numeral.value source.toList < 10 ^ 16 ∧
        (Numeral.value source.toList ≤ 2 ^ 53 ∨ Numeral.value source.toList % 2 = 0)) := by
  refine ⟨_, compile_eq_of_isDigit hne hd hl disk, ?_⟩
  have hdigits : source = .ofList (Nat.toDigits 10 (Numeral.value source.toList)) := by
    rw [Numeral.toDigits_value (by simpa using hne) hd fun h => by rw [hz h]; rfl, String.ofList_toList]
  rw [← Binary64.toLiteral_nearest_eq_iff, ← hdigits]

/-- A number of sixteen digits comes out as it is written, but not the first one that is not exact. -/
theorem compile_digits_sixteen :
    (∀ c ∈ "4111111111111112".toList, c.isDigit = true) ∧ (∀ c ∈ "9007199254740993".toList, c.isDigit = true) ∧
      ∀ disk : Disk, let setting : Setting := ⟨"", [], [], default, 1⟩
        compile setting disk "4111111111111112" = .ok "4111111111111112" ∧
          ∃ text, compile setting disk "9007199254740993" = .ok text ∧ text ≠ "9007199254740993" := by
  have heven : ∀ c ∈ "4111111111111112".toList, c.isDigit = true := List.all_eq_true.1 (by decide +kernel)
  have hodd : ∀ c ∈ "9007199254740993".toList, c.isDigit = true := List.all_eq_true.1 (by decide +kernel)
  refine ⟨heven, hodd, fun disk => ?_⟩
  intro setting
  have hl : 0 < setting.limit := Nat.one_pos
  obtain ⟨text, htext, hkept⟩ := compile_digits (by decide) heven nofun hl disk
  obtain ⟨other, hother, hlost⟩ := compile_digits (by decide) hodd nofun hl disk
  refine ⟨?_, other, hother, fun h => ?_⟩
  · rw [htext, hkept.2 (by decide +kernel)]
  · exact absurd (hlost.1 h) (by decide +kernel)

/-- The first number of seventeen digits, which is exact, comes out with an exponent. -/
theorem compile_exponent :
    (∀ c ∈ "10000000000000000".toList, c.isDigit = true) ∧ "10000000000000000".toList.head? ≠ some '0' ∧
      ∀ (setting : Setting) (disk : Disk), 0 < setting.limit →
        compile setting disk "10000000000000000" = .ok "1e+16" := by
  have hd : ∀ c ∈ "10000000000000000".toList, c.isDigit = true := List.all_eq_true.1 (by decide +kernel)
  have hliteral : (Binary64.nearest (Numeral.value "10000000000000000".toList)).toLiteral = "1e+16" := by decide +kernel
  refine ⟨hd, by decide, fun setting disk hl => ?_⟩
  rw [compile_eq_of_isDigit (by decide) hd hl, hliteral]

end Markup
