/-
How whole numbers are printed.

Of the digits that are tried for an exact number under `10 ^ 16` only its own read back,
but for zeros at the end, so these are written (`toLiteral_nearest`). From `10 ^ 16` on
the point is placed too far behind to be written, and an exponent stands in the number,
or a word (`exists_mem_toLiteral_nearest`).
-/
import Markup.Binary64.Shortest
import Markup.Proofs.NearestNumbers
import Mathlib.Data.List.DropRight

namespace Markup.Binary64

/-! ## The fewest digits -/

/-- The first digits for a number in counts up to a last one, and their count. -/
def found? (number : Binary64) (units length last : Nat) : Option (Nat × Nat) :=
  (List.range' 1 last).findSome? fun count => (decimalOf? number units length count).map fun digits => (digits, count)

section

variable {number : Binary64} {units length count digits : Nat}

/-- The digits for a number are those of one of the two decimals around it, the one that reads back. -/
theorem decimalOf?_eq_some (h : decimalOf? number units length count = some digits) :
    (digits = units / 10 ^ (length - count) ∨ digits = units / 10 ^ (length - count) + 1) ∧
      ofDecimal false digits ((length - count : Nat) - 1074) = number := by
  simp only [decimalOf?, Nat.pow_eq] at h
  split at h
  next hboth =>
    simp only [Bool.and_eq_true, beq_iff_eq] at hboth
    split at h
    next => cases h; exact ⟨.inl rfl, hboth.1⟩
    next =>
    split at h
    next => cases h; exact ⟨.inr rfl, hboth.2⟩
    next =>
    split at h
    next => cases h; exact ⟨.inl rfl, hboth.1⟩
    next => cases h; exact ⟨.inr rfl, hboth.2⟩
  next =>
  split at h
  next hlow => cases h; exact ⟨.inl rfl, beq_iff_eq.1 hlow⟩
  next =>
  split at h
  next hhigh => cases h; exact ⟨.inr rfl, beq_iff_eq.1 hhigh⟩
  next => cases h

/-- Digits that are all that there is to a number are taken if they read back. -/
theorem decimalOf?_of_mod_eq_zero (hpast : units % 10 ^ (length - count) = 0)
    (hreads : ofDecimal false (units / 10 ^ (length - count)) ((length - count : Nat) - 1074) = number) :
    decimalOf? number units length count = some (units / 10 ^ (length - count)) := by
  have hstep : 2 * 0 < 10 ^ (length - count) := by
    rw [Nat.mul_zero]
    exact Nat.pow_pos (by decide)
  simp only [decimalOf?, Nat.pow_eq, hreads, hpast, hstep, beq_self_eq_true, Bool.true_and, if_true]
  split <;> rfl

/-- What is found is the digits for one of the counts. -/
theorem decimalOf?_of_found? {last : Nat} (h : found? number units length last = some (digits, count)) :
    1 ≤ count ∧ count ≤ last ∧ decimalOf? number units length count = some digits := by
  obtain ⟨count, hmem, hcount⟩ := List.exists_of_findSome?_eq_some h
  obtain ⟨digits, hdigits, heq⟩ := Option.map_eq_some_iff.1 hcount
  cases heq
  have hrange := List.mem_range'_1.1 hmem
  exact ⟨hrange.1, by omega, hdigits⟩

/-- Where there are digits for one of the counts, the same are found up to any later one. -/
theorem exists_found?_of_decimalOf? {last : Nat} (hc : 1 ≤ count) (hlast : count ≤ last)
    (h : decimalOf? number units length count = some digits) :
    ∃ first, found? number units length count = some first ∧ found? number units length last = some first := by
  have hsome : (found? number units length count).isSome := by
    refine List.findSome?_isSome_iff.2 ⟨count, List.mem_range'_1.2 ⟨hc, by omega⟩, ?_⟩
    rw [h, Option.map_some, Option.isSome_some]
  obtain ⟨first, hfirst⟩ := Option.isSome_iff_exists.1 hsome
  have hsplit : List.range' 1 last = List.range' 1 count ++ List.range' (1 + count) (last - count) := by
    rw [List.range'_append_1]
    congr 1
    omega
  refine ⟨first, hfirst, ?_⟩
  rw [found?, hsplit, List.findSome?_append, ← found?, hfirst, Option.some_or]

theorem shortestOf_eq (number : Binary64) (units : Nat) :
    shortestOf number units =
      let (digits, count) := (found? number units (digitCount units) 17).getD (units / 10 ^ (digitCount units - 17), 17)
      ((((Nat.toDigits 10 digits).reverse.dropWhile (· == '0')).reverse),
        (digitCount digits : Int) + (digitCount units - count : Nat) - 1074) := rfl

end

/-! ## Exact numbers

The number of places behind the point stays a variable, so that nothing computes with powers of it. -/

section

variable {n places : Nat}

/-- What powers of ten are in a number's units and not in it do not count. -/
theorem mul_pow_div_pow (n k places : Nat) : n * 10 ^ places / 10 ^ (k + places) = n / 10 ^ k := by
  rw [Nat.pow_add, Nat.mul_div_mul_right _ _ (Nat.pow_pos (by decide))]

theorem digitCount_le_of_lt (hlt : n < 10 ^ 16) : digitCount n ≤ 16 := (digitCount_le_iff (by decide)).2 hlt

theorem log2_lt_of_le (h : n ≤ 10 ^ 16) : Nat.log2 n < 1024 := by
  rcases Nat.eq_zero_or_pos n with rfl | hpos
  · decide
  · exact Nat.lt_trans ((Nat.log2_lt (k := 54) (Nat.ne_of_gt hpos)).2 (by omega)) (by decide)

variable (hplaces : places = 1074)
include hplaces

theorem ofDecimal_of_count_le {count : Nat} (hc : count ≤ digitCount n) (digits : Nat) :
    ofDecimal false digits ((digitCount n + places - count : Nat) - 1074) =
      nearest (digits * 10 ^ (digitCount n - count)) := by
  rw [← ofDecimal_natCast]
  congr 1
  omega

/-- All digits of a whole number are digits for the one nearest to it. -/
theorem decimalOf?_digitCount :
    decimalOf? (nearest n) (n * 10 ^ places) (digitCount n + places) (digitCount n) = some n := by
  have hlength : digitCount n + places - digitCount n = places := Nat.add_sub_cancel_left ..
  have hdiv : n * 10 ^ places / 10 ^ places = n := Nat.mul_div_cancel _ (Nat.pow_pos (by decide))
  have hreads := ofDecimal_of_count_le hplaces (Nat.le_refl (digitCount n)) n
  rw [Nat.sub_self, Nat.pow_zero, Nat.mul_one, hlength] at hreads
  rw [decimalOf?_of_mod_eq_zero] <;> rw [hlength]
  · rw [hdiv]
  · exact Nat.mul_mod_left ..
  · rw [hdiv, hreads]

variable (hexact : IsExact n) (hlt : n < 10 ^ 16)
include hexact hlt

/-- No digits but those of an exact number itself, but for zeros, are digits for it. -/
theorem eq_of_decimalOf?_nearest {count digits : Nat} (hc : count ≤ digitCount n)
    (h : decimalOf? (nearest n) (n * 10 ^ places) (digitCount n + places) count = some digits) :
    digits * 10 ^ (digitCount n - count) = n := by
  rcases Nat.eq_or_lt_of_le hc with rfl | hless
  · rw [decimalOf?_digitCount hplaces] at h
    cases h
    rw [Nat.sub_self, Nat.pow_zero, Nat.mul_one]
  · obtain ⟨hdigits, hreads⟩ := decimalOf?_eq_some h
    rw [ofDecimal_of_count_le hplaces hc] at hreads
    obtain ⟨k, hk⟩ : ∃ k, digitCount n - count = k + 1 := ⟨digitCount n - count - 1, by omega⟩
    have hlength : digitCount n + places - count = k + 1 + places := by omega
    rw [hlength, mul_pow_div_pow] at hdigits
    rw [hk] at hreads ⊢
    -- The greater of the two decimals is at most the next power of ten.
    have hbound : digits * 10 ^ (k + 1) ≤ 10 ^ 16 := by
      have hn := lt_pow_digitCount n
      have hcount : digitCount n = count + (k + 1) := by omega
      rw [hcount, Nat.pow_add, ← Nat.div_lt_iff_lt_mul (Nat.pow_pos (by decide))] at hn
      calc digits * 10 ^ (k + 1) ≤ 10 ^ count * 10 ^ (k + 1) := Nat.mul_le_mul_right _ (by omega)
        _ = 10 ^ digitCount n := by rw [← Nat.pow_add, ← hcount]
        _ ≤ 10 ^ 16 := Nat.pow_le_pow_right (by decide) (digitCount_le_of_lt hlt)
    have heven : digits * 10 ^ (k + 1) % 2 = 0 := by
      rw [Nat.pow_succ, ← Nat.mul_assoc]
      omega
    exact (isExact_of_even heven (by omega)).nearest_inj (log2_lt_of_le hbound) hexact
      (log2_lt_of_le (Nat.le_of_lt hlt)) hreads

/-- All digits are found, if not fewer ones, before more are looked for. -/
theorem exists_found?_nearest : ∃ digits count,
    found? (nearest n) (n * 10 ^ places) (digitCount n + places) 17 = some (digits, count) ∧ count ≤ digitCount n ∧
      digits * 10 ^ (digitCount n - count) = n := by
  have hlast : digitCount n ≤ 17 := Nat.le_succ_of_le (digitCount_le_of_lt hlt)
  obtain ⟨⟨digits, count⟩, hfirst, hfound⟩ :=
    exists_found?_of_decimalOf? (digitCount_pos n) hlast (decimalOf?_digitCount hplaces)
  obtain ⟨-, hc, hdigits⟩ := decimalOf?_of_found? hfirst
  exact ⟨digits, count, hfound, hc, eq_of_decimalOf?_nearest hplaces hexact hlt hc hdigits⟩

omit hplaces hexact hlt in
theorem exists_zeros (text : List Char) :
    ∃ zeros, text = (text.reverse.dropWhile (· == '0')).reverse ++ List.replicate zeros '0' := by
  have hzeros : text.rtakeWhile (· == '0') = List.replicate (text.rtakeWhile (· == '0')).length '0' := by
    refine List.eq_replicate_of_mem fun c hm => ?_
    simpa using List.mem_rtakeWhile_imp hm
  have hsplit : text.rdropWhile (· == '0') ++ text.rtakeWhile (· == '0') = text := List.rdropWhile_append_rtakeWhile
  rw [hzeros] at hsplit
  exact ⟨_, hsplit.symm⟩

/-- The fewest digits for an exact number are its own without the zeros at the end, and the point stands
behind all of them. -/
theorem shortestOf_nearest (hpos : 0 < n) : ∃ digits zeros,
    shortestOf (nearest n) (n * 10 ^ places) = (digits, (digitCount n : Int)) ∧
      Nat.toDigits 10 n = digits ++ List.replicate zeros '0' := by
  obtain ⟨digits, count, hfound, hc, hvalue⟩ := exists_found?_nearest hplaces hexact hlt
  have hdigits : 0 < digits := by
    rcases Nat.eq_zero_or_pos digits with rfl | h
    · rw [Nat.zero_mul] at hvalue
      omega
    · exact h
  have htext := toDigits_mul_pow hdigits (digitCount n - count)
  have hlength := digitCount_mul_pow hdigits (digitCount n - count)
  rw [hvalue] at htext hlength
  obtain ⟨zeros, hstrip⟩ := exists_zeros (Nat.toDigits 10 digits)
  generalize hshort : ((Nat.toDigits 10 digits).reverse.dropWhile (· == '0')).reverse = short at hstrip
  refine ⟨short, zeros + (digitCount n - count), ?_, ?_⟩
  · simp only [shortestOf_eq, digitCount_mul_pow hpos, hfound, Option.getD_some, hshort]
    refine Prod.ext rfl ?_
    simp only
    omega
  · rw [htext, ← List.replicate_append_replicate, ← List.append_assoc, ← hstrip]

omit hexact hlt in
theorem units_eq (significand scale : Nat) : units significand scale = significand * 2 ^ scale * 5 ^ places := by
  rw [units, hplaces, Nat.pow_eq, Nat.pow_eq]

/-- An exact number is printed with all of its digits. -/
theorem finiteText_nearest (hpos : 0 < n) {significand scale : Nat} (h : nearest n = .finite false significand scale)
    (hvalue : significand * 2 ^ scale = n * 2 ^ places) :
    finiteText significand scale = Nat.toDigits 10 n ++ ['.', '0'] := by
  have hne : significand ≠ 0 := by
    rintro rfl
    have hzero := Nat.mul_pos hpos (Nat.two_pow_pos places)
    rw [← hvalue, Nat.zero_mul] at hzero
    exact Nat.lt_irrefl 0 hzero
  have hunits : units significand scale = n * 10 ^ places := by
    rw [units_eq hplaces, hvalue, Nat.mul_assoc, ← Nat.mul_pow]
  obtain ⟨digits, zeros, hshortest, htext⟩ := shortestOf_nearest hplaces hexact hlt hpos
  have hlength := congrArg List.length htext
  rw [List.length_append, List.length_replicate] at hlength
  have hcount : (Nat.toDigits 10 n).length = digitCount n := rfl
  have hlow := digitCount_pos n
  have hhigh := digitCount_le_of_lt hlt
  have hzeros : digitCount n - digits.length = zeros := by omega
  rw [finiteText, shortestDigits, if_neg hne, hunits, ← h, hshortest]
  simp only
  rw [if_pos (by omega), positional, if_neg (by omega)]
  simp only [Int.toNat_natCast]
  rw [if_pos (by omega), hzeros, htext]

omit hplaces in
/-- An exact number under `10 ^ 16` is written with its digits. -/
theorem toLiteral_nearest : (nearest n).toLiteral = .ofList (Nat.toDigits 10 n) := by
  have htext : (nearest n).toText.toList = Nat.toDigits 10 n ++ ['.', '0'] := by
    rcases Nat.eq_zero_or_pos n with rfl | hpos
    · decide +kernel
    · obtain ⟨significand, scale, h, hvalue⟩ := hexact.exists_nearest (log2_lt_of_le (Nat.le_of_lt hlt))
      rw [h, toText, String.toList_ofList, finiteText_nearest rfl hexact hlt hpos h hvalue]
      rfl
  have hsuffix : ['.', '0'].isSuffixOf (Nat.toDigits 10 n ++ ['.', '0']) = true := by
    rw [List.isSuffixOf_iff_suffix]
    exact List.suffix_append _ _
  simp only [toLiteral, htext, hsuffix, if_true]
  rw [List.take_left' (by simp)]

end

/-! ## Numbers with an exponent -/

section

variable {number : Binary64} {units places : Nat} (hplaces : places = 1074)

/-- What is found for a number has at least as many digits as were looked for. -/
theorem count_le_digitCount {length count digits : Nat} (hlength : 10 ^ (length - 1) ≤ units)
    (hc : 1 ≤ count ∧ count ≤ length) (hdigits : units / 10 ^ (length - count) ≤ digits) :
    count ≤ digitCount digits := by
  have hexponent : length - 1 = (count - 1) + (length - count) := by omega
  rw [hexponent, Nat.pow_add, ← Nat.le_div_iff_mul_le (Nat.pow_pos (by decide))] at hlength
  by_cases hone : count = 1
  · exact hone ▸ digitCount_pos digits
  · by_contra hless
    have hsmall := (digitCount_le_iff (by omega)).1 (Nat.le_sub_one_of_lt (Nat.lt_of_not_le hless))
    omega

/-- What is taken for a number is not under the digits that it begins with. -/
theorem exists_getD_found? (number : Binary64) (units length : Nat) : ∃ digits count,
    (found? number units length 17).getD (units / 10 ^ (length - 17), 17) = (digits, count) ∧
      (1 ≤ count ∧ count ≤ 17) ∧ units / 10 ^ (length - count) ≤ digits := by
  cases hf : found? number units length 17 with
  | none => exact ⟨_, _, rfl, by decide, Nat.le_refl _⟩
  | some found =>
    obtain ⟨digits, count⟩ := found
    obtain ⟨hlow, hhigh, hdigits⟩ := decimalOf?_of_found? hf
    refine ⟨digits, count, rfl, ⟨hlow, hhigh⟩, ?_⟩
    rcases (decimalOf?_eq_some hdigits).1 with rfl | rfl
    · exact Nat.le_refl _
    · exact Nat.le_succ _

include hplaces in
/-- Of a number with more than sixteen digits before its point, the point is placed behind as many. -/
theorem lt_point_of_shortestOf (h : 10 ^ (16 + places) ≤ units) : 16 < (shortestOf number units).2 := by
  have hlength : 16 + places < digitCount units := by
    rw [← Nat.not_le, digitCount_le_iff (by omega)]
    exact Nat.not_lt.2 h
  obtain ⟨digits, count, hfound, hc, hdigits⟩ := exists_getD_found? number units (digitCount units)
  have hunits : 10 ^ (digitCount units - 1) ≤ units := by
    rw [← Nat.not_lt, ← digitCount_le_iff (by omega)]
    omega
  have hcount := count_le_digitCount hunits (by omega) hdigits
  simp only [shortestOf_eq, hfound]
  omega

end

/-- With an exponent, a number holds its mark, before two characters that may be cut off. -/
theorem exists_scientific_eq (digits : List Char) (point : Int) :
    ∃ front back, scientific digits point = front ++ 'e' :: back ∧ 2 ≤ back.length := by
  obtain ⟨back, hback, hlength⟩ : ∃ back, exponentText (point - 1) = 'e' :: back ∧ 2 ≤ back.length := by
    refine ⟨_, rfl, ?_⟩
    rw [List.length_cons]
    split
    next => exact Nat.succ_le_succ (Nat.succ_pos _)
    next h => exact Nat.le_succ_of_le (Nat.not_lt.1 h)
  unfold scientific
  split
  next => exact ⟨[], back, hback, hlength⟩
  next d => exact ⟨[d], back, congrArg (d :: ·) hback, hlength⟩
  next d ds _ => exact ⟨d :: '.' :: ds, back, congrArg (d :: '.' :: ds ++ ·) hback, hlength⟩

/-- What has an exponent is not cut down to its digits. -/
theorem e_mem_toLiteral {negative : Bool} {significand scale : Nat}
    (h : 16 < (shortestOf (.finite false significand scale) (units significand scale)).2) (hne : significand ≠ 0) :
    'e' ∈ (toLiteral (.finite negative significand scale)).toList := by
  generalize hshortest : shortestOf (.finite false significand scale) (units significand scale) = shortest at h
  obtain ⟨front, back, htext, hback⟩ := exists_scientific_eq shortest.1 shortest.2
  have hfinite : finiteText significand scale = front ++ 'e' :: back := by
    simp only [finiteText, shortestDigits, if_neg hne, hshortest]
    rw [if_neg (by omega), htext]
  simp only [toLiteral, toText, String.toList_ofList, hfinite]
  generalize (if negative then ['-'] else []) = minus
  have hbegins : minus ++ front ++ ['e'] <+: minus ++ (front ++ 'e' :: back) := ⟨back, by simp⟩
  have hmark : 'e' ∈ minus ++ front ++ ['e'] := List.mem_append_right _ (List.mem_singleton_self _)
  split
  next =>
    rw [String.toList_ofList]
    refine (List.prefix_take_iff.2 ⟨hbegins, ?_⟩).subset hmark
    simp only [List.length_append, List.length_cons, List.length_nil]
    omega
  next =>
    rw [String.toList_ofList]
    exact hbegins.subset hmark

/-- From `10 ^ 16` on a number is not written in digits alone. -/
theorem exists_mem_toLiteral_nearest {n : Nat} (h : 10 ^ 16 ≤ n) :
    ∃ c ∈ (nearest n).toLiteral.toList, c.isDigit = false := by
  cases hn : nearest n with
  | infinite negative => cases negative <;> exact ⟨'i', by decide +kernel, rfl⟩
  | nan => exact ⟨'n', by decide +kernel, rfl⟩
  | finite negative significand scale =>
    have hexact : IsExact (10 ^ 16) := isExact_of_even (by decide) (by decide)
    have hvalue := hexact.mul_le_of_nearest h hn
    obtain ⟨places, hplaces⟩ : ∃ places, places = 1074 := ⟨_, rfl⟩
    rw [← hplaces] at hvalue
    have hpos : 0 < significand * 2 ^ scale :=
      Nat.lt_of_lt_of_le (Nat.mul_pos (by decide) (Nat.two_pow_pos places)) hvalue
    have hunits : 10 ^ (16 + places) ≤ units significand scale := by
      rw [units_eq hplaces]
      calc 10 ^ (16 + places) = 10 ^ 16 * 2 ^ places * 5 ^ places := by
            rw [Nat.mul_assoc, ← Nat.mul_pow, Nat.pow_add]
        _ ≤ significand * 2 ^ scale * 5 ^ places := Nat.mul_le_mul_right _ hvalue
    exact ⟨'e', e_mem_toLiteral (lt_point_of_shortestOf hplaces hunits) (by rintro rfl; simp at hpos), rfl⟩

end Markup.Binary64
