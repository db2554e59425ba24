/-
The double-precision number nearest to a whole one.

A whole number is exact if its first 53 binary digits are all there is to it
(`IsExact`). Rounding keeps the exact ones (`exists_nearest_of_isExact`), so they stay
apart (`nearest_inj`), and no rounding goes past one (`mul_le_of_nearest`). Between
`2 ^ 53` and `2 ^ 54` the exact ones are the even ones, and an odd number is rounded to
one of the two beside it (`exists_nearest_eq_of_odd`).
-/
import Markup.Binary64.Basic
import Mathlib.Data.Nat.Log
import Mathlib.Algebra.Order.Ring.Nat

namespace Markup.Binary64

/-- The number nearest to a whole number. -/
def nearest (n : Nat) : Binary64 := ofDecimal false n 0

/-- Whether 53 binary digits are enough for a number, and zeros behind them. -/
def IsExact (n : Nat) : Prop := 2 ^ (Nat.log2 n - 52) ∣ n

/-! ## Decimal digits -/

theorem digitCount_le_iff {n k : Nat} (hk : 0 < k) : digitCount n ≤ k ↔ n < 10 ^ k :=
  Nat.length_toDigits_le_iff (by decide) hk

theorem digitCount_pos (n : Nat) : 0 < digitCount n := Nat.length_toDigits_pos

theorem lt_pow_digitCount (n : Nat) : n < 10 ^ digitCount n :=
  (digitCount_le_iff (digitCount_pos n)).1 (Nat.le_refl _)

theorem toDigits_mul_pow {n : Nat} (hn : 0 < n) (k : Nat) :
    Nat.toDigits 10 (n * 10 ^ k) = Nat.toDigits 10 n ++ List.replicate k '0' := by
  induction k with
  | zero => rw [Nat.pow_zero, Nat.mul_one, List.replicate_zero, List.append_nil]
  | succ k ih =>
    have hpos : 0 < n * 10 ^ k := Nat.mul_pos hn (Nat.pow_pos (by decide))
    have hstep := Nat.toDigits_append_toDigits (b := 10) (by decide) hpos (d := 0) (by decide)
    rw [Nat.add_zero, Nat.toDigits_zero] at hstep
    calc Nat.toDigits 10 (n * 10 ^ (k + 1))
        = Nat.toDigits 10 (10 * (n * 10 ^ k)) := by rw [Nat.pow_succ, ← Nat.mul_assoc, Nat.mul_comm]
      _ = Nat.toDigits 10 n ++ List.replicate (k + 1) '0' := by
        rw [← hstep, ih, List.append_assoc, List.replicate_succ']

theorem digitCount_mul_pow {n : Nat} (hn : 0 < n) (k : Nat) : digitCount (n * 10 ^ k) = digitCount n + k := by
  rw [digitCount, toDigits_mul_pow hn, List.length_append, List.length_replicate, digitCount]

theorem ofDecimal_natCast (n k : Nat) : ofDecimal false n k = nearest (n * 10 ^ k) := by
  rcases Nat.eq_zero_or_pos n with rfl | hn
  · rw [nearest, Nat.zero_mul, ofDecimal, ofDecimal, if_pos (.inl rfl), if_pos (.inl rfl)]
  · have hpos : n * 10 ^ k ≠ 0 := Nat.ne_of_gt (Nat.mul_pos hn (Nat.pow_pos (by decide)))
    have htop : (digitCount n + k : Int) = digitCount (n * 10 ^ k) + 0 := by
      rw [digitCount_mul_pow hn, Int.natCast_add, Int.add_zero]
    have hscaled : (n * 10 ^ k) * Nat.pow 10 (0 : Int).toNat = n * Nat.pow 10 (k : Int).toNat := Nat.mul_one _
    simp only [nearest, ofDecimal, htop, Nat.ne_of_gt hn, hpos, hscaled, false_or, Int.natCast_nonneg, Int.le_refl, if_true]

/-! ## Rounding -/

theorem le_roundDiv (a d : Nat) : a / d ≤ roundDiv a d := by
  simp only [roundDiv]
  repeat' split
  all_goals omega

theorem roundDiv_of_dvd {a d : Nat} (hd : 0 < d) (h : d ∣ a) : roundDiv a d = a / d := by
  simp only [roundDiv, Nat.mod_eq_zero_of_dvd h]
  rw [if_pos (by omega)]

/-- In the middle between two numbers the even one is taken. -/
theorem roundDiv_of_half {a d : Nat} (h : 2 * (a % d) = d) : roundDiv a d = a / d + a / d % 2 := by
  simp only [roundDiv, h, Nat.lt_irrefl, if_false]
  split
  all_goals omega

theorem log2_mul_two_pow {n : Nat} (hn : n ≠ 0) (e : Nat) : Nat.log2 (n * 2 ^ e) = Nat.log2 n + e := by
  have hpos : 0 < 2 ^ e := Nat.two_pow_pos e
  rw [Nat.log2_eq_iff (Nat.mul_ne_zero hn (Nat.ne_of_gt hpos)), Nat.add_right_comm, Nat.pow_add, Nat.pow_add]
  exact ⟨Nat.mul_le_mul_right _ (Nat.log2_self_le hn), Nat.mul_lt_mul_of_pos_right Nat.lt_log2_self hpos⟩

/-! The lemmas of this section are about a number in units of `2 ^ -e`, of which the last binary digit that
rounding keeps counts `2 ^ s`. -/

section

variable {n e s : Nat} (hs : s + 52 = Nat.log2 n + e)
include hs

theorem IsExact.two_pow_dvd (h : IsExact n) : 2 ^ s ∣ n * 2 ^ e := by
  by_cases hlog : Nat.log2 n ≤ 52
  · exact Dvd.dvd.mul_left (Nat.pow_dvd_pow 2 (by omega)) n
  · have he : s = (Nat.log2 n - 52) + e := by omega
    rw [he, Nat.pow_add]
    exact Nat.mul_dvd_mul_right h _

theorem div_lt_two_pow : n * 2 ^ e / 2 ^ s < 2 ^ 53 := by
  have hexponent : 53 + s = (Nat.log2 n + 1) + e := by omega
  rw [Nat.div_lt_iff_lt_mul (Nat.two_pow_pos s), ← Nat.pow_add, hexponent, Nat.pow_add]
  exact Nat.mul_lt_mul_of_pos_right Nat.lt_log2_self (Nat.two_pow_pos e)

variable (hn : n ≠ 0)
include hn

theorem two_pow_le_div : 2 ^ 52 ≤ n * 2 ^ e / 2 ^ s := by
  rw [Nat.le_div_iff_mul_le (Nat.two_pow_pos s), ← Nat.pow_add, Nat.add_comm, hs, Nat.pow_add]
  exact Nat.mul_le_mul_right _ (Nat.log2_self_le hn)

theorem ofScaled_one : ofScaled false (n * 2 ^ e) 1 =
    if roundDiv (n * 2 ^ e) (2 ^ s) = 2 ^ 53 then
      if 2045 < s + 1 then .infinite false else .finite false (2 ^ 52) (s + 1)
    else if 2045 < s then .infinite false else .finite false (roundDiv (n * 2 ^ e) (2 ^ s)) s := by
  have hscale : scaleOf (n * 2 ^ e) 1 = s := by
    rw [scaleOf, Nat.div_one, log2_mul_two_pow hn]
    omega
  simp only [ofScaled, hscale, Nat.pow_eq, Nat.one_mul]
  split <;> rfl

theorem mul_eq_of_ofScaled {negative : Bool} {significand scale : Nat}
    (h : ofScaled false (n * 2 ^ e) 1 = .finite negative significand scale) :
    significand * 2 ^ scale = roundDiv (n * 2 ^ e) (2 ^ s) * 2 ^ s := by
  rw [ofScaled_one hs hn] at h
  split at h
  next hr =>
    split at h
    next => cases h
    next =>
      cases h
      rw [hr, ← Nat.pow_add, ← Nat.pow_add, Nat.add_comm s, ← Nat.add_assoc]
  next =>
    split at h
    next => cases h
    next => cases h; rfl

theorem IsExact.ofScaled_eq (h : IsExact n) (hle : s ≤ 2045) :
    ofScaled false (n * 2 ^ e) 1 = .finite false (n * 2 ^ e / 2 ^ s) s := by
  have hround : roundDiv (n * 2 ^ e) (2 ^ s) = n * 2 ^ e / 2 ^ s :=
    roundDiv_of_dvd (Nat.two_pow_pos s) (h.two_pow_dvd hs)
  rw [ofScaled_one hs hn, hround, if_neg (Nat.ne_of_lt (div_lt_two_pow hs)), if_neg (Nat.not_lt.2 hle)]

/-- Rounding goes past no exact number. -/
theorem IsExact.mul_le_roundDiv {m : Nat} (hm : IsExact m) (hle : m ≤ n) :
    m * 2 ^ e ≤ roundDiv (n * 2 ^ e) (2 ^ s) * 2 ^ s := by
  rcases Nat.eq_zero_or_pos m with rfl | hpos
  · rw [Nat.zero_mul]
    exact Nat.zero_le _
  have hlog : Nat.log2 m ≤ Nat.log2 n := by
    rw [Nat.log2_eq_log_two, Nat.log2_eq_log_two]
    exact Nat.log_mono_right hle
  have hround := le_roundDiv (n * 2 ^ e) (2 ^ s)
  by_cases heq : Nat.log2 m = Nat.log2 n
  · have hdvd := hm.two_pow_dvd (heq ▸ hs)
    calc m * 2 ^ e = m * 2 ^ e / 2 ^ s * 2 ^ s := (Nat.div_mul_cancel hdvd).symm
      _ ≤ n * 2 ^ e / 2 ^ s * 2 ^ s :=
        Nat.mul_le_mul_right _ (Nat.div_le_div_right (Nat.mul_le_mul_right _ hle))
      _ ≤ roundDiv (n * 2 ^ e) (2 ^ s) * 2 ^ s := Nat.mul_le_mul_right _ hround
  · -- A number of fewer binary digits is under the least one with as many as `n`.
    have hmlt : m ≤ 2 ^ Nat.log2 n :=
      Nat.le_trans (Nat.le_of_lt Nat.lt_log2_self) (Nat.pow_le_pow_right (by decide) (by omega))
    calc m * 2 ^ e ≤ 2 ^ Nat.log2 n * 2 ^ e := Nat.mul_le_mul_right _ hmlt
      _ = 2 ^ 52 * 2 ^ s := by rw [← Nat.pow_add, ← hs, Nat.add_comm, Nat.pow_add]
      _ ≤ n * 2 ^ e / 2 ^ s * 2 ^ s := Nat.mul_le_mul_right _ (two_pow_le_div hs hn)
      _ ≤ roundDiv (n * 2 ^ e) (2 ^ s) * 2 ^ s := Nat.mul_le_mul_right _ hround

end

/-! ## Whole numbers -/

/-- Half of the way from one even number to the next, a number of 54 binary digits is rounded to the one
that four divides. -/
theorem roundDiv_of_odd {n : Nat} (hodd : n % 2 = 1) (e : Nat) :
    roundDiv (n * 2 ^ e) (2 ^ (e + 1)) = n / 2 + n / 2 % 2 := by
  have hpow : 2 ^ (e + 1) = 2 * 2 ^ e := by rw [Nat.pow_succ, Nat.mul_comm]
  have hdiv : n * 2 ^ e / 2 ^ (e + 1) = n / 2 := by
    rw [hpow, Nat.mul_div_mul_right _ _ (Nat.two_pow_pos e)]
  have hmod : n * 2 ^ e % 2 ^ (e + 1) = 2 ^ e := by
    rw [hpow, Nat.mul_mod_mul_right, hodd, Nat.one_mul]
  rw [roundDiv_of_half (by rw [hmod, hpow]), hdiv]

theorem roundDiv_of_even (half e : Nat) : roundDiv (2 * half * 2 ^ e) (2 ^ (e + 1)) = half := by
  have hpow : 2 * half * 2 ^ e = half * 2 ^ (e + 1) := by
    rw [Nat.pow_succ, Nat.mul_comm (2 ^ e), ← Nat.mul_assoc, Nat.mul_comm half]
  rw [hpow, roundDiv_of_dvd (Nat.two_pow_pos _) (Nat.dvd_mul_left ..), Nat.mul_div_cancel _ (Nat.two_pow_pos _)]

theorem isExact_of_lt {n : Nat} (h : n < 2 ^ 53) : IsExact n := by
  rcases Nat.eq_zero_or_pos n with rfl | hn
  · exact Nat.dvd_zero _
  · have hlog := (Nat.log2_lt (Nat.ne_of_gt hn)).2 h
    rw [IsExact, Nat.sub_eq_zero_of_le (by omega), Nat.pow_zero]
    exact Nat.one_dvd n

theorem isExact_of_even {n : Nat} (heven : n % 2 = 0) (h : n < 2 ^ 54) : IsExact n := by
  by_cases hlt : n < 2 ^ 53
  · exact isExact_of_lt hlt
  · have hlog : Nat.log2 n = 53 := (Nat.log2_eq_iff (by omega)).2 ⟨by omega, h⟩
    rw [IsExact, hlog]
    exact Nat.dvd_of_mod_eq_zero heven

theorem nearest_of_ne_zero {n : Nat} (hn : n ≠ 0) :
    nearest n = if 310 < digitCount n then .infinite false else ofScaled false (n * 2 ^ 1074) 1 := by
  have htop : ¬ (digitCount n + 0 : Int) < -330 := by omega
  have hlarge : (310 : Int) < digitCount n + 0 ↔ 310 < digitCount n := by omega
  have hscaled : n * Nat.pow 10 (0 : Int).toNat = n := Nat.mul_one n
  simp only [nearest, ofDecimal, hn, htop, hlarge, hscaled, false_or, if_false, Int.le_refl, if_true]
  rw [Nat.pow_eq]

theorem nearest_eq_ofScaled {n : Nat} (hn : n ≠ 0) (h : Nat.log2 n < 1024) :
    nearest n = ofScaled false (n * 2 ^ 1074) 1 := by
  have hlt : n < 10 ^ 310 :=
    calc n < 2 ^ (Nat.log2 n + 1) := Nat.lt_log2_self
      _ ≤ 2 ^ 1024 := Nat.pow_le_pow_right (by decide) h
      _ ≤ 10 ^ 310 := by decide +kernel
  have hcount := (digitCount_le_iff (by decide)).2 hlt
  rw [nearest_of_ne_zero hn, if_neg (Nat.not_lt.2 hcount)]

/-- The number nearest to an exact one is that one. -/
theorem IsExact.exists_nearest {n : Nat} (h : IsExact n) (hlog : Nat.log2 n < 1024) :
    ∃ significand scale, nearest n = .finite false significand scale ∧ significand * 2 ^ scale = n * 2 ^ 1074 := by
  rcases Nat.eq_zero_or_pos n with rfl | hpos
  · exact ⟨0, 0, rfl, by rw [Nat.zero_mul, Nat.zero_mul]⟩
  · have hn := Nat.ne_of_gt hpos
    have hs : Nat.log2 n + 1022 + 52 = Nat.log2 n + 1074 := rfl
    have hscale : Nat.log2 n + 1022 ≤ 2045 := by omega
    refine ⟨_, _, ?_, Nat.div_mul_cancel (h.two_pow_dvd hs)⟩
    rw [nearest_eq_ofScaled hn hlog, h.ofScaled_eq hs hn hscale]

theorem IsExact.nearest_inj {m n : Nat} (hm : IsExact m) (hmlog : Nat.log2 m < 1024) (hn : IsExact n)
    (hnlog : Nat.log2 n < 1024) (h : nearest m = nearest n) : m = n := by
  obtain ⟨_, _, hmeq, hmval⟩ := hm.exists_nearest hmlog
  obtain ⟨_, _, hneq, hnval⟩ := hn.exists_nearest hnlog
  rw [hmeq, hneq] at h
  cases h
  exact Nat.mul_right_cancel (Nat.two_pow_pos _) (hmval.symm.trans hnval)

theorem IsExact.mul_le_of_nearest {m n : Nat} (hm : IsExact m) (hle : m ≤ n) {negative : Bool}
    {significand scale : Nat} (h : nearest n = .finite negative significand scale) :
    m * 2 ^ 1074 ≤ significand * 2 ^ scale := by
  rcases Nat.eq_zero_or_pos n with rfl | hpos
  · rw [Nat.le_zero.1 hle, Nat.zero_mul]
    exact Nat.zero_le _
  · have hn := Nat.ne_of_gt hpos
    have hs : Nat.log2 n + 1022 + 52 = Nat.log2 n + 1074 := rfl
    rw [nearest_of_ne_zero hn] at h
    split at h
    next => cases h
    next =>
      rw [mul_eq_of_ofScaled hs hn h]
      exact hm.mul_le_roundDiv hs hn hle

/-- An odd number of 54 binary digits is rounded to the one beside it that four divides. -/
theorem nearest_of_odd {n : Nat} (hodd : n % 2 = 1) (hlow : 2 ^ 53 ≤ n) (hhigh : n + 1 < 2 ^ 54) :
    nearest n = nearest (2 * (n / 2 + n / 2 % 2)) := by
  generalize hhalf : n / 2 + n / 2 % 2 = half
  have hdouble : ∀ m, 2 ^ 53 ≤ m → m < 2 ^ 54 → roundDiv (m * 2 ^ 1074) (2 ^ (1074 + 1)) = half →
      nearest m = .finite false half 1075 := by
    intro m hge hlt hround
    have hm : m ≠ 0 := by omega
    have hne : half ≠ 2 ^ 53 := by omega
    have hlog : Nat.log2 m = 53 := (Nat.log2_eq_iff hm).2 ⟨hge, hlt⟩
    have hs : 1075 + 52 = Nat.log2 m + 1074 := by rw [hlog]
    rw [nearest_eq_ofScaled hm (by rw [hlog]; decide), ofScaled_one hs hm, hround, if_neg hne,
      if_neg (by decide)]
  rw [hdouble n hlow (by omega) ((roundDiv_of_odd hodd 1074).trans hhalf),
    hdouble (2 * half) (by omega) (by omega) (roundDiv_of_even half 1074)]

end Markup.Binary64
