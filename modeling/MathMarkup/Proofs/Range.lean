/-
MathMarkup/Proofs/Range.lean

Which numbers are out of the range of a binary format.  A fraction is rounded at the
exponent at which its significand has full precision, so what is rounded lies below
`2 ^ precision` and, unless the exponent is the least one, not below half of that
(`exponentFor_spec`).  Rounding goes out of the range in two ways: the exponent is already
too large, or it is the greatest one and the significand is rounded up to
`2 ^ precision`.  Both together are one bound, half a unit above the greatest number of the
format (`BinaryFormat.limit`); the number half way itself is rounded up, since the
greatest significand is odd.

Decimals are fractions, apart from those whose size is known from the number of their
digits; these are on the right side of the bound (`Decimal.round_eq_none_iff`).
-/
import Mathlib.Algebra.Order.Field.Power
import Mathlib.Data.Rat.Cast.Order
import Mathlib.Tactic.Linarith
import Mathlib.Tactic.Positivity
import Mathlib.Tactic.Ring
import MathMarkup.Number.Binary32

namespace MathMarkup

/-! ### Fractions -/

theorem cast_pow (b k : Nat) : ((Nat.pow b k : Nat) : ℚ) = (b : ℚ) ^ k :=
  Nat.cast_pow b k

theorem scaleDown_pos {num den : Nat} (hden : 0 < den) (e : Int) :
    0 < (scaleDown num den e).2 := by
  unfold scaleDown
  split
  · exact Nat.mul_pos hden (Nat.pow_pos (by decide))
  · exact hden

theorem scaleDown_eq (num den : Nat) (e : Int) :
    ((scaleDown num den e).1 : ℚ) / (scaleDown num den e).2 = num / den * 2 ^ (-e) := by
  unfold scaleDown
  split
  · next he =>
    obtain ⟨k, rfl⟩ := Int.eq_ofNat_of_zero_le he
    simp only [Int.toNat_natCast, Nat.cast_mul, cast_pow, zpow_neg, zpow_natCast, Nat.cast_ofNat]
    rw [div_mul_eq_div_div, div_eq_mul_inv (_ / _)]
  · next he =>
    obtain ⟨k, hk⟩ := Int.eq_ofNat_of_zero_le (show 0 ≤ -e by omega)
    simp only [hk, Int.toNat_natCast, Nat.cast_mul, cast_pow, zpow_natCast, Nat.cast_ofNat]
    rw [mul_div_right_comm]

/-- A quotient below `2 ^ p` is rounded up to it if it is not further below than a half. -/
theorem roundDiv_eq_iff {num den p : Nat} (hp : 0 < p) (h : num < 2 ^ p * den) :
    roundDiv num den = 2 ^ p ↔ (2 ^ (p + 1) - 1) * den ≤ 2 * num := by
  obtain ⟨k, hk⟩ : ∃ k, 2 ^ p = 2 * k := ⟨2 ^ (p - 1), by rw [← Nat.pow_succ']; congr; omega⟩
  have hkpos : 0 < 2 * k := hk ▸ Nat.two_pow_pos p
  have hdenpos : 0 < den := by
    rcases Nat.eq_zero_or_pos den with rfl | hden
    · simp at h
    · exact hden
  have hdiv : den * (num / den) + num % den = num := Nat.div_add_mod num den
  have hmod : num % den < den := Nat.mod_lt num hdenpos
  have hquotient : num / den < 2 * k := by
    rw [Nat.div_lt_iff_lt_mul hdenpos, ← hk]
    exact h
  rw [Nat.pow_succ', hk]
  unfold roundDiv
  generalize num / den = q at hdiv hquotient ⊢
  generalize num % den = r at hdiv hmod ⊢
  subst hdiv
  rcases Nat.lt_or_eq_of_le (Nat.succ_le_of_lt hquotient) with hlt | heq
  · -- One more than the quotient is still not enough.
    have hmul : den * (q + 2) ≤ den * (2 * k) := Nat.mul_le_mul_left den hlt
    have hpred : (2 * (2 * k) - 1) * den = 2 * (den * (2 * k)) - den := by
      rw [Nat.sub_mul, Nat.one_mul, Nat.mul_comm den, Nat.mul_assoc]
    rw [Nat.mul_add] at hmul
    have hrounded : ∀ c : Bool, (if c then q + 1 else q) ≠ 2 * k := by
      intro c
      cases c <;> simp <;> omega
    simp only [hpred]
    constructor
    · intro h
      exact absurd h (hrounded _)
    · intro h
      omega
  · -- The quotient is odd, so that a half is rounded up.
    have hodd : q % 2 = 1 := by omega
    have hpred : (2 * (2 * k) - 1) * den = 2 * (den * q) + den := by
      have : 2 * (2 * k) - 1 = 2 * q + 1 := by omega
      rw [this, Nat.add_mul, Nat.mul_assoc, Nat.mul_comm q den, Nat.one_mul]
    rw [hpred, ← heq]
    simp only [hodd, beq_self_eq_true, Bool.and_true, Bool.or_eq_true, decide_eq_true_eq,
      beq_iff_eq]
    split
    · omega
    · omega

namespace BinaryFormat

/-! ### Exponents -/

/-- The numbers from here on are out of the range: half a unit above the greatest one. -/
def limit (f : BinaryFormat) : ℚ :=
  (2 ^ (f.precision + 1) - 1) * 2 ^ (f.maxExponent - 1)

variable {f : BinaryFormat} {num den : Nat}

/-- A fraction lies within a factor of two of its power of two. -/
theorem ratio_bounds (hnum : 0 < num) (hden : 0 < den) :
    (2 : ℚ) ^ ((Nat.log2 num : Int) - Nat.log2 den - 1) < num / den ∧
      (num / den : ℚ) < 2 ^ ((Nat.log2 num : Int) - Nat.log2 den + 1) := by
  have hlow {n : Nat} (hn : 0 < n) : (2 : ℚ) ^ (Nat.log2 n : Int) ≤ n := by
    rw [zpow_natCast]
    exact_mod_cast Nat.log2_self_le hn.ne'
  have hhigh (n : Nat) : (n : ℚ) < 2 ^ ((Nat.log2 n : Int) + 1) := by
    have h : n < 2 ^ (Nat.log2 n + 1) := Nat.lt_log2_self
    rw [← Nat.cast_succ, zpow_natCast]
    exact_mod_cast h
  have hdenpos : (0 : ℚ) < den := by exact_mod_cast hden
  constructor
  · rw [lt_div_iff₀ hdenpos]
    calc (2 : ℚ) ^ ((Nat.log2 num : Int) - Nat.log2 den - 1) * den
        < 2 ^ ((Nat.log2 num : Int) - Nat.log2 den - 1) * 2 ^ ((Nat.log2 den : Int) + 1) := by
          exact mul_lt_mul_of_pos_left (hhigh den) (by positivity)
      _ = 2 ^ (Nat.log2 num : Int) := by rw [← zpow_add₀ two_ne_zero]; congr 1; omega
      _ ≤ num := hlow hnum
  · rw [div_lt_iff₀ hdenpos]
    calc (num : ℚ) < 2 ^ ((Nat.log2 num : Int) + 1) := hhigh num
      _ = 2 ^ ((Nat.log2 num : Int) - Nat.log2 den + 1) * 2 ^ (Nat.log2 den : Int) := by
          rw [← zpow_add₀ two_ne_zero]; congr 1; omega
      _ ≤ 2 ^ ((Nat.log2 num : Int) - Nat.log2 den + 1) * den := by
          exact mul_le_mul_of_nonneg_left (hlow hden) (by positivity)

/-- A bound on a scaled fraction is one on the fraction. -/
theorem le_scaleDown_iff (hden : 0 < den) (e : Int) (a b : Nat) (hb : 0 < b) :
    a * (scaleDown num den e).2 ≤ b * (scaleDown num den e).1 ↔
      (a / b : ℚ) * 2 ^ e ≤ num / den := by
  have hd : (0 : ℚ) < (scaleDown num den e).2 := by exact_mod_cast scaleDown_pos hden e
  have hscale : (0 : ℚ) < 2 ^ e := by positivity
  have hbpos : (0 : ℚ) < b := by exact_mod_cast hb
  have hratio := scaleDown_eq num den e
  rw [zpow_neg, ← div_eq_mul_inv] at hratio
  rw [← le_div_iff₀ hscale, ← hratio, div_le_div_iff₀ hbpos hd, mul_comm (_ : ℚ) (b : ℚ)]
  exact_mod_cast Iff.rfl

/-- A ratio reaches a power of two if, scaled down, it reaches full precision. -/
theorem pow_le_scaleDown_iff (hden : 0 < den) (p : Nat) (e : Int) :
    2 ^ p * (scaleDown num den e).2 ≤ (scaleDown num den e).1 ↔
      (2 : ℚ) ^ (p + e) ≤ num / den := by
  rw [← Nat.one_mul (scaleDown num den e).1, le_scaleDown_iff hden e (2 ^ p) 1 one_pos,
    zpow_add₀ two_ne_zero, zpow_natCast]
  simp

/-- What is rounded has full precision and no more, unless the exponent is the least
one. -/
theorem exponentFor_spec (hnum : 0 < num) (hden : 0 < den) :
    (num / den : ℚ) < 2 ^ (f.precision + f.exponentFor num den) ∧
      f.minExponent ≤ f.exponentFor num den ∧
      (f.minExponent < f.exponentFor num den →
        (2 : ℚ) ^ (f.precision + f.exponentFor num den - 1) ≤ num / den) := by
  obtain ⟨hlow, hhigh⟩ := ratio_bounds hnum hden
  generalize he : (Nat.log2 num : Int) - Nat.log2 den - f.precision = e
  have hfull : Nat.pow 2 f.precision ≤ (scaleDown num den e).1 / (scaleDown num den e).2 ↔
      (2 : ℚ) ^ (f.precision + e) ≤ num / den := by
    rw [Nat.le_div_iff_mul_le (scaleDown_pos hden e)]
    exact pow_le_scaleDown_iff hden f.precision e
  -- The exponent before it is held above the least one.
  obtain ⟨e', he', hbelow, habove⟩ : ∃ e' : Int,
      f.exponentFor num den = max e' f.minExponent ∧
        (num / den : ℚ) < 2 ^ (f.precision + e') ∧
        (2 : ℚ) ^ (f.precision + e' - 1) ≤ num / den := by
    by_cases hc : (2 : ℚ) ^ (f.precision + e) ≤ num / den
    · refine ⟨e + 1, ?_, ?_, ?_⟩
      · simp only [exponentFor, he, hfull.mpr hc, if_true]
      · exact hhigh.trans_eq (congrArg _ (by omega))
      · exact (congrArg _ (by omega)).trans_le hc
    · refine ⟨e, ?_, not_le.mp hc, ?_⟩
      · simp only [exponentFor, he, mt hfull.mp hc, if_false]
      · exact (congrArg _ (by omega)).trans_le hlow.le
  rw [he']
  refine ⟨hbelow.trans_le ?_, le_max_right _ _, fun hmin => ?_⟩
  · exact zpow_le_zpow_right₀ one_le_two (by omega)
  · rwa [max_eq_left (by omega)]

theorem limit_eq (f : BinaryFormat) :
    f.limit = ((2 ^ (f.precision + 1) - 1 : Nat) / (2 : Nat) : ℚ) * 2 ^ f.maxExponent := by
  have hcast : ((2 ^ (f.precision + 1) - 1 : Nat) : ℚ) = 2 ^ (f.precision + 1) - 1 := by
    rw [Nat.cast_sub Nat.one_le_two_pow]
    simp
  rw [hcast, limit, zpow_sub_one₀ two_ne_zero]
  push_cast
  ring

/-- The limit lies between the last two powers of two. -/
theorem limit_bounds (f : BinaryFormat) :
    (2 : ℚ) ^ (f.precision + f.maxExponent - 1) ≤ f.limit ∧
      f.limit ≤ 2 ^ (f.precision + f.maxExponent) := by
  have hsplit : (2 : ℚ) ^ (f.precision + f.maxExponent) =
      2 ^ (f.precision + 1) * 2 ^ (f.maxExponent - 1) := by
    rw [← zpow_natCast, ← zpow_add₀ two_ne_zero]
    congr 1
    push_cast
    ring
  have hpower : (0 : ℚ) < 2 ^ (f.maxExponent - 1) := by positivity
  have hone : (1 : ℚ) ≤ 2 ^ f.precision := one_le_pow₀ one_le_two
  constructor
  · rw [zpow_sub_one₀ two_ne_zero, hsplit, limit, pow_succ]
    have := mul_le_mul_of_nonneg_right hone hpower.le
    linarith
  · rw [hsplit, limit]
    linarith

/-- Whether rounding goes up to the next power of two. -/
theorem roundsUp_iff (hp : 0 < f.precision) (hden : 0 < den) {e : Int}
    (he : (num / den : ℚ) < 2 ^ (f.precision + e)) :
    roundDiv (scaleDown num den e).1 (scaleDown num den e).2 = 2 ^ f.precision ↔
      ((2 ^ (f.precision + 1) - 1 : Nat) / (2 : Nat) : ℚ) * 2 ^ e ≤ num / den := by
  have hbelow : (scaleDown num den e).1 < 2 ^ f.precision * (scaleDown num den e).2 :=
    Nat.lt_of_not_le fun hle => not_le.mpr he ((pow_le_scaleDown_iff hden f.precision e).mp hle)
  rw [roundDiv_eq_iff hp hbelow, le_scaleDown_iff hden e _ 2 two_pos]

/-- Out of the range is what has too large an exponent after rounding. -/
theorem round_eq_none_iff_lt (hnum : 0 < num) : f.round num den = none ↔ f.maxExponent <
    if roundDiv (scaleDown num den (f.exponentFor num den)).1
      (scaleDown num den (f.exponentFor num den)).2 = 2 ^ f.precision
    then f.exponentFor num den + 1 else f.exponentFor num den := by
  have hzero : (num == 0) = false := by simpa using hnum.ne'
  simp only [round, hzero, Bool.false_eq_true, if_false, beq_iff_eq, Nat.pow_eq]
  split <;> simp

/-- **A fraction is out of the range exactly from the limit on.** -/
theorem round_eq_none_iff (hp : 0 < f.precision) (hf : f.minExponent ≤ f.maxExponent)
    (hden : 0 < den) : f.round num den = none ↔ f.limit ≤ (num / den : ℚ) := by
  obtain ⟨hlow, hhigh⟩ := f.limit_bounds
  rcases Nat.eq_zero_or_pos num with rfl | hnum
  · have hlimit : 0 < f.limit := lt_of_lt_of_le (by positivity) hlow
    simpa [round] using hlimit
  obtain ⟨hbelow, hmin, habove⟩ := exponentFor_spec (f := f) hnum hden
  rw [round_eq_none_iff_lt hnum]
  generalize f.exponentFor num den = e at hbelow hmin habove
  rcases lt_trichotomy e f.maxExponent with hlt | rfl | hgt
  · -- There is room for one more power of two.
    have hroom : (2 : ℚ) ^ (f.precision + e) ≤ 2 ^ (f.precision + f.maxExponent - 1) :=
      zpow_le_zpow_right₀ one_le_two (by omega)
    refine iff_of_false ?_ (not_le.mpr (hbelow.trans_le (hroom.trans hlow)))
    split <;> omega
  · rw [limit_eq, ← roundsUp_iff hp hden hbelow]
    split <;> simp [*]
  · have hpower : (2 : ℚ) ^ (f.precision + f.maxExponent) ≤ 2 ^ (f.precision + e - 1) :=
      zpow_le_zpow_right₀ one_le_two (by omega)
    refine iff_of_true ?_ (hhigh.trans (hpower.trans (habove (by omega))))
    split <;> omega

end BinaryFormat

namespace Decimal

/-! ### Decimals -/

/-- The number that a decimal stands for. -/
def value (d : Decimal) : ℚ :=
  d.digits * 10 ^ d.exponent

theorem ratio_pos (d : Decimal) : 0 < d.ratio.2 := by
  unfold ratio
  split
  · exact Nat.one_pos
  · exact Nat.pow_pos (by decide)

theorem ratio_eq (d : Decimal) : (d.ratio.1 / d.ratio.2 : ℚ) = d.value := by
  unfold ratio value
  split
  · next he =>
    obtain ⟨k, hk⟩ := Int.eq_ofNat_of_zero_le he
    simp [hk]
  · next he =>
    obtain ⟨k, hk⟩ := Int.eq_ofNat_of_zero_le (show 0 ≤ -d.exponent by omega)
    obtain hexponent : d.exponent = -(k : Int) := by omega
    simp [hexponent, div_eq_mul_inv]

theorem digits_lt (n : Nat) : n < 10 ^ digitCount n :=
  (Nat.length_toDigits_le_iff (by decide) Nat.length_toDigits_pos).mp (Nat.le_refl _)

theorem le_digits {n : Nat} (hn : 0 < n) : 10 ^ (digitCount n - 1) ≤ n := by
  rcases Nat.eq_zero_or_pos (digitCount n - 1) with hone | hmore
  · rw [hone]
    exact hn
  · refine Nat.le_of_not_lt fun hlt => ?_
    have hle : digitCount n ≤ digitCount n - 1 :=
      (Nat.length_toDigits_le_iff (by decide) hmore).mpr hlt
    omega

/-- A decimal lies within a factor of ten of its leading digit's place. -/
theorem value_bounds {d : Decimal} (hd : 0 < d.digits) :
    (10 : ℚ) ^ (digitCount d.digits + d.exponent - 1) ≤ d.value ∧
      d.value < 10 ^ (digitCount d.digits + d.exponent) := by
  have hcount : 0 < digitCount d.digits := Nat.length_toDigits_pos
  have hpower : (0 : ℚ) < 10 ^ d.exponent := by positivity
  constructor
  · have hsplit : (10 : ℚ) ^ (digitCount d.digits + d.exponent - 1) =
        10 ^ (digitCount d.digits - 1) * 10 ^ d.exponent := by
      rw [← zpow_natCast, ← zpow_add₀ (by norm_num)]
      congr 1
      omega
    rw [hsplit]
    exact mul_le_mul_of_nonneg_right (by exact_mod_cast le_digits hd) hpower.le
  · rw [zpow_add₀ (by norm_num), zpow_natCast]
    exact mul_lt_mul_of_pos_right (by exact_mod_cast digits_lt d.digits) hpower

/-- **A decimal is out of the range exactly from the limit on.** -/
theorem round_eq_none_iff {f : BinaryFormat} (hp : 0 < f.precision)
    (hf : f.minExponent ≤ f.maxExponent) (hsmall : (10 : ℚ) ^ (-400 : Int) ≤ f.limit)
    (hlarge : f.limit ≤ 10 ^ (400 : Int)) (d : Decimal) :
    d.round f = none ↔ f.limit ≤ d.value := by
  rcases Nat.eq_zero_or_pos d.digits with hzero | hdigits
  · have hlimit : 0 < f.limit := lt_of_lt_of_le (by positivity) hsmall
    simpa [round, value, hzero] using hlimit
  obtain ⟨hlow, hhigh⟩ := value_bounds hdigits
  have hne : (d.digits == 0) = false := by simpa using hdigits.ne'
  simp only [round, hne, Bool.false_or, decide_eq_true_eq]
  split
  · next hmagnitude =>
    refine iff_of_false (by simp) (not_le.mpr (hhigh.trans_le (le_trans ?_ hsmall)))
    exact zpow_le_zpow_right₀ (by norm_num) (by omega)
  · split
    · next hmagnitude =>
      refine iff_of_true rfl (hlarge.trans (le_trans ?_ hlow))
      exact zpow_le_zpow_right₀ (by norm_num) (by omega)
    · rw [BinaryFormat.round_eq_none_iff hp hf d.ratio_pos, ratio_eq]

end Decimal

/-- In single precision the limit is `2 ^ 128 - 2 ^ 103`. -/
theorem BinaryFormat.limit_binary32 : BinaryFormat.binary32.limit = 2 ^ 128 - 2 ^ 103 := by
  norm_num [limit, binary32]

/-- **A decimal is out of the range of single precision exactly from `2 ^ 128 - 2 ^ 103`
on.** -/
theorem Binary32.ofDecimal?_eq_none_iff (negative : Bool) (d : Decimal) :
    ofDecimal? negative d = none ↔ (2 ^ 128 - 2 ^ 103 : ℚ) ≤ d.value := by
  have hsmall : (10 : ℚ) ^ (-400 : Int) ≤ 2 ^ 128 - 2 ^ 103 :=
    calc (10 : ℚ) ^ (-400 : Int) ≤ 10 ^ (0 : Int) :=
          zpow_le_zpow_right₀ (by norm_num) (by decide)
      _ ≤ 2 ^ 128 - 2 ^ 103 := by norm_num
  have hlarge : (2 ^ 128 - 2 ^ 103 : ℚ) ≤ 10 ^ (400 : Int) :=
    calc (2 ^ 128 - 2 ^ 103 : ℚ) ≤ 10 ^ (39 : Int) := by norm_num
      _ ≤ 10 ^ (400 : Int) := zpow_le_zpow_right₀ (by norm_num) (by decide)
  rw [← BinaryFormat.limit_binary32] at hsmall hlarge ⊢
  rw [ofDecimal?, Option.map_eq_none_iff]
  exact Decimal.round_eq_none_iff (by decide) (by decide) hsmall hlarge d

end MathMarkup
