import Mathlib.Algebra.Order.Field.Power
import Mathlib.Data.Rat.Cast.Order
import Mathlib.Tactic.FieldSimp
import Mathlib.Tactic.Linarith
import Mathlib.Tactic.Positivity
import Mathlib.Tactic.Ring
import ReactiveMarkup.Expression.Printer
import ReactiveMarkup.Expression.Token
import ReactiveMarkup.Proofs.FloatBits

/-! Numbers read back from their text. A decimal between the two midpoints around a number
rounds to that number, and the text of a number is such a decimal. -/

namespace ReactiveMarkup.Number

theorem roundQuotient_eq {a b m : Nat} (positive : 0 < b) (low : 2 * (m * b) ≤ 2 * a + b) (high : 2 * a ≤ 2 * (m * b) + b)
    (odd : m % 2 = 1 → 2 * (m * b) < 2 * a + b ∧ 2 * a < 2 * (m * b) + b) : roundQuotient a b = m := by
  have split := Nat.div_add_mod a b
  have small := Nat.mod_lt a positive
  have quotient : a / b = m ∨ a / b + 1 = m := by
    have upper : a / b < m + 1 := by
      rw [Nat.div_lt_iff_lt_mul positive, Nat.add_mul]
      omega
    have lower : m ≤ a / b + 1 := by
      rw [← Nat.add_div_right a positive, Nat.le_div_iff_mul_le positive]
      omega
    omega
  simp only [roundQuotient]
  rcases quotient with same | next
  · rw [same, Nat.mul_comm b m] at split
    rw [same, if_neg]
    omega
  · have split' : m * b = b * (a / b) + b := by rw [← next, Nat.add_mul, Nat.one_mul, Nat.mul_comm]
    rw [if_pos, next]
    omega

theorem pow_toNat_div (base : ℚ) (z : ℤ) : base ^ z.toNat / base ^ (-z).toNat = base ^ z := by
  rcases Int.le_total 0 z with h | h
  · obtain ⟨n, rfl⟩ := Int.eq_ofNat_of_zero_le h
    simp
  · obtain ⟨n, rfl⟩ := Int.exists_eq_neg_ofNat h
    simp

/-- Scaling a ratio by a power of two, in whole numbers. -/
theorem scaled_le_iff {numerator denominator : Nat} (positive : 0 < denominator) (exponent : ℤ) (factor : Nat) :
    factor * (denominator * 2 ^ exponent.toNat) ≤ numerator * 2 ^ (-exponent).toNat ↔
      (factor : ℚ) * 2 ^ exponent ≤ numerator / denominator := by
  have denominatorPos : (0 : ℚ) < denominator := by exact_mod_cast positive
  have scalePos : (0 : ℚ) < 2 ^ (-exponent).toNat := by positivity
  rw [← pow_toNat_div 2 exponent, mul_div_assoc', div_le_div_iff₀ scalePos denominatorPos, mul_assoc,
    mul_comm (2 ^ exponent.toNat : ℚ)]
  exact_mod_cast Iff.rfl

theorem two_zpow_log2_le {n : Nat} (positive : 0 < n) : (2 : ℚ) ^ (n.log2 : ℤ) ≤ n ∧ (n : ℚ) < 2 ^ (n.log2 + 1 : ℤ) := by
  have nonzero : n ≠ 0 := Nat.pos_iff_ne_zero.1 positive
  constructor
  · rw [zpow_natCast]
    exact_mod_cast Nat.log2_self_le nonzero
  · have upper : n < 2 ^ (n.log2 + 1) := (Nat.log2_lt nonzero).1 (Nat.lt_succ_self _)
    rw [show (n.log2 + 1 : ℤ) = ((n.log2 + 1 : ℕ) : ℤ) by push_cast; rfl, zpow_natCast]
    exact_mod_cast upper

/-- The bits of a ratio are its quotient by some power of two, rounded. -/
theorem bitsOfRatio_eq {numerator denominator : Nat} (positive : 0 < numerator) (positiveDen : 0 < denominator) :
    ∃ exponent : ℤ, leastExponent ≤ exponent ∧ (numerator / denominator : ℚ) < 2 ^ 53 * 2 ^ exponent ∧
      (exponent = leastExponent ∨ (2 : ℚ) ^ 52 * 2 ^ exponent ≤ numerator / denominator) ∧
      bitsOfRatio numerator denominator = min infiniteBits (roundQuotient (numerator * 2 ^ (-exponent).toNat)
        (denominator * 2 ^ exponent.toNat) + (exponent - leastExponent).toNat * 2 ^ 52) := by
  obtain ⟨numLow, numHigh⟩ := two_zpow_log2_le positive
  obtain ⟨denLow, denHigh⟩ := two_zpow_log2_le positiveDen
  set ratio : ℚ := numerator / denominator with ratioEq
  set estimate : ℤ := (Nat.log2 numerator : ℤ) - Nat.log2 denominator - 53 with estimateEq
  have denPos : (0 : ℚ) < denominator := by exact_mod_cast positiveDen
  have ratioLow : (2 : ℚ) ^ 52 * 2 ^ estimate ≤ ratio := by
    have power : (2 : ℚ) ^ 52 * 2 ^ estimate * 2 ^ (denominator.log2 + 1 : ℤ) = 2 ^ (numerator.log2 : ℤ) := by
      rw [← zpow_natCast, ← zpow_add₀ two_ne_zero, ← zpow_add₀ two_ne_zero]
      congr 1
      omega
    rw [ratioEq, le_div_iff₀ denPos]
    calc (2 : ℚ) ^ 52 * 2 ^ estimate * (denominator : ℚ)
        ≤ 2 ^ 52 * 2 ^ estimate * 2 ^ (denominator.log2 + 1 : ℤ) := by gcongr
      _ ≤ (numerator : ℚ) := power ▸ numLow
  have ratioHigh : ratio < 2 ^ 54 * 2 ^ estimate := by
    have power : (2 : ℚ) ^ 54 * 2 ^ estimate * 2 ^ (denominator.log2 : ℤ) = 2 ^ (numerator.log2 + 1 : ℤ) := by
      rw [← zpow_natCast, ← zpow_add₀ two_ne_zero, ← zpow_add₀ two_ne_zero]
      congr 1
      omega
    rw [ratioEq, div_lt_iff₀ denPos]
    calc (numerator : ℚ) < 2 ^ 54 * 2 ^ estimate * 2 ^ (denominator.log2 : ℤ) := power ▸ numHigh
      _ ≤ 2 ^ 54 * 2 ^ estimate * denominator := by gcongr
  set start : ℤ := max leastExponent estimate with startEq
  have startLow : leastExponent ≤ start := le_max_left ..
  have startHigh : (2 : ℚ) ^ estimate ≤ 2 ^ start := zpow_le_zpow_right₀ one_le_two (le_max_right ..)
  have chosen : bitsOfRatio numerator denominator =
      let exponent := if 2 ^ 53 * (denominator * 2 ^ start.toNat) ≤ numerator * 2 ^ (-start).toNat then start + 1 else start
      min infiniteBits (roundQuotient (numerator * 2 ^ (-exponent).toNat) (denominator * 2 ^ exponent.toNat) +
        (exponent - leastExponent).toNat * 2 ^ 52) := by
    rw [bitsOfRatio, if_neg (Nat.pos_iff_ne_zero.1 positive)]
    rfl
  have choice := @scaled_le_iff numerator _ positiveDen start (2 ^ 53)
  rw [← ratioEq] at choice
  push_cast at choice
  by_cases large : 2 ^ 53 * (denominator * 2 ^ start.toNat) ≤ numerator * 2 ^ (-start).toNat
  · have large' := choice.1 large
    refine ⟨start + 1, by omega, ?_, .inr ?_, ?_⟩
    · rw [zpow_add_one₀ two_ne_zero]
      linarith
    · rw [zpow_add_one₀ two_ne_zero]
      linarith
    · rw [chosen, if_pos large]
  · have small := lt_of_not_ge fun h => large (choice.2 h)
    refine ⟨start, startLow, small, ?_, ?_⟩
    · rcases max_choice leastExponent estimate with least | same
      · exact .inl (startEq.trans least)
      · rw [startEq, same]
        exact .inr ratioLow
    · rw [chosen, if_neg large]

/-- The significand and the exponent of a positive finite number. -/
structure Canonical (significand : Nat) (exponent : ℤ) : Prop where
  positive : 0 < significand
  below : significand < 2 ^ 53
  least : leastExponent ≤ exponent
  normal : exponent = leastExponent ∨ 2 ^ 52 ≤ significand
  finite : significand + (exponent - leastExponent).toNat * 2 ^ 52 < infiniteBits

/-- The midpoint below a number, in units of its significand. -/
def midpointBelow (significand : Nat) (exponent : ℤ) : ℚ :=
  if significand = 2 ^ 52 ∧ leastExponent < exponent then significand - 1 / 4 else significand - 1 / 2

/-- A ratio that rounds to a number: it lies between the midpoints, and on one of them only if
the significand is even. -/
structure RoundsTo (ratio : ℚ) (significand : Nat) (exponent : ℤ) : Prop where
  low : midpointBelow significand exponent * 2 ^ exponent ≤ ratio
  high : ratio ≤ (significand + 1 / 2) * 2 ^ exponent
  odd : significand % 2 = 1 →
    midpointBelow significand exponent * 2 ^ exponent < ratio ∧ ratio < (significand + 1 / 2) * 2 ^ exponent

theorem midpointBelow_ge (significand : Nat) (exponent : ℤ) :
    (significand - 1 / 2 : ℚ) ≤ midpointBelow significand exponent := by
  rw [midpointBelow]
  split <;> linarith

/-- A scaled ratio that is within a half of a number is rounded to it, if the number is even or
the ratio is strictly within. -/
theorem roundQuotient_of_within {numerator denominator m : Nat} {exponent : ℤ} (positiveDen : 0 < denominator)
    (low : (m - 1 / 2 : ℚ) * 2 ^ exponent ≤ numerator / denominator)
    (high : (numerator / denominator : ℚ) ≤ (m + 1 / 2) * 2 ^ exponent)
    (odd : m % 2 = 1 → (m - 1 / 2 : ℚ) * 2 ^ exponent < numerator / denominator ∧
      (numerator / denominator : ℚ) < (m + 1 / 2) * 2 ^ exponent) :
    roundQuotient (numerator * 2 ^ (-exponent).toNat) (denominator * 2 ^ exponent.toNat) = m := by
  have denPos : (0 : ℚ) < denominator := by exact_mod_cast positiveDen
  have upPos : (0 : ℚ) < 2 ^ exponent.toNat := by positivity
  have downPos : (0 : ℚ) < 2 ^ (-exponent).toNat := by positivity
  have scale := pow_toNat_div 2 exponent
  rw [← scale] at low high odd
  rw [mul_div_assoc', div_le_div_iff₀ downPos denPos] at low
  rw [mul_div_assoc', div_le_div_iff₀ denPos downPos] at high
  rw [mul_div_assoc', mul_div_assoc', div_lt_div_iff₀ downPos denPos, div_lt_div_iff₀ denPos downPos] at odd
  refine roundQuotient_eq (Nat.mul_pos positiveDen (by positivity)) ?_ ?_ fun isOdd => ?_
  · have cast : (2 : ℚ) * (m * (denominator * 2 ^ exponent.toNat)) ≤
        2 * (numerator * 2 ^ (-exponent).toNat) + denominator * 2 ^ exponent.toNat := by linarith
    exact_mod_cast cast
  · have cast : (2 : ℚ) * (numerator * 2 ^ (-exponent).toNat) ≤
        2 * (m * (denominator * 2 ^ exponent.toNat)) + denominator * 2 ^ exponent.toNat := by linarith
    exact_mod_cast cast
  · obtain ⟨lowStrict, highStrict⟩ := odd isOdd
    have castLow : (2 : ℚ) * (m * (denominator * 2 ^ exponent.toNat)) <
        2 * (numerator * 2 ^ (-exponent).toNat) + denominator * 2 ^ exponent.toNat := by linarith
    have castHigh : (2 : ℚ) * (numerator * 2 ^ (-exponent).toNat) <
        2 * (m * (denominator * 2 ^ exponent.toNat)) + denominator * 2 ^ exponent.toNat := by linarith
    exact ⟨by exact_mod_cast castLow, by exact_mod_cast castHigh⟩

/-- Reading a ratio gives the number that it rounds to. -/
theorem bitsOfRatio_of_roundsTo {numerator denominator significand : Nat} {exponent : ℤ} (positiveDen : 0 < denominator)
    (canonical : Canonical significand exponent) (rounds : RoundsTo (numerator / denominator) significand exponent) :
    bitsOfRatio numerator denominator = significand + (exponent - leastExponent).toNat * 2 ^ 52 := by
  have one : (1 : ℚ) ≤ significand := by exact_mod_cast canonical.positive
  have below : (significand : ℚ) + 1 ≤ 2 ^ 53 := by exact_mod_cast canonical.below
  have scalePos : (0 : ℚ) < 2 ^ exponent := by positivity
  have half := midpointBelow_ge significand exponent
  have positive : 0 < numerator := by
    rcases Nat.eq_zero_or_pos numerator with zero | positive
    · have low := rounds.low
      rw [zero, Nat.cast_zero, zero_div] at low
      have : 0 < midpointBelow significand exponent * 2 ^ exponent := mul_pos (by linarith) scalePos
      linarith
    · exact positive
  obtain ⟨chosen, least, high, low, bits⟩ := bitsOfRatio_eq positive positiveDen
  rcases lt_trichotomy chosen exponent with smaller | same | larger
  · -- The ratio is below a power of two, and the number is that power.
    have normal : 2 ^ 52 ≤ significand := canonical.normal.resolve_left (by omega)
    have power : significand = 2 ^ 52 := by
      by_contra other
      have above : (2 ^ 52 + 1 : ℚ) ≤ significand := by
        exact_mod_cast (show 2 ^ 52 + 1 ≤ significand by omega)
      have smallScale : (2 : ℚ) * 2 ^ chosen ≤ 2 ^ exponent := by
        rw [← zpow_one_add₀ two_ne_zero]
        exact zpow_le_zpow_right₀ one_le_two (by omega)
      have reached := le_trans (mul_le_mul_of_nonneg_right half scalePos.le) rounds.low
      nlinarith
    have midpoint : midpointBelow significand exponent = 2 ^ 52 - 1 / 4 := by
      rw [midpointBelow, if_pos ⟨power, by omega⟩, power]
      norm_num
    have reached := rounds.low
    rw [midpoint] at reached
    have next : chosen = exponent - 1 := by
      by_contra other
      have smallScale : (4 : ℚ) * 2 ^ chosen ≤ 2 ^ exponent := by
        rw [show (4 : ℚ) = 2 ^ (2 : ℤ) by norm_num, ← zpow_add₀ two_ne_zero]
        exact zpow_le_zpow_right₀ one_le_two (by omega)
      nlinarith
    have scale : (2 : ℚ) ^ exponent = 2 * 2 ^ chosen := by
      rw [← zpow_one_add₀ two_ne_zero, next]
      congr 1
      omega
    have rounded : roundQuotient (numerator * 2 ^ (-chosen).toNat) (denominator * 2 ^ chosen.toNat) = 2 ^ 53 := by
      refine roundQuotient_of_within positiveDen ?_ ?_ (by norm_num)
      · rw [scale] at reached
        push_cast
        linarith
      · have : (0 : ℚ) < 2 ^ chosen := by positivity
        push_cast
        linarith
    have finite := canonical.finite
    rw [bits, rounded, min_eq_right]
    · rw [power]
      omega
    · omega
  · subst same
    rw [bits, roundQuotient_of_within positiveDen ?_ rounds.high ?_]
    · exact min_eq_right (Nat.le_of_lt canonical.finite)
    · exact le_trans (mul_le_mul_of_nonneg_right half scalePos.le) rounds.low
    · exact fun odd => ⟨lt_of_le_of_lt (mul_le_mul_of_nonneg_right half scalePos.le) (rounds.odd odd).1, (rounds.odd odd).2⟩
  · exfalso
    have bigger : (2 : ℚ) * 2 ^ exponent ≤ 2 ^ chosen := by
      rw [← zpow_one_add₀ two_ne_zero]
      exact zpow_le_zpow_right₀ one_le_two (by omega)
    rcases low with least' | low
    · have := canonical.least
      omega
    · have := rounds.high
      nlinarith

/-- What a decimal stands for. -/
def Decimal.value (decimal : Decimal) : ℚ := decimal.digits * 10 ^ decimal.exponent

theorem RoundsTo.bounds {ratio : ℚ} {significand : Nat} {exponent : ℤ} (rounds : RoundsTo ratio significand exponent)
    (canonical : Canonical significand exponent) : 2 ^ (-1075 : ℤ) ≤ ratio ∧ ratio ≤ 2 ^ (1025 : ℤ) := by
  have one : (1 : ℚ) ≤ significand := by exact_mod_cast canonical.positive
  have below : (significand : ℚ) + 1 ≤ 2 ^ 53 := by exact_mod_cast canonical.below
  have scalePos : (0 : ℚ) < 2 ^ exponent := by positivity
  have half := midpointBelow_ge significand exponent
  have finite := canonical.finite
  have least := canonical.least
  simp only [infiniteBits, leastExponent] at finite least
  constructor
  · have small : (2 : ℚ) ^ (-1074 : ℤ) ≤ 2 ^ exponent := zpow_le_zpow_right₀ one_le_two least
    have split : (2 : ℚ) ^ (-1074 : ℤ) = 2 * 2 ^ (-1075 : ℤ) := by
      rw [← zpow_one_add₀ two_ne_zero]
      norm_num
    have low := rounds.low
    nlinarith
  · have large : (2 : ℚ) ^ exponent ≤ 2 ^ (972 : ℤ) := zpow_le_zpow_right₀ one_le_two (by omega)
    have split : (2 : ℚ) ^ (1025 : ℤ) = 2 ^ 53 * 2 ^ (972 : ℤ) := by
      rw [← zpow_natCast, ← zpow_add₀ two_ne_zero]
      norm_num
    have high := rounds.high
    rw [split]
    calc ratio ≤ (significand + 1 / 2) * 2 ^ exponent := high
      _ ≤ 2 ^ 53 * 2 ^ exponent := mul_le_mul_of_nonneg_right (by linarith) scalePos.le
      _ ≤ 2 ^ 53 * 2 ^ (972 : ℤ) := mul_le_mul_of_nonneg_left large (by positivity)

theorem ten_pow_le_two_pow (n : Nat) : 10 ^ (3 * n / 10) ≤ 2 ^ n := by
  refine (Nat.pow_le_pow_iff_left (show 10 ≠ 0 by decide)).1 ?_
  rw [← Nat.pow_mul, ← Nat.pow_mul, Nat.mul_comm n 10, Nat.pow_mul 2 10 n]
  calc 10 ^ (3 * n / 10 * 10) ≤ 10 ^ (3 * n) := Nat.pow_le_pow_right (by decide) (Nat.div_mul_le_self ..)
    _ = (10 ^ 3) ^ n := Nat.pow_mul ..
    _ ≤ (2 ^ 10) ^ n := Nat.pow_le_pow_left (by decide) n

theorem two_pow_le_ten_pow (n : Nat) : 2 ^ n ≤ 10 ^ (31 * n / 100 + 1) := by
  refine (Nat.pow_le_pow_iff_left (show 100 ≠ 0 by decide)).1 ?_
  rw [← Nat.pow_mul, ← Nat.pow_mul, Nat.mul_comm n 100, Nat.pow_mul 2 100 n]
  calc (2 ^ 100) ^ n ≤ (10 ^ 31) ^ n := Nat.pow_le_pow_left (by decide) n
    _ = 10 ^ (31 * n) := (Nat.pow_mul ..).symm
    _ ≤ 10 ^ ((31 * n / 100 + 1) * 100) := Nat.pow_le_pow_right (by decide) (by omega)

private theorem two_zpow_lt {n k : Nat} (nonzero : k ≠ 0) (bound : n ≤ 3 * k) : (2 : ℚ) ^ (n : ℤ) < 10 ^ (k : ℤ) := by
  have whole : 2 ^ n < 10 ^ k := by
    calc 2 ^ n ≤ 2 ^ (3 * k) := Nat.pow_le_pow_right (by decide) bound
      _ = (2 ^ 3) ^ k := Nat.pow_mul ..
      _ < 10 ^ k := Nat.pow_lt_pow_left (by decide) nonzero
  rw [zpow_natCast, zpow_natCast]
  exact_mod_cast whole

namespace Decimal

theorem lowerPlace_le {decimal : Decimal} (nonzero : decimal.digits ≠ 0) : (10 : ℚ) ^ decimal.lowerPlace ≤ decimal.value := by
  have whole : 10 ^ (3 * Nat.log2 decimal.digits / 10) ≤ decimal.digits :=
    le_trans (ten_pow_le_two_pow _) (Nat.log2_self_le nonzero)
  have cast : (10 : ℚ) ^ (3 * Nat.log2 decimal.digits / 10) ≤ decimal.digits := by exact_mod_cast whole
  rw [lowerPlace, value, zpow_add₀ (by norm_num), zpow_natCast]
  exact mul_le_mul_of_nonneg_right cast (by positivity)

theorem lt_upperPlace {decimal : Decimal} (nonzero : decimal.digits ≠ 0) : decimal.value < 10 ^ decimal.upperPlace := by
  have whole : decimal.digits < 10 ^ (31 * (Nat.log2 decimal.digits + 1) / 100 + 1) :=
    lt_of_lt_of_le ((Nat.log2_lt nonzero).1 (Nat.lt_succ_self _)) (two_pow_le_ten_pow _)
  have cast : (decimal.digits : ℚ) < 10 ^ (31 * (Nat.log2 decimal.digits + 1) / 100 + 1) := by exact_mod_cast whole
  rw [upperPlace, value, zpow_add₀ (by norm_num), zpow_natCast]
  exact mul_lt_mul_of_pos_right cast (by positivity)

/-- A decimal is read as the number that it rounds to. -/
theorem toFloat_of_roundsTo {decimal : Decimal} {significand : Nat} {exponent : ℤ}
    (canonical : Canonical significand exponent) (rounds : RoundsTo decimal.value significand exponent) :
    decimal.toFloat false = signed false (significand + (exponent - leastExponent).toNat * 2 ^ 52) := by
  obtain ⟨low, high⟩ := rounds.bounds canonical
  have nonzero : decimal.digits ≠ 0 := by
    intro zero
    rw [value, zero, Nat.cast_zero, zero_mul] at low
    exact absurd low (not_le.2 (by positivity))
  have notInfinite : ¬ 400 < decimal.lowerPlace := by
    intro large
    have power : (10 : ℚ) ^ (400 : ℤ) ≤ 10 ^ decimal.lowerPlace := zpow_le_zpow_right₀ (by norm_num) large.le
    exact absurd (power.trans ((lowerPlace_le nonzero).trans high)) (not_le.2 (two_zpow_lt (by decide) (by decide)))
  have notZero : ¬ decimal.upperPlace < -400 := by
    intro small
    have power : (10 : ℚ) ^ decimal.upperPlace ≤ 10 ^ (-400 : ℤ) := zpow_le_zpow_right₀ (by norm_num) small.le
    have numeric : (10 : ℚ) ^ (-400 : ℤ) < 2 ^ (-1075 : ℤ) := by
      rw [zpow_neg, zpow_neg]
      exact inv_strictAnti₀ (by positivity) (two_zpow_lt (by decide) (by decide))
    exact absurd (low.trans (((lt_upperPlace nonzero).le.trans power))) (not_le.2 numeric)
  have same : ((decimal.digits * Nat.pow 10 decimal.exponent.toNat : ℕ) : ℚ) / (Nat.pow 10 (-decimal.exponent).toNat : ℕ) =
      decimal.value := by
    rw [value, ← pow_toNat_div 10 decimal.exponent]
    push_cast [Nat.pow_eq]
    ring
  have positiveDen : 0 < Nat.pow 10 (-decimal.exponent).toNat := Nat.pow_pos (by decide)
  rw [toFloat, if_neg nonzero, if_neg notInfinite, if_neg notZero, ofRatio,
    bitsOfRatio_of_roundsTo positiveDen canonical (same ▸ rounds)]

theorem scale_ratio (interval : Interval) (place : ℤ) :
    ((interval.scale place).1 : ℚ) * 10 ^ place = (interval.scale place).2 * 2 ^ interval.exponent := by
  have two : (2 : ℚ) ^ interval.exponent * 2 ^ (-interval.exponent).toNat = 2 ^ interval.exponent.toNat := by
    rw [← pow_toNat_div 2 interval.exponent]
    field_simp
  have ten : (10 : ℚ) ^ place * 10 ^ (-place).toNat = 10 ^ place.toNat := by
    rw [← pow_toNat_div 10 place]
    field_simp
  simp only [Interval.scale, Nat.pow_eq]
  push_cast
  rw [← two, ← ten]
  ring

/-- Positions compare as what they stand for. -/
private theorem position_le_iff (interval : Interval) (place : ℤ) (units digits : Nat) :
    (units * (interval.scale place).1 ≤ digits * (interval.scale place).2 ↔
      (units : ℚ) * 2 ^ interval.exponent ≤ digits * 10 ^ place) ∧
    (digits * (interval.scale place).2 ≤ units * (interval.scale place).1 ↔
      (digits : ℚ) * 10 ^ place ≤ units * 2 ^ interval.exponent) := by
  have ratio := scale_ratio interval place
  have tenPos : (0 : ℚ) < 10 ^ place := by positivity
  have stepsPos : (0 : ℚ) < (interval.scale place).2 := by
    simp only [Interval.scale, Nat.pow_eq]
    positivity
  have left : (units : ℚ) * (interval.scale place).1 * 10 ^ place =
      units * 2 ^ interval.exponent * (interval.scale place).2 := by
    rw [mul_assoc, ratio]
    ring
  have right : (digits : ℚ) * (interval.scale place).2 * 10 ^ place = digits * 10 ^ place * (interval.scale place).2 := by
    ring
  constructor
  · rw [← mul_le_mul_iff_left₀ stepsPos, ← left, ← right, mul_le_mul_iff_left₀ tenPos]
    exact_mod_cast Iff.rfl
  · rw [← mul_le_mul_iff_left₀ stepsPos, ← left, ← right, mul_le_mul_iff_left₀ tenPos]
    exact_mod_cast Iff.rfl

/-- The ends of an interval are the midpoints. -/
private theorem ends_around {significand : Nat} (positive : 0 < significand) (exponent : ℤ) :
    ((Interval.around significand exponent).low : ℚ) * 2 ^ (exponent - 2) = midpointBelow significand exponent * 2 ^ exponent ∧
      ((Interval.around significand exponent).high : ℚ) * 2 ^ (exponent - 2) = (significand + 1 / 2) * 2 ^ exponent := by
  have quarter : (2 : ℚ) ^ (exponent - 2) = 2 ^ exponent / 4 := by
    rw [zpow_sub₀ two_ne_zero]
    norm_num
  rw [quarter]
  constructor
  · simp only [Interval.around, midpointBelow, Nat.pow_eq]
    split
    · rw [Nat.cast_sub (by omega)]
      push_cast
      ring
    · rw [Nat.cast_sub (by omega)]
      push_cast
      ring
  · simp only [Interval.around]
    push_cast
    ring

theorem roundsTo_of_contains {significand : Nat} {exponent : ℤ} (positive : 0 < significand) {decimal : Decimal}
    (inside : (Interval.around significand exponent).contains decimal = true) :
    RoundsTo decimal.value significand exponent := by
  obtain ⟨low, high⟩ := ends_around positive exponent
  have around := position_le_iff (Interval.around significand exponent) decimal.exponent
  have lowIff := (around (Interval.around significand exponent).low decimal.digits)
  have highIff := (around (Interval.around significand exponent).high decimal.digits)
  rw [show (Interval.around significand exponent).exponent = exponent - 2 from rfl, low] at lowIff
  rw [show (Interval.around significand exponent).exponent = exponent - 2 from rfl, high] at highIff
  by_cases even : significand % 2 = 0
  · have closed : (Interval.around significand exponent).closed = true := decide_eq_true even
    simp only [Interval.contains, closed, if_true, Bool.and_eq_true, decide_eq_true_eq] at inside
    exact ⟨lowIff.1.1 inside.1, highIff.2.1 inside.2, fun odd => by omega⟩
  · have closed : (Interval.around significand exponent).closed = false := decide_eq_false even
    simp only [Interval.contains, closed, Bool.false_eq_true, if_false, Bool.and_eq_true, decide_eq_true_eq] at inside
    have lowStrict := lt_of_not_ge fun reached => not_le.2 inside.1 (lowIff.2.2 reached)
    have highStrict := lt_of_not_ge fun reached => not_le.2 inside.2 (highIff.1.2 reached)
    exact ⟨lowStrict.le, highStrict.le, fun _ => ⟨lowStrict, highStrict⟩⟩

private theorem contains_of_nearest? {interval : Interval} {place : ℤ} {decimal : Decimal}
    (found : interval.nearest? place = some decimal) : interval.contains decimal = true := by
  simp only [Interval.nearest?] at found
  split at found
  · split at found <;> cases found <;> assumption
  · cases found
    assumption
  · cases found
    assumption
  · cases found

/-- A search ends in the interval or with what it falls back on. -/
private theorem contains_search (interval : Interval) (fallback : Decimal) (steps : Nat) (place : ℤ) :
    interval.contains (interval.search fallback steps place) = true ∨ interval.search fallback steps place = fallback := by
  induction steps generalizing place with
  | zero => exact .inr rfl
  | succ steps ih =>
    rw [Interval.search]
    cases found : interval.nearest? place with
    | some decimal => exact .inl (contains_of_nearest? found)
    | none => exact ih (place - 1)

theorem value_exact (significand : Nat) (exponent : ℤ) : (exact significand exponent).value = significand * 2 ^ exponent := by
  rw [exact]
  split
  next nonneg =>
    obtain ⟨n, rfl⟩ := Int.eq_ofNat_of_zero_le nonneg
    simp [value]
  next negative =>
    obtain ⟨n, rfl⟩ := Int.exists_eq_neg_ofNat (Int.le_of_not_le negative)
    have ten : (10 : ℚ) ^ n = 2 ^ n * 5 ^ n := by rw [← mul_pow]; norm_num
    simp only [value, Int.neg_neg, Int.toNat_natCast, Nat.pow_eq, zpow_neg, zpow_natCast, ten]
    push_cast
    field_simp

theorem roundsTo_self (significand : Nat) (exponent : ℤ) :
    RoundsTo (significand * 2 ^ exponent) significand exponent := by
  have scalePos : (0 : ℚ) < 2 ^ exponent := by positivity
  have low : midpointBelow significand exponent < significand := by
    rw [midpointBelow]
    split <;> linarith
  have lowScaled := mul_lt_mul_of_pos_right low scalePos
  have highScaled : (significand : ℚ) * 2 ^ exponent < (significand + 1 / 2) * 2 ^ exponent :=
    mul_lt_mul_of_pos_right (by linarith) scalePos
  exact ⟨lowScaled.le, highScaled.le, fun _ => ⟨lowScaled, highScaled⟩⟩

/-- The fewest digits of a number round to it. -/
theorem roundsTo_shortest {significand : Nat} {exponent : ℤ} (positive : 0 < significand) :
    RoundsTo (shortest significand exponent).value significand exponent := by
  rcases contains_search (Interval.around significand exponent) (exact significand exponent) 24
    ((Nat.log2 significand + exponent + 1) * 30103 / 100000 + 2) with inside | fallback
  · exact roundsTo_of_contains positive inside
  · rw [shortest, fallback, value_exact]
    exact roundsTo_self significand exponent

end Decimal

/-- The parts of bits without a sign. -/
theorem canonical_ofBits {bits : Nat} (positive : 0 < bits) (small : bits < infiniteBits) :
    ∃ significand exponent, Parts.ofBits bits = .finite false significand exponent ∧ Canonical significand exponent ∧
      bits = significand + (exponent - leastExponent).toNat * 2 ^ 52 := by
  have top := infiniteBits_eq
  have noSign : ¬ Nat.pow 2 63 ≤ bits % Nat.pow 2 64 := by
    simp only [Nat.pow_eq]
    omega
  have notInfinite : ¬ bits / Nat.pow 2 52 % Nat.pow 2 11 = 2047 := by
    simp only [Nat.pow_eq]
    omega
  simp only [Parts.ofBits, noSign, decide_false, if_neg notInfinite]
  simp only [Nat.pow_eq, leastExponent] at *
  split
  next zero =>
    refine ⟨bits % 2 ^ 52, -1074, rfl, ⟨?_, ?_, ?_, .inl rfl, ?_⟩, ?_⟩
    · omega
    · omega
    · exact le_refl _
    · rw [show ((-1074 : ℤ) - leastExponent).toNat = 0 from rfl, Nat.zero_mul]
      omega
    · rw [show ((-1074 : ℤ) - -1074).toNat = 0 from rfl, Nat.zero_mul]
      omega
  next nonzero =>
    refine ⟨bits % 2 ^ 52 + 2 ^ 52, (bits / 2 ^ 52 % 2 ^ 11 : Nat) - 1075, rfl, ⟨?_, ?_, ?_, .inr ?_, ?_⟩, ?_⟩
    · omega
    · omega
    · simp only [leastExponent]
      omega
    · omega
    · simp only [leastExponent]
      omega
    · omega

/-! What is written. -/

/-- A point and the digits behind it, if there are any. -/
def pointed (fraction : List Char) : List Char := if fraction.isEmpty then [] else '.' :: fraction

/-- Digits that are read as a decimal of some value. -/
structure Writes (chars whole fraction : List Char) (value : ℚ) : Prop where
  chars : chars = whole ++ pointed fraction
  nonempty : whole ≠ []
  wholeDigits : ∀ c ∈ whole, c.isDigit = true
  fractionDigits : ∀ c ∈ fraction, c.isDigit = true
  value : (digitsValue (whole ++ fraction) : ℚ) * 10 ^ (-(fraction.length : ℤ)) = value

theorem digitsValue_toDigits (n : Nat) : digitsValue (Nat.toDigits 10 n) = n := by
  rw [digitsValue_eq_digitwise]
  exact Nat.ofDigitChars_ten_toDigits

theorem isDigit_of_mem_toDigits {n : Nat} {c : Char} (member : c ∈ Nat.toDigits 10 n) : c.isDigit = true :=
  Nat.isDigit_of_mem_toDigits (by decide) (by decide) member

theorem writes_toDigits (n : Nat) : Writes (Nat.toDigits 10 n) (Nat.toDigits 10 n) [] n where
  chars := by simp [pointed]
  nonempty := Nat.toDigits_ne_nil
  wholeDigits _ member := isDigit_of_mem_toDigits member
  fractionDigits _ member := by simp at member
  value := by simp [digitsValue_toDigits]

private theorem digitsValue_zeros (count : Nat) (digits : List Char) (trailing : Nat) :
    digitsValue (List.replicate count '0' ++ digits ++ List.replicate trailing '0') =
      digitsValue digits * 10 ^ trailing := by
  simp only [digitsValue_eq_digitwise]
  show Nat.ofDigitChars 10 _ 0 = Nat.ofDigitChars 10 _ 0 * _
  rw [Nat.ofDigitChars_append, Nat.ofDigitChars_append, Nat.ofDigitChars_replicate_zero, Nat.ofDigitChars_replicate_zero]
  simp [Nat.mul_comm]

theorem writes_text (decimal : Decimal) : ∃ whole fraction, Writes decimal.text.toList whole fraction decimal.value := by
  set digits := Nat.toDigits 10 decimal.digits with digitsEq
  set places := (-decimal.exponent).toNat with placesEq
  set padded := List.replicate (places + 1 - digits.length) '0' ++ digits with paddedEq
  set whole := padded.take (padded.length - places) with wholeEq
  set fraction := padded.drop (padded.length - places) with fractionEq
  have length : places + 1 ≤ padded.length := by
    rw [paddedEq, List.length_append, List.length_replicate]
    omega
  have areDigits : ∀ c ∈ padded, c.isDigit = true := by
    intro c member
    rcases List.mem_append.1 member with zero | digit
    · rw [List.eq_of_mem_replicate zero]
      rfl
    · exact isDigit_of_mem_toDigits digit
  have text : decimal.text.toList = (whole ++ List.replicate decimal.exponent.toNat '0') ++ pointed fraction := by
    rw [Decimal.text, String.toList_ofList, pointed]
    split <;> simp [wholeEq, fractionEq, paddedEq, placesEq, digitsEq]
  refine ⟨whole ++ List.replicate decimal.exponent.toNat '0', fraction, text, ?_, ?_, ?_, ?_⟩
  · have positive : 0 < whole.length := by
      rw [wholeEq, List.length_take]
      omega
    exact List.append_ne_nil_of_left_ne_nil (List.ne_nil_of_length_pos positive) _
  · intro c member
    rcases List.mem_append.1 member with old | zero
    · exact areDigits c (List.mem_of_mem_take old)
    · rw [List.eq_of_mem_replicate zero]
      rfl
  · exact fun c member => areDigits c (List.mem_of_mem_drop member)
  · rcases Int.le_total 0 decimal.exponent with nonneg | nonpos
    · -- No places behind the point, but zeros before it.
      have noPlaces : places = 0 := by omega
      have noFraction : fraction = [] := by rw [fractionEq, noPlaces, Nat.sub_zero, List.drop_length]
      have allWhole : whole = padded := by rw [wholeEq, noPlaces, Nat.sub_zero, List.take_length]
      rw [noFraction, allWhole, List.append_nil, paddedEq, digitsValue_zeros, digitsEq, digitsValue_toDigits, Decimal.value]
      obtain ⟨n, same⟩ := Int.eq_ofNat_of_zero_le nonneg
      rw [same]
      simp
    · have noZeros : decimal.exponent.toNat = 0 := by omega
      have fractionLength : fraction.length = places := by
        rw [fractionEq, List.length_drop]
        omega
      have noTrailing := digitsValue_zeros (places + 1 - digits.length) digits 0
      rw [List.replicate_zero, List.append_nil, Nat.pow_zero, Nat.mul_one] at noTrailing
      rw [noZeros, List.replicate_zero, List.append_nil, fractionLength, List.take_append_drop, paddedEq, noTrailing,
        digitsEq, digitsValue_toDigits, Decimal.value]
      congr 2
      omega

/-- A text of digits is read as any number that its value rounds to. -/
theorem ofDigits_of_writes {chars whole fraction : List Char} {value : ℚ} (writes : Writes chars whole fraction value)
    {significand : Nat} {exponent : ℤ} (canonical : Canonical significand exponent)
    (rounds : RoundsTo value significand exponent) :
    ofDigits false whole fraction 0 = signed false (significand + (exponent - leastExponent).toNat * 2 ^ 52) := by
  refine Decimal.toFloat_of_roundsTo canonical ?_
  rw [Decimal.value, Int.zero_sub, writes.value]
  exact rounds

/-- The magnitude of an integral number. -/
theorem whole_value {significand : Nat} {exponent : ℤ} (divides : significand % Nat.pow 2 (-exponent).toNat = 0) :
    ((significand / Nat.pow 2 (-exponent).toNat * Nat.pow 2 exponent.toNat : Nat) : ℚ) = significand * 2 ^ exponent := by
  obtain ⟨quotient, same⟩ := Nat.dvd_of_mod_eq_zero divides
  have positive : 0 < Nat.pow 2 (-exponent).toNat := Nat.pow_pos (by decide)
  rw [same, Nat.mul_div_cancel_left _ positive, ← pow_toNat_div 2 exponent]
  push_cast [Nat.pow_eq]
  field_simp

end ReactiveMarkup.Number

namespace ReactiveMarkup.Expression

open ReactiveMarkup.Number

/-- What is printed for a finite number is read as that number. -/
theorem writes_numeral {bits : Nat} (small : bits < infiniteBits) :
    ∃ whole fraction value, Writes (numeral (signed false bits)).toList whole fraction value ∧
      ofDigits false whole fraction 0 = signed false bits := by
  have isParts := parts_signed small.le
  rcases Nat.eq_zero_or_pos bits with zero | positive
  · subst zero
    have isZero : numeral (signed false 0) = "0" := by
      rw [show Parts.ofBits 0 = .finite false 0 leastExponent from rfl] at isParts
      simp only [numeral, toInt?, isParts, Nat.zero_mod, Nat.zero_div, Nat.zero_mul, if_true]
      rfl
    rw [isZero]
    exact ⟨['0'], [], 0, writes_toDigits 0, rfl⟩
  · obtain ⟨significand, exponent, same, canonical, bitsEq⟩ := canonical_ofBits positive small
    rw [same] at isParts
    have nonzero : significand ≠ 0 := Nat.pos_iff_ne_zero.1 canonical.positive
    have shortestText : Number.text (signed false bits) = (Decimal.shortest significand exponent).text := by
      simp [Number.text, isParts, nonzero]
    have byShortest : ∃ whole fraction value, Writes (Number.text (signed false bits)).toList whole fraction value ∧
        ofDigits false whole fraction 0 = signed false bits := by
      obtain ⟨whole, fraction, writes⟩ := writes_text (Decimal.shortest significand exponent)
      rw [shortestText]
      exact ⟨whole, fraction, _, writes, by
        rw [ofDigits_of_writes writes canonical (Decimal.roundsTo_shortest canonical.positive), ← bitsEq]⟩
    by_cases divides : significand % Nat.pow 2 (-exponent).toNat = 0
    · set n : Nat := significand / Nat.pow 2 (-exponent).toNat * Nat.pow 2 exponent.toNat with nEq
      have whole : toInt? (signed false bits) = some (n : ℤ) := by
        simp only [toInt?, isParts, divides, if_true, Bool.false_eq_true, if_false, nEq]
      simp only [numeral, whole]
      split
      · have digits : (toString (n : ℤ)).toList = Nat.toDigits 10 n := by
          rw [Int.toString_eq_repr, Int.repr_eq_if, if_pos (Int.natCast_nonneg n), Int.toNat_natCast, Nat.toList_repr]
        rw [digits]
        refine ⟨_, [], n, writes_toDigits n, ?_⟩
        rw [ofDigits_of_writes (writes_toDigits n) canonical, ← bitsEq]
        rw [nEq, whole_value divides]
        exact Decimal.roundsTo_self significand exponent
      · exact byShortest
    · have broken : toInt? (signed false bits) = none := by
        simp only [toInt?, isParts, divides, if_false]
      simp only [numeral, broken]
      exact byShortest

theorem numeral_infinite : numeral (signed false infiniteBits) = "inf" := by
  have isParts := parts_signed (le_refl infiniteBits)
  rw [show Parts.ofBits infiniteBits = .infinite false from rfl] at isParts
  simp [numeral, toInt?, isParts, Number.text]

end ReactiveMarkup.Expression
