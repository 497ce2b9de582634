import ReactiveMarkup.Proofs.NumberText
import ReactiveMarkup.Value.Basic

/-! Integral numbers as texts and as names of properties. A text goes through a sixty-four bit integer, so it is exact
as long as the number fits one; the name of a property has as few digits as read back from `10 ^ 15` on, so it is
exact below `2 ^ 53` only. -/

namespace ReactiveMarkup

namespace Number

/-- The significand and the exponent of a finite number of either sign, other than zero. -/
theorem canonical_of_parts {x : Float} {negative : Bool} {significand : Nat} {exponent : ℤ}
    (isParts : parts x = .finite negative significand exponent) (positive : 0 < significand) :
    Canonical significand exponent := by
  have top := infiniteBits_eq
  simp only [parts, Parts.ofBits, Nat.pow_eq] at isParts
  split at isParts
  next => split at isParts <;> cases isParts
  next below =>
    split at isParts
    next zero =>
      cases isParts
      refine ⟨positive, by omega, Int.le_refl _, .inl rfl, ?_⟩
      rw [Int.sub_self, Int.toNat_zero, Nat.zero_mul]
      omega
    next nonzero =>
      cases isParts
      refine ⟨positive, by omega, ?_, .inr (by omega), ?_⟩
      · simp only [leastExponent]
        omega
      · simp only [leastExponent]
        omega

/-- A number is the nearest one to an integer, as reading the integer's digits finds it. -/
def Nears (x : Float) (n : ℤ) : Prop :=
  ∃ negative significand exponent, parts x = .finite negative significand exponent ∧
    RoundsTo n.natAbs significand exponent ∧ n = if negative then -(n.natAbs : ℤ) else n.natAbs

/-- An integral number is its significand scaled by its exponent. -/
theorem parts_of_toInt? {x : Float} {n : ℤ} (whole : toInt? x = some n) :
    ∃ negative significand exponent, parts x = .finite negative significand exponent ∧
      (n.natAbs : ℚ) = significand * 2 ^ exponent ∧ n = if negative then -(n.natAbs : ℤ) else n.natAbs := by
  rw [toInt?] at whole
  split at whole
  next negative significand exponent isParts =>
    dsimp only at whole
    split at whole
    next divides =>
      have value := whole_value divides
      generalize significand / Nat.pow 2 (-exponent).toNat * Nat.pow 2 exponent.toNat = magnitude at whole value
      cases whole
      refine ⟨negative, significand, exponent, isParts, ?_, ?_⟩ <;> cases negative <;> simp [value]
    next => cases whole
  next => cases whole

theorem nears_self {x : Float} {n : ℤ} (whole : toInt? x = some n) : Nears x n := by
  obtain ⟨negative, significand, exponent, isParts, value, sign⟩ := parts_of_toInt? whole
  exact ⟨negative, significand, exponent, isParts, value ▸ Decimal.roundsTo_self significand exponent, sign⟩

/-! Zeros behind digits. -/

theorem toDigits_scaled {digits : Nat} (positive : 0 < digits) (zeros : Nat) :
    Nat.toDigits 10 (digits * 10 ^ zeros) = Nat.toDigits 10 digits ++ List.replicate zeros '0' := by
  induction zeros with
  | zero => simp
  | succ zeros ih =>
    have next : digits * 10 ^ (zeros + 1) = 10 * (digits * 10 ^ zeros) + 0 := by ring
    rw [next, ← Nat.toDigits_append_toDigits (by decide) (by positivity) (by decide), ih, List.append_assoc,
      List.replicate_succ']
    rfl

namespace Decimal

/-- A decimal without places behind the point is written as an integer. -/
theorem text_of_whole {decimal : Decimal} (places : 0 ≤ decimal.exponent) (positive : 0 < decimal.digits) :
    decimal.text = toString (decimal.digits * 10 ^ decimal.exponent.toNat) := by
  have noPlaces : (-decimal.exponent).toNat = 0 := by omega
  have nonempty : 0 < (Nat.toDigits 10 decimal.digits).length := List.length_pos_of_ne_nil Nat.toDigits_ne_nil
  have noPadding : 0 + 1 - (Nat.toDigits 10 decimal.digits).length = 0 := by omega
  apply String.toList_inj.1
  rw [show toString (decimal.digits * 10 ^ decimal.exponent.toNat) = Nat.repr _ from rfl, Nat.toList_repr,
    toDigits_scaled positive]
  simp [text, noPlaces, noPadding]

theorem value_of_whole {decimal : Decimal} (places : 0 ≤ decimal.exponent) :
    decimal.value = (decimal.digits * 10 ^ decimal.exponent.toNat : Nat) := by
  obtain ⟨n, same⟩ := Int.eq_ofNat_of_zero_le places
  rw [value, same]
  simp

/-! The search for the fewest digits of a whole magnitude ends before the point. -/

theorem exponent_of_nearest? {interval : Interval} {place : ℤ} {decimal : Decimal}
    (found : interval.nearest? place = some decimal) : decimal.exponent = place := by
  simp only [Interval.nearest?] at found
  split at found
  · split at found <;> cases found <;> rfl
  · cases found
    rfl
  · cases found
    rfl
  · cases found

/-- A grid that the center of an interval is on has a hit. -/
theorem isSome_nearest? {interval : Interval} {place : ℤ} {n : Nat} (low : interval.low < interval.center)
    (high : interval.center < interval.high)
    (onGrid : n * (interval.scale place).2 = interval.center * (interval.scale place).1) :
    (interval.nearest? place).isSome := by
  have steps : 0 < (interval.scale place).2 := Nat.mul_pos (Nat.pow_pos (by decide)) (Nat.pow_pos (by decide))
  have units : 0 < (interval.scale place).1 := Nat.mul_pos (Nat.pow_pos (by decide)) (Nat.pow_pos (by decide))
  have below : interval.center * (interval.scale place).1 / (interval.scale place).2 = n := by
    rw [← onGrid, Nat.mul_div_cancel _ steps]
  have lowUnits := Nat.mul_lt_mul_of_pos_right low units
  have highUnits := Nat.mul_lt_mul_of_pos_right high units
  have inside : interval.contains ⟨n, place⟩ = true := by
    simp only [Interval.contains, onGrid]
    split <;> simp only [Bool.and_eq_true, decide_eq_true_eq]
    · exact ⟨lowUnits.le, highUnits.le⟩
    · exact ⟨lowUnits, highUnits⟩
  simp only [Interval.nearest?, below, inside]
  cases interval.contains ⟨n + 1, place⟩ <;> rfl

theorem search_whole {interval : Interval} {fallback : Decimal} (whole : (interval.nearest? 0).isSome) {steps : Nat}
    {place : ℤ} (nonneg : 0 ≤ place) (enough : place < steps) :
    0 ≤ (interval.search fallback steps place).exponent := by
  induction steps generalizing place with
  | zero => omega
  | succ steps ih =>
    rw [Interval.search]
    cases found : interval.nearest? place with
    | some decimal => exact nonneg.trans_eq (exponent_of_nearest? found).symm
    | none =>
      have later : place ≠ 0 := by
        rintro rfl
        rw [found] at whole
        cases whole
      exact ih (by omega) (by omega)

theorem shortest_whole {significand n : Nat} {exponent : ℤ} (positive : 0 < significand)
    (whole : (n : ℚ) = significand * 2 ^ exponent) (small : n < 10 ^ 21) :
    0 ≤ (shortest significand exponent).exponent := by
  have scalePos : (0 : ℚ) < 2 ^ exponent := by positivity
  obtain ⟨logLow, logHigh⟩ := two_zpow_log2_le positive
  -- The magnitude is between one and 2 ^ 70, which bounds the place where the search starts.
  have atLeast : 0 < (Nat.log2 significand : ℤ) + 1 + exponent := by
    have one : (1 : ℚ) ≤ n := by
      have : 0 < (n : ℚ) := whole ▸ mul_pos (by exact_mod_cast positive) scalePos
      exact_mod_cast this
    have above : (2 : ℚ) ^ (0 : ℤ) < 2 ^ ((Nat.log2 significand : ℤ) + 1 + exponent) := by
      rw [zpow_zero, zpow_add₀ two_ne_zero]
      exact one.trans_lt (whole ▸ mul_lt_mul_of_pos_right logHigh scalePos)
    exact (zpow_lt_zpow_iff_right₀ one_lt_two).1 above
  have atMost : (Nat.log2 significand : ℤ) + exponent < 70 := by
    have bound : (n : ℚ) < 2 ^ (70 : ℤ) := by
      have : n < 2 ^ 70 := small.trans (by norm_num)
      exact_mod_cast this
    have below : (2 : ℚ) ^ ((Nat.log2 significand : ℤ) + exponent) < 2 ^ (70 : ℤ) := by
      rw [zpow_add₀ two_ne_zero]
      exact (mul_le_mul_of_nonneg_right logLow scalePos.le).trans_lt (whole ▸ bound)
    exact (zpow_lt_zpow_iff_right₀ one_lt_two).1 below
  have strict : (Interval.around significand exponent).low < (Interval.around significand exponent).center ∧
      (Interval.around significand exponent).center < (Interval.around significand exponent).high := by
    simp only [Interval.around]
    split <;> omega
  have onGrid : n * ((Interval.around significand exponent).scale 0).2 =
      (Interval.around significand exponent).center * ((Interval.around significand exponent).scale 0).1 := by
    have ratio := scale_ratio (Interval.around significand exponent) 0
    rw [zpow_zero, mul_one, show (Interval.around significand exponent).exponent = exponent - 2 from rfl,
      zpow_sub₀ two_ne_zero] at ratio
    have center : (Interval.around significand exponent).center = 4 * significand := rfl
    have cast : (n : ℚ) * ((Interval.around significand exponent).scale 0).2 =
        (Interval.around significand exponent).center * ((Interval.around significand exponent).scale 0).1 := by
      rw [ratio, center, whole]
      push_cast
      ring
    exact_mod_cast cast
  refine search_whole (isSome_nearest? strict.1 strict.2 onGrid) ?_ ?_ <;> omega

end Decimal

/-- Between the midpoints around an integer below `2 ^ 53` there is no other integer. -/
theorem eq_of_roundsTo {significand n m : Nat} {exponent : ℤ} (canonical : Canonical significand exponent)
    (whole : (n : ℚ) = significand * 2 ^ exponent) (small : n < 2 ^ 53) (rounds : RoundsTo m significand exponent) :
    m = n := by
  have scalePos : (0 : ℚ) < 2 ^ exponent := by positivity
  have half := midpointBelow_ge significand exponent
  have low := (mul_le_mul_of_nonneg_right half scalePos.le).trans rounds.low
  have high := rounds.high
  have unit : (2 : ℚ) ^ exponent ≤ 1 := by
    by_contra large
    have coarse : (2 : ℚ) ≤ 2 ^ exponent := by
      have positive : 0 < exponent := by
        by_contra nonpos
        exact large (zpow_le_one_of_nonpos₀ one_le_two (not_lt.1 nonpos))
      calc (2 : ℚ) = 2 ^ (1 : ℤ) := (zpow_one 2).symm
        _ ≤ 2 ^ exponent := zpow_le_zpow_right₀ one_le_two (by omega)
    have wide : (2 : ℚ) ^ 52 ≤ significand := by
      have least := canonical.least
      simp only [leastExponent] at least
      rcases canonical.normal with isLeast | normal
      · rw [isLeast] at coarse
        exact absurd coarse (not_le.2 (lt_of_le_of_lt (zpow_le_one_of_nonpos₀ one_le_two (by decide)) one_lt_two))
      · exact_mod_cast normal
    have bound : (n : ℚ) < 2 ^ 53 := by exact_mod_cast small
    nlinarith
  have above : (m : ℚ) < n + 1 := by nlinarith
  have below : (n : ℚ) < m + 1 := by nlinarith
  have aboveNat : m < n + 1 := by exact_mod_cast above
  have belowNat : n < m + 1 := by exact_mod_cast below
  omega

/-- The text of a large integral number is that of an integer that reads back as the number. -/
theorem exists_text_eq {x : Float} {n : ℤ} (whole : toInt? x = some n) (nonzero : n ≠ 0) (small : n.natAbs < 10 ^ 21) :
    ∃ written : ℤ, text x = toString written ∧ Nears x written ∧ (n.natAbs < 2 ^ 53 → written = n) := by
  obtain ⟨negative, significand, exponent, isParts, value, sign⟩ := parts_of_toInt? whole
  have positive : 0 < significand := by
    rcases Nat.eq_zero_or_pos significand with zero | positive
    · rw [zero, Nat.cast_zero, zero_mul, Nat.cast_eq_zero, Int.natAbs_eq_zero] at value
      exact absurd value nonzero
    · exact positive
  have canonical := canonical_of_parts isParts positive
  have places := Decimal.shortest_whole positive value small
  have rounds : RoundsTo (Decimal.shortest significand exponent).value significand exponent :=
    Decimal.roundsTo_shortest positive
  have digits : 0 < (Decimal.shortest significand exponent).digits := by
    refine Nat.pos_of_ne_zero fun none => ?_
    have low := (rounds.bounds canonical).1
    rw [Decimal.value, none, Nat.cast_zero, zero_mul] at low
    exact absurd low (not_le.2 (by positivity))
  have shown := Decimal.text_of_whole places digits
  rw [Decimal.value_of_whole places] at rounds
  have some := Nat.mul_pos digits (Nat.pow_pos (n := (Decimal.shortest significand exponent).exponent.toNat) (show 0 < 10 by decide))
  generalize (Decimal.shortest significand exponent).digits * 10 ^ (Decimal.shortest significand exponent).exponent.toNat = m at *
  have textEq : text x = if negative then "-" ++ toString m else toString m := by
    simp only [text, isParts, shown, if_neg (Nat.pos_iff_ne_zero.1 positive)]
  have same (exact : n.natAbs < 2 ^ 53) : m = n.natAbs := eq_of_roundsTo canonical value exact rounds
  cases negative with
  | false =>
    refine ⟨m, textEq, ⟨false, significand, exponent, isParts, by simpa using rounds, by simp⟩, fun exact => ?_⟩
    rw [same exact]
    exact sign.symm
  | true =>
    refine ⟨-m, textEq.trans ?_, ⟨true, significand, exponent, isParts, by simpa using rounds, by simp⟩, fun exact => ?_⟩
    · obtain ⟨k, rfl⟩ := Nat.exists_eq_succ_of_ne_zero (Nat.pos_iff_ne_zero.1 some)
      rfl
    · rw [same exact]
      exact sign.symm

end Number

/-- Different integers have different texts. -/
theorem toString_inj {n m : ℤ} : toString n = toString m ↔ n = m := by
  have digits (a : Nat) : (Nat.repr a).toList = Nat.toDigits 10 a := Nat.toList_repr
  have unsigned {a b : Nat} (same : Nat.repr a = Nat.repr b) : a = b := by
    rw [← Number.digitsValue_toDigits a, ← digits, same, digits, Number.digitsValue_toDigits]
  have apart (a b : Nat) : Nat.repr a ≠ "-" ++ Nat.repr b := by
    intro same
    have sign : '-' ∈ Nat.toDigits 10 a := by
      rw [← digits, same, String.toList_append]
      exact List.mem_append_left _ (List.mem_singleton_self _)
    cases Number.isDigit_of_mem_toDigits sign
  refine ⟨fun same => ?_, fun same => same ▸ rfl⟩
  rw [Int.toString_eq_repr, Int.toString_eq_repr, Int.repr_eq_if, Int.repr_eq_if] at same
  split at same <;> split at same
  · have := unsigned same
    omega
  · exact (apart _ _ same).elim
  · exact (apart _ _ same.symm).elim
  · have := unsigned (String.append_right_inj _ |>.1 same)
    omega

namespace Value

theorem clampInteger_eq_self {n : ℤ} : clampInteger n = n ↔ -2 ^ 63 ≤ n ∧ n < 2 ^ 63 := by
  simp only [clampInteger, Nat.pow_eq]
  push_cast
  split
  · omega
  · split <;> omega

theorem showNumber_of_integral {x : Float} {n : ℤ} (whole : Number.toInt? x = some n) (small : n.natAbs < 10 ^ 21) :
    showNumber x = toString (clampInteger n) := by
  obtain ⟨negative, significand, exponent, isParts, _, _⟩ := Number.parts_of_toInt? whole
  simp only [showNumber, isParts, whole, Nat.pow_eq, if_pos small]

/-- The name of a property for an integral number is that of an integer that reads back as the number. -/
theorem exists_key_eq {x : Float} {n : ℤ} (whole : Number.toInt? x = some n) (small : n.natAbs < 10 ^ 21) :
    ∃ written : ℤ, (number x).key = toString written ∧ Number.Nears x written ∧ (n.natAbs < 2 ^ 53 → written = n) := by
  simp only [key, Expression.numeral, whole, Nat.pow_eq]
  split
  next => exact ⟨n, rfl, Number.nears_self whole, fun _ => rfl⟩
  next large =>
    refine Number.exists_text_eq whole ?_ small
    rintro rfl
    exact large (by decide)

/-- The text of an integral number is exact if and only if the number fits a sixty-four bit integer, and numbers that fit
have texts of their own; any other has the text of the nearest integer that fits. As the name of a property it is
written as an integer that reads back, which is the number itself below `2 ^ 53`. -/
theorem text_of_integral {x : Float} {n : ℤ} (whole : Number.toInt? x = some n) (small : n.natAbs < 10 ^ 21) :
    (number x).text = toString (clampInteger n) ∧ ((number x).text = toString n ↔ -2 ^ 63 ≤ n ∧ n < 2 ^ 63) ∧
    (∀ {y : Float} {m : ℤ}, Number.toInt? y = some m → m.natAbs < 10 ^ 21 → (-2 ^ 63 ≤ n ∧ n < 2 ^ 63) →
      (-2 ^ 63 ≤ m ∧ m < 2 ^ 63) → ((number x).text = (number y).text ↔ n = m)) ∧
    ∃ written : ℤ, (number x).key = toString written ∧ Number.Nears x written ∧ (n.natAbs < 2 ^ 53 → written = n) ∧
      ((number x).key = (number x).text ↔ written = clampInteger n) := by
  have text {y : Float} {m : ℤ} (whole : Number.toInt? y = some m) (small : m.natAbs < 10 ^ 21) :
      (number y).text = toString (clampInteger m) := by rw [Value.text, showNumber_of_integral whole small]
  refine ⟨text whole small, ?_, fun wholeToo smallToo fits fitsToo => ?_, ?_⟩
  · rw [text whole small, toString_inj, clampInteger_eq_self]
  · rw [text whole small, text wholeToo smallToo, toString_inj, clampInteger_eq_self.2 fits, clampInteger_eq_self.2 fitsToo]
  · obtain ⟨written, isKey, nears, exact⟩ := exists_key_eq whole small
    refine ⟨written, isKey, nears, exact, ?_⟩
    rw [isKey, text whole small, toString_inj]

/-- Both `2 ^ 60`, whose text is exact though its name as a property is not, and `2 ^ 63`, which does not fit. -/
theorem text_of_integral_powers :
    (Number.toInt? (Float.ofBits 0x43B0000000000000) = some (2 ^ 60) ∧ (2 ^ 60 : ℤ).natAbs < 10 ^ 21) ∧
    (Number.toInt? (Float.ofBits 0x43E0000000000000) = some (2 ^ 63) ∧ (2 ^ 63 : ℤ).natAbs < 10 ^ 21) ∧
    (number (Float.ofBits 0x43B0000000000000)).text = toString (2 ^ 60 : ℤ) ∧
    (number (Float.ofBits 0x43E0000000000000)).text = "9223372036854775807" := by
  have whole : Number.toInt? (Float.ofBits 0x43B0000000000000) = some (2 ^ 60) := by decide +kernel
  have wholeToo : Number.toInt? (Float.ofBits 0x43E0000000000000) = some (2 ^ 63) := by decide +kernel
  have small : (2 ^ 60 : ℤ).natAbs < 10 ^ 21 := by decide
  have smallToo : (2 ^ 63 : ℤ).natAbs < 10 ^ 21 := by decide
  exact ⟨⟨whole, small⟩, ⟨wholeToo, smallToo⟩, (text_of_integral whole small).2.1.2 (by decide),
    (text_of_integral wholeToo smallToo).1⟩

example : (number (Float.ofBits 0x43B0000000000000)).key = "1152921504606847000" := by decide +kernel

end Value

end ReactiveMarkup
