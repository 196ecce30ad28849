import BasicCompiler.Proofs.Execution.ExactDecimal
import BasicCompiler.Proofs.Number.Reading

/-!
What rounding an exact decimal means. Rounding to some digits takes the value to the grid of that many
digits, in each of the modes.
-/

namespace BasicCompiler

open Single

def Rounding.Takes (mode : Rounding) (ratio : ℚ) (rounded : Nat) : Prop :=
  match mode with
  | halfEven => HalfEven ratio rounded
  | ceiling => ratio ≤ rounded ∧ rounded < ratio + 1
  | floor | down => rounded ≤ ratio ∧ ratio < rounded + 1

theorem HalfEven.unique {exact : ℚ} {rounded other : Nat} (half : HalfEven exact rounded)
    (half' : HalfEven exact other) : rounded = other := by
  wlog less : rounded ≤ other generalizing rounded other
  · exact (this half' half (not_le.mp less).le).symm
  by_contra different
  have next : (rounded : ℚ) + 1 ≤ other := by exact_mod_cast (by omega : rounded + 1 ≤ other)
  have low := half.le
  have high := half'.ge
  obtain rfl : other = rounded + 1 := by
    have most : (other : ℚ) ≤ rounded + 1 := by linarith
    have : other ≤ rounded + 1 := by exact_mod_cast most
    omega
  push_cast at high
  rcases Nat.even_or_odd rounded with even | odd
  · have strict := (half'.even (by have := Nat.even_iff.mp even; omega)).2
    push_cast at strict
    linarith
  · have strict := (half.even (Nat.odd_iff.mp odd)).1
    linarith

namespace Rounding

variable {mode : Rounding} {ratio : ℚ} {rounded other bound : Nat}

theorem Takes.unique (takes : mode.Takes ratio rounded) (takes' : mode.Takes ratio other) :
    rounded = other := by
  have apart (first second : Nat) (low : (first : ℚ) < second + 1) (high : (second : ℚ) < first + 1) :
      first = second := by
    have low' : first < second + 1 := by exact_mod_cast low
    have high' : second < first + 1 := by exact_mod_cast high
    omega
  cases mode with
  | halfEven => exact HalfEven.unique takes takes'
  | ceiling => exact apart _ _ (by linarith [takes.2, takes'.1]) (by linarith [takes.1, takes'.2])
  | floor => exact apart _ _ (by linarith [takes.1, takes'.2]) (by linarith [takes.2, takes'.1])
  | down => exact apart _ _ (by linarith [takes.1, takes'.2]) (by linarith [takes.2, takes'.1])

theorem Takes.rounded_le (takes : mode.Takes ratio rounded) (below : ratio < bound) : rounded ≤ bound := by
  cases mode with
  | halfEven => exact HalfEven.rounded_le takes below
  | ceiling =>
      have less : (rounded : ℚ) < bound + 1 := by linarith [takes.2]
      exact Nat.lt_succ_iff.mp (by exact_mod_cast less)
  | floor => exact_mod_cast (takes.1.trans below.le)
  | down => exact_mod_cast (takes.1.trans below.le)

theorem Takes.le_rounded (takes : mode.Takes ratio rounded) (above : (bound : ℚ) ≤ ratio) : bound ≤ rounded := by
  cases mode with
  | halfEven => exact HalfEven.le_rounded takes above
  | ceiling => exact_mod_cast (above.trans takes.1)
  | floor =>
      have less : (bound : ℚ) < rounded + 1 := above.trans_lt takes.2
      exact Nat.lt_succ_iff.mp (by exact_mod_cast less)
  | down =>
      have less : (bound : ℚ) < rounded + 1 := above.trans_lt takes.2
      exact Nat.lt_succ_iff.mp (by exact_mod_cast less)

theorem takes_natCast (mode : Rounding) (number : Nat) : mode.Takes number number := by
  cases mode with
  | halfEven => exact ⟨by linarith, by linarith, fun _ => ⟨by linarith, by linarith⟩⟩
  | ceiling => exact ⟨le_rfl, by linarith⟩
  | floor => exact ⟨le_rfl, by linarith⟩
  | down => exact ⟨le_rfl, by linarith⟩

theorem quotient_takes (mode : Rounding) (numerator : Nat) {denominator : Nat} (positive : 0 < denominator) :
    mode.Takes ((numerator : ℚ) / denominator) (mode.quotient numerator denominator) := by
  have divisor : (0 : ℚ) < denominator := by exact_mod_cast positive
  cases mode with
  | halfEven => exact roundHalfEven_halfEven numerator positive
  | ceiling =>
      have low := Nat.div_mul_le_self (numerator + (denominator - 1)) denominator
      have high := Nat.lt_div_mul_add (a := numerator + (denominator - 1)) positive
      refine ⟨?_, ?_⟩
      · rw [div_le_iff₀ divisor]
        exact_mod_cast (by rw [quotient]; omega :
          numerator ≤ quotient .ceiling numerator denominator * denominator)
      · rw [← sub_lt_iff_lt_add, lt_div_iff₀ divisor, sub_mul, one_mul, sub_lt_iff_lt_add]
        exact_mod_cast (by rw [quotient]; omega :
          quotient .ceiling numerator denominator * denominator < numerator + denominator)
  | floor => exact div_bounds numerator positive
  | down => exact div_bounds numerator positive

theorem quotient_mul (mode : Rounding) (number : Nat) {denominator : Nat} (positive : 0 < denominator) :
    mode.quotient (number * denominator) denominator = number := by
  have takes := mode.quotient_takes (number * denominator) positive
  rw [Nat.cast_mul, mul_div_cancel_right₀ _ (Nat.cast_ne_zero.mpr positive.ne')] at takes
  exact takes.unique (mode.takes_natCast number)

end Rounding

theorem toDigits_bounds {number : Nat} (positive : 0 < number) :
    10 ^ ((Nat.toDigits 10 number).length - 1) ≤ number ∧
      number < 10 ^ (Nat.toDigits 10 number).length := by
  have some : 0 < (Nat.toDigits 10 number).length := Nat.length_toDigits_pos
  refine ⟨?_, (Nat.length_toDigits_le_iff (by decide) some).mp le_rfl⟩
  rcases Nat.eq_zero_or_pos ((Nat.toDigits 10 number).length - 1) with none | more
  · rw [none]
    exact positive
  · refine not_lt.mp fun less => ?_
    have := (Nat.length_toDigits_le_iff (by decide) more).mpr less
    omega

namespace Decimal

variable {decimal : Decimal} {mode : Rounding} {precision : Nat}

theorem dropLast_value (decimal : Decimal) (mode : Rounding) (count : Nat) :
    (decimal.dropLast mode count).value =
      mode.quotient decimal.coefficient (10 ^ count) * 10 ^ (decimal.exponent + count) := rfl

theorem dropLast_value_of_dvd {count : Nat} (divides : 10 ^ count ∣ decimal.coefficient) :
    (decimal.dropLast mode count).value = decimal.value := by
  obtain ⟨rest, whole⟩ := divides
  rw [dropLast_value, value, whole, mul_comm (10 ^ count), mode.quotient_mul rest (by positivity),
    zpow_add₀ (by norm_num), zpow_natCast]
  push_cast
  ring

theorem dropLast_coefficient_le (mode : Rounding) (nonzero : 0 < decimal.coefficient) (precision : Nat) :
    (decimal.dropLast mode (decimal.digits.length - precision)).coefficient ≤ 10 ^ precision := by
  have takes := mode.quotient_takes decimal.coefficient
    (Nat.pow_pos (by decide) : 0 < 10 ^ (decimal.digits.length - precision))
  refine takes.rounded_le ?_
  rw [div_lt_iff₀ (by positivity)]
  have below : decimal.coefficient < 10 ^ precision * 10 ^ (decimal.digits.length - precision) := by
    rw [← Nat.pow_add]
    exact lt_of_lt_of_le (toDigits_bounds nonzero).2
      (Nat.pow_le_pow_right (by decide) (by unfold digits; omega))
  exact_mod_cast below

theorem round_value (mode : Rounding) (nonzero : 0 < decimal.coefficient) (positive : 0 < precision) :
    (decimal.round precision mode).value =
      (decimal.dropLast mode (decimal.digits.length - precision)).value := by
  unfold round
  rw [if_neg positive.ne']
  dsimp only
  refine dropLast_value_of_dvd ?_
  rcases (dropLast_coefficient_le mode nonzero precision).eq_or_lt with full | less
  · have length : (Nat.toDigits 10 (10 ^ precision)).length = precision + 1 :=
      length_toDigits le_rfl (Nat.pow_lt_pow_right (by decide) (Nat.lt_succ_self _))
    unfold digits at full ⊢
    rw [full, length, Nat.add_sub_cancel_left]
    exact Nat.pow_dvd_pow 10 positive
  · have fits := (Nat.length_toDigits_le_iff (by decide) positive).mpr less
    unfold digits at fits ⊢
    rw [Nat.sub_eq_zero_of_le fits, Nat.pow_zero]
    exact Nat.one_dvd _

theorem dropLast_zero (decimal : Decimal) (mode : Rounding) : decimal.dropLast mode 0 = decimal := by
  have kept := mode.quotient_mul decimal.coefficient Nat.one_pos
  rw [Nat.mul_one] at kept
  simp [dropLast, kept]

def unit (decimal : Decimal) (precision : Nat) : ℚ :=
  10 ^ (decimal.leadingExponent - (precision - 1 : Nat))

theorem round_takes (mode : Rounding) (nonzero : 0 < decimal.coefficient) (positive : 0 < precision) :
    ∃ rounded, mode.Takes (decimal.value / decimal.unit precision) rounded ∧
      (decimal.round precision mode).value = rounded * decimal.unit precision := by
  have digit : 0 < decimal.digits.length := Nat.length_toDigits_pos
  have unitPositive : 0 < decimal.unit precision := by unfold unit; positivity
  rw [round_value mode nonzero positive]
  rcases Nat.le_total decimal.digits.length precision with few | many
  · -- the decimal lies on the grid
    rw [Nat.sub_eq_zero_of_le few, dropLast_value_of_dvd (Nat.one_dvd _)]
    have onGrid : decimal.value =
        (decimal.coefficient * 10 ^ (precision - decimal.digits.length) : ℕ) * decimal.unit precision := by
      unfold value unit leadingExponent
      push_cast
      rw [mul_assoc, ← zpow_natCast, ← zpow_add₀ (by norm_num)]
      congr 2
      omega
    refine ⟨_, ?_, onGrid⟩
    rw [onGrid, mul_div_cancel_right₀ _ unitPositive.ne']
    exact mode.takes_natCast _
  · have grid : decimal.unit precision = 10 ^ (decimal.exponent + (decimal.digits.length - precision : Nat)) := by
      unfold unit leadingExponent
      congr 1
      omega
    have ratio : decimal.value / decimal.unit precision =
        decimal.coefficient / (10 ^ (decimal.digits.length - precision) : ℕ) := by
      rw [grid, value, zpow_add₀ (by norm_num), zpow_natCast, mul_comm (10 ^ decimal.exponent : ℚ),
        mul_div_mul_right _ _ (by positivity)]
      push_cast
      rfl
    rw [ratio, grid]
    exact ⟨_, mode.quotient_takes _ (by positivity), dropLast_value _ _ _⟩

theorem dropLast_down (nonzero : 0 < decimal.coefficient) {count : Nat}
    (few : count < decimal.digits.length) :
    0 < (decimal.dropLast .down count).coefficient ∧
      ∃ tail, tail.length = count ∧ decimal.digits = (decimal.dropLast .down count).digits ++ tail := by
  have some : 0 < decimal.coefficient / 10 ^ count := by
    refine Nat.div_pos (le_trans (Nat.pow_le_pow_right (by decide) ?_) (toDigits_bounds nonzero).1)
      (by positivity)
    exact Nat.le_sub_one_of_lt few
  exact ⟨some, toDigits_div_pow some⟩

theorem round_down (nonzero : 0 < decimal.coefficient) (positive : 0 < precision) :
    0 < (decimal.round precision .down).coefficient ∧
      (decimal.round precision .down).digits = decimal.digits.take precision ∧
      (decimal.round precision .down).leadingExponent = decimal.leadingExponent := by
  have digit : 0 < decimal.digits.length := Nat.length_toDigits_pos
  obtain ⟨some, tail, dropped, split⟩ := dropLast_down nonzero
    (by omega : decimal.digits.length - precision < decimal.digits.length)
  have whole := congrArg List.length split
  rw [List.length_append] at whole
  have fits : (decimal.dropLast .down (decimal.digits.length - precision)).digits.length - precision = 0 := by
    omega
  have rounded : decimal.round precision .down =
      decimal.dropLast .down (decimal.digits.length - precision) := by
    unfold round
    rw [if_neg positive.ne']
    dsimp only
    rw [fits, dropLast_zero]
  rw [rounded]
  refine ⟨some, ?_, ?_⟩
  · conv_rhs => rw [split]
    rcases Nat.le_total decimal.digits.length precision with few | many
    · rw [List.length_eq_zero_iff.mp (dropped.trans (Nat.sub_eq_zero_of_le few)), List.append_nil,
        List.take_of_length_le (by omega)]
    · rw [List.take_left' (by omega)]
  · have exponentIs : (decimal.dropLast .down (decimal.digits.length - precision)).exponent =
        decimal.exponent + (decimal.digits.length - precision : Nat) := rfl
    unfold leadingExponent
    omega

theorem stripZeros_digits (nonzero : 0 < decimal.coefficient) :
    decimal.stripZeros.digits = Display.stripTrailingZeros decimal.digits ∧
      decimal.stripZeros.leadingExponent = decimal.leadingExponent := by
  obtain ⟨zeros, split⟩ := Display.exists_stripTrailingZeros decimal.digits
  have counted : (decimal.digits.reverse.takeWhile (· == '0')).length = zeros := by
    have whole := congrArg List.length split
    have parts := congrArg List.length
      (List.takeWhile_append_dropWhile (p := (· == '0')) (l := decimal.digits.reverse))
    simp only [List.length_append, List.length_replicate, Display.stripTrailingZeros, List.length_reverse]
      at whole parts
    omega
  obtain ⟨rest, coefficient⟩ : ∃ rest, decimal.coefficient = rest * 10 ^ zeros := by
    refine ⟨Nat.ofDigitChars 10 (Display.stripTrailingZeros decimal.digits) 0, ?_⟩
    calc decimal.coefficient
      _ = Nat.ofDigitChars 10 decimal.digits 0 := Nat.ofDigitChars_ten_toDigits.symm
      _ = _ := by
          nth_rewrite 1 [split]
          rw [Nat.ofDigitChars_append, Nat.ofDigitChars_replicate_zero, Nat.mul_comm]
  have some : 0 < rest := Nat.pos_of_ne_zero fun none => by simp [coefficient, none] at nonzero
  have stripped : decimal.stripZeros = ⟨rest, decimal.exponent + zeros⟩ := by
    unfold stripZeros
    dsimp only
    rw [if_neg nonzero.ne', counted, coefficient, Nat.pow_eq, Nat.mul_div_cancel _ (by positivity)]
  have digits : decimal.digits = Nat.toDigits 10 rest ++ List.replicate zeros '0' := by
    unfold Decimal.digits
    rw [coefficient, toDigits_mul_pow some]
  rw [stripped]
  refine ⟨List.append_cancel_right (digits.symm.trans split), ?_⟩
  unfold leadingExponent
  rw [digits, List.length_append, List.length_replicate, Decimal.digits]
  push_cast
  ring

def cut (decimal : Decimal) : List Char × Int :=
  (Display.stripTrailingZeros (decimal.digits.take Display.significantDigits), decimal.leadingExponent)

theorem cut_eq (nonzero : 0 < decimal.coefficient) :
    decimal.cut = ((decimal.round Display.significantDigits .down).stripZeros.digits,
      (decimal.round Display.significantDigits .down).stripZeros.leadingExponent) := by
  obtain ⟨some, digits, leading⟩ := round_down nonzero (by decide : 0 < Display.significantDigits)
  obtain ⟨stripped, leading'⟩ := stripZeros_digits some
  rw [stripped, leading', digits, leading, cut]

theorem cut_congr {other : Decimal} (positive : 0 < decimal.value) (same : decimal.value = other.value) :
    decimal.cut = other.cut := by
  wlog coarser : other.exponent ≤ decimal.exponent generalizing decimal other
  · exact (this (same ▸ positive) same.symm (not_le.mp coarser).le).symm
  obtain ⟨zeros, digits, leading⟩ := exists_digits_append positive same coarser
  unfold cut
  rw [digits, leading, List.take_append, List.take_replicate, Display.stripTrailingZeros_append]

end Decimal

end BasicCompiler
