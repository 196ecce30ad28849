import Mathlib.Data.List.DropRight
import BasicCompiler.Number.Display
import BasicCompiler.Proofs.Number.Shortest

/-!
Printed digits. They depend on the value of the decimal that is printed only, and they are the digits of
a decimal that reads back or, where none of seven digits does, the first seven of the exact value.
-/

namespace BasicCompiler

open Single

theorem toDigits_mul_pow {number : Nat} (positive : 0 < number) (zeros : Nat) :
    Nat.toDigits 10 (number * 10 ^ zeros) = Nat.toDigits 10 number ++ List.replicate zeros '0' := by
  induction zeros with
  | zero => simp
  | succ zeros ih =>
      have shifted : number * 10 ^ (zeros + 1) = 10 * (number * 10 ^ zeros) + 0 := by ring
      rw [shifted, ← Nat.toDigits_append_toDigits (by decide) (by positivity) (by decide), ih,
        List.replicate_succ', List.append_assoc]
      rfl

theorem toDigits_div_pow {number cut : Nat} (positive : 0 < number / 10 ^ cut) :
    ∃ tail, tail.length = cut ∧ Nat.toDigits 10 number = Nat.toDigits 10 (number / 10 ^ cut) ++ tail := by
  induction cut generalizing number with
  | zero => exact ⟨[], rfl, by simp⟩
  | succ cut ih =>
      rw [Nat.pow_succ', ← Nat.div_div_eq_div_mul] at positive ⊢
      obtain ⟨tail, length, digits⟩ := ih positive
      have last : number % 10 < 10 := Nat.mod_lt _ (by decide)
      refine ⟨tail ++ Nat.toDigits 10 (number % 10), ?_, ?_⟩
      · rw [List.length_append, length, Nat.toDigits_of_lt_base last, List.length_singleton]
      · rw [← List.append_assoc, ← digits, Nat.toDigits_append_toDigits (by decide) _ last,
          Nat.div_add_mod]
        exact Nat.pos_of_ne_zero fun none => by simp [none] at positive

theorem length_toDigits {number more : Nat} (low : 10 ^ more ≤ number) (high : number < 10 ^ (more + 1)) :
    (Nat.toDigits 10 number).length = more + 1 := by
  refine le_antisymm ((Nat.length_toDigits_le_iff (by decide) (Nat.succ_pos _)).mpr high) ?_
  by_contra fewer
  rcases more.eq_zero_or_pos with rfl | positive
  · exact fewer Nat.length_toDigits_pos
  · exact low.not_gt ((Nat.length_toDigits_le_iff (by decide) positive).mp (by omega))

namespace Display

theorem stripTrailingZeros_append (digits : List Char) (zeros : Nat) :
    stripTrailingZeros (digits ++ List.replicate zeros '0') = stripTrailingZeros digits := by
  unfold stripTrailingZeros
  rw [List.reverse_append, List.reverse_replicate, List.dropWhile_append_of_pos (by simp)]

theorem exists_stripTrailingZeros (digits : List Char) :
    ∃ zeros, digits = stripTrailingZeros digits ++ List.replicate zeros '0' := by
  have split := List.takeWhile_append_dropWhile (p := (· == '0')) (l := digits.reverse)
  have zeros : digits.reverse.takeWhile (· == '0') =
      List.replicate (digits.reverse.takeWhile (· == '0')).length '0' :=
    List.eq_replicate_of_mem fun digit member => by simpa using List.mem_takeWhile_imp member
  refine ⟨(digits.reverse.takeWhile (· == '0')).length, ?_⟩
  rw [← List.reverse_replicate, ← zeros, stripTrailingZeros, ← List.reverse_append, split,
    List.reverse_reverse]

def denoted (digits : List Char) (exponent : Int) : ℚ :=
  Nat.ofDigitChars 10 digits 0 * 10 ^ (exponent + 1 - digits.length)

theorem denoted_zeros_append (zeros : Nat) (digits : List Char) (exponent : Int) :
    denoted (List.replicate zeros '0' ++ digits) (exponent + zeros) = denoted digits exponent := by
  unfold denoted
  rw [Nat.ofDigitChars_append, Nat.ofDigitChars_replicate_zero, Nat.mul_zero, List.length_append,
    List.length_replicate]
  congr 2
  push_cast
  ring

theorem denoted_append_zeros (digits : List Char) (zeros : Nat) (exponent : Int) :
    denoted (digits ++ List.replicate zeros '0') exponent = denoted digits exponent := by
  unfold denoted
  rw [Nat.ofDigitChars_append, Nat.ofDigitChars_replicate_zero, List.length_append,
    List.length_replicate]
  push_cast
  rw [mul_comm (10 ^ zeros : ℚ), mul_assoc, ← zpow_natCast, ← zpow_add₀ (by norm_num)]
  congr 2
  ring

end Display

namespace Decimal

def printed (decimal : Decimal) : List Char × Int :=
  (Display.stripTrailingZeros decimal.digits, decimal.leadingExponent)

theorem denoted_printed (decimal : Decimal) :
    Display.denoted decimal.printed.1 decimal.printed.2 = decimal.value := by
  obtain ⟨zeros, digits⟩ := Display.exists_stripTrailingZeros decimal.digits
  calc Display.denoted (Display.stripTrailingZeros decimal.digits) decimal.leadingExponent
    _ = Display.denoted decimal.digits decimal.leadingExponent := by
        nth_rewrite 2 [digits]
        rw [Display.denoted_append_zeros]
    _ = decimal.value := by
        unfold Display.denoted leadingExponent Decimal.digits value
        rw [Nat.ofDigitChars_ten_toDigits]
        congr 2
        ring

theorem exists_digits_append {decimal other : Decimal} (positive : 0 < decimal.value)
    (same : decimal.value = other.value) (coarser : other.exponent ≤ decimal.exponent) :
    ∃ zeros, other.digits = decimal.digits ++ List.replicate zeros '0' ∧
      other.leadingExponent = decimal.leadingExponent := by
  obtain ⟨zeros, shift⟩ := Int.le.dest coarser
  have coefficient : other.coefficient = decimal.coefficient * 10 ^ zeros := by
    unfold value at same
    rw [← shift, zpow_add₀ (by norm_num), zpow_natCast, mul_comm (10 ^ other.exponent : ℚ), ← mul_assoc]
      at same
    exact_mod_cast (mul_right_cancel₀ (by positivity) same).symm
  have digits : other.digits = decimal.digits ++ List.replicate zeros '0' := by
    unfold Decimal.digits
    rw [coefficient, toDigits_mul_pow (coefficient_pos positive)]
  refine ⟨zeros, digits, ?_⟩
  unfold leadingExponent
  rw [digits, List.length_append, List.length_replicate, ← shift]
  push_cast
  ring

theorem printed_congr {decimal other : Decimal} (positive : 0 < decimal.value)
    (same : decimal.value = other.value) : decimal.printed = other.printed := by
  wlog coarser : other.exponent ≤ decimal.exponent generalizing decimal other
  · exact (this (same ▸ positive) same.symm (not_le.mp coarser).le).symm
  obtain ⟨zeros, digits, leading⟩ := exists_digits_append positive same coarser
  unfold printed
  rw [digits, Display.stripTrailingZeros_append, leading]

theorem stripTrailingZeros_take {decimal : Decimal} (small : decimal.coefficient ≤ 10 ^ 7) :
    Display.stripTrailingZeros (decimal.digits.take Display.significantDigits) =
      Display.stripTrailingZeros decimal.digits := by
  rcases small.eq_or_lt with same | less
  · unfold digits
    rw [same]
    decide
  · rw [List.take_of_length_le]
    exact (Nat.length_toDigits_le_iff (by decide) (by decide)).mpr less

end Decimal

namespace Single

variable {value : Single}

namespace IsShortest

variable {decimal : Decimal} {count : Nat}

theorem leadingExponent_ge (shortest : value.IsShortest decimal count) (proper : value.Proper) :
    value.decimalExponent ≤ decimal.leadingExponent := by
  have low := (shortest.coefficient_range proper).1
  have digits : count ≤ decimal.digits.length := by
    by_contra fewer
    have many := Nat.length_toDigits_pos (b := 10) (n := decimal.coefficient)
    unfold Decimal.digits at fewer
    exact low.not_gt ((Nat.length_toDigits_le_iff (by decide) (by omega)).mp (by omega))
  unfold Decimal.leadingExponent
  rw [shortest.exponent]
  unfold gridExponent
  have := shortest.positive
  omega

theorem readsBack_one (shortest : value.IsShortest decimal count) (proper : value.Proper)
    (single : (Display.stripTrailingZeros decimal.digits).length ≤ 1) : value.ReadsBack 1 := by
  have rounds := shortest.rounds
  have leading := shortest.leadingExponent_ge proper
  rw [← decimal.denoted_printed] at rounds
  unfold Display.denoted Decimal.printed at rounds
  obtain ⟨more, exponent⟩ : ∃ more : Nat, decimal.leadingExponent + 1 -
      (Display.stripTrailingZeros decimal.digits).length = value.decimalExponent + more :=
    ⟨(decimal.leadingExponent + 1 - (Display.stripTrailingZeros decimal.digits).length -
      value.decimalExponent).toNat, by omega⟩
  refine ⟨Nat.ofDigitChars 10 (Display.stripTrailingZeros decimal.digits) 0 * 10 ^ more, ?_⟩
  dsimp only at rounds
  rw [exponent, zpow_add₀ (by norm_num), zpow_natCast, mul_comm (10 ^ value.decimalExponent : ℚ),
    ← mul_assoc] at rounds
  rw [gridUnit_one]
  push_cast
  exact rounds

end IsShortest

namespace Proper

theorem printedDigits_short (proper : value.Proper) {count : Nat} (positive : 0 < count)
    (few : count ≤ 7) (reads : value.ReadsBack count) :
    ∃ decimal : Decimal, Display.printedDigits value = decimal.printed ∧
      Rounds decimal.value value.magnitude ∧ 0 < decimal.value ∧
      ∃ coefficient : Nat, decimal.value = coefficient * value.gridUnit (max 2 count) := by
  obtain ⟨least, shortest⟩ := proper.shortestDecimal_isShortest
  have fewer := shortest.count_le positive reads
  unfold Display.printedDigits
  dsimp only
  split
  · rename_i single
    -- the digits are those of the nearest decimal of two digits
    have range : 10 ≤ value.gridFloor 2 ∧ value.gridFloor 2 < 100 :=
      proper.gridFloor_range (by decide : 0 < 2)
    have neighbour := (value.nearestDecimal_bounds 2).1
    have unit := value.gridUnit_pos 2
    have valueIs := value.nearestDecimal_value 2
    have nonzero : 0 < (value.nearestDecimal 2).coefficient := by omega
    refine ⟨value.nearestDecimal 2, ?_, ?_, ?_, ?_⟩
    · rw [Decimal.stripTrailingZeros_take (by omega)]
      rfl
    · exact proper.nearestDecimal_two (shortest.readsBack_one proper single)
    · rw [valueIs]
      exact mul_pos (Nat.cast_pos.mpr nonzero) unit
    · obtain ⟨more, finer⟩ := Nat.exists_eq_add_of_le (le_max_left 2 count)
      refine ⟨(value.nearestDecimal 2).coefficient * 10 ^ more, ?_⟩
      rw [valueIs, finer, gridUnit_refine value (by decide) more]
      push_cast
      ring
  · have range := shortest.coefficient_range proper
    have unit := value.gridUnit_pos least
    refine ⟨value.shortestDecimal, ?_, shortest.rounds, ?_, ?_⟩
    · rw [Decimal.stripTrailingZeros_take (range.2.trans (Nat.pow_le_pow_right (by decide) (by omega)))]
      rfl
    · rw [shortest.value_eq]
      exact mul_pos (Nat.cast_pos.mpr (lt_of_lt_of_le (Nat.pow_pos (by decide)) range.1)) unit
    · obtain ⟨more, finer⟩ := Nat.exists_eq_add_of_le (fewer.trans (le_max_right 2 count))
      refine ⟨value.shortestDecimal.coefficient * 10 ^ more, ?_⟩
      rw [shortest.value_eq, finer, gridUnit_refine value shortest.positive more]
      push_cast
      ring

theorem printedDigits_cut (proper : value.Proper) (without : ¬value.ReadsBack 7) :
    Display.printedDigits value =
      (⟨value.gridFloor 7, value.gridExponent 7⟩ : Decimal).printed := by
  obtain ⟨count, shortest⟩ := proper.shortestDecimal_isShortest
  obtain ⟨more, rfl, quotient⟩ := shortest.cut without
  have range := proper.gridFloor_range (by decide : 0 < 7)
  obtain ⟨tail, length, digits⟩ :
      ∃ tail, tail.length = more ∧
        value.shortestDecimal.digits = Nat.toDigits 10 (value.gridFloor 7) ++ tail := by
    rw [← quotient]
    exact toDigits_div_pow (quotient ▸ lt_of_lt_of_le (by decide) range.1)
  have seven : (Nat.toDigits 10 (value.gridFloor 7)).length = 7 := length_toDigits range.1 range.2
  have several : ¬(Display.stripTrailingZeros value.shortestDecimal.digits).length ≤ 1 := fun single =>
    without ((shortest.readsBack_one proper single).refine (by decide) (by decide))
  unfold Display.printedDigits Decimal.printed
  dsimp only
  rw [if_neg several]
  refine Prod.ext ?_ ?_ <;> dsimp only
  · rw [digits, Display.significantDigits, List.take_left' seven]
    rfl
  · unfold Decimal.leadingExponent
    rw [digits, List.length_append, length, seven, shortest.exponent]
    unfold Decimal.digits gridExponent
    rw [seven]
    push_cast
    omega

end Proper

end Single

end BasicCompiler
