import Mathlib.Tactic.FieldSimp
import BasicCompiler.Proofs.Execution.DecimalRounding

/-!
The search for the shortest decimal that reads back, by rounding the exact value to more and more digits.
Where one of three roundings reads back, the first of them that does is the shortest decimal.
-/

namespace BasicCompiler

variable {precision count : Nat}

namespace Single

variable {value : Single}

theorem exactDecimal_value (value : Single) : value.exactDecimal.value = value.exact := by
  obtain ⟨divides, within, -⟩ := greatestIndex_accepts
    (fun count => value.significand % Nat.pow 2 count == 0) (by simp [Nat.mod_one]) (-value.scale).toNat
  unfold exactDecimal
  dsimp only
  generalize greatestIndex _ (-value.scale).toNat = halvings at divides within ⊢
  obtain ⟨rest, whole⟩ := Nat.dvd_of_mod_eq_zero (beq_iff_eq.mp divides)
  have significand : significandAt value.magnitude = 2 ^ halvings * rest := whole
  have scale : scaleAt value.magnitude = value.scale := rfl
  unfold exact valueAt gap Decimal.value
  rw [significand, scale, whole]
  dsimp only
  simp only [Nat.pow_eq, Nat.mul_div_cancel_left rest (Nat.pow_pos (by decide : 0 < 2))]
  have tens (count : Nat) : (10 : ℚ) ^ (-(count : ℤ)) = 2 ^ (-(count : ℤ)) * (5 ^ count)⁻¹ := by
    rw [show (10 : ℚ) = 2 * 5 by norm_num, mul_zpow, zpow_neg 5, zpow_natCast]
  have twos : value.scale + halvings =
      value.scale.toNat + -(((-value.scale).toNat - halvings : Nat) : ℤ) := by omega
  calc ((rest * 2 ^ value.scale.toNat * 5 ^ ((-value.scale).toNat - halvings) : ℕ) : ℚ) *
        10 ^ (-(((-value.scale).toNat - halvings : Nat) : ℤ))
    _ = rest * (2 ^ value.scale.toNat * 2 ^ (-(((-value.scale).toNat - halvings : Nat) : ℤ))) := by
        rw [tens]
        push_cast
        field_simp
    _ = (2 ^ halvings * rest : ℕ) * 2 ^ value.scale := by
        rw [← zpow_natCast, ← zpow_add₀ (by norm_num), ← twos, zpow_add₀ (by norm_num), zpow_natCast]
        push_cast
        ring

theorem decimalOfLength?_nearest {decimal : Decimal} (found : value.decimalOfLength? count = some decimal)
    (reads : (value.nearestDecimal count).toMagnitude = value.magnitude) :
    decimal = value.nearestDecimal count := by
  have neighbour : value.nearestDecimal count = ⟨value.gridFloor count, value.gridExponent count⟩ ∨
      value.nearestDecimal count = ⟨value.gridFloor count + 1, value.gridExponent count⟩ := by
    refine (value.nearestDecimal_bounds count).1.imp (fun same => ?_) (fun same => ?_) <;>
      rw [← same, nearestDecimal]
  unfold decimalOfLength? at found
  dsimp only at found
  split at found
  · exact (Option.some.inj found).symm
  · rename_i _ above
    rcases neighbour with isBelow | isAbove
    · exact (Option.some.inj found).symm.trans isBelow.symm
    · rw [isAbove] at reads
      exact absurd reads (beq_eq_false_iff_ne.mp above)
  · rename_i below _
    rcases neighbour with isBelow | isAbove
    · rw [isBelow] at reads
      exact absurd reads (beq_eq_false_iff_ne.mp below)
    · exact (Option.some.inj found).symm.trans isAbove.symm
  · cases found

theorem Proper.shortestDecimal_nearest (proper : value.Proper)
    (shortest : value.IsShortest value.shortestDecimal count)
    (reads : (value.nearestDecimal count).toMagnitude = value.magnitude) :
    value.shortestDecimal = value.nearestDecimal count := by
  have exponent := shortest.exponent
  have positive := shortest.positive
  unfold shortestDecimal at exponent ⊢
  cases found : (List.range' 1 8).findSome? value.decimalOfLength? with
  | some decimal =>
      obtain ⟨other, member, some⟩ := List.exists_of_findSome?_eq_some found
      rw [List.mem_range'_1] at member
      rw [found, Option.getD_some, (proper.decimalOfLength?_eq_some some).2.1] at exponent
      unfold gridExponent at exponent
      obtain rfl : other = count := by omega
      exact decimalOfLength?_nearest some reads
  | none =>
      rw [found, Option.getD_none] at exponent
      change value.gridExponent 9 = _ at exponent
      unfold gridExponent at exponent
      obtain rfl : 9 = count := by omega
      rfl

namespace Proper

theorem exact_pos (proper : value.Proper) : 0 < value.exact :=
  lt_of_lt_of_le (by positivity) proper.exact_bounds.1

theorem exactDecimal_nonzero (proper : value.Proper) : 0 < value.exactDecimal.coefficient :=
  Decimal.coefficient_pos (value.exactDecimal_value.symm ▸ proper.exact_pos)

theorem exactDecimal_unit (proper : value.Proper) (precision : Nat) :
    value.exactDecimal.unit precision = value.gridUnit precision := by
  have bounds := Decimal.leadingExponent_bounds (value.exactDecimal_value.symm ▸ proper.exact_pos)
  have bounds' := proper.decimalExponent_bounds
  rw [exactDecimal_value] at bounds
  have less := (zpow_lt_zpow_iff_right₀ (by norm_num : (1 : ℚ) < 10)).mp (bounds.1.trans_lt bounds'.2)
  have more := (zpow_lt_zpow_iff_right₀ (by norm_num : (1 : ℚ) < 10)).mp (bounds'.1.trans_lt bounds.2)
  unfold Decimal.unit gridUnit gridExponent
  congr 1
  omega

theorem round_grid (proper : value.Proper) (mode : Rounding) (positive : 0 < precision) {rounded : Nat}
    (takes : mode.Takes (value.exact / value.gridUnit precision) rounded) :
    (value.exactDecimal.round precision mode).value = rounded * value.gridUnit precision := by
  obtain ⟨other, takes', valueIs⟩ := Decimal.round_takes mode proper.exactDecimal_nonzero positive
  rw [proper.exactDecimal_unit, exactDecimal_value] at takes'
  rw [valueIs, proper.exactDecimal_unit, takes.unique takes']

theorem round_halfEven (proper : value.Proper) (positive : 0 < precision) :
    (value.exactDecimal.round precision .halfEven).value = (value.nearestDecimal precision).value := by
  have half := roundHalfEven_halfEven (value.gridNumerator precision) (value.gridDenominator_pos precision)
  rw [grid_ratio] at half
  rw [nearestDecimal, value_mk]
  exact proper.round_grid .halfEven positive half

theorem round_floor (proper : value.Proper) (positive : 0 < precision) :
    (value.exactDecimal.round precision .floor).value =
      value.gridFloor precision * value.gridUnit precision := by
  obtain ⟨low, high⟩ := value.gridFloor_bounds precision
  have unit := value.gridUnit_pos precision
  exact proper.round_grid .floor positive ⟨(le_div_iff₀ unit).mpr low, (div_lt_iff₀ unit).mpr high⟩

theorem round_ceiling (proper : value.Proper) (positive : 0 < precision)
    (between : value.exact ≠ value.gridFloor precision * value.gridUnit precision) :
    (value.exactDecimal.round precision .ceiling).value =
      (value.gridFloor precision + 1 : ℕ) * value.gridUnit precision := by
  obtain ⟨low, high⟩ := value.gridFloor_bounds precision
  have unit := value.gridUnit_pos precision
  have above := (lt_div_iff₀ unit).mpr (lt_of_le_of_ne low between.symm)
  refine proper.round_grid .ceiling positive ⟨?_, ?_⟩
  · push_cast
    exact ((div_lt_iff₀ unit).mpr high).le
  · push_cast
    linarith

theorem decimalExponent_range (proper : value.Proper) :
    -45 ≤ value.decimalExponent ∧ value.decimalExponent ≤ 38 := by
  obtain ⟨least, most⟩ := proper.exact_bounds
  obtain ⟨low, high⟩ := proper.decimalExponent_bounds
  have ten : (1 : ℚ) < 10 := by norm_num
  have below := (zpow_lt_zpow_iff_right₀ ten).mp (least.trans_lt high)
  have above := (zpow_lt_zpow_iff_right₀ ten).mp (low.trans_lt most)
  omega

theorem round_leading (proper : value.Proper) (mode : Rounding) (positive : 0 < precision) :
    value.decimalExponent ≤ (value.exactDecimal.round precision mode).leadingExponent ∧
      (value.exactDecimal.round precision mode).leadingExponent ≤ value.decimalExponent + 1 := by
  obtain ⟨rounded, takes, valueIs⟩ := Decimal.round_takes mode proper.exactDecimal_nonzero positive
  rw [proper.exactDecimal_unit, exactDecimal_value] at takes
  rw [proper.exactDecimal_unit] at valueIs
  have unit := value.gridUnit_pos precision
  obtain ⟨low, high⟩ := proper.gridFloor_range positive
  obtain ⟨below, above⟩ := value.gridFloor_bounds precision
  have least : 10 ^ (precision - 1) ≤ rounded := by
    refine takes.le_rounded (le_trans ?_ ((le_div_iff₀ unit).mpr below))
    exact_mod_cast low
  have most : rounded ≤ 10 ^ precision := by
    refine takes.rounded_le (lt_of_lt_of_le ((div_lt_iff₀ unit).mpr above) ?_)
    exact_mod_cast high
  have scale (more : Nat) : (10 : ℚ) ^ (value.decimalExponent - (precision - 1 : Nat) + more) =
      (10 ^ more : ℕ) * value.gridUnit precision := by
    unfold gridUnit gridExponent
    rw [zpow_add₀ (by norm_num), zpow_natCast, mul_comm]
    push_cast
    rfl
  have bottom : (10 : ℚ) ^ value.decimalExponent ≤ rounded * value.gridUnit precision := by
    rw [← Int.sub_add_cancel value.decimalExponent (precision - 1 : Nat), scale]
    gcongr
  have top : rounded * value.gridUnit precision ≤ (10 : ℚ) ^ (value.decimalExponent + 1) := by
    rw [show value.decimalExponent + 1 = value.decimalExponent - (precision - 1 : Nat) + precision by omega,
      scale]
    gcongr
  rw [← valueIs] at bottom top
  obtain ⟨first, last⟩ := Decimal.leadingExponent_bounds (lt_of_lt_of_le (by positivity) bottom)
  have ten : (1 : ℚ) < 10 := by norm_num
  have before := (zpow_lt_zpow_iff_right₀ ten).mp (bottom.trans_lt last)
  have behind := (zpow_le_zpow_iff_right₀ ten).mp (first.trans top)
  omega

end Proper

def tried (value : Single) (precision : Nat) : List Decimal :=
  [value.exactDecimal.round precision .halfEven, value.exactDecimal.round precision .ceiling,
    value.exactDecimal.round precision .floor]

def firstRounding? (value : Single) (precision : Nat) : Option Decimal :=
  (value.tried precision).find? fun decimal => decimal.toMagnitude == value.magnitude

theorem Proper.firstRounding?_eq_none (proper : value.Proper) (positive : 0 < precision)
    (without : ¬value.ReadsBack precision) : value.firstRounding? precision = none := by
  have refused (mode : Rounding) :
      (value.exactDecimal.round precision mode).toMagnitude ≠ value.magnitude := by
    rw [Ne, Decimal.toMagnitude_eq_iff proper.finite]
    obtain ⟨rounded, -, valueIs⟩ := Decimal.round_takes mode proper.exactDecimal_nonzero positive
    rw [valueIs, proper.exactDecimal_unit]
    exact fun rounds => without ⟨rounded, rounds⟩
  simp [firstRounding?, tried, refused]

theorem Proper.firstRounding?_shortest (proper : value.Proper)
    (shortest : value.IsShortest value.shortestDecimal count) :
    ∃ decimal, value.firstRounding? count = some decimal ∧
      decimal.value = value.shortestDecimal.value := by
  have positive := shortest.positive
  have nearest := proper.round_halfEven positive
  have reads {decimal : Decimal} :
      decimal.toMagnitude = value.magnitude ↔ Rounds decimal.value value.magnitude :=
    Decimal.toMagnitude_eq_iff proper.finite
  have rounds := shortest.rounds
  by_cases hit : (value.nearestDecimal count).toMagnitude = value.magnitude
  · refine ⟨value.exactDecimal.round count .halfEven, ?_, ?_⟩
    · rw [reads, ← nearest, ← reads] at hit
      simp [firstRounding?, tried, hit]
    · rw [nearest, proper.shortestDecimal_nearest shortest hit]
  -- the number lies between two points, one of which is the nearest and does not read back
  have between : value.exact ≠ value.gridFloor count * value.gridUnit count := by
    intro onGrid
    have takes : Rounding.halfEven.Takes (value.exact / value.gridUnit count) (value.gridFloor count) := by
      rw [onGrid, mul_div_cancel_right₀ _ (value.gridUnit_pos count).ne']
      exact Rounding.takes_natCast _ _
    rw [reads, ← nearest, proper.round_grid .halfEven positive takes, ← onGrid] at hit
    exact hit (rounds_valueAt _)
  have below := proper.round_floor positive
  have above := proper.round_ceiling positive between
  have missed : (value.exactDecimal.round count .halfEven).toMagnitude ≠ value.magnitude := by
    rw [Ne, reads, nearest, ← reads]
    exact hit
  rcases shortest.neighbour with isFloor | isNext
  · have isBelow : value.shortestDecimal.value = (value.exactDecimal.round count .floor).value := by
      rw [below, shortest.value_eq, isFloor]
    have missed' : (value.exactDecimal.round count .ceiling).toMagnitude ≠ value.magnitude := by
      rcases (value.nearestDecimal_bounds count).1 with nearFloor | nearNext
      · refine absurd ?_ hit
        rw [reads, nearestDecimal_value, nearFloor, ← below, ← isBelow]
        exact rounds
      · rw [Ne, reads, above, ← nearNext, ← nearestDecimal_value, ← reads]
        exact hit
    have hit' := reads.mpr (isBelow ▸ rounds)
    exact ⟨_, by simp [firstRounding?, tried, missed, missed', hit'], isBelow.symm⟩
  · have isAbove : value.shortestDecimal.value = (value.exactDecimal.round count .ceiling).value := by
      rw [above, shortest.value_eq, isNext]
    have hit' := reads.mpr (isAbove ▸ rounds)
    exact ⟨_, by simp [firstRounding?, tried, missed, hit'], isAbove.symm⟩

theorem Proper.single_iff (proper : value.Proper) (shortest : value.IsShortest value.shortestDecimal count) :
    (Display.stripTrailingZeros value.shortestDecimal.digits).length ≤ 1 ↔ count = 1 := by
  constructor
  · intro single
    have few := shortest.count_le Nat.one_pos (shortest.readsBack_one proper single)
    exact le_antisymm few shortest.positive
  · rintro rfl
    have small := (shortest.coefficient_range proper).2
    have all : ∀ coefficient ≤ 10, (Display.stripTrailingZeros (Nat.toDigits 10 coefficient)).length ≤ 1 := by
      decide
    exact all _ small

def chosen (value : Single) (count : Nat) (decimal : Decimal) : Decimal :=
  if count = 1 then value.exactDecimal.round 2 .halfEven else decimal

/-- The search ends after nine digits at most, and the digits that are printed are cut from the decimal
that it finds. -/
theorem Proper.search (proper : value.Proper) :
    ∃ count decimal, 0 < count ∧ count ≤ 9 ∧
      (∀ fewer, 0 < fewer → fewer < count → value.firstRounding? fewer = none) ∧
      value.firstRounding? count = some decimal ∧
      Rounds (value.chosen count decimal).value value.magnitude ∧
      Display.printedDigits value = (value.chosen count decimal).cut := by
  obtain ⟨count, shortest⟩ := proper.shortestDecimal_isShortest
  obtain ⟨decimal, found, same⟩ := proper.firstRounding?_shortest shortest
  have unfolded : Display.printedDigits value =
      (if (Display.stripTrailingZeros value.shortestDecimal.digits).length ≤ 1 then value.nearestDecimal 2
        else value.shortestDecimal).cut := rfl
  have cut {final printed : Decimal} (rounds : Rounds final.value value.magnitude)
      (same : final.value = printed.value) : final.cut = printed.cut :=
    Decimal.cut_congr (lt_of_lt_of_le (by positivity) (rounds.ge_of_pos proper.positive)) same
  refine ⟨count, decimal, shortest.positive, shortest.le, fun fewer positive less =>
    proper.firstRounding?_eq_none positive (shortest.least fewer positive less), found, ?_⟩
  rw [unfolded, chosen]
  by_cases single : count = 1
  · have nearest := proper.round_halfEven (by decide : 0 < 2)
    have rounds : Rounds (value.exactDecimal.round 2 .halfEven).value value.magnitude := by
      rw [nearest]
      exact proper.nearestDecimal_two (single ▸ shortest.readsBack)
    rw [if_pos ((proper.single_iff shortest).mpr single), if_pos single]
    exact ⟨rounds, (cut rounds nearest).symm⟩
  · have rounds : Rounds decimal.value value.magnitude := by
      rw [same]
      exact shortest.rounds
    rw [if_neg (mt (proper.single_iff shortest).mp single), if_neg single]
    exact ⟨rounds, (cut rounds same).symm⟩

end Single

end BasicCompiler
