import Mathlib.Data.Nat.Cast.Order.Field
import BasicCompiler.Number.Shortest
import BasicCompiler.Proofs.Number.Nearest

/-!
Decimals that read back. The shortest decimal of a number lies on the coarsest grid that has a point
that reads back, and it is one of the two neighbours of the number there.
-/

namespace BasicCompiler

open Single

def Decimal.value (decimal : Decimal) : ℚ := decimal.coefficient * 10 ^ decimal.exponent

namespace Decimal

variable {magnitude : Nat}

theorem coefficient_pos {decimal : Decimal} (positive : 0 < decimal.value) : 0 < decimal.coefficient := by
  refine Nat.pos_of_ne_zero fun none => positive.ne' ?_
  rw [value, none, Nat.cast_zero, zero_mul]

theorem toMagnitude_eq_iff {decimal : Decimal} (finite : magnitude < infiniteMagnitude) :
    decimal.toMagnitude = magnitude ↔ Rounds decimal.value magnitude := by
  have ratio := scaled_ratio (by decide : 0 < 10) decimal.coefficient 1 decimal.exponent
  unfold toMagnitude value
  rw [magnitudeOfRatio_eq_iff (scaledDenominator_pos (by decide) (by decide) _) finite, ratio,
    Nat.cast_one, div_one, Nat.cast_ofNat]

theorem exists_rounds (decimal : Decimal) : ∃ magnitude, Rounds decimal.value magnitude := by
  have ratio := scaled_ratio (by decide : 0 < 10) decimal.coefficient 1 decimal.exponent
  obtain ⟨magnitude, rounds, -⟩ := magnitudeOfRatio_rounds
    (scaledNumerator 10 decimal.coefficient decimal.exponent)
    (scaledDenominator_pos (by decide : 0 < 10) Nat.one_pos decimal.exponent)
  rw [ratio, Nat.cast_one, div_one, Nat.cast_ofNat] at rounds
  exact ⟨magnitude, rounds⟩

end Decimal

theorem div_bounds (numerator : Nat) {denominator : Nat} (positive : 0 < denominator) :
    ((numerator / denominator : ℕ) : ℚ) ≤ (numerator : ℚ) / denominator ∧
      (numerator : ℚ) / denominator < (numerator / denominator : ℕ) + 1 := by
  have divisor : (0 : ℚ) < denominator := by exact_mod_cast positive
  refine ⟨Nat.cast_div_le, ?_⟩
  rw [div_lt_iff₀ divisor]
  exact_mod_cast Nat.lt_mul_of_div_lt (Nat.lt_succ_self (numerator / denominator)) positive

theorem roundHalfEven_neighbour (numerator denominator : Nat) :
    roundHalfEven numerator denominator = numerator / denominator ∨
      roundHalfEven numerator denominator = numerator / denominator + 1 := by
  unfold roundHalfEven
  dsimp only
  split
  · exact .inl rfl
  split
  · exact .inr rfl
  split
  · exact .inl rfl
  · exact .inr rfl

theorem greatestIndex_accepts (accept : Nat → Bool) (first : accept 0 = true) (bound : Nat) :
    accept (greatestIndex accept bound) = true ∧ greatestIndex accept bound ≤ bound ∧
      ∀ index, greatestIndex accept bound < index → index ≤ bound → accept index = false := by
  induction bound with
  | zero => exact ⟨first, le_rfl, fun index above below => absurd (above.trans_le below) (lt_irrefl _)⟩
  | succ bound ih =>
      obtain ⟨accepted, within, last⟩ := ih
      unfold greatestIndex
      split
      · rename_i found
        exact ⟨found, le_rfl, fun index above below => absurd (above.trans_le below) (lt_irrefl _)⟩
      · rename_i refused
        refine ⟨accepted, within.trans (Nat.le_succ _), fun index above below => ?_⟩
        rcases below.eq_or_lt with rfl | less
        · exact Bool.not_eq_true _ ▸ refused
        · exact last index above (Nat.lt_succ_iff.mp less)

namespace Single

theorem le_boundary_zero : (10 : ℚ) ^ (-46 : ℤ) ≤ boundary 0 := by
  have half : boundary 0 = 2 ^ (-150 : ℤ) := by
    unfold boundary valueAt gap significandAt scaleAt
    norm_num
  rw [half]
  norm_num

theorem Rounds.ge_of_pos {exact : ℚ} {magnitude : Nat} (rounds : Rounds exact magnitude)
    (positive : 0 < magnitude) : (10 : ℚ) ^ (-46 : ℤ) ≤ exact :=
  le_boundary_zero.trans (not_lt.mp fun below => rounds.least 0 positive (.inl below))

theorem Rounds.lt_of_finite {exact : ℚ} {magnitude : Nat} (rounds : Rounds exact magnitude)
    (finite : magnitude < infiniteMagnitude) : exact < (10 : ℚ) ^ (39 : ℤ) := by
  have most : valueAt infiniteMagnitude = 2 ^ (128 : ℤ) := by
    unfold valueAt gap significandAt scaleAt infiniteMagnitude
    norm_num
  calc exact
    _ ≤ boundary magnitude := rounds.within.le
    _ < valueAt (magnitude + 1) := boundary_lt_valueAt_succ magnitude
    _ ≤ valueAt infiniteMagnitude := valueAt_strictMono.monotone finite
    _ < 10 ^ (39 : ℤ) := by
        rw [most]
        norm_num

structure Proper (value : Single) : Prop where
  positive : 0 < value.magnitude
  finite : value.magnitude < infiniteMagnitude

def exact (value : Single) : ℚ := valueAt value.magnitude

theorem ratio_eq_exact (value : Single) : (value.numerator : ℚ) / value.denominator = value.exact := by
  unfold numerator denominator
  rw [scaled_ratio (by decide), Nat.cast_one, div_one, Nat.cast_ofNat]
  rfl

theorem denominator_pos (value : Single) : 0 < value.denominator :=
  scaledDenominator_pos (by decide) (by decide) _

variable {value : Single}

namespace Proper

theorem exact_bounds (proper : value.Proper) :
    (10 : ℚ) ^ (-45 : ℤ) ≤ value.exact ∧ value.exact < (10 : ℚ) ^ (39 : ℤ) := by
  have least : valueAt 1 = 2 ^ (-149 : ℤ) := by
    unfold valueAt gap significandAt scaleAt
    norm_num
  have above := valueAt_strictMono.monotone proper.positive
  rw [Nat.succ_eq_add_one, Nat.zero_add, least] at above
  exact ⟨le_trans (by norm_num) above, (rounds_valueAt _).lt_of_finite proper.finite⟩

theorem decimalExponent_bounds (proper : value.Proper) :
    (10 : ℚ) ^ value.decimalExponent ≤ value.exact ∧
      value.exact < (10 : ℚ) ^ (value.decimalExponent + 1) := by
  obtain ⟨least, most⟩ := proper.exact_bounds
  have bottom : (0 : ℚ) < value.denominator := by exact_mod_cast value.denominator_pos
  have accepts (index : Nat) :
      decide (Nat.pow 10 index * value.denominator ≤ Nat.pow 10 45 * value.numerator) = true ↔
        (10 : ℚ) ^ ((index : ℤ) - 45) ≤ value.exact := by
    rw [decide_eq_true_iff, Nat.pow_eq, Nat.pow_eq, ← Nat.cast_le (α := ℚ), ← ratio_eq_exact,
      le_div_iff₀ bottom, zpow_sub₀ (by norm_num), zpow_natCast, div_mul_eq_mul_div,
      div_le_iff₀ (by positivity)]
    push_cast
    rw [mul_comm (value.numerator : ℚ)]
  obtain ⟨accepted, within, last⟩ := greatestIndex_accepts
    (fun index => decide (Nat.pow 10 index * value.denominator ≤ Nat.pow 10 45 * value.numerator))
    ((accepts 0).mpr (by simpa using least)) 83
  refine ⟨(accepts _).mp accepted, ?_⟩
  generalize indexIs : greatestIndex (fun index => decide
    (Nat.pow 10 index * value.denominator ≤ Nat.pow 10 45 * value.numerator)) 83 = index at *
  have exponent : value.decimalExponent + 1 = ((index + 1 : ℕ) : ℤ) - 45 := by
    unfold decimalExponent
    dsimp only
    rw [indexIs]
    push_cast
    ring
  rw [exponent]
  by_cases more : index + 1 ≤ 83
  · have refused := last (index + 1) (Nat.lt_succ_self _) more
    rw [← Bool.not_eq_true, accepts, not_le] at refused
    exact refused
  · obtain rfl : index = 83 := by omega
    exact most

end Proper

def gridUnit (value : Single) (count : Nat) : ℚ := 10 ^ value.gridExponent count

theorem gridUnit_pos (value : Single) (count : Nat) : 0 < value.gridUnit count := by
  unfold gridUnit
  positivity

theorem grid_ratio (value : Single) (count : Nat) :
    (value.gridNumerator count : ℚ) / value.gridDenominator count = value.exact / value.gridUnit count := by
  unfold gridNumerator gridDenominator gridUnit
  rw [scaled_ratio (by decide), ratio_eq_exact, Nat.cast_ofNat, zpow_neg, ← div_eq_mul_inv]

theorem gridDenominator_pos (value : Single) (count : Nat) : 0 < value.gridDenominator count :=
  scaledDenominator_pos (by decide) value.denominator_pos _

def gridFloor (value : Single) (count : Nat) : Nat :=
  value.gridNumerator count / value.gridDenominator count

theorem gridFloor_bounds (value : Single) (count : Nat) :
    value.gridFloor count * value.gridUnit count ≤ value.exact ∧
      value.exact < (value.gridFloor count + 1) * value.gridUnit count := by
  have bounds := div_bounds (value.gridNumerator count) (value.gridDenominator_pos count)
  rw [grid_ratio, le_div_iff₀ (value.gridUnit_pos count), div_lt_iff₀ (value.gridUnit_pos count)] at bounds
  exact bounds

theorem value_mk (value : Single) (count coefficient : Nat) :
    (⟨coefficient, value.gridExponent count⟩ : Decimal).value = coefficient * value.gridUnit count := rfl

theorem nearestDecimal_value (value : Single) (count : Nat) :
    (value.nearestDecimal count).value =
      (value.nearestDecimal count).coefficient * value.gridUnit count := rfl

theorem nearestDecimal_bounds (value : Single) (count : Nat) :
    ((value.nearestDecimal count).coefficient = value.gridFloor count ∨
      (value.nearestDecimal count).coefficient = value.gridFloor count + 1) ∧
      |(value.nearestDecimal count).value - value.exact| ≤ value.gridUnit count / 2 := by
  have coefficient : (value.nearestDecimal count).coefficient =
      roundHalfEven (value.gridNumerator count) (value.gridDenominator count) := by
    simp only [nearestDecimal]
  rw [nearestDecimal_value, coefficient, abs_le]
  refine ⟨roundHalfEven_neighbour (value.gridNumerator count) (value.gridDenominator count), ?_⟩
  have half := roundHalfEven_halfEven (value.gridNumerator count) (value.gridDenominator_pos count)
  rw [grid_ratio] at half
  have unit := value.gridUnit_pos count
  have low := (div_le_iff₀ unit).mp half.le
  have high := (le_div_iff₀ unit).mp half.ge
  constructor <;> linarith

theorem Proper.decimalOfLength?_eq_some (proper : value.Proper) {count : Nat} {decimal : Decimal}
    (found : value.decimalOfLength? count = some decimal) :
    Rounds decimal.value value.magnitude ∧ decimal.exponent = value.gridExponent count ∧
      (decimal.coefficient = value.gridFloor count ∨ decimal.coefficient = value.gridFloor count + 1) := by
  unfold decimalOfLength? at found
  dsimp only at found
  split at found
  · rename_i below above
    rw [beq_iff_eq, Decimal.toMagnitude_eq_iff proper.finite, value_mk] at below above
    obtain rfl := Option.some.inj found
    have neighbour := (value.nearestDecimal_bounds count).1
    refine ⟨?_, rfl, neighbour⟩
    rw [nearestDecimal_value]
    rcases neighbour with same | same <;> rw [same]
    · exact below
    · exact above
  · rename_i below _
    rw [beq_iff_eq, Decimal.toMagnitude_eq_iff proper.finite] at below
    obtain rfl := Option.some.inj found
    exact ⟨below, rfl, .inl rfl⟩
  · rename_i _ above
    rw [beq_iff_eq, Decimal.toMagnitude_eq_iff proper.finite] at above
    obtain rfl := Option.some.inj found
    exact ⟨above, rfl, .inr rfl⟩
  · cases found

theorem Proper.decimalOfLength?_ne_none (proper : value.Proper) {count coefficient : Nat}
    (reads : Rounds (coefficient * value.gridUnit count) value.magnitude) :
    value.decimalOfLength? count ≠ none := by
  intro none
  obtain ⟨low, high⟩ := value.gridFloor_bounds count
  have unit := value.gridUnit_pos count
  unfold decimalOfLength? at none
  dsimp only at none
  split at none
  · cases none
  · cases none
  · cases none
  · rename_i below above
    rw [beq_eq_false_iff_ne, Ne, Decimal.toMagnitude_eq_iff proper.finite, value_mk] at below above
    by_cases order : coefficient ≤ value.gridFloor count
    · refine below (reads.between (rounds_valueAt _) ?_ low)
      change (coefficient : ℚ) * value.gridUnit count ≤ value.gridFloor count * value.gridUnit count
      gcongr
    · have next : ((value.gridFloor count + 1 : ℕ) : ℚ) ≤ coefficient := by exact_mod_cast not_le.mp order
      refine above ((rounds_valueAt _).between reads ?_ ?_)
      · change value.exact ≤ ((value.gridFloor count + 1 : ℕ) : ℚ) * value.gridUnit count
        push_cast
        exact high.le
      · change ((value.gridFloor count + 1 : ℕ) : ℚ) * value.gridUnit count ≤ _
        gcongr

def ReadsBack (value : Single) (count : Nat) : Prop :=
  ∃ coefficient : Nat, Rounds (coefficient * value.gridUnit count) value.magnitude

theorem gridUnit_one (value : Single) : value.gridUnit 1 = 10 ^ value.decimalExponent := by
  unfold gridUnit gridExponent
  rw [Nat.sub_self, Nat.cast_zero, sub_zero]

theorem gridUnit_refine (value : Single) {count : Nat} (positive : 0 < count) (more : Nat) :
    value.gridUnit count = 10 ^ more * value.gridUnit (count + more) := by
  unfold gridUnit gridExponent
  rw [← zpow_natCast, ← zpow_add₀ (by norm_num)]
  congr 1
  omega

theorem ReadsBack.refine {count : Nat} (reads : value.ReadsBack count) (positive : 0 < count)
    {finer : Nat} (le : count ≤ finer) : value.ReadsBack finer := by
  obtain ⟨more, rfl⟩ := Nat.exists_eq_add_of_le le
  obtain ⟨coefficient, rounds⟩ := reads
  refine ⟨coefficient * 10 ^ more, ?_⟩
  rw [gridUnit_refine value positive more, ← mul_assoc] at rounds
  push_cast
  exact rounds

theorem Proper.gridFloor_range (proper : value.Proper) {count : Nat} (positive : 0 < count) :
    10 ^ (count - 1) ≤ value.gridFloor count ∧ value.gridFloor count < 10 ^ count := by
  obtain ⟨more, rfl⟩ := Nat.exists_eq_add_of_le' positive
  obtain ⟨low, high⟩ := proper.decimalExponent_bounds
  obtain ⟨below, above⟩ := value.gridFloor_bounds (more + 1)
  have unit := value.gridUnit_pos (more + 1)
  have first : (10 : ℚ) ^ value.decimalExponent = 10 ^ more * value.gridUnit (more + 1) := by
    rw [← gridUnit_one, gridUnit_refine value (by decide) more, Nat.add_comm]
  rw [first] at low
  rw [zpow_add_one₀ (by norm_num), first, mul_right_comm, ← pow_succ] at high
  have least := lt_of_mul_lt_mul_right (low.trans_lt above) unit.le
  have most := lt_of_mul_lt_mul_right (below.trans_lt high) unit.le
  exact ⟨Nat.lt_succ_iff.mp (by exact_mod_cast least), by exact_mod_cast most⟩

theorem exact_lt_gap (value : Single) : value.exact < 2 ^ 24 * gap value.magnitude := by
  have bits : significandAt value.magnitude < 2 ^ 24 := by
    unfold significandAt
    split <;> omega
  unfold exact valueAt
  have narrow : (significandAt value.magnitude : ℚ) < 2 ^ 24 := by exact_mod_cast bits
  exact mul_lt_mul_of_pos_right narrow (gap_pos _)

/-- Nine digits tell any two numbers apart. -/
theorem Proper.nearestDecimal_nine (proper : value.Proper) :
    Rounds (value.nearestDecimal 9).value value.magnitude := by
  obtain ⟨low, -⟩ := proper.decimalExponent_bounds
  have near := (value.nearestDecimal_bounds 9).2
  have coarse := value.exact_lt_gap
  rw [← gridUnit_one, gridUnit_refine value (by decide) 8] at low
  change 10 ^ 8 * value.gridUnit 9 ≤ value.exact at low
  have unit := value.gridUnit_pos 9
  obtain ⟨before, magnitudeIs⟩ := Nat.exists_eq_succ_of_ne_zero proper.positive.ne'
  unfold exact at *
  rw [magnitudeIs] at low coarse near ⊢
  refine rounds_of_close (near.trans_lt ?_)
  have narrowing : gap (before + 1) ≤ 2 * gap before := by
    rcases gap_succ before with same | ⟨twice, -⟩
    · have := gap_pos before
      linarith
    · exact twice.le
  linarith

/-- A number that has a decimal of one digit is also the rounded form of its nearest two digits. -/
theorem Proper.nearestDecimal_two (proper : value.Proper) (reads : value.ReadsBack 1) :
    Rounds (value.nearestDecimal 2).value value.magnitude := by
  obtain ⟨coefficient, rounds⟩ := reads
  obtain ⟨-, high⟩ := proper.decimalExponent_bounds
  have near := (value.nearestDecimal_bounds 2).2
  have unit := value.gridUnit_pos 2
  have refinement : value.gridUnit 1 = 10 * value.gridUnit 2 := by
    rw [gridUnit_refine value (by decide : 0 < 1) 1, pow_one]
  have valueIs := value.nearestDecimal_value 2
  rw [zpow_add_one₀ (by norm_num), ← gridUnit_one, refinement] at high
  rw [refinement, ← mul_assoc] at rounds
  generalize (value.nearestDecimal 2).coefficient = nearest at valueIs
  by_cases same : nearest = coefficient * 10
  · rw [valueIs, same]
    push_cast
    exact rounds
  -- two points of the grid are at least a unit apart, so the other one is not nearer
  have apart : value.gridUnit 2 ≤
      |(nearest : ℚ) * value.gridUnit 2 - coefficient * 10 * value.gridUnit 2| := by
    have distinct : (1 : ℚ) ≤ |(nearest : ℚ) - coefficient * 10| := by
      exact_mod_cast Int.one_le_abs (sub_ne_zero.mpr (show (nearest : ℤ) ≠ coefficient * 10 by omega))
    rw [← sub_mul, abs_mul, abs_of_pos unit]
    exact le_mul_of_one_le_left unit.le distinct
  obtain ⟨before, magnitudeIs⟩ := Nat.exists_eq_succ_of_ne_zero proper.positive.ne'
  rw [← valueIs] at apart
  unfold exact at high near
  rw [magnitudeIs] at rounds high near ⊢
  have triangle := abs_sub_le (value.nearestDecimal 2).value (valueAt (before + 1))
    (coefficient * 10 * value.gridUnit 2)
  rw [abs_sub_comm (valueAt (before + 1))] at triangle
  refine rounds_of_nearer rounds (by linarith) ?_
  by_contra crossed
  push Not at crossed
  obtain ⟨below, above, denser⟩ := crossed
  have within := (rounds_succ_iff.mp rounds).2.le
  obtain ⟨-, power⟩ := (gap_succ before).resolve_left denser.symm
  rw [abs_of_pos (sub_pos.mpr above)] at triangle
  unfold boundary at within
  linarith

/-- A decimal is the neighbour of a number that reads back on the coarsest grid that has one. -/
structure IsShortest (value : Single) (decimal : Decimal) (count : Nat) : Prop where
  positive : 0 < count
  le : count ≤ 9
  rounds : Rounds decimal.value value.magnitude
  exponent : decimal.exponent = value.gridExponent count
  neighbour : decimal.coefficient = value.gridFloor count ∨
    decimal.coefficient = value.gridFloor count + 1
  least : ∀ fewer, 0 < fewer → fewer < count → ¬value.ReadsBack fewer

theorem Proper.not_readsBack (proper : value.Proper) {count : Nat}
    (none : value.decimalOfLength? count = none) : ¬value.ReadsBack count := by
  rintro ⟨coefficient, reads⟩
  exact proper.decimalOfLength?_ne_none reads none

theorem Proper.shortestDecimal_isShortest (proper : value.Proper) :
    ∃ count, value.IsShortest value.shortestDecimal count := by
  unfold shortestDecimal
  cases found : (List.range' 1 8).findSome? value.decimalOfLength? with
  | some decimal =>
      obtain ⟨before, count, after, split, some, nones⟩ := List.findSome?_eq_some_iff.mp found
      obtain ⟨rounds, exponent, neighbour⟩ := proper.decimalOfLength?_eq_some some
      have member : count ∈ List.range' 1 8 := by
        rw [split]
        exact List.mem_append_right _ List.mem_cons_self
      rw [List.mem_range'_1] at member
      refine ⟨count, by omega, by omega, rounds, exponent, neighbour, fun fewer positive less => ?_⟩
      -- the list of lengths ascends, so a smaller one was tried before
      have tried : fewer ∈ before := by
        have ascending : (List.range' 1 8).Pairwise (· < ·) := List.pairwise_lt_range'
        have listed : fewer ∈ List.range' 1 8 := by
          rw [List.mem_range'_1]
          omega
        rw [split] at ascending listed
        have later := (List.pairwise_cons.mp (List.pairwise_append.mp ascending).2.1).1
        rcases List.mem_append.mp listed with first | rest
        · exact first
        rcases List.mem_cons.mp rest with same | follows
        · omega
        · have := later fewer follows
          omega
      exact proper.not_readsBack (nones fewer tried)
  | none =>
      rw [List.findSome?_eq_none_iff] at found
      rw [Option.getD_none]
      refine ⟨9, by decide, le_rfl, proper.nearestDecimal_nine, rfl,
        (value.nearestDecimal_bounds 9).1, fun fewer positive less => ?_⟩
      refine proper.not_readsBack (found fewer ?_)
      rw [List.mem_range'_1]
      omega

namespace IsShortest

variable {decimal : Decimal} {count : Nat}

theorem value_eq (shortest : value.IsShortest decimal count) :
    decimal.value = decimal.coefficient * value.gridUnit count := by
  unfold Decimal.value gridUnit
  rw [shortest.exponent]

theorem readsBack (shortest : value.IsShortest decimal count) : value.ReadsBack count :=
  ⟨decimal.coefficient, shortest.value_eq ▸ shortest.rounds⟩

theorem count_le (shortest : value.IsShortest decimal count) {enough : Nat} (positive : 0 < enough)
    (reads : value.ReadsBack enough) : count ≤ enough :=
  not_lt.mp fun less => shortest.least enough positive less reads

theorem coefficient_range (shortest : value.IsShortest decimal count) (proper : value.Proper) :
    10 ^ (count - 1) ≤ decimal.coefficient ∧ decimal.coefficient ≤ 10 ^ count := by
  have range := proper.gridFloor_range shortest.positive
  rcases shortest.neighbour with same | same <;> omega

/-- Where no seven digits read back, the first seven digits of the shortest decimal are those of the
exact value. -/
theorem cut (shortest : value.IsShortest decimal count) (without : ¬value.ReadsBack 7) :
    ∃ more, count = 7 + more ∧ decimal.coefficient / 10 ^ more = value.gridFloor 7 := by
  have many : 7 ≤ count := by
    by_contra few
    exact without (shortest.readsBack.refine shortest.positive (not_le.mp few).le)
  obtain ⟨more, rfl⟩ := Nat.exists_eq_add_of_le many
  refine ⟨more, rfl, ?_⟩
  obtain ⟨low, high⟩ := value.gridFloor_bounds 7
  obtain ⟨below, above⟩ := value.gridFloor_bounds (7 + more)
  have unit := value.gridUnit_pos (7 + more)
  have refinement := gridUnit_refine value (by decide : 0 < 7) more
  rw [refinement, ← mul_assoc] at low high
  have least : value.gridFloor 7 * 10 ^ more < value.gridFloor (7 + more) + 1 := by
    exact_mod_cast lt_of_mul_lt_mul_right (low.trans_lt above) unit.le
  have most : value.gridFloor (7 + more) < (value.gridFloor 7 + 1) * 10 ^ more := by
    exact_mod_cast lt_of_mul_lt_mul_right (below.trans_lt high) unit.le
  have apart (point : Nat) : decimal.coefficient ≠ point * 10 ^ more := by
    intro same
    refine without ⟨point, ?_⟩
    have rounds := shortest.rounds
    rw [shortest.value_eq, same, Nat.cast_mul, Nat.cast_pow, Nat.cast_ofNat, mul_assoc,
      ← refinement] at rounds
    exact rounds
  have notLow := apart (value.gridFloor 7)
  have notHigh := apart (value.gridFloor 7 + 1)
  have neighbour := shortest.neighbour
  rw [Nat.div_eq_iff (by positivity)]
  rw [Nat.succ_mul] at most notHigh
  omega

end IsShortest

end Single

end BasicCompiler
