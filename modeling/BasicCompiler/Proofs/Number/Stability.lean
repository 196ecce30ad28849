import BasicCompiler.Proofs.Number.Reading

/-!
Printing and reading back. A number that some seven digits round to is read back as it was. Any other
number loses its digits from the eighth on, and what is read back prints the same seven digits.
-/

namespace BasicCompiler

namespace Single

variable {value other : Single} {magnitude : Nat}

theorem magnitude_ofMagnitude (negative : Bool) (small : magnitude < 0x80000000) :
    (ofMagnitude negative magnitude).magnitude = magnitude := by
  unfold ofMagnitude Single.magnitude
  rw [UInt32.toNat_ofNat']
  cases negative <;> simp <;> omega

theorem isNegative_ofMagnitude (negative : Bool) (small : magnitude < 0x80000000) :
    (ofMagnitude negative magnitude).isNegative = negative := by
  unfold ofMagnitude isNegative
  cases negative
  · refine decide_eq_false ?_
    rw [UInt32.le_iff_toNat_le, UInt32.toNat_ofNat']
    simp
    omega
  · refine decide_eq_true ?_
    rw [UInt32.le_iff_toNat_le, UInt32.toNat_ofNat']
    simp
    omega

theorem ofMagnitude_magnitude (value : Single) : ofMagnitude value.isNegative value.magnitude = value := by
  obtain ⟨bits⟩ := value
  unfold ofMagnitude isNegative magnitude
  congr 1
  rw [← UInt32.toNat_inj, UInt32.toNat_ofNat']
  have bound := bits.toNat_lt
  simp only [decide_eq_true_eq, UInt32.le_iff_toNat_le]
  split <;> simp at * <;> omega

theorem boundary_succ (magnitude : Nat) :
    boundary (magnitude + 1) = boundary magnitude + (gap magnitude + gap (magnitude + 1)) / 2 := by
  unfold boundary
  rw [valueAt_succ]
  ring

theorem power_eq_gridUnit (value : Single) :
    (10 : ℚ) ^ value.decimalExponent = 1000000 * value.gridUnit 7 := by
  rw [← gridUnit_one, gridUnit_refine value (by decide : 0 < 1) 6]
  norm_num

theorem cut_wide (without : ¬value.ReadsBack 7) {before : Nat}
    (magnitudeIs : value.magnitude = before + 1) :
    value.gridFloor 7 * value.gridUnit 7 ≤ boundary before ∧
      boundary (before + 1) ≤ (value.gridFloor 7 + 1) * value.gridUnit 7 := by
  obtain ⟨low, high⟩ := value.gridFloor_bounds 7
  have self := rounds_valueAt value.magnitude
  change Rounds value.exact value.magnitude at self
  have apart (point : Nat) : ¬Rounds (point * value.gridUnit 7) value.magnitude := fun rounds =>
    without ⟨point, rounds⟩
  have notLow := apart (value.gridFloor 7)
  have notHigh := apart (value.gridFloor 7 + 1)
  rw [magnitudeIs, rounds_succ_iff] at self notLow notHigh
  constructor
  · refine not_lt.mp fun past => notLow ⟨.inl past, self.2.mono low le_rfl⟩
  · push_cast at notHigh
    refine not_lt.mp fun within => notHigh ⟨.inl ?_, .inl within⟩
    rcases self.1 with past | tie
    · exact past.trans high
    · exact tie.1 ▸ high

theorem Proper.cut_smaller (proper : value.Proper) (without : ¬value.ReadsBack 7)
    (rounds : Rounds (value.gridFloor 7 * value.gridUnit 7) magnitude) :
    0 < magnitude ∧ magnitude < value.magnitude := by
  obtain ⟨before, magnitudeIs⟩ := Nat.exists_eq_succ_of_ne_zero proper.positive.ne'
  obtain ⟨below, above⟩ := cut_wide without magnitudeIs
  rw [boundary_succ] at above
  have self : Rounds value.exact value.magnitude := rounds_valueAt _
  refine ⟨Nat.pos_of_ne_zero fun zero => ?_,
    (rounds.mono self (value.gridFloor_bounds 7).1).lt_of_ne fun same => without ⟨_, same ▸ rounds⟩⟩
  subst zero
  have near := rounds.within.le
  have first := gap_mono (Nat.zero_le before)
  have wider := gap_le_succ before
  have one := gap_pos 0
  have digits : 1 ≤ value.gridFloor 7 :=
    le_trans (by decide) (proper.gridFloor_range (by decide : 0 < 7)).1
  have least : value.gridUnit 7 ≤ value.gridFloor 7 * value.gridUnit 7 :=
    le_mul_of_one_le_left (value.gridUnit_pos 7).le (by exact_mod_cast digits)
  rw [boundary, valueAt_zero] at near
  linarith

/-- Of two points of the grid only one rounds to what the cut digits are read back as. Two points in one
interval leave no room: all distances are the unit, and then a boundary is on the grid. -/
theorem Proper.cut_least (proper : value.Proper) (without : ¬value.ReadsBack 7)
    (rounds : Rounds (value.gridFloor 7 * value.gridUnit 7) magnitude) {coefficient : Nat}
    (reads : Rounds (coefficient * value.gridUnit 7) magnitude) : value.gridFloor 7 ≤ coefficient := by
  by_contra less
  obtain ⟨before, magnitudeIs⟩ := Nat.exists_eq_succ_of_ne_zero proper.positive.ne'
  obtain ⟨below, above⟩ := cut_wide without magnitudeIs
  rw [boundary_succ] at above
  obtain ⟨positive, smaller⟩ := proper.cut_smaller without rounds
  obtain ⟨prior, rfl⟩ := Nat.exists_eq_succ_of_ne_zero positive.ne'
  have past : boundary prior ≤ coefficient * value.gridUnit 7 :=
    (rounds_succ_iff.mp reads).1.elim le_of_lt fun tie => tie.1.ge
  have within := rounds.within.le
  rw [boundary_succ] at within
  have unit := value.gridUnit_pos 7
  have step : ((coefficient : ℚ) + 1) * value.gridUnit 7 ≤ value.gridFloor 7 * value.gridUnit 7 := by
    gcongr
    exact_mod_cast not_le.mp less
  have first := gap_le_succ prior
  have wider := gap_le_succ before
  have middle : gap (prior + 1) ≤ gap before := gap_mono (by omega)
  have equal : gap before = value.gridUnit 7 := by linarith
  have tie : value.gridFloor 7 * value.gridUnit 7 = boundary before := by linarith
  unfold boundary valueAt at tie
  rw [equal] at tie
  have half : (2 * value.gridFloor 7 : ℚ) = 2 * significandAt before + 1 := by
    refine mul_right_cancel₀ unit.ne' ?_
    linarith
  have parity : 2 * value.gridFloor 7 = 2 * significandAt before + 1 := by exact_mod_cast half
  omega

/-- What the cut digits are read back as is a smaller number, and no other seven digits round to it. -/
theorem Proper.cut_unique (proper : value.Proper) (without : ¬value.ReadsBack 7)
    (rounds : Rounds (value.gridFloor 7 * value.gridUnit 7) magnitude) :
    0 < magnitude ∧ magnitude < value.magnitude ∧
      ∀ coefficient : Nat, Rounds (coefficient * value.gridUnit 7) magnitude →
        coefficient = value.gridFloor 7 := by
  obtain ⟨positive, smaller⟩ := proper.cut_smaller without rounds
  refine ⟨positive, smaller, fun coefficient reads => ?_⟩
  refine (proper.cut_least without rounds reads).antisymm' (not_lt.mp fun more => ?_)
  -- The next point of the grid lies beyond the number itself.
  have next : (value.gridFloor 7 + 1) * value.gridUnit 7 ≤ coefficient * value.gridUnit 7 := by
    have unit := value.gridUnit_pos 7
    gcongr
    exact_mod_cast more
  have self : Rounds value.exact value.magnitude := rounds_valueAt _
  exact smaller.not_ge (self.mono reads ((value.gridFloor_bounds 7).2.le.trans next))

/-- A number prints a decimal that rounds to it and is the only one on a grid that does, if what would be
printed is on the grid. -/
theorem Proper.printedDigits_of_unique (proper : value.Proper) {decimal : Decimal} {count : Nat} (scale : Nat)
    (positive : 0 < count) (few : count ≤ 7) (reads : value.ReadsBack count)
    (grid : value.gridUnit (max 2 count) = scale * 10 ^ decimal.exponent)
    (unique : ∀ coefficient : Nat, Rounds (coefficient * 10 ^ decimal.exponent) value.magnitude →
      coefficient = decimal.coefficient) :
    Display.printedDigits value = decimal.printed := by
  obtain ⟨shown, prints, rounds, above, coefficient, valueIs⟩ :=
    proper.printedDigits_short positive few reads
  rw [grid, ← mul_assoc, ← Nat.cast_mul] at valueIs
  rw [prints]
  refine Decimal.printed_congr above ?_
  rw [valueIs] at rounds ⊢
  rw [unique _ rounds]
  rfl

theorem Proper.cut_decimalExponent (proper : value.Proper) (without : ¬value.ReadsBack 7)
    (rounds : Rounds (value.gridFloor 7 * value.gridUnit 7) other.magnitude) :
    other.decimalExponent = value.decimalExponent ∨
      other.decimalExponent = value.decimalExponent - 1 ∧ value.gridFloor 7 = 1000000 := by
  obtain ⟨positive, smaller, unique⟩ := proper.cut_unique without rounds
  have otherProper : other.Proper := ⟨positive, smaller.trans proper.finite⟩
  have self : Rounds other.exact other.magnitude := rounds_valueAt _
  have ten : (1 : ℚ) < 10 := by norm_num
  have unit := value.gridUnit_pos 7
  obtain ⟨low, high⟩ := otherProper.decimalExponent_bounds
  have digits := (proper.gridFloor_range (by decide : 0 < 7)).1
  -- a point between the number and the cut digits would be read back as the number too
  have between (point : Nat) (small : point ≤ value.gridFloor 7)
      (less : other.exact ≤ point * value.gridUnit 7) : value.gridFloor 7 = point := by
    refine (unique point (self.between rounds less ?_)).symm
    gcongr
  rcases le_or_gt ((10 : ℚ) ^ value.decimalExponent) other.exact with same | less
  · have below := (valueAt_strictMono smaller).trans proper.decimalExponent_bounds.2
    have first := (zpow_lt_zpow_iff_right₀ ten).mp (low.trans_lt below)
    have second := (zpow_lt_zpow_iff_right₀ ten).mp (same.trans_lt high)
    exact .inl (by omega)
  · have first := (zpow_lt_zpow_iff_right₀ ten).mp (low.trans_lt less)
    have floor := between 1000000 digits (by push_cast; exact (value.power_eq_gridUnit ▸ less).le)
    have above : (10 : ℚ) ^ (value.decimalExponent - 1) ≤ other.exact := by
      refine not_lt.mp fun tiny => ?_
      rw [zpow_sub_one₀ (by norm_num), power_eq_gridUnit] at tiny
      have floor' := between 100000 (by omega) (by push_cast; linarith)
      omega
    have second := (zpow_lt_zpow_iff_right₀ ten).mp (above.trans_lt high)
    exact .inr ⟨by omega, floor⟩

theorem Proper.printedDigits_stable (proper : value.Proper) (without : ¬value.ReadsBack 7)
    (rounds : Rounds (value.gridFloor 7 * value.gridUnit 7) other.magnitude) :
    Display.printedDigits other =
      (⟨value.gridFloor 7, value.gridExponent 7⟩ : Decimal).printed := by
  obtain ⟨positive, smaller, unique⟩ := proper.cut_unique without rounds
  have otherProper : other.Proper := ⟨positive, smaller.trans proper.finite⟩
  rcases proper.cut_decimalExponent without rounds with same | ⟨less, floor⟩
  · have grid : other.gridUnit 7 = value.gridUnit 7 := by
      unfold gridUnit gridExponent
      rw [same]
    refine otherProper.printedDigits_of_unique 1 (by decide) le_rfl ⟨value.gridFloor 7, ?_⟩ ?_ unique
    · rw [grid]
      exact rounds
    · rw [Nat.cast_one, one_mul]
      exact grid
  · -- the power of ten has one digit, so the number is on a coarser grid of its own
    have grid (count : Nat) (few : count ≤ 5) :
        other.gridUnit (1 + count) = ((10 ^ (5 - count) : ℕ) : ℚ) * value.gridUnit 7 := by
      unfold gridUnit gridExponent
      push_cast
      rw [less, ← zpow_natCast, ← zpow_add₀ (by norm_num)]
      congr 1
      omega
    have reads : other.ReadsBack 1 := by
      refine ⟨10, ?_⟩
      rw [floor] at rounds
      rw [grid 0 (by decide)]
      convert rounds using 1
      push_cast
      ring
    exact otherProper.printedDigits_of_unique _ (by decide) (by decide) reads (grid 1 (by decide)) unique

theorem display_zero (zero : value.magnitude = 0) : value.display = " 0" := by
  unfold display isNaN isInfinite isZero
  rw [zero]
  rfl

theorem Proper.read_display_of_readsBack (proper : value.Proper) (reads : value.ReadsBack 7) :
    Single.read value.display = value := by
  obtain ⟨decimal, prints, rounds, -⟩ := proper.printedDigits_short (by decide) le_rfl reads
  rw [proper.read_display prints rounds proper.positive proper.finite, ofMagnitude_magnitude]

theorem Proper.display_stable (proper : value.Proper) (without : ¬value.ReadsBack 7) :
    (Single.read value.display).display = value.display := by
  have prints := proper.printedDigits_cut without
  obtain ⟨magnitude, rounds⟩ :=
    Decimal.exists_rounds ⟨value.gridFloor 7, value.gridExponent 7⟩
  obtain ⟨positive, smaller, -⟩ := proper.cut_unique without rounds
  have finite := smaller.trans proper.finite
  have small : magnitude < 0x80000000 := finite.trans (by decide)
  have magnitudeIs := magnitude_ofMagnitude value.isNegative small
  have otherProper : (ofMagnitude value.isNegative magnitude).Proper := by
    constructor <;> rwa [magnitudeIs]
  have same : Display.printedDigits (ofMagnitude value.isNegative magnitude) =
      Display.printedDigits value := by
    rw [prints]
    refine proper.printedDigits_stable without ?_
    rwa [magnitudeIs]
  rw [proper.read_display prints rounds positive finite, otherProper.display, proper.display, same,
    isNegative_ofMagnitude _ small]

/-- A decimal of at most seven digits that rounds to a number is on the grid of the number, or the power
of ten at the first digit reads back as well. -/
theorem Proper.readsBack_of_rounds (proper : value.Proper) {coefficient : Nat} {exponent : Int}
    (digits : coefficient < 10 ^ 7) (rounds : Rounds (coefficient * 10 ^ exponent) value.magnitude) :
    value.ReadsBack 7 := by
  rcases le_or_gt ((10 : ℚ) ^ value.decimalExponent) (coefficient * 10 ^ exponent) with above | below
  · have small : (10 : ℚ) ^ value.decimalExponent < 10 ^ (7 + exponent) := by
      rw [zpow_add₀ (by norm_num)]
      refine above.trans_lt ?_
      gcongr
      exact_mod_cast digits
    have order := (zpow_lt_zpow_iff_right₀ (by norm_num)).mp small
    obtain ⟨more, shift⟩ : ∃ more : Nat, exponent = more + value.gridExponent 7 :=
      ⟨(exponent - value.gridExponent 7).toNat, by unfold gridExponent; omega⟩
    refine ⟨coefficient * 10 ^ more, ?_⟩
    rw [shift, zpow_add₀ (by norm_num), zpow_natCast, ← mul_assoc] at rounds
    push_cast
    exact rounds
  · refine ⟨1000000, ?_⟩
    rw [Nat.cast_ofNat, ← power_eq_gridUnit]
    exact rounds.between (rounds_valueAt _) below.le proper.decimalExponent_bounds.1

theorem numericEq_self (finite : value.magnitude < infiniteMagnitude) : value.numericEq value = true := by
  have number : value.isNaN = false := decide_eq_false finite.not_gt
  unfold numericEq
  simp [number]

theorem numericEq_of_zero (zero : value.magnitude = 0) (zero' : other.magnitude = 0) :
    value.numericEq other = true := by
  simp [numericEq, isNaN, isZero, zero, zero']

/-- Printed numbers are stable: what is read back from a printed finite number prints the same. -/
theorem display_read_display (value : Single) (finite : value.magnitude < infiniteMagnitude) :
    (Single.read value.display).display = value.display := by
  rcases value.magnitude.eq_zero_or_pos with zero | positive
  · rw [display_zero zero]
    decide
  have proper : value.Proper := ⟨positive, finite⟩
  by_cases reads : value.ReadsBack 7
  · rw [proper.read_display_of_readsBack reads]
  · exact proper.display_stable reads

/-- The number nearest to a third is not read back, but prints the same. -/
theorem third_display :
    Single.display ⟨0x3EAAAAAB⟩ = " .3333333" ∧ Single.read (Single.display ⟨0x3EAAAAAB⟩) ≠ ⟨0x3EAAAAAB⟩ ∧
      (Single.read (Single.display ⟨0x3EAAAAAB⟩)).display = Single.display ⟨0x3EAAAAAB⟩ :=
  ⟨by decide, by decide, display_read_display ⟨0x3EAAAAAB⟩ (by decide)⟩

/-- Seven digits survive: a finite number that is the nearest one to some decimal of at most seven digits
is read back from its printed form. The two zeros count as equal, and the sign is that of the decimal. -/
theorem read_display_of_nearest (value : Single) (finite : value.magnitude < infiniteMagnitude)
    (coefficient : Nat) (exponent : Int) (digits : coefficient < 10 ^ 7)
    (nearest : Nearest (coefficient * 10 ^ exponent) value.magnitude) :
    (Single.read value.display).numericEq value = true := by
  have rounds := nearest_iff_rounds.mp nearest
  rcases value.magnitude.eq_zero_or_pos with zero | positive
  · rw [display_zero zero]
    exact numericEq_of_zero (by decide) zero
  have proper : value.Proper := ⟨positive, finite⟩
  rw [proper.read_display_of_readsBack (proper.readsBack_of_rounds digits rounds)]
  exact numericEq_self finite

/-- The least number, which one digit rounds to, is printed with two digits and read back. -/
theorem least_read_display :
    Single.display ⟨1⟩ = " 1.4E-45" ∧
      (Single.read (Single.display ⟨1⟩)).numericEq ⟨1⟩ = true := by
  refine ⟨by decide, read_display_of_nearest ⟨1⟩ (by decide) 1 (-45) (by decide) ?_⟩
  exact nearest_iff_rounds.mpr ((Decimal.toMagnitude_eq_iff (by decide)).mp
    (by decide : (⟨1, -45⟩ : Decimal).toMagnitude = 1))

end Single

end BasicCompiler
