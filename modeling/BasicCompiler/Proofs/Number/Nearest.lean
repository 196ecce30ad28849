import Mathlib.Algebra.Order.Field.Power
import Mathlib.Data.Rat.Cast.Order
import Mathlib.Tactic.Linarith
import Mathlib.Tactic.LinearCombination
import Mathlib.Tactic.Positivity
import Mathlib.Tactic.Ring
import BasicCompiler.Number.Rounding

/-!
The exact values of single precision numbers. Rounding a ratio gives the number whose value is nearest
to it, the even one of two, and numbers that are read back are those between two boundaries.
-/

namespace BasicCompiler

variable {denominator steps significand : Nat} {exact low high : ℚ}

theorem scaled_ratio {base : Nat} (positive : 0 < base) (numerator denominator : Nat) (power : ℤ) :
    (scaledNumerator base numerator power : ℚ) / scaledDenominator base denominator power =
      (numerator : ℚ) / denominator * (base : ℚ) ^ power := by
  have nonzero : (base : ℚ) ≠ 0 := by exact_mod_cast positive.ne'
  unfold scaledNumerator scaledDenominator
  simp only [Nat.pow_eq, Nat.cast_mul, Nat.cast_pow]
  cases power with
  | ofNat exponent => simp [mul_div_right_comm]
  | negSucc exponent =>
      have up : (-Int.negSucc exponent).toNat = exponent + 1 := by omega
      have down : (Int.negSucc exponent).toNat = 0 := by omega
      rw [up, down, zpow_negSucc, pow_zero, mul_one, div_mul_eq_div_div, div_eq_mul_inv _ (_ ^ _)]

theorem scaledDenominator_pos {base : Nat} (positive : 0 < base) (nonzero : 0 < denominator) (power : ℤ) :
    0 < scaledDenominator base denominator power :=
  Nat.mul_pos nonzero (Nat.pow_pos positive)

/-- The integer that a ratio is rounded to is at most one half away, and even if it is just that. -/
structure HalfEven (exact : ℚ) (rounded : Nat) : Prop where
  le : exact ≤ rounded + 1 / 2
  ge : rounded - 1 / 2 ≤ exact
  even : rounded % 2 = 1 → exact < rounded + 1 / 2 ∧ rounded - 1 / 2 < exact

theorem roundHalfEven_halfEven (numerator : Nat) (positive : 0 < denominator) :
    HalfEven ((numerator : ℚ) / denominator) (roundHalfEven numerator denominator) := by
  have divisor : (0 : ℚ) < denominator := by exact_mod_cast positive
  obtain ⟨part, partIs⟩ : ∃ part : ℚ, part = (numerator % denominator : ℕ) / denominator := ⟨_, rfl⟩
  have split : (numerator : ℚ) / denominator = (numerator / denominator : ℕ) + part := by
    rw [partIs, add_div' _ _ _ divisor.ne', mul_comm]
    exact congrArg (· / (denominator : ℚ)) (by exact_mod_cast (Nat.div_add_mod numerator denominator).symm)
  have doubled : 2 * part = (2 * (numerator % denominator) : ℕ) / denominator := by
    rw [partIs]
    push_cast
    ring
  have next := Nat.cast_succ (R := ℚ) (numerator / denominator)
  rw [split]
  unfold roundHalfEven
  dsimp only
  split
  · rename_i low
    have half : 2 * part < 1 := by
      rw [doubled, div_lt_one divisor]
      exact_mod_cast low
    have nonnegative : 0 ≤ part := by
      rw [partIs]
      positivity
    exact ⟨by linarith, by linarith, fun _ => ⟨by linarith, by linarith⟩⟩
  split
  · rename_i high
    have half : 1 < 2 * part := by
      rw [doubled, one_lt_div divisor]
      exact_mod_cast high
    have small : part < 1 := by
      rw [partIs, div_lt_one divisor]
      exact_mod_cast Nat.mod_lt numerator positive
    exact ⟨by linarith, by linarith, fun _ => ⟨by linarith, by linarith⟩⟩
  have half : 2 * part = 1 := by
    rw [doubled, div_eq_one_iff_eq divisor.ne']
    exact_mod_cast (by omega : 2 * (numerator % denominator) = denominator)
  split
  · exact ⟨by linarith, by linarith, by omega⟩
  · exact ⟨by linarith, by linarith, by omega⟩

theorem HalfEven.le_rounded {rounded bound : Nat} (half : HalfEven exact rounded)
    (above : (bound : ℚ) ≤ exact) : bound ≤ rounded := by
  by_contra less
  have cast : (rounded : ℚ) + 1 ≤ bound := by exact_mod_cast not_le.mp less
  linarith [half.le]

theorem HalfEven.rounded_le {rounded bound : Nat} (half : HalfEven exact rounded) (below : exact < bound) :
    rounded ≤ bound := by
  by_contra more
  have cast : (bound : ℚ) + 1 ≤ rounded := by exact_mod_cast not_le.mp more
  linarith [half.ge]

theorem log2_bounds {number : Nat} (nonzero : 0 < number) :
    (2 : ℚ) ^ (number.log2 : ℤ) ≤ number ∧ (number : ℚ) < (2 : ℚ) ^ ((number.log2 : ℤ) + 1) := by
  rw [← Nat.cast_succ, zpow_natCast, zpow_natCast]
  exact ⟨by exact_mod_cast Nat.log2_self_le nonzero.ne', by exact_mod_cast Nat.lt_log2_self⟩

theorem scaled_le_iff (numerator : Nat) (divisor : 0 < denominator) (power : ℤ) :
    scaledDenominator 2 denominator (-power) ≤ scaledNumerator 2 numerator (-power) ↔
      (2 : ℚ) ^ power ≤ (numerator : ℚ) / denominator := by
  have scaled := scaled_ratio (by decide : 0 < 2) numerator denominator (-power)
  have scaledPositive : (0 : ℚ) < scaledDenominator 2 denominator (-power) := by
    exact_mod_cast scaledDenominator_pos (by decide) divisor _
  have positive : (0 : ℚ) < 2 ^ power := by positivity
  rw [← Nat.cast_le (α := ℚ), ← one_le_div scaledPositive, scaled, Nat.cast_ofNat, zpow_neg,
    ← div_eq_mul_inv, one_le_div positive]

theorem binaryExponent_bounds {numerator : Nat} (positive : 0 < numerator) (divisor : 0 < denominator) :
    (2 : ℚ) ^ binaryExponent numerator denominator ≤ (numerator : ℚ) / denominator ∧
      (numerator : ℚ) / denominator < (2 : ℚ) ^ (binaryExponent numerator denominator + 1) := by
  obtain ⟨topLow, topHigh⟩ := log2_bounds positive
  obtain ⟨bottomLow, bottomHigh⟩ := log2_bounds divisor
  have bottom : (0 : ℚ) < denominator := by exact_mod_cast divisor
  have two : (2 : ℚ) ≠ 0 := by norm_num
  generalize estimateIs : (numerator.log2 : ℤ) - denominator.log2 = estimate
  have low : (2 : ℚ) ^ (estimate - 1) ≤ (numerator : ℚ) / denominator := by
    rw [le_div_iff₀ bottom]
    calc (2 : ℚ) ^ (estimate - 1) * denominator
        ≤ (2 : ℚ) ^ (estimate - 1) * (2 : ℚ) ^ ((denominator.log2 : ℤ) + 1) := by gcongr
      _ = (2 : ℚ) ^ (numerator.log2 : ℤ) := by
          rw [← zpow_add₀ two]
          congr 1
          omega
      _ ≤ numerator := topLow
  have high : (numerator : ℚ) / denominator < (2 : ℚ) ^ (estimate + 1) := by
    rw [div_lt_iff₀ bottom]
    calc (numerator : ℚ) < (2 : ℚ) ^ ((numerator.log2 : ℤ) + 1) := topHigh
      _ = (2 : ℚ) ^ (estimate + 1) * (2 : ℚ) ^ (denominator.log2 : ℤ) := by
          rw [← zpow_add₀ two]
          congr 1
          omega
      _ ≤ (2 : ℚ) ^ (estimate + 1) * denominator := by gcongr
  have tested := scaled_le_iff numerator divisor estimate
  unfold binaryExponent
  dsimp only
  rw [estimateIs]
  split
  · rename_i fits
    exact ⟨tested.mp fits, high⟩
  · rename_i exceeds
    rw [sub_add_cancel]
    exact ⟨low, not_le.mp fun fits => exceeds (tested.mpr fits)⟩

namespace Single

def scaleAt (magnitude : Nat) : ℤ := (max (magnitude / 0x800000) 1 : Nat) - 150

def significandAt (magnitude : Nat) : Nat :=
  if magnitude / 0x800000 = 0 then magnitude % 0x800000 else 0x800000 + magnitude % 0x800000

def gap (magnitude : Nat) : ℚ := 2 ^ scaleAt magnitude

/-- The exact value of the number with a magnitude. That of the infinite magnitude is the power of two
after the largest finite number. -/
def valueAt (magnitude : Nat) : ℚ := significandAt magnitude * gap magnitude

theorem gap_pos (magnitude : Nat) : 0 < gap magnitude := by
  unfold gap
  positivity

theorem scaleAt_succ (magnitude : Nat) :
    scaleAt (magnitude + 1) = scaleAt magnitude ∨
      scaleAt (magnitude + 1) = scaleAt magnitude + 1 ∧ significandAt (magnitude + 1) = 0x800000 := by
  unfold scaleAt significandAt
  split <;> omega

/-- The distances of neighbours grow by a factor of two at most, and do so only at a power of two. -/
theorem gap_succ (magnitude : Nat) :
    gap (magnitude + 1) = gap magnitude ∨
      gap (magnitude + 1) = 2 * gap magnitude ∧
        valueAt (magnitude + 1) = 0x800000 * gap (magnitude + 1) := by
  unfold gap valueAt
  rcases scaleAt_succ magnitude with same | ⟨next, power⟩
  · exact .inl (by rw [same])
  · refine .inr ⟨?_, by rw [power, gap]; norm_num⟩
    rw [next, zpow_add_one₀ (by norm_num), mul_comm]

theorem gap_le_succ (magnitude : Nat) : gap magnitude ≤ gap (magnitude + 1) := by
  have positive := gap_pos magnitude
  rcases gap_succ magnitude with same | ⟨next, _⟩ <;> linarith

theorem gap_mono : Monotone gap := monotone_nat_of_le_succ gap_le_succ

theorem valueAt_succ (magnitude : Nat) : valueAt (magnitude + 1) = valueAt magnitude + gap magnitude := by
  unfold valueAt gap
  rcases scaleAt_succ magnitude with same | ⟨next, power⟩
  · have significand : significandAt (magnitude + 1) = significandAt magnitude + 1 := by
      unfold scaleAt at same
      unfold significandAt
      split <;> split <;> omega
    rw [same, significand]
    push_cast
    ring
  · have significand : significandAt magnitude + 1 = 2 * significandAt (magnitude + 1) := by
      unfold scaleAt at next
      unfold significandAt at power ⊢
      split at power <;> split <;> omega
    have cast : (significandAt magnitude : ℚ) + 1 = 2 * significandAt (magnitude + 1) := by
      exact_mod_cast significand
    rw [next, zpow_add_one₀ (by norm_num)]
    linear_combination (-(2 : ℚ) ^ scaleAt magnitude) * cast

theorem valueAt_strictMono : StrictMono valueAt :=
  strictMono_nat_of_lt_succ fun magnitude => by
    have positive := gap_pos magnitude
    rw [valueAt_succ]
    linarith

theorem valueAt_zero : valueAt 0 = 0 := by simp [valueAt, significandAt]

def boundary (magnitude : Nat) : ℚ := valueAt magnitude + gap magnitude / 2

theorem boundary_strictMono : StrictMono boundary :=
  strictMono_nat_of_lt_succ fun magnitude => by
    have positive := gap_pos magnitude
    have larger := gap_le_succ magnitude
    unfold boundary
    rw [valueAt_succ]
    linarith

/-- An exact value that is not past the boundary of a magnitude, which belongs to its even side. -/
def Within (exact : ℚ) (magnitude : Nat) : Prop :=
  exact < boundary magnitude ∨ exact = boundary magnitude ∧ magnitude % 2 = 0

theorem Within.le {magnitude : Nat} (within : Within exact magnitude) :
    exact ≤ boundary magnitude :=
  within.elim le_of_lt fun tie => tie.1.le

theorem Within.mono {exact' : ℚ} {magnitude magnitude' : Nat} (within : Within exact magnitude)
    (below : exact' ≤ exact) (above : magnitude ≤ magnitude') : Within exact' magnitude' := by
  rcases above.eq_or_lt with rfl | later
  · rcases within with inside | ⟨rfl, even⟩
    · exact .inl (below.trans_lt inside)
    · exact below.eq_or_lt.elim (fun same => .inr ⟨same, even⟩) .inl
  · exact .inl ((below.trans within.le).trans_lt (boundary_strictMono later))

/-- A magnitude is the rounded form of an exact value: the least whose boundary is not passed. -/
structure Rounds (exact : ℚ) (magnitude : Nat) : Prop where
  within : Within exact magnitude
  least : ∀ smaller < magnitude, ¬ Within exact smaller

variable {exact exact' exact'' : ℚ} {magnitude magnitude' : Nat}

theorem Rounds.mono (rounds : Rounds exact magnitude) (rounds' : Rounds exact' magnitude')
    (below : exact ≤ exact') : magnitude ≤ magnitude' :=
  not_lt.mp fun smaller => rounds.least _ smaller (rounds'.within.mono below le_rfl)

theorem Rounds.unique (rounds : Rounds exact magnitude) (rounds' : Rounds exact magnitude') :
    magnitude = magnitude' :=
  le_antisymm (rounds.mono rounds' le_rfl) (rounds'.mono rounds le_rfl)

theorem Rounds.between (rounds : Rounds exact magnitude) (rounds' : Rounds exact'' magnitude)
    (above : exact ≤ exact') (below : exact' ≤ exact'') : Rounds exact' magnitude where
  within := rounds'.within.mono below le_rfl
  least smaller less within := rounds.least smaller less (within.mono above le_rfl)

theorem rounds_zero_iff : Rounds exact 0 ↔ exact ≤ boundary 0 := by
  refine ⟨fun rounds => rounds.within.le, fun below => ⟨?_, by simp⟩⟩
  exact below.lt_or_eq.imp id fun same => ⟨same, rfl⟩

/-- A value is rounded to a magnitude above zero if it lies between two boundaries, which belong to the
even magnitude. -/
theorem rounds_succ_iff : Rounds exact (magnitude + 1) ↔
    (boundary magnitude < exact ∨ exact = boundary magnitude ∧ magnitude % 2 = 1) ∧
      Within exact (magnitude + 1) := by
  have outside : ¬ Within exact magnitude ↔
      boundary magnitude < exact ∨ exact = boundary magnitude ∧ magnitude % 2 = 1 := by
    unfold Within
    rcases lt_trichotomy exact (boundary magnitude) with less | same | more
    · simp [less, less.not_gt, less.ne]
    · simp [same]
    · simp [more, more.not_gt, more.ne']
  rw [← outside, and_comm]
  refine ⟨fun rounds => ⟨rounds.within, rounds.least _ (Nat.lt_succ_self _)⟩, ?_⟩
  rintro ⟨within, past⟩
  exact ⟨within, fun smaller less earlier => past (earlier.mono le_rfl (Nat.lt_succ_iff.mp less))⟩

theorem valueAt_lt_boundary (magnitude : Nat) : valueAt magnitude < boundary magnitude := by
  have positive := gap_pos magnitude
  unfold boundary
  linarith

theorem boundary_lt_valueAt_succ (magnitude : Nat) : boundary magnitude < valueAt (magnitude + 1) := by
  have positive := gap_pos magnitude
  unfold boundary
  rw [valueAt_succ]
  linarith

theorem rounds_valueAt (magnitude : Nat) : Rounds (valueAt magnitude) magnitude where
  within := .inl (valueAt_lt_boundary magnitude)
  least smaller less within :=
    (within.le.trans_lt (boundary_lt_valueAt_succ smaller)).not_ge (valueAt_strictMono.monotone less)

/-- The numbers get no denser upwards, so what is closer than half the distance to the number before
rounds to a number. -/
theorem rounds_of_close (close : |exact - valueAt (magnitude + 1)| < gap magnitude / 2) :
    Rounds exact (magnitude + 1) := by
  obtain ⟨low, high⟩ := abs_lt.mp close
  have step := valueAt_succ magnitude
  have wider := gap_le_succ magnitude
  refine rounds_succ_iff.mpr ⟨.inl ?_, .inl ?_⟩ <;> unfold boundary <;> linarith

/-- What is no further from a number than something that rounds to it rounds to it as well, except
below a power of two, where the numbers are denser. -/
theorem rounds_of_nearer (rounds : Rounds exact (magnitude + 1))
    (nearer : |exact' - valueAt (magnitude + 1)| ≤ |exact - valueAt (magnitude + 1)|)
    (side : valueAt (magnitude + 1) ≤ exact' ∨ exact ≤ valueAt (magnitude + 1) ∨
      gap magnitude = gap (magnitude + 1)) : Rounds exact' (magnitude + 1) := by
  have self := rounds_valueAt (magnitude + 1)
  have step := valueAt_succ magnitude
  have wider := gap_le_succ magnitude
  obtain ⟨past, within⟩ := rounds_succ_iff.mp rounds
  rcases le_total (valueAt (magnitude + 1)) exact' with above | below
  · rw [abs_of_nonneg (sub_nonneg.mpr above)] at nearer
    rcases le_total (valueAt (magnitude + 1)) exact with right | left
    · rw [abs_of_nonneg (sub_nonneg.mpr right)] at nearer
      exact self.between rounds above (by linarith)
    · rw [abs_of_nonpos (sub_nonpos.mpr left)] at nearer
      refine rounds_succ_iff.mpr ⟨.inl ((boundary_lt_valueAt_succ _).trans_le above), ?_⟩
      unfold Within boundary at *
      rcases past with inside | ⟨tie, odd⟩
      · exact .inl (by linarith)
      · have inside : exact' ≤ valueAt (magnitude + 1) + gap (magnitude + 1) / 2 := by linarith
        exact inside.lt_or_eq.imp id fun same => ⟨same, by omega⟩
  · rw [abs_of_nonpos (sub_nonpos.mpr below)] at nearer
    rcases le_total exact (valueAt (magnitude + 1)) with left | right
    · rw [abs_of_nonpos (sub_nonpos.mpr left)] at nearer
      exact rounds.between self (by linarith) below
    · rw [abs_of_nonneg (sub_nonneg.mpr right)] at nearer
      refine rounds_succ_iff.mpr ⟨?_, self.within.mono below le_rfl⟩
      rcases side with above | left | same
      · exact .inl ((boundary_lt_valueAt_succ _).trans_le above)
      · exact .inl ((boundary_lt_valueAt_succ _).trans_le (by linarith))
      · unfold Within boundary at *
        rcases within with inside | ⟨tie, even⟩
        · exact .inl (by linarith)
        · have past : valueAt magnitude + gap magnitude / 2 ≤ exact' := by linarith
          exact past.lt_or_eq.imp id fun tie => ⟨tie.symm, by omega⟩

/-- No number is nearer to an exact value than the one with a magnitude, and of two that are equally near
it is the even one. -/
def Nearest (exact : ℚ) (magnitude : Nat) : Prop :=
  ∀ other, other ≠ magnitude → |exact - valueAt magnitude| < |exact - valueAt other| ∨
    |exact - valueAt magnitude| = |exact - valueAt other| ∧ magnitude % 2 = 0

theorem nearer_low_iff (apart : low < high) :
    |exact - low| < |exact - high| ↔ 2 * exact < low + high := by
  rw [← sq_lt_sq]
  constructor <;> intro less <;> nlinarith

theorem nearer_high_iff (apart : low < high) :
    |exact - high| < |exact - low| ↔ low + high < 2 * exact := by
  rw [← sq_lt_sq]
  constructor <;> intro less <;> nlinarith

theorem equallyNear_iff (apart : low < high) :
    |exact - low| = |exact - high| ↔ 2 * exact = low + high := by
  rw [le_antisymm_iff, ← not_lt, ← not_lt, nearer_low_iff apart, nearer_high_iff apart, not_lt, not_lt,
    ← le_antisymm_iff]

theorem double_boundary (magnitude : Nat) :
    2 * boundary magnitude = valueAt magnitude + valueAt (magnitude + 1) := by
  rw [boundary, valueAt_succ]
  ring

theorem nearest_iff_rounds : Nearest exact magnitude ↔ Rounds exact magnitude := by
  constructor
  · intro nearest
    have within : Within exact magnitude := by
      have next := nearest (magnitude + 1) (Nat.succ_ne_self _)
      have apart := valueAt_strictMono (Nat.lt_succ_self magnitude)
      rw [nearer_low_iff apart, equallyNear_iff apart, ← double_boundary] at next
      exact next.imp (fun less => by linarith) fun ⟨same, even⟩ => ⟨by linarith, even⟩
    cases magnitude with
    | zero => exact ⟨within, by simp⟩
    | succ before =>
        refine rounds_succ_iff.mpr ⟨?_, within⟩
        have previous := nearest before (Nat.succ_ne_self _).symm
        have apart := valueAt_strictMono (Nat.lt_succ_self before)
        rw [nearer_high_iff apart, eq_comm, equallyNear_iff apart, ← double_boundary] at previous
        exact previous.imp (fun less => by linarith) fun ⟨same, even⟩ => ⟨by linarith, by omega⟩
  · intro rounds other different
    rcases different.lt_or_gt with less | more
    · obtain ⟨before, rfl⟩ := Nat.exists_eq_succ_of_ne_zero (Nat.ne_zero_of_lt less)
      have apart := valueAt_strictMono less
      have middle := double_boundary before
      have nearest := valueAt_strictMono.monotone (Nat.lt_succ_iff.mp less)
      rw [nearer_high_iff apart, eq_comm, equallyNear_iff apart]
      rcases (rounds_succ_iff.mp rounds).1 with inside | ⟨tie, odd⟩
      · exact .inl (by linarith)
      · rcases nearest.eq_or_lt with same | further
        · exact .inr ⟨by linarith, by omega⟩
        · exact .inl (by linarith)
    · have apart := valueAt_strictMono more
      have middle := double_boundary magnitude
      have nearest := valueAt_strictMono.monotone (Nat.succ_le_of_lt more)
      rw [nearer_low_iff apart, equallyNear_iff apart]
      rcases rounds.within with inside | ⟨tie, even⟩
      · exact .inl (by linarith)
      · rcases nearest.eq_or_lt with same | further
        · exact .inr ⟨by linarith, even⟩
        · exact .inl (by linarith)

theorem valueAt_packed (normal : steps = 0 ∨ 0x800000 ≤ significand) (small : significand ≤ 0x1000000) :
    valueAt (steps * 0x800000 + significand) = significand * (2 : ℚ) ^ ((steps : ℤ) - 149) := by
  unfold valueAt gap
  rcases small.eq_or_lt with rfl | less
  · have scale : scaleAt (steps * 0x800000 + 0x1000000) = (steps : ℤ) - 149 + 1 := by
      unfold scaleAt
      omega
    have power : significandAt (steps * 0x800000 + 0x1000000) = 0x800000 := by
      unfold significandAt
      split <;> omega
    rw [scale, power, zpow_add_one₀ (by norm_num)]
    push_cast
    ring
  · have scale : scaleAt (steps * 0x800000 + significand) = (steps : ℤ) - 149 := by
      unfold scaleAt
      omega
    have same : significandAt (steps * 0x800000 + significand) = significand := by
      unfold significandAt
      split <;> omega
    rw [scale, same]

theorem within_packed {ratio : ℚ} (half : HalfEven ratio significand)
    (normal : steps = 0 ∨ 0x800000 ≤ significand) (small : significand ≤ 0x1000000) :
    Within (ratio * (2 : ℚ) ^ ((steps : ℤ) - 149)) (steps * 0x800000 + significand) := by
  have coarse : (2 : ℚ) ^ ((steps : ℤ) - 149) ≤ gap (steps * 0x800000 + significand) := by
    refine zpow_le_zpow_right₀ (by norm_num) ?_
    unfold scaleAt
    omega
  have positive : (0 : ℚ) < 2 ^ ((steps : ℤ) - 149) := by positivity
  unfold Within boundary
  rw [valueAt_packed normal small]
  generalize (2 : ℚ) ^ ((steps : ℤ) - 149) = unit at *
  rcases Nat.mod_two_eq_zero_or_one (steps * 0x800000 + significand) with even | odd
  · have bound : ratio * unit ≤ significand * unit + gap (steps * 0x800000 + significand) / 2 := by
      nlinarith [half.le]
    exact bound.lt_or_eq.imp_right fun same => ⟨same, even⟩
  · have strict := (half.even (by omega)).1
    exact .inl (by nlinarith)

theorem gap_packed {before : Nat} (normal : steps = 0 ∨ 0x800000 ≤ before + 1)
    (small : before + 1 ≤ 0x1000000) :
    gap (steps * 0x800000 + before) = (2 : ℚ) ^ ((steps : ℤ) - 149) ∨
      before + 1 = 0x800000 ∧ 0 < steps := by
  by_cases edge : before + 1 = 0x800000 ∧ 0 < steps
  · exact .inr edge
  · left
    rw [gap]
    congr 1
    unfold scaleAt
    omega

/-- A ratio that is rounded at a scale where it has at most twenty-four binary digits, and just as many
above the smallest scale, becomes its rounded form. -/
theorem rounds_packed {ratio : ℚ} (half : HalfEven ratio significand)
    (normal : steps = 0 ∨ 0x800000 ≤ ratio) (small : ratio < 0x1000000) :
    Rounds (ratio * (2 : ℚ) ^ ((steps : ℤ) - 149)) (steps * 0x800000 + significand) := by
  have enough : steps = 0 ∨ 0x800000 ≤ significand :=
    normal.imp_right fun large => half.le_rounded (by exact_mod_cast large)
  have atMost : significand ≤ 0x1000000 := half.rounded_le (by exact_mod_cast small)
  have within := within_packed half enough atMost
  cases significand with
  | zero =>
      obtain rfl : steps = 0 := by omega
      exact rounds_zero_iff.mpr within.le
  | succ before =>
      have next := valueAt_packed enough atMost
      have fine := gap_packed enough atMost
      have positive : (0 : ℚ) < 2 ^ ((steps : ℤ) - 149) := by positivity
      rw [← Nat.add_assoc] at within next ⊢
      rw [valueAt_succ] at next
      refine rounds_succ_iff.mpr ⟨?_, within⟩
      unfold boundary
      generalize (2 : ℚ) ^ ((steps : ℤ) - 149) = unit at *
      rcases fine with same | ⟨power, above⟩
      · rw [same] at next ⊢
        rcases Nat.mod_two_eq_zero_or_one (steps * 0x800000 + before) with even | odd
        · have strict := (half.even (by omega)).2
          exact .inl (by nlinarith)
        · have bound : valueAt (steps * 0x800000 + before) + unit / 2 ≤ ratio * unit := by
            nlinarith [half.ge]
          exact bound.lt_or_eq.imp_right fun tie => ⟨tie.symm, odd⟩
      · have large := normal.resolve_left above.ne'
        have finer := gap_pos (steps * 0x800000 + before)
        rw [power] at next
        push_cast at next
        exact .inl (by nlinarith)

/-- The magnitude of a ratio is the smaller one of its rounded form and the infinite magnitude. -/
theorem magnitudeOfRatio_rounds (numerator : Nat) (positive : 0 < denominator) :
    ∃ magnitude, Rounds ((numerator : ℚ) / denominator) magnitude ∧
      magnitudeOfRatio numerator denominator = min magnitude infiniteMagnitude := by
  unfold magnitudeOfRatio
  split
  · rename_i zero
    refine ⟨0, ?_, rfl⟩
    rw [zero, Nat.cast_zero, zero_div, ← valueAt_zero]
    exact rounds_valueAt 0
  · rename_i nonzero
    obtain ⟨low, high⟩ := binaryExponent_bounds (Nat.pos_of_ne_zero nonzero) positive
    dsimp only
    generalize binaryExponent numerator denominator = exponent at low high
    generalize unitIs : max (exponent - 23) (-149) = unit
    have two : (2 : ℚ) ≠ 0 := by norm_num
    have scaled := scaled_ratio (by decide : 0 < 2) numerator denominator (-unit)
    rw [Nat.cast_ofNat] at scaled
    have half := roundHalfEven_halfEven (scaledNumerator 2 numerator (-unit))
      (scaledDenominator_pos (by decide : 0 < 2) positive (-unit))
    rw [scaled] at half
    have steps : ((unit + 149).toNat : ℤ) - 149 = unit := by omega
    have whole : (numerator : ℚ) / denominator =
        numerator / denominator * (2 : ℚ) ^ (-unit) * (2 : ℚ) ^ (((unit + 149).toNat : ℤ) - 149) := by
      rw [steps, mul_assoc, ← zpow_add₀ two, neg_add_cancel, zpow_zero, mul_one]
    refine ⟨_, ?_, rfl⟩
    rw [whole]
    refine rounds_packed half ?_ ?_
    · by_cases least : unit = -149
      · exact .inl (by omega)
      · refine .inr ?_
        calc (0x800000 : ℚ) = 2 ^ exponent * 2 ^ (-unit) := by
              rw [← zpow_add₀ two, show exponent + -unit = (23 : ℕ) by omega, zpow_natCast]
              norm_num
          _ ≤ _ := by gcongr
    · calc (numerator : ℚ) / denominator * 2 ^ (-unit) < 2 ^ (exponent + 1) * 2 ^ (-unit) := by gcongr
        _ ≤ 2 ^ (unit + 24) * 2 ^ (-unit) :=
            mul_le_mul_of_nonneg_right (zpow_le_zpow_right₀ (by norm_num) (by omega)) (by positivity)
        _ = 0x1000000 := by
            rw [← zpow_add₀ two, show unit + 24 + -unit = (24 : ℕ) by omega, zpow_natCast]
            norm_num

theorem magnitudeOfRatio_eq_iff {numerator : Nat} (positive : 0 < denominator)
    (finite : magnitude < infiniteMagnitude) :
    magnitudeOfRatio numerator denominator = magnitude ↔
      Rounds ((numerator : ℚ) / denominator) magnitude := by
  obtain ⟨found, rounds, capped⟩ := magnitudeOfRatio_rounds numerator positive
  rw [capped]
  constructor
  · intro same
    obtain rfl : found = magnitude := by omega
    exact rounds
  · intro rounds'
    rw [rounds.unique rounds']
    omega

end Single

end BasicCompiler
