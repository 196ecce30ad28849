import BasicCompiler.Proofs.Number.Extent
import BasicCompiler.Proofs.Number.Printed

/-!
Reading numbers. A numeral becomes the nearest number, and the text of a printed number is a numeral for
the decimal that was printed, in each of its layouts.
-/

namespace BasicCompiler

open Single

namespace Numeral

variable {digits : List Nat}

theorem foldl_digits (digits : List Nat) (start : Nat) :
    digits.foldl (fun value digit => 10 * value + digit) start =
      start * 10 ^ digits.length + ofDigits digits := by
  induction digits generalizing start with
  | nil => simp [ofDigits]
  | cons digit digits ih =>
      unfold ofDigits
      rw [List.foldl_cons, List.foldl_cons, ih, ih, List.length_cons]
      ring

theorem ofDigits_cons (digit : Nat) (digits : List Nat) :
    ofDigits (digit :: digits) = digit * 10 ^ digits.length + ofDigits digits := by
  rw [← foldl_digits, ofDigits, List.foldl_cons, Nat.mul_zero, Nat.zero_add]

theorem ofDigits_lt (small : ∀ digit ∈ digits, digit < 10) : ofDigits digits < 10 ^ digits.length := by
  induction digits with
  | nil => simp [ofDigits]
  | cons digit digits ih =>
      rw [List.forall_mem_cons] at small
      have rest := ih small.2
      rw [ofDigits_cons, List.length_cons, Nat.pow_succ]
      have first := Nat.mul_le_mul_right (10 ^ digits.length) (Nat.le_of_lt_succ small.1)
      omega

theorem ofDigits_dropWhile (digits : List Nat) : ofDigits (digits.dropWhile (· == 0)) = ofDigits digits := by
  induction digits with
  | nil => rfl
  | cons digit digits ih =>
      rw [List.dropWhile_cons]
      split
      · rename_i zero
        rw [ih, ofDigits_cons, beq_iff_eq.mp zero, Nat.zero_mul, Nat.zero_add]
      · rfl

theorem pow_le_ofDigits {digit : Nat} {rest : List Nat}
    (significant : digits.dropWhile (· == 0) = digit :: rest) : 10 ^ rest.length ≤ ofDigits digits := by
  have leading : (digit == 0) = false := by
    have head := List.head?_dropWhile_not (· == 0) digits
    rw [significant] at head
    simpa using head
  rw [← ofDigits_dropWhile, significant, ofDigits_cons]
  have weight := Nat.mul_le_mul_right (10 ^ rest.length)
    (Nat.pos_of_ne_zero (beq_eq_false_iff_ne.mp leading) : 1 ≤ digit)
  omega

theorem ofDigits_map (digits : List Char) :
    ofDigits (digits.map digitValue) = Nat.ofDigitChars 10 digits 0 := by
  rw [Nat.ofDigitChars_eq_foldl, ofDigits, List.foldl_map]
  rfl

def value (numeral : Numeral) : ℚ :=
  ofDigits numeral.digits * 10 ^ (numeral.exponent - numeral.fractionLength)

theorem value_bounds {numeral : Numeral} (decimal : ∀ digit ∈ numeral.digits, digit < 10) {digit : Nat}
    {rest : List Nat} (significant : numeral.digits.dropWhile (· == 0) = digit :: rest) :
    (10 : ℚ) ^ (numeral.exponent - numeral.fractionLength + rest.length) ≤ numeral.value ∧
      numeral.value < (10 : ℚ) ^ (numeral.exponent - numeral.fractionLength + (rest.length + 1)) := by
  have low : ((10 ^ rest.length : ℕ) : ℚ) ≤ ofDigits numeral.digits := by
    exact_mod_cast pow_le_ofDigits significant
  have high : (ofDigits numeral.digits : ℚ) < (10 ^ (rest.length + 1) : ℕ) := by
    have below := ofDigits_lt fun digit member =>
      decimal digit ((List.dropWhile_sublist (· == 0)).subset member)
    rw [significant, List.length_cons, ← significant, ofDigits_dropWhile] at below
    exact_mod_cast below
  have scale (count : Nat) : (10 : ℚ) ^ (numeral.exponent - numeral.fractionLength + count) =
      (10 ^ count : ℕ) * 10 ^ (numeral.exponent - numeral.fractionLength) := by
    rw [zpow_add₀ (by norm_num), zpow_natCast, mul_comm]
    push_cast
    rfl
  rw [scale rest.length, ← Nat.cast_add_one, scale (rest.length + 1), value]
  constructor <;> gcongr

/-- A numeral becomes the nearest finite number. The shortcuts for numerals far out of the range agree
with the rounding. -/
theorem magnitude_eq_iff {numeral : Numeral} {magnitude : Nat}
    (decimal : ∀ digit ∈ numeral.digits, digit < 10) (finite : magnitude < infiniteMagnitude) :
    numeral.magnitude = magnitude ↔ Rounds numeral.value magnitude := by
  have zero (rounds : Rounds numeral.value 0) : 0 = magnitude ↔ Rounds numeral.value magnitude :=
    ⟨fun same => same ▸ rounds, rounds.unique⟩
  unfold Numeral.magnitude
  dsimp only
  cases significant : numeral.digits.dropWhile (· == 0) with
  | nil =>
      refine zero ?_
      rw [value, ← ofDigits_dropWhile, significant]
      simpa [ofDigits, valueAt_zero] using rounds_valueAt 0
  | cons digit rest =>
      obtain ⟨low, high⟩ := value_bounds decimal significant
      rw [if_neg (by simp), List.length_cons]
      split
      · rename_i far
        refine iff_of_false finite.ne' fun rounds => (rounds.lt_of_finite finite).not_ge ?_
        exact (zpow_le_zpow_right₀ (by norm_num) (by omega)).trans low
      split
      · rename_i far
        refine zero (rounds_zero_iff.mpr (high.le.trans (le_trans ?_ le_boundary_zero)))
        exact zpow_le_zpow_right₀ (by norm_num) (by omega)
      · rw [magnitudeOfRatio_eq_iff (scaledDenominator_pos (by decide) (by decide) _) finite,
          scaled_ratio (by decide), ← significant, ofDigits_dropWhile, value, Nat.cast_one, div_one,
          Nat.cast_ofNat]

variable {whole fraction rest tail : List Char} {exponent : Int}

theorem readExponent_sign {exponent : Int} (small : exponent.natAbs < 100) :
    readExponent ('E' :: (if exponent < 0 then '-' else '+') :: Display.exponentDigits exponent.natAbs) =
      (exponent, []) := by
  have digits : ∀ size < 100,
      (Display.exponentDigits size).takeWhile Char.isDigit = Display.exponentDigits size ∧
      (Display.exponentDigits size).dropWhile Char.isDigit = [] ∧ Display.exponentDigits size ≠ [] ∧
      exponentValue (Display.exponentDigits size) = size := by decide
  obtain ⟨taken, dropped, some, valueIs⟩ := digits _ small
  have sign : readSign ((if exponent < 0 then '-' else '+') :: Display.exponentDigits exponent.natAbs) =
      (decide (exponent < 0), Display.exponentDigits exponent.natAbs) := by
    split <;> simp [readSign, *]
  unfold readExponent
  dsimp only
  rw [if_pos (.inl rfl), sign]
  dsimp only
  rw [taken, dropped]
  split
  · exact absurd ‹_› some
  · rw [valueIs]
    simp only [decide_eq_true_eq]
    split <;> simp only [Prod.mk.injEq, and_true] <;> omega

theorem digitValue_lt {digits : List Char} (run : ∀ digit ∈ digits, digit.isDigit) :
    ∀ digit ∈ digits.map digitValue, digit < 10 := by
  intro digit member
  obtain ⟨character, listed, rfl⟩ := List.mem_map.mp member
  have bounds := Char.isDigit_iff_toNat.mp (run character listed)
  have zero : '0'.toNat = 48 := rfl
  have nine : '9'.toNat = 57 := rfl
  unfold digitValue
  omega

def Spells (text : List Char) (negative : Bool) (exact : ℚ) : Prop :=
  ∃ numeral, read? text = some (numeral, []) ∧ numeral.negative = negative ∧
    (∀ digit ∈ numeral.digits, digit < 10) ∧ numeral.value = exact

theorem spells {text digits : List Char} {negative : Bool} {power : Int} (count : Nat)
    (run : ∀ digit ∈ digits, digit.isDigit) (some : digits ≠ []) (within : count ≤ digits.length)
    (sign : readSign text = (negative, digits.take count ++ rest))
    (stops : ∀ mark ∈ rest.head?, mark.isDigit = false)
    (point : readFraction rest = (digits.drop count, tail))
    (scale : readExponent tail = (power, [])) (place : power = exponent + 1 - count) :
    Spells text negative (Display.denoted digits exponent) := by
  have read := read?_eq sign (fun digit member => run digit (List.mem_of_mem_take member)) stops point
    scale (by rwa [List.take_append_drop])
  rw [List.take_append_drop] at read
  refine ⟨_, read, rfl, fun digit member => ?_, ?_⟩
  · exact digitValue_lt run digit member
  · unfold value Display.denoted
    dsimp only
    rw [ofDigits_map, List.length_drop]
    congr 2
    omega

end Numeral

namespace Display

open Numeral

variable {digits : List Char} {exponent : Int}

theorem layout_head (run : ∀ digit ∈ digits, digit.isDigit) (some : digits ≠ []) (exponent : Int) :
    ∃ first rest, layout digits exponent = first :: rest ∧ (first.isDigit ∨ first = '.') := by
  obtain ⟨first, others, rfl⟩ := List.exists_cons_of_ne_nil some
  have isDigit := run first List.mem_cons_self
  unfold layout
  dsimp only
  split
  · exact ⟨first, _, by rw [List.take_succ_cons]; rfl, .inl isDigit⟩
  split
  · exact ⟨'.', _, rfl, .inr rfl⟩
  split
  · exact ⟨first, _, rfl, .inl isDigit⟩
  · exact ⟨first, _, by rw [List.take_succ_cons]; rfl, .inl isDigit⟩

theorem isDigit_zeros (count : Nat) : ∀ digit ∈ List.replicate count '0', digit.isDigit := by
  intro digit member
  rw [List.eq_of_mem_replicate member]
  rfl

/-- The text of a printed number spells the number that its digits stand for, in every layout. -/
theorem layout_spells {text : List Char} {negative : Bool} (run : ∀ digit ∈ digits, digit.isDigit)
    (some : digits ≠ []) (small : exponent.natAbs < 100)
    (sign : readSign text = (negative, layout digits exponent)) :
    Spells text negative (denoted digits exponent) := by
  have after (count : Nat) : ∀ digit ∈ digits.drop count, digit.isDigit := fun digit member =>
    run digit (List.mem_of_mem_drop member)
  have size := List.length_pos_iff.mpr some
  unfold layout at sign
  dsimp only at sign
  split at sign
  · -- an exponent follows, and a point unless there is one digit
    have scale := readExponent_sign small
    have place : exponent = exponent + 1 - (1 : Nat) := by omega
    rw [List.append_assoc, List.append_assoc] at sign
    split at sign
    · rename_i single
      have none : digits.drop 1 = [] := List.drop_eq_nil_of_le single
      rw [none, List.nil_append, List.nil_append] at sign
      refine spells 1 run some size sign (by simp) ?_ scale place
      rw [none, readFraction]
      simp
    · exact spells 1 run some size sign (by simp) (readFraction_point (after 1) _ (by simp)) scale place
  split at sign
  · -- zeros stand between the point and the digits
    rename_i fixed negative
    rw [← denoted_zeros_append (exponent.natAbs - 1)]
    have every := List.forall_mem_append.mpr ⟨isDigit_zeros (exponent.natAbs - 1), run⟩
    have point := readFraction_point every [] (by simp)
    rw [List.append_nil] at point
    exact spells 0 every (by simp [some]) (Nat.zero_le _) sign (by simp) point rfl (by omega)
  split at sign
  · -- zeros fill up to the unit
    rename_i fixed positive few
    have every := List.forall_mem_append.mpr ⟨run, isDigit_zeros (exponent.toNat + 1 - digits.length)⟩
    have length : (digits ++ List.replicate (exponent.toNat + 1 - digits.length) '0').length =
        exponent.toNat + 1 := by
      rw [List.length_append, List.length_replicate]
      omega
    rw [← denoted_append_zeros digits (exponent.toNat + 1 - digits.length)]
    generalize digits ++ List.replicate (exponent.toNat + 1 - digits.length) '0' = filled at *
    have whole : readSign text = (negative, filled.take (exponent.toNat + 1) ++ []) := by
      rw [List.append_nil, List.take_of_length_le length.le, sign]
    have point : readFraction [] = (filled.drop (exponent.toNat + 1), []) := by
      rw [List.drop_of_length_le length.le]
      rfl
    exact spells _ every (List.ne_nil_of_length_pos (by omega)) length.ge whole (by simp) point rfl
      (by omega)
  · -- the point stands between the digits
    rename_i fixed positive many
    have point := readFraction_point (after (exponent.toNat + 1)) [] (by simp)
    rw [List.append_nil] at point
    exact spells _ run some (not_le.mp many).le sign (by simp) point rfl (by omega)

end Display

namespace Decimal

theorem leadingExponent_bounds {decimal : Decimal} (positive : 0 < decimal.value) :
    (10 : ℚ) ^ decimal.leadingExponent ≤ decimal.value ∧
      decimal.value < 10 ^ (decimal.leadingExponent + 1) := by
  have nonzero := coefficient_pos positive
  obtain ⟨more, length⟩ := Nat.exists_eq_succ_of_ne_zero
    (Nat.length_toDigits_pos (b := 10) (n := decimal.coefficient)).ne'
  have high := (Nat.length_toDigits_le_iff (by decide) (by omega)).mp length.le
  have low : 10 ^ more ≤ decimal.coefficient := by
    rcases more.eq_zero_or_pos with rfl | some
    · exact nonzero
    · exact not_lt.mp fun less => by
        have := (Nat.length_toDigits_le_iff (by decide) some).mpr less
        omega
  have leading : decimal.leadingExponent = more + decimal.exponent := by
    unfold leadingExponent digits
    rw [length]
    push_cast
    ring
  rw [leading, add_right_comm, zpow_add₀ (by norm_num), zpow_add₀ (by norm_num), value]
  constructor <;> gcongr <;> exact_mod_cast ‹_›

theorem printed_digits {decimal : Decimal} (positive : 0 < decimal.value) :
    (∀ digit ∈ decimal.printed.1, digit.isDigit) ∧ decimal.printed.1 ≠ [] := by
  obtain ⟨zeros, digits⟩ := Display.exists_stripTrailingZeros decimal.digits
  constructor
  · intro digit member
    refine Nat.isDigit_of_mem_toDigits (b := 10) (n := decimal.coefficient) (by decide) (by decide) ?_
    change digit ∈ decimal.digits
    rw [digits]
    exact List.mem_append_left _ member
  · intro none
    rw [← decimal.denoted_printed, none] at positive
    simp [Display.denoted] at positive

end Decimal

namespace Single

variable {value : Single} {magnitude : Nat}

theorem Rounds.pos {exact : ℚ} (rounds : Rounds exact magnitude) (positive : 0 < magnitude) : 0 < exact :=
  lt_of_lt_of_le (by positivity) (rounds.ge_of_pos positive)

theorem Rounds.leadingExponent_small {decimal : Decimal} (rounds : Rounds decimal.value magnitude)
    (positive : 0 < magnitude) (finite : magnitude < infiniteMagnitude) :
    decimal.leadingExponent.natAbs < 100 := by
  obtain ⟨low, high⟩ := decimal.leadingExponent_bounds (rounds.pos positive)
  have ten : (1 : ℚ) < 10 := by norm_num
  have first := (zpow_lt_zpow_iff_right₀ ten).mp ((rounds.ge_of_pos positive).trans_lt high)
  have second := (zpow_lt_zpow_iff_right₀ ten).mp (low.trans_lt (rounds.lt_of_finite finite))
  omega

theorem Proper.display (proper : value.Proper) :
    value.display = String.ofList ((if value.isNegative then '-' else ' ') ::
      Display.layout (Display.printedDigits value).1 (Display.printedDigits value).2) := by
  have finite := proper.finite
  have positive := proper.positive
  have number : value.isNaN = false := decide_eq_false finite.not_gt
  have bounded : value.isInfinite = false := beq_eq_false_iff_ne.mpr finite.ne
  have nonzero : value.isZero = false := beq_eq_false_iff_ne.mpr positive.ne'
  unfold Single.display
  rw [number, bounded, nonzero]
  rfl

theorem Proper.read_display (proper : value.Proper) {decimal : Decimal}
    (prints : Display.printedDigits value = decimal.printed) (rounds : Rounds decimal.value magnitude)
    (positive : 0 < magnitude) (finite : magnitude < infiniteMagnitude) :
    Single.read value.display = ofMagnitude value.isNegative magnitude := by
  obtain ⟨run, some⟩ := decimal.printed_digits (rounds.pos positive)
  have small : decimal.printed.2.natAbs < 100 := rounds.leadingExponent_small positive finite
  obtain ⟨first, rest, layout, plain⟩ := Display.layout_head run some decimal.printed.2
  have notSign : first ≠ '+' ∧ first ≠ '-' ∧ first ≠ ' ' := by
    refine ⟨?_, ?_, ?_⟩ <;> rintro rfl <;> revert plain <;> decide
  have sign : Numeral.readSign (value.display.toList.dropWhile (· == ' ')) =
      (value.isNegative, Display.layout decimal.printed.1 decimal.printed.2) := by
    rw [proper.display, prints, String.toList_ofList, layout]
    cases value.isNegative
    · simp [notSign, Numeral.readSign]
    · simp [Numeral.readSign]
  obtain ⟨numeral, read, negative, digits, valueIs⟩ := Display.layout_spells run some small sign
  rw [decimal.denoted_printed] at valueIs
  rw [read_of_read? read, Numeral.toSingle, negative,
    (Numeral.magnitude_eq_iff digits finite).mpr (valueIs ▸ rounds)]

end Single

end BasicCompiler
