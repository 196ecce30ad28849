import BasicCompiler.Proofs.Execution.Platform
import BasicCompiler.Proofs.Number.CorrectReading

/-!
The texts of exact decimals. The text of a decimal is a numeral with the value of the decimal, so a platform
that reads numerals correctly tells from it what the decimal rounds to.
-/

namespace BasicCompiler

open Single Numeral

theorem WrittenNumeral.exact_value (written : WrittenNumeral) :
    written.exact.value = Nat.ofDigitChars 10 written.digits 0 *
      10 ^ ((written.scale.map WrittenScale.power).getD 0 - (written.fraction.getD []).length : ℤ) := by
  rw [Numeral.value, exact, scaled, ofDigits_map]

namespace Decimal

variable (decimal : Decimal)

theorem digits_run : ∀ digit ∈ decimal.digits, digit.isDigit := fun _ member =>
  Nat.isDigit_of_mem_toDigits (b := 10) (n := decimal.coefficient) (by decide) (by decide) member

theorem digits_ne_nil : decimal.digits ≠ [] := List.ne_nil_of_length_pos Nat.length_toDigits_pos

/-- A numeral without a sign that has the value of a decimal. -/
structure Spells (written : WrittenNumeral) : Prop where
  unsigned : written.sign = .absent
  value : written.exact.value = decimal.value
  scale : ∀ scale ∈ written.scale, scale.power = decimal.leadingExponent

end Decimal

def WrittenScale.ofInt (exponent : Int) : WrittenScale where
  mark := 'E'
  isMark := .inl rfl
  sign := if exponent < 0 then .minus else .plus
  digits := Nat.toDigits 10 exponent.natAbs
  run _ member := Nat.isDigit_of_mem_toDigits (b := 10) (n := exponent.natAbs) (by decide) (by decide) member
  nonempty := List.ne_nil_of_length_pos Nat.length_toDigits_pos

theorem WrittenScale.ofInt_power (exponent : Int) : (ofInt exponent).power = exponent := by
  unfold power ofInt
  dsimp only
  rw [ofDigits_map, Nat.ofDigitChars_ten_toDigits]
  by_cases negative : exponent < 0
  · simp only [negative, if_true, WrittenSign.negative]
    omega
  · simp only [negative, if_false, WrittenSign.negative, Bool.false_eq_true]
    omega

theorem WrittenScale.ofInt_text (exponent : Int) :
    (ofInt exponent).text =
      'E' :: (if exponent < 0 then '-' else '+') :: Nat.toDigits 10 exponent.natAbs := by
  unfold text ofInt
  split <;> rfl

namespace Decimal

variable {decimal : Decimal}

theorem Spells.of_digits {written : WrittenNumeral} (unsigned : written.sign = .absent) (zeros : Nat)
    (digits : written.digits = List.replicate zeros '0' ++ decimal.digits)
    (power : (written.scale.map WrittenScale.power).getD 0 - (written.fraction.getD []).length =
      decimal.exponent)
    (scale : ∀ scale ∈ written.scale, scale.power = decimal.leadingExponent) : decimal.Spells written := by
  refine ⟨unsigned, ?_, scale⟩
  rw [written.exact_value, power, digits, Nat.ofDigitChars_append, Nat.ofDigitChars_replicate_zero,
    Nat.mul_zero]
  unfold Decimal.value Decimal.digits
  rw [Nat.ofDigitChars_ten_toDigits]

theorem exists_scaled (decimal : Decimal) :
    ∃ written : WrittenNumeral, written.text = decimal.digits.take 1 ++
        (if decimal.digits.length = 1 then [] else '.' :: decimal.digits.drop 1) ++
        (WrittenScale.ofInt decimal.leadingExponent).text ∧ decimal.Spells written := by
  have run := decimal.digits_run
  have some := decimal.digits_ne_nil
  have length : 0 < decimal.digits.length := List.length_pos_iff.mpr some
  obtain ⟨fraction, fractionText, fractionDigits⟩ : ∃ fraction : Option (List Char),
      WrittenNumeral.fractionText fraction =
        (if decimal.digits.length = 1 then [] else '.' :: decimal.digits.drop 1) ∧
      fraction.getD [] = decimal.digits.drop 1 := by
    by_cases single : decimal.digits.length = 1
    · exact ⟨none, (if_pos single).symm, (List.drop_eq_nil_of_le single.le).symm⟩
    · exact ⟨Option.some (decimal.digits.drop 1), (if_neg single).symm, rfl⟩
  have whole : decimal.digits.take 1 ++ fraction.getD [] = decimal.digits := by
    rw [fractionDigits, List.take_append_drop]
  refine ⟨⟨.absent, decimal.digits.take 1, fraction, Option.some (.ofInt decimal.leadingExponent),
    fun digit member => run digit (List.mem_of_mem_take member), ?_, by rwa [whole]⟩, ?_,
    .of_digits rfl 0 whole ?_ ?_⟩
  · rw [fractionDigits]
    exact fun digit member => run digit (List.mem_of_mem_drop member)
  · simp [WrittenNumeral.text, WrittenSign.text, fractionText, WrittenNumeral.scaleText]
  · simp only [Option.map_some, Option.getD_some, WrittenScale.ofInt_power, fractionDigits,
      List.length_drop, leadingExponent]
    omega
  · rintro _ ⟨⟩
    exact WrittenScale.ofInt_power _

theorem text_spells (decimal : Decimal) :
    ∃ written : WrittenNumeral, written.text = decimal.text ∧ decimal.Spells written := by
  have run := decimal.digits_run
  have some := decimal.digits_ne_nil
  have length : 0 < decimal.digits.length := List.length_pos_iff.mpr some
  unfold text
  dsimp only
  split
  · split
    · -- an integer
      refine ⟨⟨.absent, decimal.digits, none, none, run, by simp, by simpa using some⟩, ?_,
        .of_digits rfl 0 ?_ ?_ (by simp)⟩
      · simp [WrittenNumeral.text, WrittenSign.text, WrittenNumeral.fractionText,
          WrittenNumeral.scaleText]
      · simp [WrittenNumeral.digits]
      · simp only [Option.map_none, Option.getD_none, List.length_nil]
        omega
    split
    · -- the point stands between the digits
      refine ⟨⟨.absent, decimal.digits.take (decimal.digits.length - (-decimal.exponent).toNat),
        Option.some (decimal.digits.drop (decimal.digits.length - (-decimal.exponent).toNat)), none,
        fun digit member => run digit (List.mem_of_mem_take member),
        fun digit member => run digit (List.mem_of_mem_drop member), ?_⟩, ?_, .of_digits rfl 0 ?_ ?_ (by simp)⟩
      · simpa using some
      · simp [WrittenNumeral.text, WrittenSign.text, WrittenNumeral.fractionText,
          WrittenNumeral.scaleText]
      · simp [WrittenNumeral.digits]
      · simp only [Option.map_none, Option.getD_none, Option.getD_some, List.length_drop]
        omega
    · -- the point stands in front of the digits
      refine ⟨⟨.absent, ['0'], Option.some (List.replicate ((-decimal.exponent).toNat -
        decimal.digits.length) '0' ++ decimal.digits), none, by simp, ?_, by simp⟩, ?_,
        .of_digits rfl ((-decimal.exponent).toNat - decimal.digits.length + 1) ?_ ?_ (by simp)⟩
      · exact List.forall_mem_append.mpr ⟨Display.isDigit_zeros _, run⟩
      · simp [WrittenNumeral.text, WrittenSign.text, WrittenNumeral.fractionText,
          WrittenNumeral.scaleText]
      · simp [WrittenNumeral.digits, List.replicate_succ]
      · simp only [Option.map_none, Option.getD_none, Option.getD_some, List.length_append,
          List.length_replicate]
        omega
  · have scaled := decimal.exists_scaled
    rwa [WrittenScale.ofInt_text] at scaled

end Decimal

def Process.ReadsCorrectly (parse : List UInt16 → Option Single) : Prop :=
  ∀ written : WrittenNumeral, written.Moderate →
    ∃ result, parse (Utf16.encode written.text) = some result ∧
      Single.Correct written.sign.negative written.exact.value result

namespace Single

theorem parse?_readsCorrectly :
    Process.ReadsCorrectly fun units => (Utf16.decode? units).bind Single.parse? := by
  intro written moderate
  refine ⟨written.numeral.toSingle, ?_, ?_⟩
  · dsimp only
    rw [Utf16.decode?_encode, Option.bind_some, parse?, written.read?_text]
  · have same : written.numeral.toSingle = written.exact.toSingle :=
      congrArg (ofMagnitude _) (WrittenNumeral.magnitude_exact moderate)
    rw [same]
    exact Numeral.toSingle_correct (written.scaled_decimal WrittenScale.power)

variable {value : Single}

/-- What is read from the text of a decimal tells whether the decimal rounds to a number. -/
theorem Proper.parse_text (proper : value.Proper) {parse : List UInt16 → Option Single}
    (correct : Process.ReadsCorrectly parse) {decimal : Decimal}
    (moderate : decimal.leadingExponent.natAbs < 655360) :
    ∃ result, parse (Utf16.encode decimal.text) = some result ∧
      ((result.compare (ofMagnitude false value.magnitude)).toInt = 0 ↔
        decimal.toMagnitude = value.magnitude) := by
  obtain ⟨written, text, spells⟩ := decimal.text_spells
  obtain ⟨result, parsed, positive, magnitude, nearest, magnitudeIs⟩ :=
    correct written (.inl fun scale isScale => by rwa [spells.scale scale isScale])
  rw [text] at parsed
  rw [spells.unsigned] at positive
  rw [spells.value, nearest_iff_rounds] at nearest
  have finite := proper.finite
  have small : value.magnitude < 0x80000000 := lt_trans finite (by decide)
  have bound : result.magnitude ≤ infiniteMagnitude := magnitudeIs ▸ min_le_right _ _
  refine ⟨result, parsed, ?_⟩
  rw [compare_eq_zero (decide_eq_false (not_lt.mpr bound))
    (decide_eq_false (by rw [magnitude_ofMagnitude _ small]; exact finite.le.not_gt)), order, order,
    positive, isNegative_ofMagnitude _ small, magnitude_ofMagnitude _ small,
    Decimal.toMagnitude_eq_iff finite]
  simp only [WrittenSign.negative, Bool.false_eq_true, if_false, Int.natCast_inj, magnitudeIs]
  constructor
  · intro same
    obtain rfl : magnitude = value.magnitude := by omega
    exact nearest
  · intro rounds
    obtain rfl := nearest.unique rounds
    exact min_eq_left finite.le

end Single

end BasicCompiler
