import BasicCompiler.Proofs.Number.Stability

/-!
The number that is read from a text. It is the number nearest to the longest numeral after the blanks, with
one reservation: the digits of an exponent count only up to the one with which it passes `65535`. This
matters for numerals of tens of thousands of digits only.
-/

namespace BasicCompiler

open Single

/-- The number that an exact value with a sign is rounded to: the nearest one, or the infinite one for a
value that is nearest to none of the finite numbers. -/
def Single.Correct (negative : Bool) (exact : ℚ) (result : Single) : Prop :=
  result.isNegative = negative ∧
    ∃ magnitude, Nearest exact magnitude ∧ result.magnitude = min magnitude infiniteMagnitude

theorem Single.Correct.isNaN {negative : Bool} {exact : ℚ} {result : Single}
    (correct : Correct negative exact result) : result.isNaN = false := by
  obtain ⟨-, magnitude, -, magnitudeIs⟩ := correct
  refine decide_eq_false ?_
  rw [magnitudeIs]
  exact not_lt.mpr (min_le_right _ _)

namespace Numeral

theorem magnitude_le (numeral : Numeral) : numeral.magnitude ≤ infiniteMagnitude := by
  unfold magnitude
  dsimp only
  split
  · exact Nat.zero_le _
  split
  · exact le_rfl
  split
  · exact Nat.zero_le _
  · unfold magnitudeOfRatio
    split
    · exact Nat.zero_le _
    · exact min_le_right _ _

theorem magnitude_rounds {numeral : Numeral} (decimal : ∀ digit ∈ numeral.digits, digit < 10) :
    ∃ magnitude, Rounds numeral.value magnitude ∧ numeral.magnitude = min magnitude infiniteMagnitude := by
  obtain ⟨magnitude, rounds⟩ :=
    Decimal.exists_rounds ⟨ofDigits numeral.digits, numeral.exponent - numeral.fractionLength⟩
  change Rounds numeral.value magnitude at rounds
  refine ⟨magnitude, rounds, ?_⟩
  rcases lt_or_ge magnitude infiniteMagnitude with finite | infinite
  · rw [min_eq_left finite.le]
    exact (magnitude_eq_iff decimal finite).mpr rounds
  · rw [min_eq_right infinite]
    refine le_antisymm numeral.magnitude_le (not_lt.mp fun finite => ?_)
    have same := ((magnitude_eq_iff decimal finite).mp rfl).unique rounds
    omega

theorem toSingle_correct {numeral : Numeral} (decimal : ∀ digit ∈ numeral.digits, digit < 10) :
    Correct numeral.negative numeral.value numeral.toSingle := by
  obtain ⟨magnitude, rounds, magnitudeIs⟩ := magnitude_rounds decimal
  have small : numeral.magnitude < 0x80000000 := lt_of_le_of_lt numeral.magnitude_le (by decide)
  refine ⟨isNegative_ofMagnitude _ small, magnitude, nearest_iff_rounds.mpr rounds, ?_⟩
  rw [toSingle, magnitude_ofMagnitude _ small, magnitudeIs]

theorem ofDigits_snoc (digits : List Nat) (digit : Nat) :
    ofDigits (digits ++ [digit]) = 10 * ofDigits digits + digit := by
  rw [ofDigits, List.foldl_append]
  rfl

theorem exponentValue_cut (digits : List Char) :
    exponentValue digits = ofDigits (digits.map digitValue) ∨
      65536 ≤ exponentValue digits ∧ 655360 ≤ ofDigits (digits.map digitValue) := by
  induction digits using List.reverseRecOn with
  | nil => exact .inl rfl
  | append_singleton digits digit ih =>
      rw [List.map_append, List.map_singleton, ofDigits_snoc]
      have step : exponentValue (digits ++ [digit]) =
          if exponentValue digits < 0x10000 then 10 * exponentValue digits + digitValue digit
          else exponentValue digits := by
        rw [exponentValue, List.foldl_append]
        rfl
      rw [step]
      split <;> omega

end Numeral

namespace WrittenNumeral

open Numeral

/-- A numeral whose exponent is read as a whole, or that has so few digits that a longer exponent makes it
infinite or zero. -/
def Moderate (written : WrittenNumeral) : Prop :=
  (∀ scale ∈ written.scale, scale.power.natAbs < 655360) ∨
    written.whole.length ≤ 65490 ∧ (written.fraction.getD []).length ≤ 65490

theorem run (written : WrittenNumeral) : ∀ digit ∈ written.digits, digit.isDigit :=
  List.forall_mem_append.mpr ⟨written.wholeRun, written.fractionRun⟩

theorem scaled_decimal (written : WrittenNumeral) (power : WrittenScale → Int) :
    ∀ digit ∈ (written.scaled power).digits, digit < 10 :=
  digitValue_lt written.run

theorem significant_length_le (written : WrittenNumeral) :
    ((written.digits.map digitValue).dropWhile (· == 0)).length ≤
      written.whole.length + (written.fraction.getD []).length := by
  have fewer := List.Sublist.length_le (List.dropWhile_sublist (· == 0) (l := written.digits.map digitValue))
  rwa [List.length_map, digits, List.length_append] at fewer

theorem magnitude_far {written : WrittenNumeral} (few : written.whole.length ≤ 65490)
    (fewAfter : (written.fraction.getD []).length ≤ 65490) {power power' : WrittenScale → Int}
    {scale : WrittenScale} (scaleIs : written.scale = some scale)
    (far : 65536 ≤ power scale ∧ 65536 ≤ power' scale ∨ power scale ≤ -65536 ∧ power' scale ≤ -65536) :
    (written.scaled power).magnitude = (written.scaled power').magnitude := by
  have bound := written.significant_length_le
  unfold Numeral.magnitude scaled
  rw [scaleIs]
  simp only [Option.map_some, Option.getD_some]
  cases significant : (written.digits.map digitValue).dropWhile (· == 0) with
  | nil => rw [if_pos List.isEmpty_nil, if_pos List.isEmpty_nil]
  | cons digit rest =>
      rw [significant, List.length_cons] at bound
      simp only [List.isEmpty_cons, Bool.false_eq_true, if_false, List.length_cons]
      rcases far with ⟨large, large'⟩ | ⟨small, small'⟩
      · rw [if_pos (by omega), if_pos (by omega)]
      · rw [if_neg (by omega), if_pos (by omega), if_neg (by omega), if_pos (by omega)]

theorem magnitude_exact {written : WrittenNumeral} (moderate : written.Moderate) :
    written.numeral.magnitude = written.exact.magnitude := by
  cases scaleIs : written.scale with
  | none =>
      unfold numeral exact scaled
      rw [scaleIs]
      rfl
  | some scale =>
      rcases exponentValue_cut scale.digits with same | ⟨cut, large⟩
      · have samePower : scale.cutPower = scale.power := by
          rw [WrittenScale.cutPower, WrittenScale.power, same]
        unfold numeral exact scaled
        rw [scaleIs, Option.map_some, Option.map_some, samePower]
      · have beyond : 655360 ≤ scale.power.natAbs := by
          unfold WrittenScale.power
          dsimp only
          split <;> omega
        rcases moderate with within | ⟨few, fewAfter⟩
        · exact absurd (within scale scaleIs) (not_lt.mpr beyond)
        · refine magnitude_far few fewAfter scaleIs ?_
          unfold WrittenScale.cutPower WrittenScale.power
          dsimp only
          split <;> omega

end WrittenNumeral

/-- Reading a text. Without a numeral after the blanks the result is NaN. Otherwise the longest numeral is
the part of the text that is read, this succeeds, and the result is the number nearest to it, where the
digits of an exponent count as far as they are read; a numeral of a moderate size is read as it is. -/
theorem Single.read_nearest_longest (text : String) :
    ((∀ written : WrittenNumeral, ¬written.text <+: unblanked text) →
      Numeral.extent? (scanned text) = none ∧ Single.read text = notANumber) ∧
    ((∃ written : WrittenNumeral, written.text <+: unblanked text) →
      ∃ written : WrittenNumeral, written.Longest (unblanked text)) ∧
    ∀ written : WrittenNumeral, written.Longest (unblanked text) →
      ∃ start stop, Numeral.extent? (scanned text) = some (start, stop) ∧
        Utf8.slice? text.toList start stop = some written.text ∧
        parse? written.text = some (Single.read text) ∧ (Single.read text).isNaN = false ∧
        Correct written.sign.negative written.numeral.value (Single.read text) ∧
        (written.Moderate → Correct written.sign.negative written.exact.value (Single.read text)) := by
  refine ⟨read_none, fun ⟨_, start⟩ => Numeral.exists_longest start, fun written longest => ?_⟩
  obtain ⟨extent, slice, parsed, read⟩ := read_longest longest
  have correct := Numeral.toSingle_correct (written.scaled_decimal WrittenScale.cutPower)
  refine ⟨_, _, extent, slice, by rw [parsed, read], ?_⟩
  rw [read]
  refine ⟨correct.isNaN, correct, fun moderate => ?_⟩
  have same : written.numeral.toSingle = written.exact.toSingle :=
    congrArg (ofMagnitude _) (WrittenNumeral.magnitude_exact moderate)
  rw [same]
  exact Numeral.toSingle_correct (written.scaled_decimal WrittenScale.power)

def WrittenNumeral.negativeHundredFifty : WrittenNumeral where
  sign := .minus
  whole := ['1']
  fraction := some ['5']
  scale := some ⟨'e', .inr rfl, .absent, ['2'], by simp, by simp⟩
  wholeRun := by simp
  fractionRun := by simp
  nonempty := by simp

theorem Single.read_negativeHundredFifty :
    WrittenNumeral.negativeHundredFifty.Longest (unblanked "  -1.5e2e+") ∧
      (Single.read "  -1.5e2e+").isNaN = false ∧ Correct true 150 (Single.read "  -1.5e2e+") := by
  have read : Numeral.read? (WrittenNumeral.negativeHundredFifty.text ++ ['e', '+']) =
      some (WrittenNumeral.negativeHundredFifty.numeral, ['e', '+']) := by decide
  have longest : WrittenNumeral.negativeHundredFifty.Longest (unblanked "  -1.5e2e+") :=
    Numeral.longest_of_read? read
  obtain ⟨start, stop, -, -, -, number, -, correct⟩ :=
    (read_nearest_longest "  -1.5e2e+").2.2 _ longest
  have moderate : WrittenNumeral.negativeHundredFifty.Moderate := .inr (by decide)
  have value : WrittenNumeral.negativeHundredFifty.exact.value = 150 := by
    have digits : Numeral.ofDigits WrittenNumeral.negativeHundredFifty.exact.digits = 15 := by decide
    have power : WrittenNumeral.negativeHundredFifty.exact.exponent -
        WrittenNumeral.negativeHundredFifty.exact.fractionLength = 1 := by decide
    rw [Numeral.value, digits, power]
    norm_num
  exact ⟨longest, number, value ▸ correct moderate⟩

theorem Numeral.ofDigits_replicate (zeros : Nat) : ofDigits (List.replicate zeros 0) = 0 := by
  induction zeros with
  | zero => rfl
  | succ zeros ih => rw [List.replicate_succ, ofDigits_cons, Nat.zero_mul, Nat.zero_add, ih]

theorem Numeral.toSingle_one {numeral : Numeral} (decimal : ∀ digit ∈ numeral.digits, digit < 10)
    (positive : numeral.negative = false) (one : numeral.value = 1) : numeral.toSingle = Single.one := by
  have valueOne : valueAt 0x3F800000 = 1 := by
    unfold valueAt gap significandAt scaleAt
    norm_num
  have rounds : Rounds numeral.value 0x3F800000 := by
    rw [one, ← valueOne]
    exact rounds_valueAt _
  rw [toSingle, positive, (magnitude_eq_iff decimal (by decide)).mpr rounds]
  rfl

theorem Single.not_correct_one {negative : Bool} {exact : ℚ} (small : exact ≤ 10 ^ (-46 : ℤ)) :
    ¬Correct negative exact Single.one := by
  rintro ⟨-, magnitude, nearest, magnitudeIs⟩
  have zero : Rounds exact 0 := rounds_zero_iff.mpr (small.trans le_boundary_zero)
  rw [(nearest_iff_rounds.mp nearest).unique zero] at magnitudeIs
  exact absurd magnitudeIs (by decide)

def WrittenNumeral.dividedPower (zeros : Nat) : WrittenNumeral where
  sign := .absent
  whole := '1' :: List.replicate zeros '0'
  fraction := none
  scale := some ⟨'e', .inr rfl, .minus, ['6', '5', '5', '3', '6', '0'], by simp, by simp⟩
  wholeRun := List.forall_mem_cons.mpr ⟨rfl, Display.isDigit_zeros zeros⟩
  fractionRun := by simp
  nonempty := by simp

namespace WrittenNumeral

theorem dividedPower_value (zeros : Nat) (power : WrittenScale → Int) :
    ((dividedPower zeros).scaled power).value =
      10 ^ ((zeros : ℤ) + ((dividedPower zeros).scale.map power).getD 0) := by
  have digits : (dividedPower zeros).digits.map Numeral.digitValue = 1 :: List.replicate zeros 0 := by
    rw [WrittenNumeral.digits, dividedPower, Option.getD_none, List.append_nil, List.map_cons,
      List.map_replicate]
    rfl
  rw [Numeral.value, scaled, digits, Numeral.ofDigits_cons, Numeral.ofDigits_replicate,
    List.length_replicate, zpow_add₀ (by norm_num), zpow_natCast]
  simp [dividedPower]

theorem dividedPower_longest (zeros : Nat) :
    (dividedPower zeros).Longest (unblanked (String.ofList (dividedPower zeros).text)) := by
  have whole : unblanked (String.ofList (dividedPower zeros).text) = (dividedPower zeros).text := by
    rw [unblanked, String.toList_ofList]
    exact List.dropWhile_cons_of_neg (by decide)
  rw [whole]
  exact ⟨List.prefix_rfl, fun other start => start.length_le⟩

end WrittenNumeral

/-- An exponent of six digits is cut. The exact value of this numeral is far below all numbers, but it is
read as one. -/
theorem Single.dividedPower_misread :
    (WrittenNumeral.dividedPower 65536).Longest
        (unblanked (String.ofList (WrittenNumeral.dividedPower 65536).text)) ∧
      Single.read (String.ofList (WrittenNumeral.dividedPower 65536).text) = Single.one ∧
      ¬Correct (WrittenNumeral.dividedPower 65536).sign.negative
        (WrittenNumeral.dividedPower 65536).exact.value Single.one := by
  have longest := WrittenNumeral.dividedPower_longest 65536
  have cut := WrittenNumeral.dividedPower_value 65536 WrittenScale.cutPower
  have exact := WrittenNumeral.dividedPower_value 65536 WrittenScale.power
  refine ⟨longest, ?_, ?_⟩
  · rw [(read_longest longest).2.2.2]
    exact Numeral.toSingle_one (WrittenNumeral.scaled_decimal _ _) rfl cut
  · refine not_correct_one (exact.le.trans (zpow_le_zpow_right₀ (by norm_num) ?_))
    decide

end BasicCompiler
