import BasicCompiler.Library.Code
import BasicCompiler.Proofs.Execution.Blocks
import BasicCompiler.Proofs.Execution.DecimalSearch
import BasicCompiler.Proofs.Execution.DecimalText

/-!
How the helper that turns numbers into texts finds their digits. It rounds the exact value to more and more
digits until a rounding reads back, and cuts what it found.
-/

namespace BasicCompiler

open Process

def Rounding.field (mode : Rounding) : MemberRef :=
  let name := match mode with
    | halfEven => "HALF_EVEN"
    | ceiling => "CEILING"
    | floor => "FLOOR"
    | down => "DOWN"
  ⟨"java/math/RoundingMode", name, "Ljava/math/RoundingMode;"⟩

theorem Rounding.constant?_field (mode : Rounding) : constant? mode.field = some (.rounding mode) := by
  cases mode <;> rfl

namespace Single

variable {value other : Single}

theorem order_inj (nonzero : 0 < other.magnitude) (same : value.order = other.order) : value = other := by
  have sign : value.isNegative = other.isNegative ∧ value.magnitude = other.magnitude := by
    revert same
    unfold order
    cases value.isNegative <;> cases other.isNegative <;> simp <;> omega
  rw [← value.ofMagnitude_magnitude, ← other.ofMagnitude_magnitude, sign.1, sign.2]

theorem order_eq_zero : value.order = zero.order ↔ value.magnitude = 0 := by
  unfold order
  cases value.isNegative <;> simp [show zero.isNegative = false from rfl, show zero.magnitude = 0 from rfl]

theorem order_neg (nonzero : 0 < value.magnitude) :
    value.order < zero.order ↔ value.isNegative = true := by
  have isZero : zero.order = 0 := rfl
  rw [isZero, order]
  cases value.isNegative <;> simp [nonzero]

theorem proper_of_order (isNumber : value.isNaN = false) (notInfinity : value.order ≠ infinity.order)
    (notNegativeInfinity : value.order ≠ negativeInfinity.order) (nonzero : value.order ≠ zero.order) :
    value.Proper := by
  have within : value.magnitude ≤ infiniteMagnitude := Nat.le_of_not_lt (of_decide_eq_false isNumber)
  refine ⟨Nat.pos_of_ne_zero (mt order_eq_zero.mpr nonzero), Nat.lt_of_le_of_ne within fun infinite => ?_⟩
  unfold order at notInfinity notNegativeInfinity
  cases sign : value.isNegative with
  | false =>
      rw [sign, infinite] at notInfinity
      exact notInfinity rfl
  | true =>
      rw [sign, infinite] at notNegativeInfinity
      exact notNegativeInfinity rfl

end Single

namespace NumeralCode.FloatToText

abbrev label (stem : String) (number : Nat) : Label := Label.numbered stem number

def special (value : Single) (text : String) (number : Nat) : List Item :=
  [.insn (.access Opcode.fload 0), .insn (.pushFloat value), .insn (.op Opcode.fcmpl),
    .insn (.branch Opcode.ifne (label "other" number)), .insn (.pushText text), .insn (.op Opcode.areturn)]

def notNaN : List Item :=
  [.insn (.access Opcode.fload 0), .insn (.access Opcode.fload 0), .insn (.op Opcode.fcmpl),
    .insn (.branch Opcode.ifeq (label "not_nan" 0)), .insn (.pushText " NaN"), .insn (.op Opcode.areturn)]

def positive : List Item :=
  [.insn (.access Opcode.fload 0), .insn (.op Opcode.fconst0), .insn (.op Opcode.fcmpl),
    .insn (.branch Opcode.iflt (label "negative" 1)), .insn (.pushText " "), .insn (.access Opcode.astore 1),
    .insn (.branch Opcode.goto (label "signed" 2))]

def negative : List Insn :=
  [.pushText "-", .access Opcode.astore 1]

def opening : List Insn :=
  [.access Opcode.fload 0, PlatformMethod.absFloat.insn, .access Opcode.fstore 2, .newDup decimalClass,
    .access Opcode.fload 2, .op Opcode.f2d, PlatformMethod.decimalOfDouble.insn, .access Opcode.astore 3,
    .op Opcode.iconst1, .access Opcode.istore 5]

def rounding (source : Nat) (mode : Rounding) : List Insn :=
  [.access Opcode.aload source, .newDup contextClass, .access Opcode.iload 5,
    .field Opcode.getstatic mode.field, PlatformMethod.contextOf.insn, PlatformMethod.round.insn]

def attempt (mode : Rounding) : List Insn :=
  rounding 3 mode ++ [.access Opcode.astore 4, .access Opcode.aload 4, PlatformMethod.textOfDecimal.insn,
    PlatformMethod.parseFloat.insn, .access Opcode.fload 2, .op Opcode.fcmpl]

def attempts : List Item :=
  (attempt .halfEven).map .insn ++ .insn (.branch Opcode.ifeq (label "shortest" 11)) ::
  ((attempt .ceiling).map .insn ++ .insn (.branch Opcode.ifeq (label "shortest" 11)) ::
  ((attempt .floor).map .insn ++ .insn (.branch Opcode.ifeq (label "shortest" 11)) ::
  [.insn (.increment 5 1), .insn (.branch Opcode.goto (label "widen" 10))]))

def widening : List Insn :=
  [.op Opcode.iconst2, .access Opcode.istore 5] ++ rounding 3 .halfEven ++ [.access Opcode.astore 4]

def choice : List Item :=
  [.insn (.access Opcode.iload 5), .insn (.op Opcode.iconst1),
    .insn (.branch Opcode.ificmpne (label "truncate" 12))] ++ widening.map .insn

def cutting : List Insn :=
  [.pushInt 7, .access Opcode.istore 5] ++ rounding 4 .down ++
  [PlatformMethod.stripZeros.insn, .access Opcode.astore 4]

def measuring : List Insn :=
  [.access Opcode.aload 4, PlatformMethod.unscaled.insn, PlatformMethod.textOfInteger.insn,
    .access Opcode.astore 6, .access Opcode.aload 6, PlatformMethod.textLength.insn,
    .access Opcode.istore 8, .access Opcode.iload 8, .access Opcode.aload 4, PlatformMethod.scale.insn,
    .op Opcode.isub, .op Opcode.iconst1, .op Opcode.isub, .access Opcode.istore 7]

def number (rest : List Item) : List Item :=
  opening.map .insn ++ .label (label "widen" 10) ::
  (attempts ++ .label (label "shortest" 11) ::
  (choice ++ .label (label "truncate" 12) ::
  (cutting.map .insn ++ (measuring.map .insn ++ rest))))

def front (rest : List Item) : List Item :=
  notNaN ++ .label (label "not_nan" 0) ::
  (special .infinity " Infinity" 13 ++ .label (label "other" 13) ::
  (special .negativeInfinity "-Infinity" 14 ++ .label (label "other" 14) ::
  (special .zero " 0" 15 ++ .label (label "other" 15) ::
  (positive ++ .label (label "negative" 1) ::
  (negative.map .insn ++ .label (label "signed" 2) :: number rest)))))

variable {course : Course} {heap : Heap} {created : Nat} {rest : List Item}
  {value : Single} {sign : List Char} {precision : Nat} {locals : Nat → Option Process.Value}

/-- What the search for the digits of a number holds in its slots. -/
structure Searching (value : Single) (sign : List Char) (precision : Nat) (locals : Nat → Option Process.Value) :
    Prop where
  signHeld : locals 1 = some (.text (Utf16.encode sign))
  magnitudeHeld : locals 2 = some (.float (.ofMagnitude false value.magnitude))
  exactHeld : locals 3 = some (.decimal value.exactDecimal)
  precisionHeld : locals 5 = some (.int (word precision))

theorem Searching.decimal (searching : Searching value sign precision locals) (decimal : Option Process.Value) :
    Searching value sign precision (Function.update locals 4 decimal) :=
  { searching with }

theorem Searching.digits (searching : Searching value sign precision locals) (other : Nat) :
    Searching value sign other (Function.update locals 5 (some (.int (word other)))) :=
  { searching with precisionHeld := rfl }

open Environment Course

theorem passes_rounding {source : Nat} (near : source < 65536) {decimal : Decimal}
    (held : locals source = some (.decimal decimal)) (few : precision ≤ 9)
    (precisionHeld : locals 5 = some (.int (word precision))) (mode : Rounding) {block : List Insn}
    {stack : List Process.Value} {final : Data} :
    course.Passes (rounding source mode ++ block) ⟨stack, locals, heap, created⟩ final ↔
      course.Passes block ⟨.decimal (decimal.round precision mode) :: stack, locals, heap, created + 1⟩ final := by
  have small : precision < lengthLimit := Nat.lt_of_le_of_lt few (by decide)
  simp [rounding, held, precisionHeld, near, mode.constant?_field, PlatformMethod.call,
    PlatformMethod.construct, Data.result, word_toInt small, word_toNat small]

theorem leads_attempt (mode : Rounding) (proper : value.Proper)
    (correct : ReadsCorrectly course.environment.parse) (positive : 0 < precision) (few : precision ≤ 9)
    (searching : Searching value sign precision locals)
    (hit : (value.exactDecimal.round precision mode).toMagnitude = value.magnitude → ∀ locals' created',
      Searching value sign precision locals' →
      locals' 4 = some (.decimal (value.exactDecimal.round precision mode)) →
      course.Jumps (label "shortest" 11) ⟨[], locals', heap, created'⟩)
    (miss : (value.exactDecimal.round precision mode).toMagnitude ≠ value.magnitude → ∀ locals' created',
      Searching value sign precision locals' → course.Leads rest ⟨[], locals', heap, created'⟩) :
    course.Leads ((attempt mode).map .insn ++ .insn (.branch Opcode.ifeq (label "shortest" 11)) :: rest)
      ⟨[], locals, heap, created⟩ := by
  have leading := proper.round_leading mode positive
  have range := proper.decimalExponent_range
  obtain ⟨result, parsed, reads⟩ := proper.parse_text correct
    (by omega : (value.exactDecimal.round precision mode).leadingExponent.natAbs < 655360)
  refine leads_block (attempt mode)
    ⟨[.int (result.compare (.ofMagnitude false value.magnitude))],
      Function.update locals 4 (some (.decimal (value.exactDecimal.round precision mode))), heap,
      created + 1⟩ ?_ ?_
  · rw [attempt, passes_rounding (by decide) searching.exactHeld few searching.precisionHeld]
    simp [PlatformMethod.call, Data.result, parsed, searching.magnitudeHeld]
  refine leads_branch [] [.int (result.compare (.ofMagnitude false value.magnitude))] (by simp) rfl
    (fun same => hit (reads.mp same) _ _ (searching.decimal _) rfl)
    fun other => miss (mt reads.mpr other) _ _ (searching.decimal _)

theorem leads_attempts (proper : value.Proper) (correct : ReadsCorrectly course.environment.parse)
    (positive : 0 < precision) (few : precision ≤ 9) (searching : Searching value sign precision locals)
    (hit : ∀ decimal, value.firstRounding? precision = some decimal → ∀ locals' created',
      Searching value sign precision locals' → locals' 4 = some (.decimal decimal) →
      course.Jumps (label "shortest" 11) ⟨[], locals', heap, created'⟩)
    (miss : value.firstRounding? precision = none → ∀ locals' created',
      Searching value sign (precision + 1) locals' →
        course.Jumps (label "widen" 10) ⟨[], locals', heap, created'⟩) :
    course.Leads (attempts ++ rest) ⟨[], locals, heap, created⟩ := by
  refine leads_attempt .halfEven proper correct positive few searching ?_ ?_
  · intro reads
    exact hit _ (by simp [Single.firstRounding?, Single.tried, reads])
  intro missed locals' created' searching
  refine leads_attempt .ceiling proper correct positive few searching ?_ ?_
  · intro reads
    exact hit _ (by simp [Single.firstRounding?, Single.tried, missed, reads])
  intro missed' locals' created' searching
  refine leads_attempt .floor proper correct positive few searching ?_ ?_
  · intro reads
    exact hit _ (by simp [Single.firstRounding?, Single.tried, missed, missed', reads])
  intro missed'' locals' created' searching
  refine leads_block [.increment 5 1]
    ⟨[], Function.update locals' 5 (some (.int (word (precision + 1)))), heap, created'⟩
    (by simp [searching.precisionHeld, word_succ]) ?_
  refine leads_goto (miss ?_ _ _ (searching.digits _))
  simp [Single.firstRounding?, Single.tried, missed, missed', missed'']

/-- The search ends at the number of digits with which a rounding reads back first. -/
theorem leads_search (proper : value.Proper) (correct : ReadsCorrectly course.environment.parse) {count : Nat}
    {decimal : Decimal} (few : count ≤ 9)
    (without : ∀ fewer, 0 < fewer → fewer < count → value.firstRounding? fewer = none)
    (found : value.firstRounding? count = some decimal) (positive : 0 < precision)
    (within : precision ≤ count) (searching : Searching value sign precision locals)
    (onwards : ∀ locals' created', Searching value sign count locals' →
      locals' 4 = some (.decimal decimal) →
      course.Jumps (label "shortest" 11) ⟨[], locals', heap, created'⟩) :
    course.Leads (.label (label "widen" 10) :: (attempts ++ rest)) ⟨[], locals, heap, created⟩ := by
  rintro _ (_ | _ | ⟨rfl, atWiden⟩)
  induction left : count - precision generalizing precision locals created with
  | zero =>
      obtain rfl : precision = count := by omega
      refine leads_attempts proper correct positive few searching ?_ ?_ _ atWiden
      · intro other found'
        rw [found] at found'
        cases found'
        exact onwards
      · intro none
        rw [found] at none
        cases none
  | succ left ih =>
      have none := without precision positive (by omega)
      refine leads_attempts proper correct positive (by omega) searching ?_ ?_ _ atWiden
      · intro other found'
        rw [none] at found'
        cases found'
      · intro _ locals' created' searching'
        exact ih (Nat.succ_pos _) (by omega) searching' (by omega)

theorem leads_choice {count : Nat} {decimal : Decimal} (few : count ≤ 9)
    (searching : Searching value sign count locals) (held : locals 4 = some (.decimal decimal))
    (onwards : ∀ precision locals' created', Searching value sign precision locals' →
      locals' 4 = some (.decimal (value.chosen count decimal)) →
      course.Leads rest ⟨[], locals', heap, created'⟩) :
    course.Leads (choice ++ .label (label "truncate" 12) :: rest) ⟨[], locals, heap, created⟩ := by
  intro here stands
  have count_toInt : (word count).toInt = count := word_toInt (Nat.lt_of_le_of_lt few (by decide))
  refine leads_branch [.access Opcode.iload 5, .op Opcode.iconst1] [.int 1, .int (word count)]
    (by simp [searching.precisionHeld]) (decide?_pair rfl _ _ _) (fun other => ?_)
    (fun same => ?_) here stands
  · simp only [count_toInt, ne_eq, decide_eq_true_eq, show (1 : Int32).toInt = 1 from rfl] at other
    refine onwards count locals created searching ?_ _ stands.behind
    rw [held, Single.chosen, if_neg (by omega)]
  · simp only [count_toInt, ne_eq, decide_eq_true_eq, not_not, show (1 : Int32).toInt = 1 from rfl] at same
    have searching' := searching.digits 2
    refine leads_block widening
      ⟨[], Function.update (Function.update locals 5 (some (.int (word 2)))) 4
        (some (.decimal (value.exactDecimal.round 2 .halfEven))), heap, created + 1⟩ ?_ (leads_label ?_)
    · simp only [widening, List.cons_append, List.nil_append, passes_iconst2,
        passes_store, loaded?_istore, stored?_istore, Option.isSome_some, Nat.reduceLT,
        Process.Value.kind_int, true_and]
      refine (passes_rounding (by decide) searching'.exactHeld (by decide) searching'.precisionHeld _).mpr ?_
      simp
    · refine onwards 2 _ _ (searching'.decimal _) ?_
      rw [Single.chosen, if_pos (by omega)]
      rfl

structure Printing (sign digits : List Char) (exponent : Int) (locals : Nat → Option Process.Value) : Prop where
  signHeld : locals 1 = some (.text (Utf16.encode sign))
  digitsHeld : locals 6 = some (.text (Utf16.encode digits))
  exponentHeld : locals 7 = some (.int (signed exponent))
  countHeld : locals 8 = some (.int (word digits.length))

theorem leads_cutting {decimal : Decimal} (nonzero : 0 < decimal.coefficient)
    (searching : Searching value sign precision locals) (held : locals 4 = some (.decimal decimal))
    (onwards : ∀ locals' created', Printing sign decimal.cut.1 decimal.cut.2 locals' →
      course.Leads rest ⟨[], locals', heap, created'⟩) :
    course.Leads (cutting.map .insn ++ (measuring.map .insn ++ rest)) ⟨[], locals, heap, created⟩ := by
  rw [decimal.cut_eq nonzero] at onwards
  have held' : Function.update locals 5 (some (.int (word 7))) 4 = some (.decimal decimal) := held
  refine leads_block cutting
    ⟨[], Function.update (Function.update locals 5 (some (.int (word 7)))) 4
      (some (.decimal (decimal.round Display.significantDigits .down).stripZeros)), heap, created + 1⟩ ?_ ?_
  · simp only [cutting, List.cons_append, List.nil_append, passes_pushInt,
      passes_store, loaded?_istore, stored?_istore, Option.isSome_some, Nat.reduceLT,
      Process.Value.kind_int, true_and]
    refine (passes_rounding (by decide) held' (by decide) (searching.digits 7).precisionHeld _).mpr ?_
    simp [PlatformMethod.call, Data.result, Display.significantDigits]
  generalize (decimal.round Display.significantDigits .down).stripZeros = cut at onwards ⊢
  have digits : Nat.toDigits 10 cut.coefficient = cut.digits := rfl
  have count : (Utf16.encode cut.digits).length = cut.digits.length :=
    Utf16.length_encode fun digit member => isDigit_ascii (cut.digits_run digit member)
  have last : word cut.digits.length - signed (-cut.exponent) - 1 = signed cut.leadingExponent := by
    rw [← signed_natCast, signed_sub, show (1 : Int32) = signed 1 from rfl, signed_sub,
      Decimal.leadingExponent, Int.sub_neg, Int.add_comm cut.exponent]
  refine leads_block measuring
    ⟨[], Function.update (Function.update (Function.update (Function.update (Function.update locals 5
        (some (.int (word 7)))) 4 (some (.decimal cut))) 6 (some (.text (Utf16.encode cut.digits)))) 8
        (some (.int (word cut.digits.length)))) 7 (some (.int (signed cut.leadingExponent))),
      heap, created + 1⟩ ?_ (onwards _ _ ⟨searching.signHeld, rfl, rfl, rfl⟩)
  simp [measuring, PlatformMethod.call, Data.result, digits, count, last]

theorem leads_number (proper : value.Proper) (correct : ReadsCorrectly course.environment.parse)
    (isValue : locals 0 = some (.float value)) (isSign : locals 1 = some (.text (Utf16.encode sign)))
    (onwards : ∀ locals' created',
      Printing sign (Display.printedDigits value).1 (Display.printedDigits value).2 locals' →
      course.Leads rest ⟨[], locals', heap, created'⟩) :
    course.Leads (number rest) ⟨[], locals, heap, created⟩ := by
  intro here stands
  unfold number at stands
  obtain ⟨count, decimal, positive, few, without, found, rounds, same⟩ := proper.search
  have small : value.magnitude < 0x80000000 := Nat.lt_trans proper.finite (by decide)
  have magnitude := Single.magnitude_ofMagnitude false small
  have unsigned := Single.isNegative_ofMagnitude false small
  have exact : (Single.ofMagnitude false value.magnitude).exactDecimal = value.exactDecimal := by
    unfold Single.exactDecimal Single.significand Single.scale
    rw [magnitude]
  have nonzero : 0 < (value.chosen count decimal).coefficient :=
    Decimal.coefficient_pos (rounds.pos proper.positive)
  refine leads_block opening
    ⟨[], Function.update (Function.update (Function.update locals 2
      (some (.float (.ofMagnitude false value.magnitude)))) 3 (some (.decimal value.exactDecimal))) 5
      (some (.int 1)), heap, created + 1⟩ ?_ ?_ here stands
  · simp [opening, isValue, PlatformMethod.call, PlatformMethod.construct, Data.result, magnitude,
      unsigned, exact, proper.finite]
  refine leads_search proper correct few without found Nat.one_pos positive ⟨isSign, rfl, rfl, rfl⟩
    fun locals' created' searching held => ?_
  rw [same] at onwards
  refine leads_choice few searching held (fun _ locals' created' searching held => ?_) _ stands.behind.behind
  exact leads_cutting nonzero searching held onwards

theorem leads_special {other : Single} {text : String} {index : Nat} (isNumber : value.isNaN = false)
    (isNumber' : other.isNaN = false) (isValue : locals 0 = some (.float value))
    (same : value.order = other.order → course.Returns (.text (Utf16.encode text.toList))
      ⟨[.text (Utf16.encode text.toList)], locals, heap, created⟩)
    (onwards : value.order ≠ other.order → course.Leads rest ⟨[], locals, heap, created⟩) :
    course.Leads (special other text index ++ .label (label "other" index) :: rest)
      ⟨[], locals, heap, created⟩ := by
  intro here stands
  have compared := Single.compare_eq_zero isNumber isNumber'
  refine leads_branch [.access Opcode.fload 0, .pushFloat other, .op Opcode.fcmpl]
    [.int (value.compare other)] (by simp [isValue]) rfl ?_ ?_ here stands
  · intro differs
    exact onwards (mt compared.mpr differs) _ stands.behind
  · intro equal
    refine leads_return [.pushText text] (.text (Utf16.encode text.toList)) rfl (by simp) (same ?_)
    exact compared.mp (not_not.mp equal)

theorem leads_sign (isNumber : value.isNaN = false) (isValue : locals 0 = some (.float value))
    (nonzero : 0 < value.magnitude)
    (onwards : course.Leads rest ⟨[], Function.update locals 1
      (some (.text (Utf16.encode [if value.isNegative then '-' else ' ']))), heap, created⟩) :
    course.Leads (positive ++ Item.label (label "negative" 1) ::
      (negative.map .insn ++ Item.label (label "signed" 2) :: rest)) ⟨[], locals, heap, created⟩ := by
  intro here stands
  have below := Single.compare_neg isNumber (show Single.zero.isNaN = false from rfl)
  refine leads_branch [.access Opcode.fload 0, .op Opcode.fconst0, .op Opcode.fcmpl]
    [.int (value.compare .zero)] (by simp [isValue]) rfl ?_ ?_ here stands
  · intro less
    have isNegative := (Single.order_neg nonzero).mp (below.mp less)
    rw [isNegative] at onwards
    exact leads_block negative _ (by simp [negative]) (leads_label onwards) _ stands.behind
  · intro notLess
    have isPositive := Bool.eq_false_iff.mpr (mt (below.trans (Single.order_neg nonzero)).mpr notLess)
    rw [isPositive] at onwards
    exact leads_block [.pushText " ", .access Opcode.astore 1]
      ⟨[], Function.update locals 1 (some (.text (Utf16.encode [' ']))), heap, created⟩ (by simp)
      (leads_goto (onwards _ stands.behind.behind))

/-- What has no digits has a text of its own, and the digits of all other numbers are found. -/
theorem leads_front (correct : ReadsCorrectly course.environment.parse) (isValue : locals 0 = some (.float value))
    (without : ¬value.Proper → ∀ data, course.Returns (.text (Utf16.encode value.display.toList)) data)
    (onwards : value.Proper → ∀ locals' created',
      Printing [if value.isNegative then '-' else ' '] (Display.printedDigits value).1
        (Display.printedDigits value).2 locals' →
      course.Leads rest ⟨[], locals', heap, created'⟩) :
    course.Leads (front rest) ⟨[], locals, heap, created⟩ := by
  intro here stands
  unfold front at stands
  refine leads_branch [.access Opcode.fload 0, .access Opcode.fload 0, .op Opcode.fcmpl]
    [.int (value.compare value)] (by simp [isValue]) rfl ?_ ?_ here stands
  · intro same
    have isNumber : value.isNaN = false :=
      Bool.eq_false_iff.mpr fun isNaN => Single.compare_isNaN isNaN same
    refine leads_special isNumber rfl isValue ?_ ?_ _ stands.behind
    · intro isInfinity
      obtain rfl := Single.order_inj (by decide) isInfinity
      exact without (fun proper => absurd proper.finite (by decide)) _
    intro notInfinity
    refine leads_special isNumber rfl isValue ?_ ?_
    · intro isInfinity
      obtain rfl := Single.order_inj (by decide) isInfinity
      exact without (fun proper => absurd proper.finite (by decide)) _
    intro notNegativeInfinity
    refine leads_special isNumber rfl isValue ?_ ?_
    · intro isZero
      have zero := Single.order_eq_zero.mp isZero
      rw [Single.display_zero zero] at without
      exact without (fun proper => proper.positive.ne' zero) _
    intro nonzero
    have proper := Single.proper_of_order isNumber notInfinity notNegativeInfinity nonzero
    refine leads_sign isNumber isValue proper.positive ?_
    exact leads_number proper correct isValue rfl (onwards proper)
  · intro differs
    have isNaN : value.isNaN = true := by
      by_contra isNumber
      rw [Bool.not_eq_true] at isNumber
      exact differs ((Single.compare_eq_zero isNumber isNumber).mpr rfl)
    have text : value.display = " NaN" := by
      unfold Single.display
      rw [isNaN]
      rfl
    rw [text] at without
    refine leads_return [.pushText " NaN"] _ rfl (by simp) (without ?_ _)
    exact fun proper => Nat.lt_asymm proper.finite (of_decide_eq_true isNaN)

end NumeralCode.FloatToText

end BasicCompiler
