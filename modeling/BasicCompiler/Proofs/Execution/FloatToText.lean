import BasicCompiler.Proofs.Compile.SmallPrograms
import BasicCompiler.Proofs.Execution.CompiledClass
import BasicCompiler.Proofs.Execution.FloatDigits
import BasicCompiler.Proofs.Execution.StringFill

/-!
How the helper that turns numbers into texts runs. It puts the digits it finds into one of four forms, and
what it returns is the text of the number.
-/

namespace BasicCompiler

open Process

namespace Utf16

theorem encode_ascii {text : List Char} (ascii : ∀ character ∈ text, character.toNat < 128) :
    encode text = text.map fun character => UInt16.ofNat character.toNat := by
  induction text with
  | nil => rfl
  | cons first rest ih =>
      obtain ⟨small, later⟩ := List.forall_mem_cons.mp ascii
      have one : units first = [UInt16.ofNat first.toNat] := if_pos (by omega)
      rw [encode, List.flatMap_cons, one, ← encode, ih later]
      rfl

theorem encode_take {text : List Char} (ascii : ∀ character ∈ text, character.toNat < 128) (count : Nat) :
    (encode text).take count = encode (text.take count) := by
  rw [encode_ascii ascii, encode_ascii fun character member => ascii character (List.mem_of_mem_take member),
    List.map_take]

theorem encode_drop {text : List Char} (ascii : ∀ character ∈ text, character.toNat < 128) (count : Nat) :
    (encode text).drop count = encode (text.drop count) := by
  rw [encode_ascii ascii, encode_ascii fun character member => ascii character (List.mem_of_mem_drop member),
    List.map_drop]

end Utf16

/-- What is known of the digits of a number and the power of ten of the first one. -/
structure Display.Presentable (digits : List Char) (exponent : Int) : Prop where
  run : ∀ digit ∈ digits, digit.isDigit
  some : 0 < digits.length
  few : digits.length ≤ significantDigits
  small : exponent.natAbs < 100

theorem Display.length_stripTrailingZeros (digits : List Char) :
    (stripTrailingZeros digits).length ≤ digits.length := by
  have shorter := (List.dropWhile_suffix (l := digits.reverse) (· == '0')).length_le
  rwa [List.length_reverse, ← List.length_reverse] at shorter

theorem Single.Proper.presentable {value : Single} (proper : value.Proper) :
    Display.Presentable (Display.printedDigits value).1 (Display.printedDigits value).2 := by
  obtain ⟨count, decimal, -, -, -, -, rounds, same⟩ := proper.search
  have cut := Decimal.cut_eq (Decimal.coefficient_pos (rounds.pos proper.positive))
  rw [same]
  refine ⟨?_, ?_, ?_, rounds.leadingExponent_small proper.positive proper.finite⟩
  · rw [cut]
    exact Decimal.digits_run _
  · rw [cut]
    exact List.length_pos_of_ne_nil (Decimal.digits_ne_nil _)
  · exact (Display.length_stripTrailingZeros _).trans (List.length_take_le _ _)

namespace NumeralCode.FloatToText

open TextCode

/-- Joins the text on the stack with zeros, of which an integer on the stack tells the number. -/
def zeros : List Item :=
  [.insn (.op Opcode.i2f), .insn (.pushText "0"), .insn (.call .stringFill),
    .insn PlatformMethod.concat.insn]

def outside : List Item :=
  [.insn (.access Opcode.iload 7), .insn (.pushInt (-7)),
    .insn (.branch Opcode.ificmplt (label "exponential" 3)), .insn (.access Opcode.iload 7),
    .insn (.pushInt 6), .insn (.branch Opcode.ificmpgt (label "exponential" 3))]

def placing : List Item :=
  [.insn (.access Opcode.iload 8), .insn (.access Opcode.iload 7), .insn (.op Opcode.iconst1),
    .insn (.op Opcode.iadd), .insn (.branch Opcode.ificmpgt (label "fraction" 5))]

def whole : List Item :=
  [.insn (.access Opcode.aload 1), .insn (.access Opcode.aload 6), .insn PlatformMethod.concat.insn,
    .insn (.access Opcode.iload 7), .insn (.op Opcode.iconst1), .insn (.op Opcode.iadd),
    .insn (.access Opcode.iload 8), .insn (.op Opcode.isub)] ++ zeros ++ [.insn (.op Opcode.areturn)]

def fraction : List Item :=
  [.insn (.access Opcode.aload 1), .insn (.access Opcode.aload 6), .insn (.op Opcode.iconst0),
    .insn (.access Opcode.iload 7), .insn (.op Opcode.iconst1), .insn (.op Opcode.iadd),
    .insn PlatformMethod.substring.insn, .insn PlatformMethod.concat.insn, .insn (.pushText "."),
    .insn PlatformMethod.concat.insn, .insn (.access Opcode.aload 6), .insn (.access Opcode.iload 7),
    .insn (.op Opcode.iconst1), .insn (.op Opcode.iadd), .insn PlatformMethod.substringFrom.insn,
    .insn PlatformMethod.concat.insn, .insn (.op Opcode.areturn)]

def small : List Item :=
  [.insn (.access Opcode.aload 1), .insn (.pushText "."), .insn PlatformMethod.concat.insn,
    .insn (.access Opcode.iload 7), .insn (.op Opcode.ineg), .insn (.op Opcode.iconst1),
    .insn (.op Opcode.isub)] ++ zeros ++
  [.insn (.access Opcode.aload 6), .insn PlatformMethod.concat.insn, .insn (.op Opcode.areturn)]

def leading : List Item :=
  [.insn (.access Opcode.aload 1), .insn (.access Opcode.aload 6), .insn (.op Opcode.iconst0),
    .insn (.op Opcode.iconst1), .insn PlatformMethod.substring.insn, .insn PlatformMethod.concat.insn,
    .insn (.access Opcode.iload 8), .insn (.op Opcode.iconst1),
    .insn (.branch Opcode.ificmple (label "whole_mantissa" 6)), .insn (.pushText "."),
    .insn PlatformMethod.concat.insn, .insn (.access Opcode.aload 6), .insn (.op Opcode.iconst1),
    .insn PlatformMethod.substringFrom.insn, .insn PlatformMethod.concat.insn]

def mark : List Item :=
  [.insn (.pushText "E"), .insn PlatformMethod.concat.insn, .insn (.access Opcode.iload 7),
    .insn (.branch Opcode.iflt (label "negative_exponent" 7)), .insn (.pushText "+"),
    .insn PlatformMethod.concat.insn, .insn (.branch Opcode.goto (label "exponent_digits" 8)),
    .label (label "negative_exponent" 7), .insn (.pushText "-"), .insn PlatformMethod.concat.insn]

def exponentDigits : List Item :=
  [.insn (.access Opcode.iload 7), .insn PlatformMethod.absInt.insn, .insn (.access Opcode.istore 7),
    .insn (.access Opcode.iload 7), .insn (.pushInt 10),
    .insn (.branch Opcode.ificmpge (label "two_digits" 9)), .insn (.pushText "0"),
    .insn PlatformMethod.concat.insn]

def ending : List Item :=
  [.insn (.access Opcode.iload 7), .insn PlatformMethod.textOfInt.insn, .insn PlatformMethod.concat.insn,
    .insn (.op Opcode.areturn)]

def layout : List Item :=
  outside ++ [.insn (.access Opcode.iload 7), .insn (.branch Opcode.iflt (label "small" 4))] ++ placing ++
  whole ++ .label (label "fraction" 5) :: (fraction ++ .label (label "small" 4) ::
  (small ++ .label (label "exponential" 3) :: (leading ++ .label (label "whole_mantissa" 6) ::
  (mark ++ .label (label "exponent_digits" 8) :: (exponentDigits ++ .label (label "two_digits" 9) ::
  ending)))))

theorem draft_items : Helper.floatToText.draft.items.toList = front layout := by
  decide +kernel

variable {course : Course} {heap : Heap} {created : Nat} {rest : List Item}
  {sign digits text : List Char} {exponent : Int} {locals : Nat → Option Process.Value}

open Environment Course

section

variable {block : List Insn} {stack : List Process.Value} {final : Data}

theorem passes_concat {first second : List Char} (short : first.length + second.length < 1000) :
    course.Passes (PlatformMethod.concat.insn :: block)
        ⟨.text (Utf16.encode second) :: .text (Utf16.encode first) :: stack, locals, heap, created⟩ final ↔
      course.Passes block ⟨.text (Utf16.encode (first ++ second)) :: stack, locals, heap, created⟩ final := by
  have fits : (Utf16.encode first ++ Utf16.encode second).length < lengthLimit := by
    have bound := Utf16.length_encode_le (first ++ second)
    have joined : (first ++ second).length = first.length + second.length := List.length_append
    rw [Utf16.encode_append] at bound
    rw [lengthLimit]
    omega
  simp [PlatformMethod.call, Data.result, fits, Utf16.encode_append, -List.length_append]

theorem passes_take {count : Nat} (run : ∀ digit ∈ digits, digit.isDigit) (within : count ≤ digits.length)
    {stop : Int32} (isStop : stop.toInt = count) :
    course.Passes (PlatformMethod.substring.insn :: block)
        ⟨.int stop :: .int 0 :: .text (Utf16.encode digits) :: stack, locals, heap, created⟩ final ↔
      course.Passes block ⟨.text (Utf16.encode (digits.take count)) :: stack, locals, heap, created⟩ final := by
  have ascii := fun digit member => isDigit_ascii (run digit member)
  have inside : (0 : Int) ≤ 0 ∧ (0 : Int) ≤ count ∧ (count : Int) ≤ (Utf16.encode digits).length := by
    rw [Utf16.length_encode ascii]
    omega
  have taken : PlatformMethod.part (Utf16.encode digits) 0 count =
      some (Utf16.encode (digits.take count)) := by
    rw [PlatformMethod.part, if_pos inside]
    exact congrArg some (Utf16.encode_take ascii count)
  simp [PlatformMethod.call, Data.result, isStop, taken]

theorem passes_drop {count : Nat} (run : ∀ digit ∈ digits, digit.isDigit) (within : count ≤ digits.length)
    {start : Int32} (isStart : start.toInt = count) :
    course.Passes (PlatformMethod.substringFrom.insn :: block)
        ⟨.int start :: .text (Utf16.encode digits) :: stack, locals, heap, created⟩ final ↔
      course.Passes block ⟨.text (Utf16.encode (digits.drop count)) :: stack, locals, heap, created⟩ final := by
  have ascii := fun digit member => isDigit_ascii (run digit member)
  have length := Utf16.length_encode ascii
  have dropped : PlatformMethod.part (Utf16.encode digits) count (Utf16.encode digits).length =
      some (Utf16.encode (digits.drop count)) := by
    rw [PlatformMethod.part, if_pos (by omega), Int.toNat_natCast, Int.toNat_natCast,
      ← Utf16.encode_drop ascii, List.take_of_length_le (Nat.le_of_eq List.length_drop)]
  simp [PlatformMethod.call, Data.result, isStart, dropped]

end

theorem foreign_stringFill (owner : String) :
    PlatformMethod.find? Opcode.invokestatic (Insn.helperRef owner .stringFill) = none := by
  refine List.find?_eq_none.mpr fun method _ same => ?_
  have name : method.reference.2.name = "stringFill" :=
    congrArg (fun reference => reference.2.name) (of_decide_eq_true same)
  revert name
  cases method <;> decide

theorem encode_zeros (count : Nat) :
    Utf16.encode (List.replicate count '0') = List.replicate count (UInt16.ofNat '0'.toNat) := by
  rw [Utf16.encode_ascii, List.map_replicate]
  intro character member
  rw [List.eq_of_mem_replicate member]
  decide

theorem leads_zeros (fills : course.environment.Holds .stringFill) {count : Nat} (few : count < 256)
    (short : text.length < 500)
    (onwards : ∀ heap' created', course.Leads rest
      ⟨[.text (Utf16.encode (text ++ List.replicate count '0'))], locals, heap', created'⟩) :
    course.Leads (zeros ++ rest)
      ⟨[.int (word count), .text (Utf16.encode text)], locals, heap, created⟩ := by
  obtain ⟨unit, target', found, filling⟩ := fills
  have count_toInt : (word count).toInt = count := word_toInt (Nat.lt_trans few (by decide))
  refine leads_call [.op Opcode.i2f, .pushText "0"]
    [.float (Single.ofInt count), .text [UInt16.ofNat '0'.toNat]] [.text (Utf16.encode text)]
    (foreign_stringFill _) found rfl (by simp [count_toInt]; rfl) fun next later => ?_
  refine StringFill.runs_entry few (by decide) filling fun heap' created' => ?_
  rw [← encode_zeros]
  refine leads_block [PlatformMethod.concat.insn] _
    ((passes_concat ?_).mpr (passes_nil.mpr rfl)) (onwards heap' created') next later
  rw [List.length_replicate]
  omega

/-- What is held of a number when its digits are put into a text. -/
structure Presenting (sign digits : List Char) (exponent : Int) (locals : Nat → Option Process.Value) : Prop
    extends Printing sign digits exponent locals, Display.Presentable digits exponent where
  signShort : sign.length ≤ 1

namespace Presenting

variable (presenting : Presenting sign digits exponent locals)

include presenting

theorem power_toInt : (signed exponent).toInt = exponent := by
  have small := presenting.small
  exact signed_toInt (by omega) (by omega)

theorem few_digits : digits.length ≤ 7 := presenting.few

theorem count_toInt : (word digits.length).toInt = digits.length :=
  word_toInt (Nat.lt_of_le_of_lt presenting.few_digits (by decide))

end Presenting

theorem Presenting.next_toInt {power : Nat} (presenting : Presenting sign digits power locals) :
    (signed power + 1).toInt = (power + 1 : Nat) := by
  have small := presenting.small
  rw [signed_natCast, word_succ, word_toInt]
  rw [lengthLimit]
  omega

def Gives (course : Course) (text : List Char) : Prop :=
  ∀ data, course.Returns (.text (Utf16.encode text)) data

variable {power : Nat}

theorem leads_whole (fills : course.environment.Holds .stringFill) (presenting : Presenting sign digits power locals)
    (within : digits.length ≤ power + 1)
    (done : Gives course (sign ++ digits ++ List.replicate (power + 1 - digits.length) '0')) :
    course.Leads (whole ++ rest) ⟨[], locals, heap, created⟩ := by
  have short := presenting.signShort
  have few := presenting.few_digits
  have small := presenting.small
  have zeros : signed power + 1 - word digits.length = word (power + 1 - digits.length) := by
    rw [signed_natCast, word_succ, word_sub within]
  refine leads_block [.access Opcode.aload 1, .access Opcode.aload 6, PlatformMethod.concat.insn,
      .access Opcode.iload 7, .op Opcode.iconst1, .op Opcode.iadd, .access Opcode.iload 8, .op Opcode.isub]
    ⟨[.int (word (power + 1 - digits.length)), .text (Utf16.encode (sign ++ digits))], locals, heap, created⟩
    ?_ ?_
  · simp (disch := grind) [presenting.signHeld, presenting.digitsHeld, presenting.exponentHeld,
      presenting.countHeld, -passes_platform, passes_concat, zeros]
  refine leads_zeros fills ?_ ?_ fun heap' created' => ?_
  · omega
  · rw [List.length_append]
    omega
  · exact leads_return [] _ rfl (by simp) (done _)

theorem leads_fraction (presenting : Presenting sign digits power locals) (beyond : power + 1 < digits.length)
    (done : Gives course (sign ++ digits.take (power + 1) ++ ['.'] ++ digits.drop (power + 1))) :
    course.Leads (fraction ++ rest) ⟨[], locals, heap, created⟩ := by
  have short := presenting.signShort
  have few := presenting.few_digits
  have whole := presenting.next_toInt
  refine leads_return [.access Opcode.aload 1, .access Opcode.aload 6, .op Opcode.iconst0,
      .access Opcode.iload 7, .op Opcode.iconst1, .op Opcode.iadd, PlatformMethod.substring.insn,
      PlatformMethod.concat.insn, .pushText ".", PlatformMethod.concat.insn, .access Opcode.aload 6,
      .access Opcode.iload 7, .op Opcode.iconst1, .op Opcode.iadd, PlatformMethod.substringFrom.insn,
      PlatformMethod.concat.insn] _ rfl ?_ (done _)
  simp (disch := grind) [presenting.signHeld, presenting.digitsHeld, presenting.exponentHeld,
      -passes_platform, passes_concat, passes_take presenting.run beyond.le whole,
      passes_drop presenting.run beyond.le whole]

theorem leads_small (fills : course.environment.Holds .stringFill)
    (presenting : Presenting sign digits (-(power + 1)) locals)
    (done : Gives course (sign ++ ['.'] ++ List.replicate power '0' ++ digits)) :
    course.Leads (small ++ rest) ⟨[], locals, heap, created⟩ := by
  have short := presenting.signShort
  have few := presenting.few_digits
  have small := presenting.small
  have zeros : -signed (-(power + 1)) - 1 = word power := by
    rw [signed_neg, Int.neg_neg, ← signed_natCast, show (1 : Int32) = signed 1 from rfl, signed_sub,
      Int.add_sub_cancel]
  refine leads_block [.access Opcode.aload 1, .pushText ".", PlatformMethod.concat.insn,
      .access Opcode.iload 7, .op Opcode.ineg, .op Opcode.iconst1, .op Opcode.isub]
    ⟨[.int (word power), .text (Utf16.encode (sign ++ ['.']))], locals, heap, created⟩ ?_ ?_
  · simp (disch := grind) [presenting.signHeld, presenting.exponentHeld, -passes_platform, passes_concat,
      zeros, -neg_add_rev]
  refine leads_zeros fills ?_ ?_ fun heap' created' => ?_
  · omega
  · rw [List.length_append, List.length_singleton]
    omega
  · refine leads_return [.access Opcode.aload 6, PlatformMethod.concat.insn] _ rfl ?_ (done _)
    simp (disch := grind) [presenting.digitsHeld, -passes_platform, passes_concat]

theorem leads_leading (presenting : Presenting sign digits exponent locals)
    (onwards : course.Leads rest ⟨[.text (Utf16.encode (sign ++ (digits.take 1 ++
      (if digits.length ≤ 1 then [] else ['.']) ++ digits.drop 1)))], locals, heap, created⟩) :
    course.Leads (leading ++ .label (label "whole_mantissa" 6) :: rest) ⟨[], locals, heap, created⟩ := by
  intro here stands
  have short := presenting.signShort
  have few := presenting.few_digits
  have one : (1 : Int32).toInt = (1 : Nat) := rfl
  have count := presenting.count_toInt
  refine leads_branch [.access Opcode.aload 1, .access Opcode.aload 6, .op Opcode.iconst0,
      .op Opcode.iconst1, PlatformMethod.substring.insn, PlatformMethod.concat.insn,
      .access Opcode.iload 8, .op Opcode.iconst1]
    [.int 1, .int (word digits.length), .text (Utf16.encode (sign ++ digits.take 1))] ?_
    (decide?_pair rfl _ _ _) ?_ ?_ here stands
  · simp (disch := grind) [presenting.signHeld, presenting.digitsHeld, presenting.countHeld,
      -passes_platform, passes_concat, passes_take presenting.run presenting.some one]
  · intro single
    simp only [count, one, decide_eq_true_eq, Int.ofNat_le] at single
    rw [if_pos single, List.drop_eq_nil_of_le single, List.append_nil, List.append_nil] at onwards
    exact onwards _ stands.behind
  · intro several
    simp only [count, one, decide_eq_true_eq, Int.ofNat_le] at several
    rw [if_neg several] at onwards
    refine leads_block [.pushText ".", PlatformMethod.concat.insn, .access Opcode.aload 6,
        .op Opcode.iconst1, PlatformMethod.substringFrom.insn, PlatformMethod.concat.insn] _ ?_
      (leads_label onwards)
    simp (disch := grind) [presenting.digitsHeld, -passes_platform, passes_concat,
      passes_drop presenting.run presenting.some one]

theorem leads_mark (held : locals 7 = some (.int (signed exponent))) (small : exponent.natAbs < 100)
    (short : text.length < 500)
    (onwards : course.Leads rest
      ⟨[.text (Utf16.encode (text ++ ['E', if exponent < 0 then '-' else '+']))], locals, heap, created⟩) :
    course.Leads (mark ++ .label (label "exponent_digits" 8) :: rest)
      ⟨[.text (Utf16.encode text)], locals, heap, created⟩ := by
  intro here stands
  have power : (signed exponent).toInt = exponent := signed_toInt (by omega) (by omega)
  have atNegative := (show course.environment.StandsAt _ _ here (([
    .insn (.pushText "E"), .insn PlatformMethod.concat.insn, .insn (.access Opcode.iload 7),
    .insn (.branch Opcode.iflt (label "negative_exponent" 7)), .insn (.pushText "+"),
    .insn PlatformMethod.concat.insn,
    .insn (.branch Opcode.goto (label "exponent_digits" 8))] : List Item) ++
      .label (label "negative_exponent" 7) :: _) from stands).behind
  refine leads_branch [.pushText "E", PlatformMethod.concat.insn, .access Opcode.iload 7]
    [.int (signed exponent), .text (Utf16.encode (text ++ ['E']))] ?_ rfl ?_ ?_ here stands
  · simp (disch := grind) [held, -passes_platform, passes_concat]
  · intro negative
    rw [power] at negative
    rw [if_pos negative] at onwards
    refine leads_block [.pushText "-", PlatformMethod.concat.insn] _ ?_ (leads_label onwards) _
      atNegative
    simp (disch := grind) [-passes_platform, passes_concat]
  · intro positive
    rw [power] at positive
    rw [if_neg positive] at onwards
    refine leads_block [.pushText "+", PlatformMethod.concat.insn]
      ⟨[.text (Utf16.encode (text ++ ['E', '+']))], locals, heap, created⟩ ?_
      (leads_goto (onwards _ stands.behind))
    simp (disch := grind) [-passes_platform, passes_concat]

theorem leads_ending {number : Nat} (held : locals 7 = some (.int (word number))) (small : number < 100)
    (short : text.length < 600)
    (done : Gives course (text ++ Nat.toDigits 10 number)) :
    course.Leads ending ⟨[.text (Utf16.encode text)], locals, heap, created⟩ := by
  have size : (word number).toInt = number := word_toInt (by rw [lengthLimit]; omega)
  have digits : PlatformMethod.digitsOfInt number = Nat.toDigits 10 number := by
    rw [PlatformMethod.digitsOfInt, if_neg (by omega), Int.natAbs_natCast, List.nil_append]
  have length : (Nat.toDigits 10 number).length ≤ 2 :=
    (Nat.length_toDigits_le_iff (by decide) (by decide)).mpr small
  refine leads_block [.access Opcode.iload 7, PlatformMethod.textOfInt.insn]
    ⟨[.text (Utf16.encode (Nat.toDigits 10 number)), .text (Utf16.encode text)], locals, heap, created⟩ ?_ ?_
  · simp [held, PlatformMethod.call, Data.result, size, digits]
  · exact leads_return [PlatformMethod.concat.insn] _ rfl
      ((passes_concat (by omega)).mpr (passes_nil.mpr rfl)) (done _)

theorem leads_exponent (held : locals 7 = some (.int (signed exponent))) (small : exponent.natAbs < 100)
    (short : text.length < 500)
    (done : Gives course (text ++ Display.exponentDigits exponent.natAbs)) :
    course.Leads (exponentDigits ++ .label (label "two_digits" 9) :: ending)
      ⟨[.text (Utf16.encode text)], locals, heap, created⟩ := by
  intro here stands
  have power : (signed exponent).toInt = exponent := signed_toInt (by omega) (by omega)
  have size : (word exponent.natAbs).toInt = exponent.natAbs := word_toInt (by rw [lengthLimit]; omega)
  have absolute : (if exponent < 0 then -signed exponent else signed exponent) = word exponent.natAbs := by
    split
    · rw [signed_neg, ← signed_natCast, Int.ofNat_natAbs_of_nonpos (by omega)]
    · rw [← signed_natCast, Int.natAbs_of_nonneg (by omega)]
  refine leads_block [.access Opcode.iload 7, PlatformMethod.absInt.insn, .access Opcode.istore 7]
    ⟨[.text (Utf16.encode text)], Function.update locals 7 (some (.int (word exponent.natAbs))), heap,
      created⟩ ?_ ?_ here stands
  · simp [held, PlatformMethod.call, Data.result, power, absolute]
  refine leads_branch [.access Opcode.iload 7, .pushInt 10]
    [.int 10, .int (word exponent.natAbs), .text (Utf16.encode text)] (by simp)
    (decide?_pair rfl _ _ _) ?_ ?_
  · intro large
    simp only [size, show (10 : Int32).toInt = (10 : Nat) from rfl, decide_eq_true_eq, Int.ofNat_le] at large
    rw [Display.exponentDigits, if_neg (by omega)] at done
    exact leads_ending rfl small (by omega) done _ stands.behind
  · intro little
    simp only [size, show (10 : Int32).toInt = (10 : Nat) from rfl, decide_eq_true_eq, Int.ofNat_le] at little
    rw [Display.exponentDigits, if_pos (by omega)] at done
    refine leads_block [.pushText "0", PlatformMethod.concat.insn]
      ⟨[.text (Utf16.encode (text ++ ['0']))], Function.update locals 7 (some (.int (word exponent.natAbs))),
        heap, created⟩ ?_ (leads_label ?_)
    · simp (disch := grind) [-passes_platform, passes_concat]
    · refine leads_ending rfl small (by rw [List.length_append, List.length_singleton]; omega) ?_
      rwa [List.append_assoc]

theorem leads_exponential (presenting : Presenting sign digits exponent locals)
    (done : Gives course (sign ++ (digits.take 1 ++
      (if digits.length ≤ 1 then [] else ['.']) ++ digits.drop 1 ++
      'E' :: (if exponent < 0 then '-' else '+') :: Display.exponentDigits exponent.natAbs))) :
    course.Leads (leading ++ .label (label "whole_mantissa" 6) ::
      (mark ++ .label (label "exponent_digits" 8) :: (exponentDigits ++ .label (label "two_digits" 9) ::
        ending))) ⟨[], locals, heap, created⟩ := by
  have few := presenting.few_digits
  have short := presenting.signShort
  refine leads_leading presenting ?_
  refine leads_mark presenting.exponentHeld presenting.small ?_ ?_
  · grind
  refine leads_exponent presenting.exponentHeld presenting.small ?_ ?_
  · grind
  · simpa [List.append_assoc] using done

theorem leads_outside (presenting : Presenting sign digits exponent locals)
    (exponential : exponent < Display.fixedMinimum ∨ Display.fixedMaximum < exponent →
      course.Jumps (label "exponential" 3) ⟨[], locals, heap, created⟩)
    (onwards : ¬(exponent < Display.fixedMinimum ∨ Display.fixedMaximum < exponent) →
      course.Leads rest ⟨[], locals, heap, created⟩) :
    course.Leads (outside ++ rest) ⟨[], locals, heap, created⟩ := by
  have power := presenting.power_toInt
  refine leads_branch [.access Opcode.iload 7, .pushInt (-7)] [.int (-7), .int (signed exponent)]
    (by simp [presenting.exponentHeld]) (decide?_pair rfl _ _ _) ?_ ?_
  · intro below
    simp only [power, decide_eq_true_eq, show (-7 : Int32).toInt = -7 from rfl] at below
    exact exponential (.inl below)
  intro notBelow
  simp only [power, decide_eq_true_eq, show (-7 : Int32).toInt = -7 from rfl] at notBelow
  refine leads_branch [.access Opcode.iload 7, .pushInt 6] [.int 6, .int (signed exponent)]
    (by simp [presenting.exponentHeld]) (decide?_pair rfl _ _ _) ?_ ?_
  · intro above
    simp only [power, decide_eq_true_eq, show (6 : Int32).toInt = 6 from rfl] at above
    exact exponential (.inr above)
  · intro notAbove
    simp only [power, decide_eq_true_eq, show (6 : Int32).toInt = 6 from rfl] at notAbove
    exact onwards (not_or.mpr ⟨notBelow, notAbove⟩)

theorem leads_placing (fills : course.environment.Holds .stringFill)
    (presenting : Presenting sign digits power locals)
    (done : Gives course (sign ++ if digits.length ≤ power + 1 then
      digits ++ List.replicate (power + 1 - digits.length) '0'
      else digits.take (power + 1) ++ '.' :: digits.drop (power + 1))) :
    course.Leads (placing ++ whole ++ .label (label "fraction" 5) :: (fraction ++ rest))
      ⟨[], locals, heap, created⟩ := by
  intro here stands
  have count := presenting.count_toInt
  have wide := presenting.next_toInt
  refine leads_branch [.access Opcode.iload 8, .access Opcode.iload 7, .op Opcode.iconst1, .op Opcode.iadd]
    [.int (signed power + 1), .int (word digits.length)]
    (by simp [presenting.exponentHeld, presenting.countHeld]) (decide?_pair rfl _ _ _) ?_ ?_ here stands
  · intro beyond
    simp only [wide, count, decide_eq_true_eq, Int.ofNat_lt] at beyond
    refine leads_fraction presenting beyond ?_ _ stands.behind
    rw [if_neg (by omega)] at done
    simpa only [List.append_assoc, List.cons_append, List.nil_append] using done
  · intro within
    simp only [wide, count, decide_eq_true_eq, Int.ofNat_lt, Nat.not_lt] at within
    refine leads_whole fills presenting within ?_
    rw [if_pos within] at done
    rwa [List.append_assoc]

theorem leads_layout (fills : course.environment.Holds .stringFill)
    (presenting : Presenting sign digits exponent locals)
    (done : Gives course (sign ++ Display.layout digits exponent)) :
    course.Leads layout ⟨[], locals, heap, created⟩ := by
  intro here stands
  have power := presenting.power_toInt
  have atSmall := (show course.environment.StandsAt _ _ here (_ ++ .label (label "fraction" 5) :: _)
    from stands).behind.behind
  unfold Display.layout at done
  refine leads_outside presenting ?_ (fun inside => ?_) here stands
  · intro outside
    rw [if_pos outside] at done
    exact leads_exponential presenting done _ atSmall.behind
  rw [if_neg inside] at done
  refine leads_branch [.access Opcode.iload 7] [.int (signed exponent)]
    (by simp [presenting.exponentHeld]) rfl ?_ ?_
  · intro negative
    rw [power] at negative
    obtain ⟨zeros, rfl⟩ : ∃ zeros : Nat, exponent = -(zeros + 1) := ⟨exponent.natAbs - 1, by omega⟩
    have count : (-(zeros + 1 : Int)).natAbs - 1 = zeros := by omega
    rw [if_pos negative, count] at done
    refine leads_small fills presenting ?_ _ atSmall
    simpa only [List.append_assoc, List.cons_append, List.nil_append] using done
  · intro positive
    rw [power] at positive
    rw [if_neg positive] at done
    obtain ⟨whole, rfl⟩ := Int.eq_ofNat_of_zero_le (Int.not_lt.mp positive)
    exact leads_placing fills presenting done

variable {unit : MethodUnit}

theorem runs_entry {environment : Environment} {target : Label → Nat} (fills : environment.Holds .stringFill)
    (correct : ReadsCorrectly environment.parse)
    (stands : environment.StandsAt target unit.code 0 Helper.floatToText.draft.items.toList)
    (value : Single) :
    environment.Runs (· = .returned (.text (Utf16.encode value.display.toList)))
      (.entry unit [.float value] heap created []) := by
  rw [draft_items] at stands
  refine runs_of_leads stands (leads_front correct rfl (fun _ _ => .here rfl) ?_)
  intro proper locals' created' printing
  refine leads_layout fills ⟨printing, proper.presentable, by simp⟩ fun data => .here ?_
  rw [proper.display, String.toList_ofList]
  rfl

end NumeralCode.FloatToText

open NumeralCode.FloatToText Course

/-- The digits of a number and the power of ten of the first one are known, and are about to be put into
a text. -/
def Process.Environment.FindsDigits (environment : Environment) (found : List Char × Int) (state : State) :
    Prop :=
  ∃ target code position data callers, state = .running code position data callers ∧
    environment.StandsAt target code position layout ∧
    data.locals 6 = some (.text (Utf16.encode found.1)) ∧ data.locals 7 = some (.int (signed found.2))

/-- In a compiled class, numbers are turned into the texts they are displayed as. -/
theorem Program.floatToText_displays {options : Options} {program : Program} {file : ClassFile}
    (compiled : compile options program = .ok file) {method : MethodInfo} (isMethod : method ∈ file.methods)
    (named : method.Named file.pool (Insn.helperRef options.className .floatToText)) :
    ∃ units, List.Forall₂ (fun unit method => MethodInfo.Carries file.pool unit method) units file.methods ∧
      ∀ parse, ReadsCorrectly parse →
        let environment : Environment := ⟨options.className, file.pool, units, parse⟩
        ∃ unit, environment.method? (Insn.helperRef options.className .floatToText) = some unit ∧
          ∀ value heap created,
            let entry := State.entry unit [.float value] heap created []
            environment.Runs (· = .returned (.text (Utf16.encode value.display.toList))) entry ∧
            (value.Proper →
              environment.Runs (environment.FindsDigits (Display.printedDigits value)) entry ∧
              ∃ count decimal, 0 < count ∧ count ≤ 9 ∧
                (∀ fewer, 0 < fewer → fewer < count → value.firstRounding? fewer = none) ∧
                value.firstRounding? count = some decimal ∧
                let cut := ((value.chosen count decimal).round Display.significantDigits .down).stripZeros
                Display.printedDigits value = (cut.digits, cut.leadingExponent)) := by
  obtain ⟨lines, body, built⟩ := built_of_compile compiled
  obtain ⟨units, carried, holds⟩ := built.exists_units
  refine ⟨units, carried, ?_⟩
  intro parse correct environment
  have root : Helper.Needed [.floatToText] .floatToText := .root (List.mem_singleton_self _)
  have calls : .stringFill ∈ Item.helpers Helper.floatToText.draft.items.toList := by decide +kernel
  have holds := holds environment rfl rfl rfl method isMethod named
  have fills : environment.Holds .stringFill := holds _ (.inner root calls)
  obtain ⟨unit, target, found, stands⟩ := holds _ root
  refine ⟨unit, found, fun value heap created => ⟨runs_entry fills correct stands value, ?_⟩⟩
  intro proper
  constructor
  · rw [draft_items] at stands
    refine runs_of_leads stands (leads_front correct rfl (fun improper => absurd proper improper) ?_)
    intro _ locals' created' printing next later
    exact .here ⟨target, _, next, _, _, rfl, later, printing.digitsHeld, printing.exponentHeld⟩
  · obtain ⟨count, decimal, positive, few, without, first, rounds, same⟩ := proper.search
    refine ⟨count, decimal, positive, few, without, first, ?_⟩
    rw [same, Decimal.cut_eq (Decimal.coefficient_pos (rounds.pos proper.positive))]

namespace Program

def printing : Program := [.print [.expr (.scalar ⟨"X"⟩)]]

theorem printing_valid : printing.Valid := by
  have all : Stmt.inlinedAll printing = printing := rfl
  refine ⟨List.nodup_nil, ?_, ?_, ?_, ?_⟩
  · rw [all]
    exact List.forall_mem_singleton.mpr nofun
  · rw [all]
    exact List.forall_mem_singleton.mpr (List.forall_mem_singleton.mpr ⟨_, .scalar ⟨"X"⟩⟩)
  · intro use member
    cases member
  · exact .nil

theorem printing_needs {file : ClassFile} (compiled : compile {} printing = .ok file) :
    ∃ method ∈ file.methods, method.Named file.pool (Insn.helperRef "Main" .floatToText) := by
  obtain ⟨lines, body, built⟩ := built_of_compile compiled
  obtain ⟨library, assembled⟩ := built.assembled
  obtain ⟨through, exit, rest, unknown, contents⟩ := built.contents
  have prints : .printNumber ∈ Item.helpers body.draft.items.toList := by
    have ran := congrArg (fun outcome => Item.helpers outcome.2.draft.items.toList) contents.ran
    have within : .printNumber ∈ Item.helpers through.draft.items.toList := by
      cases built.scanned
      rw [← ran]
      decide +kernel
    simp only [contents.closes.items, Item.helpers_append, List.mem_append, within, true_or]
  have inner : .floatToText ∈ Item.helpers Helper.printNumber.draft.items.toList := by decide +kernel
  have requested := assembled.mem_requested (List.mem_cons_self ..) prints
  obtain ⟨method, isMethod, completes⟩ := assembled.helper_method
    (assembled.mem_requested (mem_drafts requested) inner)
  exact ⟨method, isMethod, completes.named⟩

/-- The least number is turned into a text of two digits. -/
theorem printing_displays_least :
    ∃ file method, compile {} printing = .ok file ∧ method ∈ file.methods ∧
      method.Named file.pool (Insn.helperRef "Main" .floatToText) ∧
      ∃ units unit, List.Forall₂ (fun unit method => MethodInfo.Carries file.pool unit method) units
          file.methods ∧
        Environment.Runs ⟨"Main", file.pool, units, fun units => (Utf16.decode? units).bind Single.parse?⟩
          (· = .returned (.text (Utf16.encode " 1.4E-45".toList))) (.entry unit [.float ⟨1⟩] .empty 0 []) := by
  obtain ⟨file, compiled⟩ := compile_succeeds_as_main false printing_valid (by decide +kernel)
  obtain ⟨method, isMethod, named⟩ := printing_needs compiled
  obtain ⟨units, carried, displays⟩ := floatToText_displays compiled isMethod named
  obtain ⟨unit, _, runs⟩ := displays _ Single.parse?_readsCorrectly
  have text : Single.display ⟨1⟩ = " 1.4E-45" := by decide +kernel
  refine ⟨file, method, compiled, isMethod, named, units, unit, carried, ?_⟩
  rw [← text]
  exact (runs ⟨1⟩ .empty 0).1

end Program

end BasicCompiler
