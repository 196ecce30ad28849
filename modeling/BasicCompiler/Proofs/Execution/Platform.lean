import Mathlib.Tactic.SplitIfs
import BasicCompiler.Library.Cell
import BasicCompiler.Library.Code.Numeral
import BasicCompiler.Proofs.Execution.ExactDecimal
import BasicCompiler.Text.Utf16

/-!
The values that code works on, and the methods of the platform that class initializers and the helpers for
numerals call. The methods do what the platform documents. Where one would fail, such as the choice of a
character outside of a text, it has no result.
-/

namespace BasicCompiler

namespace Single

def order (value : Single) : Int :=
  if value.isNegative then -value.magnitude else value.magnitude

def compare (first second : Single) : Int32 :=
  if first.isNaN || second.isNaN then -1
  else if first.order < second.order then -1
  else if first.order = second.order then 0
  else 1

section

variable {first second : Single}

theorem compare_isNaN (number : first.isNaN = true) : (first.compare second).toInt ≠ 0 := by
  rw [compare, number, Bool.true_or, if_pos rfl]
  decide

theorem compare_eq_zero (number : first.isNaN = false) (number' : second.isNaN = false) :
    (first.compare second).toInt = 0 ↔ first.order = second.order := by
  rw [compare, number, number', Bool.or_false, if_neg Bool.false_ne_true]
  split_ifs with less same
  · exact iff_of_false (by decide) (Int.ne_of_lt less)
  · exact iff_of_true rfl same
  · exact iff_of_false (by decide) same

theorem compare_neg (number : first.isNaN = false) (number' : second.isNaN = false) :
    (first.compare second).toInt < 0 ↔ first.order < second.order := by
  rw [compare, number, number', Bool.or_false, if_neg Bool.false_ne_true]
  split_ifs with less same
  · exact iff_of_true (by decide) less
  · exact iff_of_false (by decide) less
  · exact iff_of_false (by decide) less

end

def truncate (value : Single) : Int32 :=
  let size : Int := value.numerator / value.denominator
  if value.isNaN then 0
  else Int32.ofInt (max (-2147483648) (min 2147483647 (if value.isNegative then -size else size)))

end Single

namespace Process

open Draft NumeralCode

inductive Value where
  | int (value : Int32)
  | float (value : Single)
  /-- The double that a single is widened to. -/
  | double (value : Single)
  | text (units : List UInt16)
  /-- An array of characters, by its address. -/
  | chars (address : Nat)
  | ints (address : Nat)
  | decimal (value : Decimal)
  | integer (value : Nat)
  | rounding (mode : Rounding)
  | context (precision : Nat) (mode : Rounding)
  /-- An object whose state is not modelled. -/
  | object (className : String)
  /-- An object of a class whose constructor has not been called. -/
  | fresh (identity : Nat) (className : String)
  deriving DecidableEq, Repr

inductive Kind where
  | int
  | float
  | double
  | reference
  deriving DecidableEq, Repr

namespace Value

def kind : Value → Kind
  | int _ => .int
  | float _ => .float
  | double _ => .double
  | text _ | chars _ | ints _ | decimal _ | integer _ | rounding _ | context _ _ | object _
  | fresh _ _ => .reference

@[simp] theorem kind_int (value : Int32) : (int value).kind = .int := rfl

@[simp] theorem kind_float (value : Single) : (float value).kind = .float := rfl

@[simp] theorem kind_text (units : List UInt16) : (text units).kind = .reference := rfl

@[simp] theorem kind_chars (address : Nat) : (chars address).kind = .reference := rfl

@[simp] theorem kind_ints (address : Nat) : (ints address).kind = .reference := rfl

@[simp] theorem kind_decimal (value : Decimal) : (decimal value).kind = .reference := rfl

end Value

/-- What the methods of a class share: the arrays that were created, by their addresses, and the cells of
the class. -/
structure Heap where
  chars : List (List UInt16)
  ints : List (List Int32)
  cells : Cell → Option Value

namespace Heap

def empty : Heap := ⟨[], [], fun _ => none⟩

def chars? (heap : Heap) : Value → Option (List UInt16)
  | .chars address => heap.chars[address]?
  | _ => none

def ints? (heap : Heap) : Value → Option (List Int32)
  | .ints address => heap.ints[address]?
  | _ => none

end Heap

structure Data where
  stack : List Value
  locals : Nat → Option Value
  heap : Heap
  /-- The number of objects that were created. -/
  created : Nat

namespace Data

def push (data : Data) (value : Value) : Data :=
  { data with stack := value :: data.stack }

def result (data : Data) (rest : List Value) (value : Value) : Data :=
  { data with stack := value :: rest }

end Data

def lengthLimit : Nat := 2147483648

def word (number : Nat) : Int32 := Int32.ofNat number

theorem word_toInt {number : Nat} (small : number < lengthLimit) : (word number).toInt = number :=
  Int32.toInt_ofNat_of_lt small

theorem word_toNat {number : Nat} (small : number < lengthLimit) :
    (word number).toNatClampNeg = number := by
  rw [← Int32.toNat_toInt, word_toInt small, Int.toNat_natCast]

theorem word_succ (number : Nat) : word number + 1 = word (number + 1) :=
  (Int32.ofNat_add number 1).symm

theorem word_sub {number other : Nat} (within : other ≤ number) :
    word number - word other = word (number - other) :=
  (Int32.ofNat_sub number other within).symm

def signed (number : Int) : Int32 := Int32.ofInt number

theorem signed_toInt {number : Int} (low : -2147483648 ≤ number) (high : number < 2147483648) :
    (signed number).toInt = number :=
  Int32.toInt_ofInt_of_le low high

theorem signed_natCast (number : Nat) : signed number = word number := Int32.ofInt_eq_ofNat

theorem signed_sub (number other : Int) : signed number - signed other = signed (number - other) :=
  (Int32.ofInt_sub number other).symm

theorem signed_neg (number : Int) : -signed number = signed (-number) := (Int32.ofInt_neg number).symm

def streamClass : String := "java/io/InputStream"

def readerClass : String := "java/io/InputStreamReader"

def bufferClass : String := "java/io/BufferedReader"

inductive PlatformMethod where
  | textLength
  | charAt
  | substring
  | substringFrom
  | concat
  | charsOfText
  | textOfChars
  | fillChars
  | parseFloat
  | textOfInt
  | absFloat
  | absInt
  | decimalOfDouble
  | contextOf
  | round
  | textOfDecimal
  | stripZeros
  | unscaled
  | textOfInteger
  | scale
  | readerOf
  | bufferOf
  deriving DecidableEq, Repr

namespace PlatformMethod

def all : List PlatformMethod :=
  [textLength, charAt, substring, substringFrom, concat, charsOfText, textOfChars, fillChars, parseFloat,
    textOfInt, absFloat, absInt, decimalOfDouble, contextOf, round, textOfDecimal, stripZeros, unscaled,
    textOfInteger, scale, readerOf, bufferOf]

def reference : PlatformMethod → Opcode × MemberRef
  | textLength => (Opcode.invokevirtual, ⟨stringClass, "length", "()I"⟩)
  | charAt => (Opcode.invokevirtual, ⟨stringClass, "charAt", "(I)C"⟩)
  | substring => (Opcode.invokevirtual, ⟨stringClass, "substring", "(II)Ljava/lang/String;"⟩)
  | substringFrom => (Opcode.invokevirtual, ⟨stringClass, "substring", "(I)Ljava/lang/String;"⟩)
  | concat =>
    (Opcode.invokevirtual, ⟨stringClass, "concat", "(Ljava/lang/String;)Ljava/lang/String;"⟩)
  | charsOfText => (Opcode.invokevirtual, ⟨stringClass, "toCharArray", "()[C"⟩)
  | textOfChars => (Opcode.invokespecial, ⟨stringClass, "<init>", "([C)V"⟩)
  | fillChars => (Opcode.invokestatic, ⟨"java/util/Arrays", "fill", "([CC)V"⟩)
  | parseFloat => (Opcode.invokestatic, ⟨"java/lang/Float", "parseFloat", "(Ljava/lang/String;)F"⟩)
  | textOfInt => (Opcode.invokestatic, ⟨"java/lang/Integer", "toString", "(I)Ljava/lang/String;"⟩)
  | absFloat => (Opcode.invokestatic, ⟨"java/lang/Math", "abs", "(F)F"⟩)
  | absInt => (Opcode.invokestatic, ⟨"java/lang/Math", "abs", "(I)I"⟩)
  | decimalOfDouble => (Opcode.invokespecial, ⟨decimalClass, "<init>", "(D)V"⟩)
  | contextOf => (Opcode.invokespecial, ⟨contextClass, "<init>", "(ILjava/math/RoundingMode;)V"⟩)
  | round =>
    (Opcode.invokevirtual, ⟨decimalClass, "round", "(Ljava/math/MathContext;)Ljava/math/BigDecimal;"⟩)
  | textOfDecimal => (Opcode.invokevirtual, ⟨decimalClass, "toString", "()Ljava/lang/String;"⟩)
  | stripZeros =>
    (Opcode.invokevirtual, ⟨decimalClass, "stripTrailingZeros", "()Ljava/math/BigDecimal;"⟩)
  | unscaled => (Opcode.invokevirtual, ⟨decimalClass, "unscaledValue", "()Ljava/math/BigInteger;"⟩)
  | textOfInteger =>
    (Opcode.invokevirtual, ⟨"java/math/BigInteger", "toString", "()Ljava/lang/String;"⟩)
  | scale => (Opcode.invokevirtual, ⟨decimalClass, "scale", "()I"⟩)
  | readerOf => (Opcode.invokespecial, ⟨readerClass, "<init>", "(Ljava/io/InputStream;)V"⟩)
  | bufferOf => (Opcode.invokespecial, ⟨bufferClass, "<init>", "(Ljava/io/Reader;)V"⟩)

def find? (opcode : Opcode) (member : MemberRef) : Option PlatformMethod :=
  all.find? fun method => method.reference = (opcode, member)

theorem find?_reference (method : PlatformMethod) :
    find? method.reference.1 method.reference.2 = some method := by
  cases method <;> rfl

def construct (className : String) (value : Value) : List Value → Option (List Value)
  | .fresh first firstClass :: .fresh second secondClass :: rest =>
    if first = second ∧ firstClass = className ∧ secondClass = className then some (value :: rest)
    else none
  | _ => none

def part (units : List UInt16) (start stop : Int) : Option (List UInt16) :=
  if 0 ≤ start ∧ start ≤ stop ∧ stop ≤ units.length then
    some ((units.drop start.toNat).take (stop.toNat - start.toNat))
  else none

def digitsOfInt (value : Int) : List Char :=
  (if value < 0 then ['-'] else []) ++ Nat.toDigits 10 value.natAbs

/-- An object is constructed around another one. -/
def wrap (inner outer : String) (data : Data) : Option Data :=
  match data.stack with
  | .object className :: rest =>
    if className = inner then do
      return { data with stack := ← construct outer (.object outer) rest }
    else none
  | _ => none

def call (parse : List UInt16 → Option Single) (method : PlatformMethod) (data : Data) : Option Data :=
  match method with
  | textLength =>
    match data.stack with
    | .text units :: rest => some (data.result rest (.int (word units.length)))
    | _ => none
  | charAt =>
    match data.stack with
    | .int index :: .text units :: rest =>
      if 0 ≤ index.toInt then
        units[index.toNatClampNeg]?.map fun unit => data.result rest (.int (word unit.toNat))
      else none
    | _ => none
  | substring =>
    match data.stack with
    | .int stop :: .int start :: .text units :: rest =>
      (part units start.toInt stop.toInt).map fun found => data.result rest (.text found)
    | _ => none
  | substringFrom =>
    match data.stack with
    | .int start :: .text units :: rest =>
      (part units start.toInt units.length).map fun found => data.result rest (.text found)
    | _ => none
  | concat =>
    match data.stack with
    | .text second :: .text first :: rest =>
      if (first ++ second).length < lengthLimit then some (data.result rest (.text (first ++ second)))
      else none
    | _ => none
  | charsOfText =>
    match data.stack with
    | .text units :: rest =>
      some { data with
        stack := .chars data.heap.chars.length :: rest
        heap := { data.heap with chars := data.heap.chars ++ [units] } }
    | _ => none
  | textOfChars =>
    match data.stack with
    | .chars address :: rest => do
      let units ← data.heap.chars[address]?
      return { data with stack := ← construct stringClass (.text units) rest }
    | _ => none
  | fillChars =>
    match data.stack with
    | .int character :: .chars address :: rest => do
      let units ← data.heap.chars[address]?
      let filled := List.replicate units.length (UInt16.ofNat character.toNatClampNeg)
      return { data with
        stack := rest
        heap := { data.heap with chars := data.heap.chars.set address filled } }
    | _ => none
  | parseFloat =>
    match data.stack with
    | .text units :: rest => (parse units).map fun value => data.result rest (.float value)
    | _ => none
  | textOfInt =>
    match data.stack with
    | .int value :: rest => some (data.result rest (.text (Utf16.encode (digitsOfInt value.toInt))))
    | _ => none
  | absFloat =>
    match data.stack with
    | .float value :: rest => some (data.result rest (.float (.ofMagnitude false value.magnitude)))
    | _ => none
  | absInt =>
    match data.stack with
    | .int value :: rest => some (data.result rest (.int (if value.toInt < 0 then -value else value)))
    | _ => none
  | decimalOfDouble =>
    match data.stack with
    | .double value :: rest =>
      if value.magnitude < Single.infiniteMagnitude ∧ value.isNegative = false then do
        return { data with stack := ← construct decimalClass (.decimal value.exactDecimal) rest }
      else none
    | _ => none
  | contextOf =>
    match data.stack with
    | .rounding mode :: .int precision :: rest =>
      if 0 ≤ precision.toInt then do
        return { data with
          stack := ← construct contextClass (.context precision.toNatClampNeg mode) rest }
      else none
    | _ => none
  | round =>
    match data.stack with
    | .context precision mode :: .decimal value :: rest =>
      some (data.result rest (.decimal (value.round precision mode)))
    | _ => none
  | textOfDecimal =>
    match data.stack with
    | .decimal value :: rest => some (data.result rest (.text (Utf16.encode value.text)))
    | _ => none
  | stripZeros =>
    match data.stack with
    | .decimal value :: rest => some (data.result rest (.decimal value.stripZeros))
    | _ => none
  | unscaled =>
    match data.stack with
    | .decimal value :: rest => some (data.result rest (.integer value.coefficient))
    | _ => none
  | textOfInteger =>
    match data.stack with
    | .integer value :: rest => some (data.result rest (.text (Utf16.encode (Nat.toDigits 10 value))))
    | _ => none
  | scale =>
    match data.stack with
    | .decimal value :: rest => some (data.result rest (.int (signed (-value.exponent))))
    | _ => none
  | readerOf => wrap streamClass readerClass data
  | bufferOf => wrap readerClass bufferClass data

end PlatformMethod

end Process

end BasicCompiler
