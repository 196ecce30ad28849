import BasicCompiler.Library.Code.Check

/-!
Code of the text helpers. Texts hold at most 255 characters, positions count from one, and a part of a
text ends at the latest where the text ends.
-/

namespace BasicCompiler.TextCode

open Draft

def maxLength : Int32 := 255

def minimum : DraftM Unit :=
  invokeStatic "java/lang/Math" "min" "(II)I"

def textOfChars (chars : Nat) : DraftM Unit := do
  newDup stringClass
  aload chars
  invokeSpecial stringClass "<init>" "([C)V"

/-- Replaces a text and a start position on the stack by the text from there on. -/
def substringFrom : DraftM Unit :=
  invokeVirtual stringClass "substring" "(I)Ljava/lang/String;"

/-- Replaces a text and two positions on the stack by the text between them. -/
def substringBetween : DraftM Unit :=
  invokeVirtual stringClass "substring" "(II)Ljava/lang/String;"

def concat : DraftM Unit := do
  let result ← temporary .null
  let tooLong ← freshLabel "too_long"
  aload 0
  aload 1
  joinTexts
  astore result
  aload result
  textLength
  pushInt maxLength
  branch Opcode.ificmpgt tooLong
  aload result
  op Opcode.areturn
  place tooLong
  raise .stringTooLong

def textCompare : DraftM Unit := do
  aload 0
  aload 1
  invokeVirtual stringClass "compareTo" "(Ljava/lang/String;)I"
  op Opcode.ireturn

def left : DraftM Unit := do
  let count ← intArgument 1 0 maxLength .leftLengthOutOfRange
  aload 0
  op Opcode.iconst0
  iload count
  aload 0
  textLength
  minimum
  substringBetween
  op Opcode.areturn

def right : DraftM Unit := do
  let count ← intArgument 1 0 maxLength .rightLengthOutOfRange
  aload 0
  aload 0
  textLength
  iload count
  op Opcode.isub
  op Opcode.iconst0
  invokeStatic "java/lang/Math" "max" "(II)I"
  substringFrom
  op Opcode.areturn

def mid2 : DraftM Unit := do
  let start ← intArgument 1 1 maxLength .midStartOutOfRange
  aload 0
  aload 0
  textLength
  iload start
  op Opcode.iconst1
  op Opcode.isub
  minimum
  substringFrom
  op Opcode.areturn

def mid3 : DraftM Unit := do
  let start ← intArgument 1 1 maxLength .midStartOutOfRange
  let count ← intArgument 2 1 maxLength .midLengthOutOfRange
  let begin' ← temporary .int
  aload 0
  textLength
  iload start
  op Opcode.iconst1
  op Opcode.isub
  minimum
  istore begin'
  aload 0
  iload begin'
  aload 0
  textLength
  iload begin'
  iload count
  op Opcode.iadd
  minimum
  substringBetween
  op Opcode.areturn

/-- Turns the index on the stack into a position, zero for no index, and returns it. -/
def returnPosition : DraftM Unit := do
  op Opcode.iconst1
  op Opcode.iadd
  op Opcode.i2f
  op Opcode.freturn

def instr2 : DraftM Unit := do
  aload 0
  aload 1
  invokeVirtual stringClass "indexOf" "(Ljava/lang/String;)I"
  returnPosition

def instr3 : DraftM Unit := do
  let start ← intArgument 0 1 maxLength .instrStartOutOfRange
  aload 1
  aload 2
  iload start
  op Opcode.iconst1
  op Opcode.isub
  invokeVirtual stringClass "indexOf" "(Ljava/lang/String;I)I"
  returnPosition

def chr : DraftM Unit := do
  let code ← intArgument 0 0 255 .chrCodeOutOfRange
  iload code
  op Opcode.i2c
  invokeStatic stringClass "valueOf" "(C)Ljava/lang/String;"
  op Opcode.areturn

def asc : DraftM Unit := do
  let empty ← freshLabel "empty"
  aload 0
  textLength
  branch Opcode.ifeq empty
  aload 0
  op Opcode.iconst0
  invokeVirtual stringClass "charAt" "(I)C"
  op Opcode.i2f
  op Opcode.freturn
  place empty
  raise .ascEmptyString

def len : DraftM Unit := do
  aload 0
  textLength
  op Opcode.i2f
  op Opcode.freturn

def val : DraftM Unit := do
  let value ← temporary .number
  let nan ← freshLabel "nan"
  aload 0
  call .textToFloat
  fstore value
  fload value
  fload value
  op Opcode.fcmpl
  branch Opcode.ifne nan
  fload value
  op Opcode.freturn
  place nan
  op Opcode.fconst0
  op Opcode.freturn

def allocateChars (count chars : Nat) : DraftM Unit := do
  iload count
  newArray ElementType.char
  astore chars

/-- Fills the characters in a slot with the one on the stack and returns their text. -/
def returnFilled (chars : Nat) : DraftM Unit := do
  invokeStatic "java/util/Arrays" "fill" "([CC)V"
  textOfChars chars
  op Opcode.areturn

def space : DraftM Unit := do
  let count ← intArgument 0 0 maxLength .spaceLengthOutOfRange
  let chars ← temporary .null
  allocateChars count chars
  aload chars
  pushChar ' '
  returnFilled chars

def stringFill : DraftM Unit := do
  let count ← intArgument 0 0 maxLength .stringLengthOutOfRange
  let chars ← temporary .null
  let filled ← freshLabel "filled"
  aload 1
  textLength
  branch Opcode.ifne filled
  raise .stringEmptyFill
  place filled
  allocateChars count chars
  aload chars
  aload 1
  op Opcode.iconst0
  invokeVirtual stringClass "charAt" "(I)C"
  returnFilled chars

end BasicCompiler.TextCode
