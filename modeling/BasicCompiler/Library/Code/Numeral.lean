import BasicCompiler.Library.Code.Check
import BasicCompiler.Number.Display

/-!
Code that converts between numbers and texts. It produces what `Single.display` shows and accepts what
`Single.read` reads.
-/

namespace BasicCompiler.NumeralCode

open Draft

def decimalClass : String := "java/math/BigDecimal"

def contextClass : String := "java/math/MathContext"

def joinConstant (text : String) : DraftM Unit := do
  pushText text
  joinTexts

def joinZeros : DraftM Unit := do
  op Opcode.i2f
  pushText "0"
  call .stringFill
  joinTexts

/-- Replaces the text and the two positions on the stack by the text between them. -/
def cutBetween : DraftM Unit :=
  invokeVirtual stringClass "substring" "(II)Ljava/lang/String;"

/-- Replaces the text and the position on the stack by the text from there on. -/
def cutFrom : DraftM Unit :=
  invokeVirtual stringClass "substring" "(I)Ljava/lang/String;"

def parseFloat : DraftM Unit :=
  invokeStatic "java/lang/Float" "parseFloat" "(Ljava/lang/String;)F"

def specialValue (value : Single) (text : String) : DraftM Unit := do
  let other ← freshLabel "other"
  fload 0
  pushFloat value
  op Opcode.fcmpl
  branch Opcode.ifne other
  pushText text
  op Opcode.areturn
  place other

/-- Pushes the decimal in a slot, rounded to the number of digits in another. -/
def round (source precision : Nat) (mode : String) : DraftM Unit := do
  aload source
  newDup contextClass
  iload precision
  getStatic "java/math/RoundingMode" mode "Ljava/math/RoundingMode;"
  invokeSpecial contextClass "<init>" "(ILjava/math/RoundingMode;)V"
  invokeVirtual decimalClass "round" "(Ljava/math/MathContext;)Ljava/math/BigDecimal;"

/-- Rounds a decimal and leaves the search if the result reads back as the magnitude. -/
def tryRounding (exact precision decimal magnitude : Nat) (found : Label) (mode : String) :
    DraftM Unit := do
  round exact precision mode
  astore decimal
  aload decimal
  invokeVirtual decimalClass "toString" "()Ljava/lang/String;"
  parseFloat
  fload magnitude
  op Opcode.fcmpl
  branch Opcode.ifeq found

def pushSuccessor (slot : Nat) : DraftM Unit := do
  iload slot
  op Opcode.iconst1
  op Opcode.iadd

/-- The text of a number: the shortest decimal that reads back, cut to seven digits. -/
def floatToText : DraftM Unit := do
  let sign ← temporary .null
  let magnitude ← temporary .number
  let exact ← temporary .null
  let decimal ← temporary .null
  let precision ← temporary .int
  let digits ← temporary .null
  let exponent ← temporary .int
  let count ← temporary .int
  let notNaN ← freshLabel "not_nan"
  let negative ← freshLabel "negative"
  let signed ← freshLabel "signed"
  let exponential ← freshLabel "exponential"
  let small ← freshLabel "small"
  let fraction ← freshLabel "fraction"
  let wholeMantissa ← freshLabel "whole_mantissa"
  let negativeExponent ← freshLabel "negative_exponent"
  let exponentDigits ← freshLabel "exponent_digits"
  let twoDigits ← freshLabel "two_digits"
  let widen ← freshLabel "widen"
  let shortest ← freshLabel "shortest"
  let truncate ← freshLabel "truncate"
  fload 0
  fload 0
  op Opcode.fcmpl
  branch Opcode.ifeq notNaN
  pushText " NaN"
  op Opcode.areturn
  place notNaN
  specialValue .infinity " Infinity"
  specialValue .negativeInfinity "-Infinity"
  specialValue .zero " 0"
  fload 0
  op Opcode.fconst0
  op Opcode.fcmpl
  branch Opcode.iflt negative
  pushText " "
  astore sign
  goto signed
  place negative
  pushText "-"
  astore sign
  place signed
  -- The exact value of the magnitude, since widening is exact.
  fload 0
  invokeStatic "java/lang/Math" "abs" "(F)F"
  fstore magnitude
  newDup decimalClass
  fload magnitude
  op Opcode.f2d
  invokeSpecial decimalClass "<init>" "(D)V"
  astore exact
  -- The precision grows until a rounding reads back, the nearest being tried first.
  op Opcode.iconst1
  istore precision
  place widen
  tryRounding exact precision decimal magnitude shortest "HALF_EVEN"
  tryRounding exact precision decimal magnitude shortest "CEILING"
  tryRounding exact precision decimal magnitude shortest "FLOOR"
  increment precision 1
  goto widen
  -- One digit becomes the nearest two.
  place shortest
  iload precision
  op Opcode.iconst1
  branch Opcode.ificmpne truncate
  op Opcode.iconst2
  istore precision
  round exact precision "HALF_EVEN"
  astore decimal
  place truncate
  pushInt (Int32.ofNat Display.significantDigits)
  istore precision
  round decimal precision "DOWN"
  invokeVirtual decimalClass "stripTrailingZeros" "()Ljava/math/BigDecimal;"
  astore decimal
  aload decimal
  invokeVirtual decimalClass "unscaledValue" "()Ljava/math/BigInteger;"
  invokeVirtual "java/math/BigInteger" "toString" "()Ljava/lang/String;"
  astore digits
  aload digits
  textLength
  istore count
  -- The exponent of the leading digit.
  iload count
  aload decimal
  invokeVirtual decimalClass "scale" "()I"
  op Opcode.isub
  op Opcode.iconst1
  op Opcode.isub
  istore exponent
  iload exponent
  pushInt (Int32.ofInt Display.fixedMinimum)
  branch Opcode.ificmplt exponential
  iload exponent
  pushInt (Int32.ofInt Display.fixedMaximum)
  branch Opcode.ificmpgt exponential
  iload exponent
  branch Opcode.iflt small
  -- At least one digit before the point.
  iload count
  pushSuccessor exponent
  branch Opcode.ificmpgt fraction
  aload sign
  aload digits
  joinTexts
  pushSuccessor exponent
  iload count
  op Opcode.isub
  joinZeros
  op Opcode.areturn
  place fraction
  aload sign
  aload digits
  op Opcode.iconst0
  pushSuccessor exponent
  cutBetween
  joinTexts
  joinConstant "."
  aload digits
  pushSuccessor exponent
  cutFrom
  joinTexts
  op Opcode.areturn
  -- Below one, without a zero before the point.
  place small
  aload sign
  joinConstant "."
  iload exponent
  op Opcode.ineg
  op Opcode.iconst1
  op Opcode.isub
  joinZeros
  aload digits
  joinTexts
  op Opcode.areturn
  place exponential
  aload sign
  aload digits
  op Opcode.iconst0
  op Opcode.iconst1
  cutBetween
  joinTexts
  iload count
  op Opcode.iconst1
  branch Opcode.ificmple wholeMantissa
  joinConstant "."
  aload digits
  op Opcode.iconst1
  cutFrom
  joinTexts
  place wholeMantissa
  joinConstant "E"
  iload exponent
  branch Opcode.iflt negativeExponent
  joinConstant "+"
  goto exponentDigits
  place negativeExponent
  joinConstant "-"
  place exponentDigits
  iload exponent
  invokeStatic "java/lang/Math" "abs" "(I)I"
  istore exponent
  iload exponent
  pushInt 10
  branch Opcode.ificmpge twoDigits
  joinConstant "0"
  place twoDigits
  iload exponent
  invokeStatic "java/lang/Integer" "toString" "(I)Ljava/lang/String;"
  joinTexts
  op Opcode.areturn

structure Scan where
  position : Nat
  length : Nat
  character : Nat
  digits : Nat

namespace Scan

def branchAtEnd (scan : Scan) (target : Label) : DraftM Unit := do
  iload scan.position
  iload scan.length
  branch Opcode.ificmpge target

def readCharacter (scan : Scan) : DraftM Unit := do
  aload 0
  iload scan.position
  invokeVirtual stringClass "charAt" "(I)C"
  istore scan.character

/-- Compares the character that was read last and jumps as the instruction says. -/
def branchOn (scan : Scan) (opcode : Opcode) (character : Char) (target : Label) : DraftM Unit := do
  iload scan.character
  pushChar character
  branch opcode target

def passDigits (scan : Scan) : DraftM Unit := do
  let next ← freshLabel "digit"
  let done ← freshLabel "digits_done"
  place next
  scan.branchAtEnd done
  scan.readCharacter
  scan.branchOn Opcode.ificmplt '0' done
  scan.branchOn Opcode.ificmpgt '9' done
  increment scan.position 1
  increment scan.digits 1
  goto next
  place done

def passSign (scan : Scan) (atEnd : Label) : DraftM Unit := do
  let take ← freshLabel "take"
  let skip ← freshLabel "skip"
  scan.branchAtEnd atEnd
  scan.readCharacter
  scan.branchOn Opcode.ificmpeq '+' take
  scan.branchOn Opcode.ificmpeq '-' take
  goto skip
  place take
  increment scan.position 1
  place skip

end Scan

/-- The number at the start of a text after blanks, or NaN if there is none. -/
def textToFloat : DraftM Unit := do
  let position ← temporary .int
  let length ← temporary .int
  let start ← temporary .int
  let digits ← temporary .int
  let character ← temporary .int
  let stop ← temporary .int
  let scan : Scan := ⟨position, length, character, digits⟩
  let blank ← freshLabel "blank"
  let blanksDone ← freshLabel "blanks_done"
  let mantissaDone ← freshLabel "mantissa_done"
  let hasDigits ← freshLabel "has_digits"
  let convert ← freshLabel "convert"
  aload 0
  textLength
  istore length
  op Opcode.iconst0
  istore position
  op Opcode.iconst0
  istore digits
  place blank
  scan.branchAtEnd blanksDone
  scan.readCharacter
  scan.branchOn Opcode.ificmpne ' ' blanksDone
  increment position 1
  goto blank
  place blanksDone
  iload position
  istore start
  scan.passSign mantissaDone
  scan.passDigits
  scan.branchAtEnd mantissaDone
  scan.readCharacter
  scan.branchOn Opcode.ificmpne '.' mantissaDone
  increment position 1
  scan.passDigits
  place mantissaDone
  iload digits
  branch Opcode.ifne hasDigits
  pushFloat .notANumber
  op Opcode.freturn
  place hasDigits
  iload position
  istore stop
  -- An exponent counts only if a digit follows it.
  scan.branchAtEnd convert
  scan.readCharacter
  let exponent ← freshLabel "exponent"
  scan.branchOn Opcode.ificmpeq 'E' exponent
  scan.branchOn Opcode.ificmpne 'e' convert
  place exponent
  increment position 1
  scan.passSign convert
  op Opcode.iconst0
  istore digits
  scan.passDigits
  iload digits
  branch Opcode.ifeq convert
  iload position
  istore stop
  place convert
  aload 0
  iload start
  iload stop
  cutBetween
  parseFloat
  op Opcode.freturn

end BasicCompiler.NumeralCode
