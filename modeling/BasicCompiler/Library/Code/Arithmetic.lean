import BasicCompiler.Library.Code.Check

/-!
Code of the arithmetic helpers. The functions of the host work on doubles, so arguments are widened
and results narrowed. Operators on integers first convert their operands to sixteen bits.
-/

namespace BasicCompiler.ArithmeticCode

open Draft

def mathClass : String := "java/lang/Math"

def largestBelowOne : Single := ⟨0x3F7FFFFF⟩

def compareWithZero (slot : Nat) (comparison : Opcode) : DraftM Unit := do
  fload slot
  op Opcode.fconst0
  op comparison

def divide : DraftM Unit := do
  let regular ← freshLabel "divide"
  let negative ← freshLabel "negative"
  compareWithZero 1 Opcode.fcmpl
  branch Opcode.ifne regular
  compareWithZero 0 Opcode.fcmpl
  branch Opcode.iflt negative
  pushFloat .infinity
  op Opcode.freturn
  place negative
  pushFloat .negativeInfinity
  op Opcode.freturn
  place regular
  fload 0
  fload 1
  op Opcode.fdiv
  op Opcode.freturn

/-- Applies a function of the host to widened arguments and returns the narrowed result. -/
def returnMath (name descriptor : String) : DraftM Unit := do
  invokeStatic mathClass name descriptor
  op Opcode.d2f
  op Opcode.freturn

def pushWide (slot : Nat) : DraftM Unit := do
  fload slot
  op Opcode.f2d

def math1 (name : String) : DraftM Unit := do
  pushWide 0
  returnMath name "(D)D"

def power : DraftM Unit := do
  pushWide 0
  pushWide 1
  returnMath "pow" "(DD)D"

/-- A function of one argument, which must not compare to zero as `reject` says. -/
def checkedMath (name : String) (reject : Opcode) (fault : Fault) : DraftM Unit := do
  let bad ← freshLabel "bad"
  compareWithZero 0 Opcode.fcmpg
  branch reject bad
  math1 name
  place bad
  raise fault

/-- Cuts towards zero. Numbers outside of `[-32768, 32767]` overflow and NaN becomes zero. -/
def toInt16 : DraftM Unit := do
  let overflow ← freshLabel "overflow"
  fload 0
  pushFloat ⟨0xC7000000⟩
  op Opcode.fcmpg
  branch Opcode.iflt overflow
  fload 0
  pushFloat ⟨0x47000000⟩
  op Opcode.fcmpl
  branch Opcode.ifge overflow
  fload 0
  op Opcode.f2i
  op Opcode.ireturn
  place overflow
  raise .overflow

def pushInt16 (argument : Nat) : DraftM Unit := do
  fload argument
  call .toInt16

/-- Applies an instruction to the integers on the stack and returns the result as a number. -/
def returnInt (opcode : Opcode) : DraftM Unit := do
  op opcode
  op Opcode.i2f
  op Opcode.freturn

def intDivision (opcode : Opcode) : DraftM Unit := do
  let dividend ← temporary .int
  let divisor ← temporary .int
  let zero ← freshLabel "zero"
  pushInt16 0
  istore dividend
  pushInt16 1
  istore divisor
  iload divisor
  branch Opcode.ifeq zero
  iload dividend
  iload divisor
  returnInt opcode
  place zero
  raise .divisionByZero

def logical (opcode : Opcode) : DraftM Unit := do
  pushInt16 0
  pushInt16 1
  returnInt opcode

def complement : DraftM Unit := do
  pushInt16 0
  op Opcode.iconstM1
  returnInt Opcode.ixor

def fix : DraftM Unit := do
  let negative ← freshLabel "negative"
  compareWithZero 0 Opcode.fcmpl
  branch Opcode.iflt negative
  math1 "floor"
  place negative
  math1 "ceil"

def sgn : DraftM Unit := do
  let notPositive ← freshLabel "not_positive"
  let zero ← freshLabel "zero"
  compareWithZero 0 Opcode.fcmpl
  branch Opcode.ifle notPositive
  op Opcode.fconst1
  op Opcode.freturn
  place notPositive
  compareWithZero 0 Opcode.fcmpg
  branch Opcode.ifge zero
  pushFloat .negativeOne
  op Opcode.freturn
  place zero
  op Opcode.fconst0
  op Opcode.freturn

def abs : DraftM Unit := do
  fload 0
  invokeStatic mathClass "abs" "(F)F"
  op Opcode.freturn

/-- Zero repeats the last number and a positive argument draws a new one below one. -/
def rnd : DraftM Unit := do
  let value ← temporary .number
  let negative ← freshLabel "negative"
  let draw ← freshLabel "draw"
  let keep ← freshLabel "keep"
  compareWithZero 0 Opcode.fcmpg
  branch Opcode.iflt negative
  compareWithZero 0 Opcode.fcmpl
  branch Opcode.ifne draw
  getCell .lastRandom
  op Opcode.freturn
  place draw
  invokeStatic mathClass "random" "()D"
  op Opcode.d2f
  fstore value
  -- Narrowing can round up to one.
  fload value
  op Opcode.fconst1
  op Opcode.fcmpl
  branch Opcode.iflt keep
  pushFloat largestBelowOne
  fstore value
  place keep
  fload value
  putCell .lastRandom
  fload value
  op Opcode.freturn
  place negative
  raise .rndNegative

end BasicCompiler.ArithmeticCode
