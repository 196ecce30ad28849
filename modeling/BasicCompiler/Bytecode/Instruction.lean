import BasicCompiler.Bytecode.Opcode
import BasicCompiler.Bytes.BigEndian
import BasicCompiler.ClassFile.Error

/-!
Decoding of code into instructions, with the branch targets, the constant and the local slot that
each of them refers to.
-/

namespace BasicCompiler

structure Instruction where
  position : Nat
  /-- The opcode; for a widened instruction the one that is widened. -/
  opcode : Opcode
  tail : Nat
  /-- The positions of branch targets, the default of a switch last. -/
  targets : List Nat := []
  poolIndex : Option UInt16 := none
  slot : Option UInt16 := none
  deriving DecidableEq, Repr

namespace Instruction

def length (instruction : Instruction) : Nat := instruction.tail + 1

def byteAt (code : Array UInt8) (position : Nat) : Except ClassFileError UInt8 :=
  match code[position]? with
  | some byte => .ok byte
  | none => .error (.truncatedInstruction position)

def word16At (code : Array UInt8) (position : Nat) : Except ClassFileError UInt16 := do
  return BigEndian.decode16 (← byteAt code position) (← byteAt code (position + 1))

def int16At (code : Array UInt8) (position : Nat) : Except ClassFileError Int := do
  return (← word16At code position).toInt16.toInt

def int32At (code : Array UInt8) (position : Nat) : Except ClassFileError Int := do
  let word := BigEndian.decode32 (← byteAt code position) (← byteAt code (position + 1))
    (← byteAt code (position + 2)) (← byteAt code (position + 3))
  return word.toInt32.toInt

def branchTarget (position : Nat) (offset : Int) : Except ClassFileError Nat :=
  if (position : Int) + offset < 0 then .error (.truncatedInstruction position)
  else .ok (position + offset).toNat

/-- Reads the targets of a switch, one every `stride` bytes, after the targets `done`, which are held
last first. -/
def switchTargets (code : Array UInt8) (position stride : Nat) :
    Nat → Nat → List Nat → Except ClassFileError (List Nat)
  | 0, _, done => .ok done.reverse
  | count + 1, field, done => do
    let target ← branchTarget position (← int32At code field)
    switchTargets code position stride count (field + stride) (target :: done)

/-- The number of bytes between the opcode of a switch and its first field, which is aligned to four. -/
def switchPadding (position : Nat) : Nat :=
  (4 - (position + 1) % 4) % 4

def decodeWidened (code : Array UInt8) (position : Nat) : Except ClassFileError Instruction := do
  let widened : Opcode ← byteAt code (position + 1)
  let slot ← word16At code (position + 2)
  if widened = Opcode.iinc then
    return { position, opcode := widened, tail := 5, slot := some slot }
  else if widened.accessesSlot then
    return { position, opcode := widened, tail := 3, slot := some slot }
  else
    throw (.invalidOpcode (position + 1) widened)

def decodeTableSwitch (code : Array UInt8) (position : Nat) (opcode : Opcode) :
    Except ClassFileError Instruction := do
  let padding := switchPadding position
  let fields := position + 1 + padding
  let default ← int32At code fields
  let low ← int32At code (fields + 4)
  let high ← int32At code (fields + 8)
  if high < low then
    throw (.truncatedInstruction position)
  let count := (high - low + 1).toNat
  let targets ← switchTargets code position 4 count (fields + 12) []
  let last ← branchTarget position default
  return { position, opcode, tail := padding + 12 + 4 * count, targets := targets ++ [last] }

def decodeLookupSwitch (code : Array UInt8) (position : Nat) (opcode : Opcode) :
    Except ClassFileError Instruction := do
  let padding := switchPadding position
  let fields := position + 1 + padding
  let default ← int32At code fields
  let pairs ← int32At code (fields + 4)
  if pairs < 0 then
    throw (.truncatedInstruction position)
  let count := pairs.toNat
  let targets ← switchTargets code position 8 count (fields + 12) []
  let last ← branchTarget position default
  return { position, opcode, tail := padding + 8 + 8 * count, targets := targets ++ [last] }

def decodeOperands (code : Array UInt8) (position : Nat) (opcode : Opcode) :
    Except ClassFileError Instruction := do
  match opcode.shape with
  | .plain bytes => return { position, opcode, tail := bytes }
  | .poolByte =>
    let index ← byteAt code (position + 1)
    return { position, opcode, tail := 1, poolIndex := some index.toUInt16 }
  | .poolWord bytes =>
    let index ← word16At code (position + 1)
    return { position, opcode, tail := 2 + bytes, poolIndex := some index }
  | .slotByte bytes =>
    let slot ← byteAt code (position + 1)
    return { position, opcode, tail := 1 + bytes, slot := some slot.toUInt16 }
  | .branch =>
    let target ← branchTarget position (← int16At code (position + 1))
    return { position, opcode, tail := 2, targets := [target] }
  | .wideBranch =>
    let target ← branchTarget position (← int32At code (position + 1))
    return { position, opcode, tail := 4, targets := [target] }
  | .widened => decodeWidened code position
  | .tableSwitch => decodeTableSwitch code position opcode
  | .lookupSwitch => decodeLookupSwitch code position opcode
  | .undefined => throw (.invalidOpcode position opcode)

/-- Decodes the instruction at a position, which must not reach past the end of the code. -/
def decodeAt (code : Array UInt8) (position : Nat) : Except ClassFileError Instruction := do
  let opcode ← byteAt code position
  let instruction ← decodeOperands code position opcode
  if code.size < position + instruction.length then
    throw (.truncatedInstruction position)
  return instruction

/-- Decodes from a position on, after the instructions `done`, which are held last first. -/
def decodeFrom (code : Array UInt8) (position : Nat) (done : List Instruction) :
    Except ClassFileError (List Instruction) :=
  if position < code.size then
    match decodeAt code position with
    | .ok instruction => decodeFrom code (position + instruction.length) (instruction :: done)
    | .error error => .error error
  else
    .ok done.reverse
termination_by code.size - position
decreasing_by
  simp only [length]
  omega

def decode (code : Array UInt8) : Except ClassFileError (List Instruction) :=
  decodeFrom code 0 []

end Instruction

end BasicCompiler
