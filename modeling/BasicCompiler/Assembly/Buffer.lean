import Std.Data.HashMap
import BasicCompiler.Assembly.Error
import BasicCompiler.Bytecode.Opcode
import BasicCompiler.Bytes.BigEndian
import BasicCompiler.Trace

/-!
The code of one method while it is assembled. Branches name labels, which may be defined later: a
field is reserved for the offset and filled in when the code is finished.
-/

namespace BasicCompiler

abbrev Label := String

def Label.numbered (stem : String) (number : Nat) : Label :=
  s!"{stem}_{number}"

inductive FieldWidth where
  | short
  | wide
  deriving DecidableEq, Repr

/-- A reserved field that will hold the distance from a base to a label. -/
structure Patch where
  position : Nat
  /-- The position of the branch opcode, which a field at the very start does not have. -/
  base : Option Nat
  width : FieldWidth
  label : Label
  deriving DecidableEq, Repr

inductive Fragment where
  | bytes (content : List UInt8)
  | branch (opcode : Opcode) (target : Label)
  | tableSwitch (low : Int32) (targets : List Label) (default : Label)
  deriving DecidableEq, Repr

abbrev TraceM := ExceptT AssemblyError (StateM (Array Event))

def TraceM.report (event : Event) : TraceM Unit :=
  modify fun events => events.push event

structure Buffer where
  /-- The name of the method, which errors and events mention. -/
  method : String
  bytes : Array UInt8
  limit : Nat
  labels : Std.HashMap Label Nat
  patches : Array Patch

namespace Buffer

def maxCodeLength : Nat := 65535

def empty (method : String) (limit : Nat) : Buffer :=
  ⟨method, #[], limit, ∅, #[]⟩

def position (buffer : Buffer) : Nat := buffer.bytes.size

def labelPosition? (buffer : Buffer) (label : Label) : Option Nat := buffer.labels[label]?

def write (buffer : Buffer) (content : List UInt8) : Buffer :=
  { buffer with bytes := buffer.bytes ++ content }

def replaceBytes (bytes : Array UInt8) : Nat → List UInt8 → Array UInt8
  | _, [] => bytes
  | position, byte :: rest =>
    replaceBytes (bytes.setIfInBounds position byte) (position + 1) rest

def overwrite? (bytes : Array UInt8) (position : Nat) (content : List UInt8) :
    Option (Array UInt8) :=
  if position + content.length ≤ bytes.size then some (replaceBytes bytes position content) else none

def overwriteAt? (buffer : Buffer) (position : Nat) (content : List UInt8) : Option Buffer :=
  (overwrite? buffer.bytes position content).map fun bytes => { buffer with bytes }

def addPatch (buffer : Buffer) (patch : Patch) : Buffer :=
  { buffer with patches := buffer.patches.push patch }

/-- Requests that the two bytes at a position hold the distance to a label from the byte before. -/
def patchAt (buffer : Buffer) (position : Nat) (label : Label) : Buffer :=
  let base := if position = 0 then none else some (position - 1)
  buffer.addPatch ⟨position, base, .short, label⟩

def reserveShort (buffer : Buffer) (label : Label) : Buffer :=
  let position := buffer.position
  (buffer.write [0, 0]).patchAt position label

def reserveWide (buffer : Buffer) (base : Nat) (label : Label) : Buffer :=
  let position := buffer.position
  (buffer.write [0, 0, 0, 0]).addPatch ⟨position, some base, .wide, label⟩

def align (buffer : Buffer) : Buffer :=
  buffer.write (List.replicate ((4 - buffer.position % 4) % 4) 0)

def highKey (low : Int32) (targets : List Label) : Int32 :=
  Int32.ofInt (low.toInt + targets.length - 1)

/-- Writes a switch with its fields aligned and its offsets counted from its opcode. -/
def appendSwitch (buffer : Buffer) (low : Int32) (targets : List Label) (default : Label) : Buffer :=
  let base := buffer.position
  let aligned := (buffer.write [Opcode.tableswitch]).align
  let keys := BigEndian.encode32 low.toUInt32 ++ BigEndian.encode32 (highKey low targets).toUInt32
  targets.foldl (fun current target => current.reserveWide base target)
    ((aligned.reserveWide base default).write keys)

def append (buffer : Buffer) : Fragment → Buffer
  | .bytes content => buffer.write content
  | .branch opcode target => (buffer.write [opcode]).reserveShort target
  | .tableSwitch low targets default => buffer.appendSwitch low targets default

/-- Defines a label at the current position. A label that is defined before moves, and that is an
error. -/
def define (buffer : Buffer) (label : Label) : Except AssemblyError Event × Buffer :=
  let position := buffer.position
  let result :=
    if buffer.labels.contains label then .error (.duplicateLabel buffer.method label)
    else .ok (.labelDefined buffer.method label position)
  (result, { buffer with labels := buffer.labels.insert label position })

def encodeOffset? (width : FieldWidth) (offset : Int) : Option (List UInt8) :=
  match width with
  | .short =>
    if -32768 ≤ offset ∧ offset ≤ 32767 then
      some (BigEndian.encode16 (Int16.ofInt offset).toUInt16)
    else none
  | .wide => some (BigEndian.encode32 (Int32.ofInt offset).toUInt32)

def resolve (method : String) (labels : Std.HashMap Label Nat) (patch : Patch)
    (bytes : Array UInt8) : TraceM (Array UInt8) := do
  let some target := labels[patch.label]?
    | throw (.unresolvedLabel method patch.label)
  let some base := patch.base
    | throw (.branchOutOfRange method patch.label)
  let offset : Int := (target : Int) - base
  TraceM.report (.fieldResolved method patch.label patch.position offset)
  let some content := encodeOffset? patch.width offset
    | throw (.branchOutOfRange method patch.label)
  let some patched := overwrite? bytes patch.position content
    | throw (.fieldOutsideCode method patch.position)
  return patched

def resolveAll (method : String) (labels : Std.HashMap Label Nat) :
    List Patch → Array UInt8 → TraceM (Array UInt8)
  | [], bytes => return bytes
  | patch :: rest, bytes => do
    let patched ← resolve method labels patch bytes
    resolveAll method labels rest patched

/-- The finished code, with every reserved field filled in, in the order of the requests. -/
def finish (buffer : Buffer) : TraceM (Array UInt8) := do
  if buffer.limit < buffer.bytes.size then
    throw (.methodTooLarge buffer.method buffer.bytes.size)
  resolveAll buffer.method buffer.labels buffer.patches.toList buffer.bytes

end Buffer

end BasicCompiler
