import Mathlib.Logic.Function.Basic
import Mathlib.Logic.Relation
import BasicCompiler.Bytecode.Descriptor
import BasicCompiler.Proofs.Execution.Fetch
import BasicCompiler.Proofs.Execution.Platform

/-!
Execution of finished code, byte by byte, as the virtual machine has it, for the operations that class
initializers and the helpers for numerals use. Where an operation cannot be executed, such as a load from
outside of an array, there is no next state.
-/

namespace BasicCompiler.Process

def constant? (member : MemberRef) : Option Value :=
  if member.owner = "java/math/RoundingMode" ∧ member.descriptor = "Ljava/math/RoundingMode;" then
    if member.name = "HALF_EVEN" then some (.rounding .halfEven)
    else if member.name = "CEILING" then some (.rounding .ceiling)
    else if member.name = "FLOOR" then some (.rounding .floor)
    else if member.name = "DOWN" then some (.rounding .down)
    else none
  else if member = ⟨"java/lang/System", "in", "Ljava/io/InputStream;"⟩ then some (.object streamClass)
  else none

def loaded? (opcode : Opcode) : Option Kind :=
  if opcode = Opcode.iload then some .int
  else if opcode = Opcode.fload then some .float
  else if opcode = Opcode.aload then some .reference
  else none

def stored? (opcode : Opcode) : Option Kind :=
  if opcode = Opcode.istore then some .int
  else if opcode = Opcode.fstore then some .float
  else if opcode = Opcode.astore then some .reference
  else none

def returned? (opcode : Opcode) : Option Kind :=
  if opcode = Opcode.ireturn then some .int
  else if opcode = Opcode.freturn then some .float
  else if opcode = Opcode.areturn then some .reference
  else none

def access (data : Data) (opcode : Opcode) (slot : Nat) : Option Data :=
  match loaded? opcode, stored? opcode, data.stack with
  | some kind, _, _ => do
    let value ← data.locals slot
    if value.kind = kind then return data.push value else none
  | none, some kind, value :: rest =>
    if value.kind = kind then
      some { data with stack := rest, locals := Function.update data.locals slot (some value) }
    else none
  | _, _, _ => none

def position? (index : Int32) (length : Nat) : Option Nat :=
  if 0 ≤ index.toInt ∧ index.toInt < length then some index.toNatClampNeg else none

def arithmetic? (opcode : Opcode) : Option (Int32 → Int32 → Int32) :=
  if opcode = Opcode.iadd then some (· + ·)
  else if opcode = Opcode.isub then some (· - ·)
  else if opcode = Opcode.ior then some (· ||| ·)
  else if opcode = Opcode.ishl then some (· <<< ·)
  else none

def operate (data : Data) (opcode : Opcode) : Option Data :=
  if opcode = Opcode.dup then
    match data.stack with
    | value :: rest => some (data.result (value :: rest) value)
    | _ => none
  else if opcode = Opcode.ineg then
    match data.stack with
    | .int value :: rest => some (data.result rest (.int (-value)))
    | _ => none
  else if opcode = Opcode.i2f then
    match data.stack with
    | .int value :: rest => some (data.result rest (.float (Single.ofInt value.toInt)))
    | _ => none
  else if opcode = Opcode.f2i then
    match data.stack with
    | .float value :: rest => some (data.result rest (.int value.truncate))
    | _ => none
  else if opcode = Opcode.f2d then
    match data.stack with
    | .float value :: rest => some (data.result rest (.double value))
    | _ => none
  else if opcode = Opcode.fcmpl then
    match data.stack with
    | .float second :: .float first :: rest => some (data.result rest (.int (first.compare second)))
    | _ => none
  else if opcode = Opcode.arraylength then
    match data.stack with
    | .chars address :: rest =>
      data.heap.chars[address]?.map fun units => data.result rest (.int (word units.length))
    | .ints address :: rest =>
      data.heap.ints[address]?.map fun values => data.result rest (.int (word values.length))
    | _ => none
  else if opcode = Opcode.caload then
    match data.stack with
    | .int index :: .chars address :: rest => do
      let units ← data.heap.chars[address]?
      let unit ← units[← position? index units.length]?
      return data.result rest (.int (word unit.toNat))
    | _ => none
  else if opcode = Opcode.iastore then
    match data.stack with
    | .int value :: .int index :: .ints address :: rest => do
      let values ← data.heap.ints[address]?
      let position ← position? index values.length
      return { data with
        stack := rest
        heap := { data.heap with ints := data.heap.ints.set address (values.set position value) } }
    | _ => none
  else
    match arithmetic? opcode, data.stack with
    | some operation, .int second :: .int first :: rest =>
      some (data.result rest (.int (operation first second)))
    | _, _ => none

def zeroTest? (opcode : Opcode) : Option (Int → Bool) :=
  if opcode = Opcode.ifeq then some (· = 0)
  else if opcode = Opcode.ifne then some (· ≠ 0)
  else if opcode = Opcode.iflt then some (· < 0)
  else if opcode = Opcode.ifge then some (0 ≤ ·)
  else if opcode = Opcode.ifgt then some (0 < ·)
  else if opcode = Opcode.ifle then some (· ≤ 0)
  else none

def pairTest? (opcode : Opcode) : Option (Int → Int → Bool) :=
  if opcode = Opcode.ificmpeq then some (· = ·)
  else if opcode = Opcode.ificmpne then some (· ≠ ·)
  else if opcode = Opcode.ificmplt then some (· < ·)
  else if opcode = Opcode.ificmpge then some (fun first second => second ≤ first)
  else if opcode = Opcode.ificmpgt then some (fun first second => second < first)
  else if opcode = Opcode.ificmple then some (· ≤ ·)
  else none

def decide? (opcode : Opcode) (stack : List Value) : Option (Bool × List Value) :=
  if opcode = Opcode.goto then some (true, stack)
  else
    match zeroTest? opcode, pairTest? opcode, stack with
    | some test, _, .int value :: rest => some (test value.toInt, rest)
    | none, some test, .int second :: .int first :: rest => some (test first.toInt second.toInt, rest)
    | _, _, _ => none

inductive Outcome where
  | next (data : Data)
  | jump (target : Nat) (data : Data)
  /-- A call of a method of the class. -/
  | call (unit : MethodUnit) (parameters : List Value) (data : Data)
  | return (value : Value) (data : Data)
  | finish (data : Data)

/-- The class that is executed, and how the platform reads numbers from texts. -/
structure Environment where
  owner : String
  pool : ConstantPool
  units : List MethodUnit
  parse : List UInt16 → Option Single

namespace Environment

def method? (environment : Environment) (member : MemberRef) : Option MethodUnit :=
  environment.units.find? fun unit =>
    member.owner = environment.owner ∧ member.name = unit.header.name ∧
      member.descriptor = unit.header.descriptor

def invoke (environment : Environment) (opcode : Opcode) (member : MemberRef) (data : Data) :
    Option Outcome :=
  match PlatformMethod.find? opcode member with
  | some method => (method.call environment.parse data).map .next
  | none => do
    let unit ← environment.method? member
    let count := Descriptor.parameterSlots member.descriptor
    if opcode = Opcode.invokestatic ∧ count ≤ data.stack.length then
      return .call unit (data.stack.take count).reverse { data with stack := data.stack.drop count }
    else none

def store (environment : Environment) (member : MemberRef) (data : Data) : Option Outcome :=
  match Cell.ofName? member.name, data.stack with
  | some cell, value :: rest =>
    if member.owner = environment.owner then
      some (.next { data with
        stack := rest
        heap := { data.heap with cells := Function.update data.heap.cells cell (some value) } })
    else none
  | _, _ => none

def execute (environment : Environment) (data : Data) : Operation → Option Outcome
  | .push (.int value) => some (.next (data.push (.int value)))
  | .push (.float value) => some (.next (data.push (.float value)))
  | .push (.text text) => some (.next (data.push (.text (Utf16.encode text.toList))))
  | .plain opcode =>
    match returned? opcode, data.stack with
    | some kind, value :: _ => if value.kind = kind then some (.return value data) else none
    | some _, [] => none
    | none, _ =>
      if opcode = Opcode.vreturn then some (.finish data) else (operate data opcode).map .next
  | .branch opcode target => do
    let (taken, stack) ← decide? opcode data.stack
    return if taken then .jump target { data with stack } else .next { data with stack }
  | .access opcode slot => (access data opcode slot).map .next
  | .increment slot amount =>
    match data.locals slot with
    | some (.int value) =>
      some (.next { data with
        locals := Function.update data.locals slot (some (.int (value + Int32.ofInt amount))) })
    | _ => none
  | .field opcode member =>
    if opcode = Opcode.getstatic then (constant? member).map fun value => .next (data.push value)
    else if opcode = Opcode.putstatic then environment.store member data
    else none
  | .invoke opcode member => environment.invoke opcode member data
  | .create className =>
    some (.next { data with
      stack := .fresh data.created className :: data.stack
      created := data.created + 1 })
  | .newArray elementType =>
    match data.stack with
    | .int length :: rest =>
      if length.toInt < 0 then none
      else if elementType = ElementType.char then
        some (.next { data with
          stack := .chars data.heap.chars.length :: rest
          heap := { data.heap with
            chars := data.heap.chars ++ [List.replicate length.toNatClampNeg 0] } })
      else if elementType = ElementType.int then
        some (.next { data with
          stack := .ints data.heap.ints.length :: rest
          heap := { data.heap with ints := data.heap.ints ++ [List.replicate length.toNatClampNeg 0] } })
      else none
    | _ => none
  | .tableSwitch _ _ | .newRefArray _ | .newMultiArray _ _ => none

end Environment

/-- A method that waits for the return of the one it called. -/
structure Caller where
  code : Array UInt8
  position : Nat
  stack : List Value
  locals : Nat → Option Value

inductive State where
  | running (code : Array UInt8) (position : Nat) (data : Data) (callers : List Caller)
  /-- The first method has returned a value. -/
  | returned (value : Value)
  /-- The first method has returned without one. -/
  | finished (heap : Heap)

namespace State

def entry (unit : MethodUnit) (parameters : List Value) (heap : Heap) (created : Nat)
    (callers : List Caller) : State :=
  .running unit.code 0 ⟨[], fun slot => parameters[slot]?, heap, created⟩ callers

end State

def Outcome.state (code : Array UInt8) (next : Nat) (callers : List Caller) : Outcome → State
  | .next data => .running code next data callers
  | .jump target data => .running code target data callers
  | .call unit parameters data =>
    .entry unit parameters data.heap data.created (⟨code, next, data.stack, data.locals⟩ :: callers)
  | .return value data =>
    match callers with
    | [] => .returned value
    | caller :: callers =>
      .running caller.code caller.position
        ⟨value :: caller.stack, caller.locals, data.heap, data.created⟩ callers
  | .finish data =>
    match callers with
    | [] => .finished data.heap
    | caller :: callers =>
      .running caller.code caller.position ⟨caller.stack, caller.locals, data.heap, data.created⟩ callers

namespace Environment

def step (environment : Environment) : State → Option State
  | .returned _ | .finished _ => none
  | .running code position data callers => do
    let (operation, next) ← Operation.fetch environment.pool code position
    let outcome ← environment.execute data operation
    return outcome.state code next callers

def Reaches (environment : Environment) : State → State → Prop :=
  Relation.ReflTransGen fun before after => environment.step before = some after

def Runs (environment : Environment) (goal : State → Prop) (state : State) : Prop :=
  ∃ final, environment.Reaches state final ∧ goal final

end Environment

end BasicCompiler.Process
