import BasicCompiler.ClassFile.Pool
import BasicCompiler.Error
import BasicCompiler.Library.Basic
import BasicCompiler.Method.Item

/-!
Linking of symbolic instructions: constants get their indices in the pool of the class, helpers and
cells enter its library, and every operand takes the shortest form that holds it.
-/

namespace BasicCompiler

structure Build where
  pool : ConstantPool
  library : Library
  events : Array Event

/-- A computation on a class that is being built. What it did before a failure stays. -/
abbrev BuildM := ExceptT CompileError (StateM Build)

namespace Build

def empty : Build := ⟨.empty, .empty, #[]⟩

def report (event : Event) : BuildM Unit :=
  modify fun ⟨pool, library, events⟩ => ⟨pool, library, events.push event⟩

def interned {α : Type} (action : PoolM α) : BuildM α := fun ⟨pool, library, events⟩ =>
  match action.run pool with
  | (.ok value, pool) => (.ok value, ⟨pool, library, events⟩)
  | (.error error, pool) => (.error (.classFile error), ⟨pool, library, events⟩)

def traced {α : Type} (action : TraceM α) : BuildM α := fun ⟨pool, library, events⟩ =>
  match action.run events with
  | (.ok value, events) => (.ok value, ⟨pool, library, events⟩)
  | (.error error, events) => (.error (.assembly error), ⟨pool, library, events⟩)

def request (helper : Helper) : BuildM Unit :=
  modify fun ⟨pool, library, events⟩ =>
    if library.requests helper then ⟨pool, library, events⟩
    else ⟨pool, library.request helper, events.push (.helperRequested helper.identity)⟩

def requestAll : List Helper → BuildM Unit
  | [] => return
  | first :: rest => do
    request first
    requestAll rest

def register (cell : Cell) : BuildM Unit :=
  modify fun ⟨pool, library, events⟩ => ⟨pool, library.register cell, events⟩

end Build

namespace Insn

open BigEndian

def loadConstant (index : UInt16) : List UInt8 :=
  if index.toNat ≤ 255 then [Opcode.ldc, index.toUInt8] else Opcode.ldcW :: encode16 index

def withIndex (opcode : Opcode) (index : UInt16) : List UInt8 :=
  opcode :: encode16 index

def slotBytes (opcode : Opcode) (slot : Nat) : List UInt8 :=
  if slot ≤ 255 then [opcode, UInt8.ofNat slot]
  else Opcode.wide :: opcode :: encode16 (UInt16.ofNat slot)

def incrementBytes (slot : Nat) (amount : Int8) : List UInt8 :=
  if slot ≤ 255 then [Opcode.iinc, UInt8.ofNat slot, amount.toUInt8]
  else
    Opcode.wide :: Opcode.iinc :: encode16 (UInt16.ofNat slot) ++ encode16 amount.toInt16.toUInt16

def linkFloat (value : Single) : BuildM (List UInt8) :=
  if value = .zero then return [Opcode.fconst0]
  else if value = .one then return [Opcode.fconst1]
  else if value = .two then return [Opcode.fconst2]
  else return loadConstant (← Build.interned (ConstantPool.float value))

def linkInt (value : Int32) : BuildM (List UInt8) :=
  let number := value.toInt
  if -1 ≤ number ∧ number ≤ 5 then return [UInt8.ofNat (number + 3).toNat]
  else if -128 ≤ number ∧ number ≤ 127 then return [Opcode.bipush, value.toInt8.toUInt8]
  else if -32768 ≤ number ∧ number ≤ 32767 then
    return Opcode.sipush :: encode16 value.toInt16.toUInt16
  else return loadConstant (← Build.interned (ConstantPool.integer value))

def linkField (opcode : Opcode) (member : MemberRef) : BuildM (List UInt8) :=
  return withIndex opcode
    (← Build.interned (ConstantPool.fieldRef member.owner member.name member.descriptor))

def linkMethod (opcode : Opcode) (member : MemberRef) : BuildM (List UInt8) :=
  return withIndex opcode
    (← Build.interned (ConstantPool.methodRef member.owner member.name member.descriptor))

def linkClass (opcode : Opcode) (name : String) : BuildM (List UInt8) :=
  return withIndex opcode (← Build.interned (ConstantPool.classRef name))

def helperRef (owner : String) (helper : Helper) : MemberRef :=
  ⟨owner, helper.spec.name, helper.spec.descriptor⟩

def cellRef (owner : String) (cell : Cell) : MemberRef :=
  ⟨owner, cell.name, cell.descriptor⟩

def link (owner : String) : Insn → BuildM Fragment
  | op opcode => return .bytes [opcode]
  | branch opcode target => return .branch opcode target
  | tableSwitch low targets default => return .tableSwitch low targets default
  | pushFloat value => return .bytes (← linkFloat value)
  | pushInt value => return .bytes (← linkInt value)
  | pushText text => return .bytes (loadConstant (← Build.interned (ConstantPool.string text)))
  | access opcode slot => return .bytes (slotBytes opcode slot)
  | increment slot amount => return .bytes (incrementBytes slot amount)
  | field opcode member => return .bytes (← linkField opcode member)
  | invoke opcode member => return .bytes (← linkMethod opcode member)
  | newDup className => return .bytes ((← linkClass Opcode.new className) ++ [Opcode.dup])
  | newArray elementType => return .bytes [Opcode.newarray, elementType]
  | newRefArray className => return .bytes (← linkClass Opcode.anewarray className)
  | newMultiArray descriptor dimensions =>
    return .bytes ((← linkClass Opcode.multianewarray descriptor) ++ [dimensions])
  | call helper => do
    Build.request helper
    return .bytes (← linkMethod Opcode.invokestatic (helperRef owner helper))
  | getCell cell => do
    Build.register cell
    return .bytes (← linkField Opcode.getstatic (cellRef owner cell))
  | putCell cell => do
    Build.register cell
    return .bytes (← linkField Opcode.putstatic (cellRef owner cell))

end Insn

end BasicCompiler
