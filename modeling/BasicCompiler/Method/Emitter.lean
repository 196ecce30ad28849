import BasicCompiler.ClassFile.Basic
import BasicCompiler.Method.Draft
import BasicCompiler.Method.Link

/-!
Assembly of drafted methods: items are linked and written one after the other, and finishing resolves
the labels of branches and exception handlers.
-/

namespace BasicCompiler

structure MethodHeader where
  owner : String
  name : String
  descriptor : String
  access : UInt16
  maxStack : UInt16
  deriving DecidableEq, Repr

structure Emitter where
  header : MethodHeader
  buffer : Buffer
  /-- Code positions with the source lines that start there. -/
  lines : Array (Nat × UInt32)

/-- A method that is being assembled, with the class it belongs to. -/
structure Emission where
  build : Build
  emitter : Emitter

abbrev EmitM := ExceptT CompileError (StateM Emission)

structure MethodUnit where
  header : MethodHeader
  maxLocals : UInt16
  code : Array UInt8
  handlers : List HandlerRow
  lines : List LineRow
  deriving DecidableEq

namespace MethodUnit

/-- The method as a part of a class file, with its names added to the pool. -/
def toMethodInfo (unit : MethodUnit) : PoolM MethodInfo := do
  let lines ←
    if unit.lines.isEmpty then pure none
    else do
      let nameIndex ← ConstantPool.utf8 ClassFile.lineTableName
      pure (some { nameIndex, rows := unit.lines : LineTable })
  let nameIndex ← ConstantPool.utf8 unit.header.name
  let descriptorIndex ← ConstantPool.utf8 unit.header.descriptor
  let codeIndex ← ConstantPool.utf8 ClassFile.codeName
  return {
    access := unit.header.access
    nameIndex, descriptorIndex
    code := some {
      nameIndex := codeIndex
      maxStack := unit.header.maxStack
      maxLocals := unit.maxLocals
      bytes := unit.code
      handlers := unit.handlers
      lines
    }
  }

end MethodUnit

namespace Emitter

def new (header : MethodHeader) : Emitter :=
  ⟨header, .empty header.name Buffer.maxCodeLength, #[]⟩

def position (emitter : Emitter) : Nat := emitter.buffer.position

def append (emitter : Emitter) (fragment : Fragment) : Emitter :=
  { emitter with buffer := emitter.buffer.append fragment }

def markLine (emitter : Emitter) (line : UInt32) : Emitter :=
  { emitter with lines := emitter.lines.push (emitter.position, line) }

def labelPosition (emitter : Emitter) (label : Label) : BuildM UInt16 :=
  match emitter.buffer.labelPosition? label with
  | some position => return UInt16.ofNat position
  | none => throw (.assembly (.unresolvedLabel emitter.header.name label))

def handlerRow (emitter : Emitter) (handler : Handler) : BuildM HandlerRow := do
  let catchType ←
    match handler.className with
    | some name => Build.interned (ConstantPool.classRef name)
    | none => pure 0
  let start ← emitter.labelPosition handler.start
  let stop ← emitter.labelPosition handler.stop
  let position ← emitter.labelPosition handler.handler
  return ⟨start, stop, position, catchType⟩

/-- A row of the table of source lines. Lines past the greatest that fits are cut to it. -/
def lineRow (position : Nat) (line : UInt32) : LineRow :=
  ⟨UInt16.ofNat position, UInt16.ofNat (min line.toNat 65535)⟩

def finish (emitter : Emitter) (handlers : List Handler) (locals : Nat) : BuildM MethodUnit := do
  let rows ← handlers.mapM emitter.handlerRow
  let code ← Build.traced emitter.buffer.finish
  Build.report (.methodFinished emitter.header.name emitter.header.descriptor code.size locals)
  return {
    header := emitter.header
    maxLocals := UInt16.ofNat locals
    code
    handlers := rows
    lines := emitter.lines.toList.map fun (position, line) => lineRow position line
  }

end Emitter

namespace Emission

def onBuild {α : Type} (action : BuildM α) : EmitM α := fun ⟨build, emitter⟩ =>
  match action.run build with
  | (result, build) => (result, ⟨build, emitter⟩)

def emit (instruction : Insn) : EmitM Unit := do
  let fragment ← onBuild (instruction.link (← get).emitter.header.owner)
  modify fun ⟨build, emitter⟩ => ⟨build, emitter.append fragment⟩

def define (label : Label) : EmitM Unit := fun ⟨⟨pool, library, events⟩, ⟨header, buffer, lines⟩⟩ =>
  match buffer.define label with
  | (.ok event, buffer) =>
    (.ok (), ⟨⟨pool, library, events.push event⟩, ⟨header, buffer, lines⟩⟩)
  | (.error error, buffer) =>
    (.error (.assembly error), ⟨⟨pool, library, events⟩, ⟨header, buffer, lines⟩⟩)

def emitItem : Item → EmitM Unit
  | .insn instruction => emit instruction
  | .label label => define label
  | .sourceLine line => modify fun ⟨build, emitter⟩ => ⟨build, emitter.markLine line⟩
  | .request helper => onBuild (Build.request helper)

def emitItems : List Item → EmitM Unit
  | [] => return
  | first :: rest => do
    emitItem first
    emitItems rest

end Emission

namespace Draft

def assemble (draft : Draft) (header : MethodHeader) : BuildM Emitter := fun build =>
  match (Emission.emitItems draft.items.toList).run ⟨build, Emitter.new header⟩ with
  | (.ok _, ⟨build, emitter⟩) => (.ok emitter, build)
  | (.error error, ⟨build, _⟩) => (.error error, build)

def finish (draft : Draft) (header : MethodHeader) : BuildM MethodUnit := do
  let emitter ← draft.assemble header
  emitter.finish draft.handlers.toList draft.scope.nextSlot

end Draft

end BasicCompiler
