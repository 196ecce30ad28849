import BasicCompiler.Bytecode.Descriptor
import BasicCompiler.Method.Item

/-!
Drafts of methods. Code is drafted as a list of items, with local slots and labels handed out on the
way, and assembled afterwards.
-/

namespace BasicCompiler

inductive Initial where
  | number
  | text
  | null
  | int
  deriving DecidableEq, Repr

/-- The local slots and labels that a method has handed out. -/
structure Scope where
  nextSlot : Nat
  named : Std.HashMap String Nat
  /-- The slots with the values they start with, in the order they were handed out. -/
  initials : Array (Nat × Initial)
  nextLabel : Nat

namespace Scope

def ofDescriptor (descriptor : String) : Scope :=
  ⟨Descriptor.parameterSlots descriptor, ∅, #[], 0⟩

def temporary (scope : Scope) (initial : Initial) : Nat × Scope :=
  (scope.nextSlot,
    { scope with
      nextSlot := scope.nextSlot + 1
      initials := scope.initials.push (scope.nextSlot, initial) })

def slotOf (scope : Scope) (name : String) (initial : Initial) : Nat × Scope :=
  match scope.named[name]? with
  | some slot => (slot, scope)
  | none =>
    let slot := scope.nextSlot
    (slot,
      { scope with
        nextSlot := slot + 1
        named := scope.named.insert name slot
        initials := scope.initials.push (slot, initial) })

def freshLabel (scope : Scope) (stem : String) : Label × Scope :=
  (Label.numbered stem scope.nextLabel, { scope with nextLabel := scope.nextLabel + 1 })

def initializer (slot : Nat) : Initial → List Insn
  | .number => [.op Opcode.fconst0, .access Opcode.fstore slot]
  | .text => [.pushText "", .access Opcode.astore slot]
  | .null => [.op Opcode.aconstNull, .access Opcode.astore slot]
  | .int => [.op Opcode.iconst0, .access Opcode.istore slot]

def initializers (scope : Scope) : List Insn :=
  scope.initials.toList.flatMap fun (slot, initial) => initializer slot initial

end Scope

structure Draft where
  scope : Scope
  items : Array Item
  handlers : Array Handler

abbrev DraftM := StateM Draft

namespace Draft

def empty (descriptor : String) : Draft :=
  ⟨Scope.ofDescriptor descriptor, #[], #[]⟩

def addItem (item : Item) : DraftM Unit :=
  modify fun ⟨scope, items, handlers⟩ => ⟨scope, items.push item, handlers⟩

def emit (instruction : Insn) : DraftM Unit :=
  addItem (.insn instruction)

def emitAll : List Insn → DraftM Unit
  | [] => return
  | first :: rest => do
    emit first
    emitAll rest

def place (label : Label) : DraftM Unit :=
  addItem (.label label)

def freshLabel (stem : String) : DraftM Label := fun ⟨scope, items, handlers⟩ =>
  let (label, scope) := scope.freshLabel stem
  (label, ⟨scope, items, handlers⟩)

def temporary (initial : Initial) : DraftM Nat := fun ⟨scope, items, handlers⟩ =>
  let (slot, scope) := scope.temporary initial
  (slot, ⟨scope, items, handlers⟩)

def slotOf (name : String) (initial : Initial) : DraftM Nat := fun ⟨scope, items, handlers⟩ =>
  let (slot, scope) := scope.slotOf name initial
  (slot, ⟨scope, items, handlers⟩)

def addHandler (handler : Handler) : DraftM Unit :=
  modify fun ⟨scope, items, handlers⟩ => ⟨scope, items, handlers.push handler⟩

def emitInitializers : DraftM Unit := do
  emitAll (← get).scope.initializers

def op (opcode : Opcode) : DraftM Unit := emit (.op opcode)

def branch (opcode : Opcode) (target : Label) : DraftM Unit := emit (.branch opcode target)

def goto (target : Label) : DraftM Unit := branch Opcode.goto target

def pushFloat (value : Single) : DraftM Unit := emit (.pushFloat value)

def pushInt (value : Int32) : DraftM Unit := emit (.pushInt value)

def pushChar (character : Char) : DraftM Unit := pushInt (Int32.ofNat character.toNat)

def pushText (text : String) : DraftM Unit := emit (.pushText text)

def fload (slot : Nat) : DraftM Unit := emit (.access Opcode.fload slot)

def fstore (slot : Nat) : DraftM Unit := emit (.access Opcode.fstore slot)

def iload (slot : Nat) : DraftM Unit := emit (.access Opcode.iload slot)

def istore (slot : Nat) : DraftM Unit := emit (.access Opcode.istore slot)

def aload (slot : Nat) : DraftM Unit := emit (.access Opcode.aload slot)

def astore (slot : Nat) : DraftM Unit := emit (.access Opcode.astore slot)

def increment (slot : Nat) (amount : Int8) : DraftM Unit := emit (.increment slot amount)

def getStatic (owner name descriptor : String) : DraftM Unit :=
  emit (.field Opcode.getstatic ⟨owner, name, descriptor⟩)

def invokeStatic (owner name descriptor : String) : DraftM Unit :=
  emit (.invoke Opcode.invokestatic ⟨owner, name, descriptor⟩)

def invokeVirtual (owner name descriptor : String) : DraftM Unit :=
  emit (.invoke Opcode.invokevirtual ⟨owner, name, descriptor⟩)

def invokeSpecial (owner name descriptor : String) : DraftM Unit :=
  emit (.invoke Opcode.invokespecial ⟨owner, name, descriptor⟩)

def newDup (className : String) : DraftM Unit := emit (.newDup className)

def newArray (elementType : UInt8) : DraftM Unit := emit (.newArray elementType)

def call (helper : Helper) : DraftM Unit := emit (.call helper)

def getCell (cell : Cell) : DraftM Unit := emit (.getCell cell)

def putCell (cell : Cell) : DraftM Unit := emit (.putCell cell)

end Draft

end BasicCompiler
