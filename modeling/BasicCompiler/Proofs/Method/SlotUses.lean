import BasicCompiler.Proofs.Method.Typing

/-!
The loads and stores of local slots in the code of a method. Code that is typed uses the same slots
after it was decoded, in the same order.
-/

namespace BasicCompiler

/-- A use of a local slot by an instruction whose operand is the slot. -/
structure SlotUse where
  opcode : Opcode
  slot : Nat
  deriving DecidableEq, Repr

namespace Opcode

/-- Loads and stores of the first four slots can do without an operand. They stand for the opcode with
an operand. -/
def shortUse? (opcode : Opcode) : Option SlotUse :=
  let code := opcode.toNat
  if 0x1A ≤ code ∧ code ≤ 0x2D then
    some ⟨UInt8.ofNat (0x15 + (code - 0x1A) / 4), (code - 0x1A) % 4⟩
  else if 0x3B ≤ code ∧ code ≤ 0x4E then
    some ⟨UInt8.ofNat (0x36 + (code - 0x3B) / 4), (code - 0x3B) % 4⟩
  else none

def slotType? (opcode : Opcode) : Option ValueType :=
  if opcode = iload ∨ opcode = istore then some .int
  else if opcode = fload ∨ opcode = fstore then some .float
  else if opcode = aload ∨ opcode = astore then some .reference
  else none

theorem shortUse?_of_execute {opcode : Opcode} {stack after : StackType}
    (executes : opcode.execute stack = some after) : opcode.shortUse? = none := by
  have known : ∀ entry ∈ effects, entry.1.shortUse? = none := by decide
  by_cases moves : opcode = pop ∨ opcode = dup ∨ opcode = swap
  · rcases moves with rfl | rfl | rfl <;> decide
  · simp only [not_or] at moves
    simp only [Opcode.execute, if_neg moves.1, if_neg moves.2.1, if_neg moves.2.2] at executes
    cases found : effects.lookup opcode with
    | none => simp [found] at executes
    | some effect =>
        obtain ⟨front, back, isWhole, _⟩ := List.lookup_eq_some_iff.mp found
        exact known (opcode, effect) (by simp [isWhole])

end Opcode

def Instruction.slotUse? (instruction : Instruction) : Option SlotUse :=
  match instruction.slot with
  | some slot => some ⟨instruction.opcode, slot.toNat⟩
  | none => instruction.opcode.shortUse?

def Insn.slotUse? : Insn → Option SlotUse
  | access opcode slot => some ⟨opcode, slot⟩
  | increment slot _ => some ⟨Opcode.iinc, slot⟩
  | _ => none

namespace Item

def slotUse? : Item → Option SlotUse
  | insn instruction => instruction.slotUse?
  | _ => none

def slotUses (items : List Item) : List SlotUse := items.filterMap slotUse?

@[simp] theorem slotUses_append (first second : List Item) :
    slotUses (first ++ second) = slotUses first ++ slotUses second :=
  List.filterMap_append

theorem slotUses_eq_nil {items : List Item} (unused : ∀ item ∈ items, item.slotUse? = none) :
    slotUses items = [] :=
  List.filterMap_eq_nil_iff.mpr unused

end Item

/-- An instruction that can be executed and whose slot can be encoded. -/
structure Insn.Sensible (insn : Insn) : Prop where
  shaped : insn.Shaped
  executes : ∃ stack after, insn.execute stack = some after
  small : ∀ slot, insn.slot? = some slot → slot < 65536

namespace Insn

variable {pool : ConstantPool} {owner : String} {target : Label → Nat} {bytes : Array UInt8}
  {position : Nat} {insn : Insn} {instructions : List Instruction}

theorem Decoded.slotUses (decoded : insn.Decoded pool owner target bytes position instructions)
    (sensible : insn.Sensible) :
    instructions.filterMap Instruction.slotUse? = insn.slotUse?.toList := by
  obtain ⟨shaped, ⟨stack, after, executes⟩, small⟩ := sensible
  have slot {slot : Nat} (isSlot : insn.slot? = some slot) : (UInt16.ofNat slot).toNat = slot := by
    rw [UInt16.toNat_ofNat']
    exact Nat.mod_eq_of_lt (small slot isSlot)
  have unused {instruction : Instruction} (single : instructions = [instruction])
      (noSlot : instruction.slot = none) (long : instruction.opcode.shortUse? = none) :
      instructions.filterMap Instruction.slotUse? = [] := by
    simp [single, Instruction.slotUse?, noSlot, long]
  cases insn with
  | op | branch => exact unused decoded rfl (Opcode.shortUse?_of_execute executes)
  | tableSwitch | newArray => exact unused decoded rfl (by dsimp only; decide)
  | access opcode number =>
      obtain ⟨tail, rfl⟩ := decoded
      simp [Instruction.slotUse?, Insn.slotUse?, slot (rfl : (access opcode number).slot? = some number)]
  | increment number amount =>
      obtain ⟨tail, rfl⟩ := decoded
      simp [Instruction.slotUse?, Insn.slotUse?, slot (rfl : (increment number amount).slot? = some number)]
  | pushFloat =>
      rcases decoded with ⟨_, form⟩ | ⟨_, form⟩ | ⟨_, form⟩ | ⟨_, _, _, _, form | form⟩
      all_goals exact unused form rfl (by dsimp only; decide)
  | pushInt =>
      rcases decoded with ⟨number, bound, form⟩ | form | form | ⟨_, _, _, _, form | form⟩
      · have short : ∀ number ≤ 6, Opcode.shortUse? (UInt8.ofNat (number + 2)) = none := by decide
        exact unused form rfl (short number bound)
      all_goals exact unused form rfl (by dsimp only; decide)
  | pushText =>
      obtain ⟨_, _, _, _, form | form⟩ := decoded <;> exact unused form rfl (by dsimp only; decide)
  | field =>
      obtain ⟨_, _, form⟩ := decoded
      rcases shaped with rfl | rfl <;> exact unused form rfl (by dsimp only; decide)
  | invoke =>
      obtain ⟨_, _, form⟩ := decoded
      rcases shaped with rfl | rfl | rfl <;> exact unused form rfl (by dsimp only; decide)
  | newDup =>
      obtain ⟨_, _, rfl⟩ := decoded
      rfl
  | newRefArray | call | getCell | putCell =>
      obtain ⟨_, _, form⟩ := decoded
      exact unused form rfl (by dsimp only; decide)
  | newMultiArray =>
      obtain ⟨_, _, _, form⟩ := decoded
      exact unused form rfl (by dsimp only; decide)

end Insn

theorem Laid.slotUses {pool : ConstantPool} {owner : String} {target : Label → Nat} {code : Array UInt8}
    {position stop : Nat} {items : List Item} {instructions : List Instruction}
    (laid : Laid pool owner target code position items instructions stop)
    (sensible : ∀ insn, .insn insn ∈ items → insn.Sensible) :
    instructions.filterMap Instruction.slotUse? = Item.slotUses items := by
  induction laid with
  | nil => rfl
  | @insn _ _ _ insn items _ _ decoded _ _ ih =>
      have later := ih fun other member => sensible other (List.mem_cons_of_mem _ member)
      have here := decoded.slotUses (sensible insn (List.mem_cons_self ..))
      rw [List.filterMap_append, later, here]
      cases used : insn.slotUse? <;> simp [Item.slotUses, Item.slotUse?, used]
  | label _ _ ih | sourceLine _ ih | request _ ih =>
      exact ih fun other member => sensible other (List.mem_cons_of_mem _ member)

end BasicCompiler
