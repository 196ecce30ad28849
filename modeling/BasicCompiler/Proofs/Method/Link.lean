import BasicCompiler.Method.Link
import BasicCompiler.Proofs.Assembly.Resolve
import BasicCompiler.Proofs.Bytecode.Decode
import BasicCompiler.Proofs.ClassFile.Pool

/-!
Linked instructions decode to what they stand for: the opcode, the local slot and the branch targets
are those of the symbolic instruction, and the index of a constant names its operand in the pool.
-/

namespace BasicCompiler

open Instruction BigEndian

variable {position slot : Nat} {code : Array UInt8} {pool extended : ConstantPool} {owner : String}
  {target : Label → Nat} {α : Type} {value : Int32} {insn : Insn} {opcode : Opcode}
  {action : PoolM UInt16}

namespace MemberRef

def IsFieldAt (member : MemberRef) (pool : ConstantPool) (index : UInt16) : Prop :=
  (∃ owner parts, pool.lookup index = .ok (.fieldRef owner parts)) ∧
    pool.memberAt index = .ok (member.owner, member.name, member.descriptor)

def IsMethodAt (member : MemberRef) (pool : ConstantPool) (index : UInt16) : Prop :=
  (∃ owner parts, pool.lookup index = .ok (.methodRef owner parts)) ∧
    pool.memberAt index = .ok (member.owner, member.name, member.descriptor)

end MemberRef

namespace Instruction

def lowKey (code : Array UInt8) (instruction : Instruction) : Except ClassFileError Int :=
  int32At code (instruction.position + 1 + switchPadding instruction.position + 4)

/-- The integer that an instruction pushes: a small one of its own, an operand of one or two bytes, or
a constant of the pool. -/
def pushed? (pool : ConstantPool) (code : Array UInt8) (instruction : Instruction) : Option Int :=
  if 2 ≤ instruction.opcode.toNat ∧ instruction.opcode.toNat ≤ 8 then
    some (instruction.opcode.toNat - 3)
  else if instruction.opcode = Opcode.bipush then
    code[instruction.position + 1]?.map fun byte => byte.toInt8.toInt
  else if instruction.opcode = Opcode.sipush then
    (int16At code (instruction.position + 1)).toOption
  else if instruction.opcode = Opcode.ldc ∨ instruction.opcode = Opcode.ldcW then
    match instruction.poolIndex.map pool.lookup with
    | some (.ok (.integer value)) => some value.toInt
    | _ => none
  else none

/-- What the increment at a position adds: one byte, or two where the instruction is widened. -/
def amountAt? (code : Array UInt8) (position : Nat) : Option Int :=
  if code[position]? = some Opcode.wide then (int16At code (position + 4)).toOption
  else code[position + 2]?.map fun byte => byte.toInt8.toInt

end Instruction

namespace Insn

/-- The opcode of an instruction has the operands that it is given. A table that is too long for a
method may have any keys. -/
def Shaped : Insn → Prop
  | op opcode => opcode.shape = .plain 0
  | branch opcode _ => opcode.shape = .branch
  | tableSwitch low targets _ =>
    targets ≠ [] ∧ (targets.length < 16384 → low.toInt + targets.length ≤ 2147483648)
  | access opcode _ => opcode.accessesSlot = true
  | field opcode _ => opcode = Opcode.getstatic ∨ opcode = Opcode.putstatic
  | invoke opcode _ =>
    opcode = Opcode.invokevirtual ∨ opcode = Opcode.invokespecial ∨ opcode = Opcode.invokestatic
  | increment _ _ | pushFloat _ | pushInt _ | pushText _ | newDup _ | newArray _ | newRefArray _
  | newMultiArray _ _ | call _ | getCell _ | putCell _ => True

def labels : Insn → List Label
  | branch _ label => [label]
  | tableSwitch _ labels default => default :: labels
  | op _ | pushFloat _ | pushInt _ | pushText _ | access _ _ | increment _ _ | field _ _
  | invoke _ _ | newDup _ | newArray _ | newRefArray _ | newMultiArray _ _ | call _ | getCell _
  | putCell _ => []

def room : Insn → Nat
  | tableSwitch _ targets _ => 16 + 4 * targets.length
  | _ => 6

def Loads (pool : ConstantPool) (position : Nat) (holds : Constant → Prop)
    (instructions : List Instruction) : Prop :=
  ∃ index entry, pool.lookup index = .ok entry ∧ holds entry ∧
    (instructions = [{ position, opcode := Opcode.ldc, tail := 1, poolIndex := some index }] ∨
      instructions = [{ position, opcode := Opcode.ldcW, tail := 2, poolIndex := some index }])

def Refers (position : Nat) (opcode : Opcode) (names : UInt16 → Prop)
    (instructions : List Instruction) : Prop :=
  ∃ index, names index ∧
    instructions = [{ position, opcode, tail := 2, poolIndex := some index }]

/-- What a symbolic instruction of the class `owner` decodes to at a position, when labels have the
positions of `target`. -/
def Decoded (pool : ConstantPool) (owner : String) (target : Label → Nat) (code : Array UInt8)
    (position : Nat) : Insn → List Instruction → Prop
  | op opcode, instructions => instructions = [{ position, opcode, tail := 0 }]
  | branch opcode label, instructions =>
    instructions = [{ position, opcode, tail := 2, targets := [target label] }]
  | tableSwitch _ labels default, instructions =>
    instructions = [{
      position
      opcode := Opcode.tableswitch
      tail := switchPadding position + 12 + 4 * labels.length
      targets := labels.map target ++ [target default] }]
  | pushFloat value, instructions =>
    (value = .zero ∧ instructions = [{ position, opcode := Opcode.fconst0, tail := 0 }]) ∨
      (value = .one ∧ instructions = [{ position, opcode := Opcode.fconst1, tail := 0 }]) ∨
      (value = .two ∧ instructions = [{ position, opcode := Opcode.fconst2, tail := 0 }]) ∨
      Loads pool position (.float value = ·) instructions
  | pushInt value, instructions =>
    (∃ small, small ≤ 6 ∧
        instructions = [{ position, opcode := UInt8.ofNat (small + 2), tail := 0 }]) ∨
      instructions = [{ position, opcode := Opcode.bipush, tail := 1 }] ∨
      instructions = [{ position, opcode := Opcode.sipush, tail := 2 }] ∨
      Loads pool position (.integer value = ·) instructions
  | pushText text, instructions =>
    Loads pool position
      (fun entry => ∃ content, entry = .string content ∧ pool.textAt content = .ok text) instructions
  | access opcode slot, instructions =>
    ∃ tail, instructions = [{ position, opcode, tail, slot := some (UInt16.ofNat slot) }]
  | increment slot _, instructions =>
    ∃ tail, instructions =
      [{ position, opcode := Opcode.iinc, tail, slot := some (UInt16.ofNat slot) }]
  | field opcode member, instructions =>
    Refers position opcode (member.IsFieldAt pool) instructions
  | invoke opcode member, instructions =>
    Refers position opcode (member.IsMethodAt pool) instructions
  | newDup className, instructions =>
    ∃ index, pool.classNameAt index = .ok className ∧ instructions =
      [{ position, opcode := Opcode.new, tail := 2, poolIndex := some index },
        { position := position + 3, opcode := Opcode.dup, tail := 0 }]
  | newArray _, instructions => instructions = [{ position, opcode := Opcode.newarray, tail := 1 }]
  | newRefArray className, instructions =>
    Refers position Opcode.anewarray (pool.classNameAt · = .ok className) instructions
  | newMultiArray descriptor dimensions, instructions =>
    code[position + 3]? = some dimensions ∧ ∃ index, pool.classNameAt index = .ok descriptor ∧
      instructions =
        [{ position, opcode := Opcode.multianewarray, tail := 3, poolIndex := some index }]
  | call helper, instructions =>
    Refers position Opcode.invokestatic ((helperRef owner helper).IsMethodAt pool) instructions
  | getCell cell, instructions =>
    Refers position Opcode.getstatic ((cellRef owner cell).IsFieldAt pool) instructions
  | putCell cell, instructions =>
    Refers position Opcode.putstatic ((cellRef owner cell).IsFieldAt pool) instructions

def parts : Insn → Nat
  | newDup _ => 2
  | _ => 1

theorem parts_pos (insn : Insn) : 0 < insn.parts := by
  cases insn <;> simp [parts]

theorem Decoded.length_eq {instructions : List Instruction}
    (decoded : insn.Decoded pool owner target code position instructions) :
    instructions.length = insn.parts := by
  cases insn with
  | op | branch | tableSwitch | newArray =>
      rw [show instructions = _ from decoded]
      rfl
  | pushFloat value =>
      rcases decoded with ⟨_, rfl⟩ | ⟨_, rfl⟩ | ⟨_, rfl⟩ | ⟨_, _, _, _, rfl | rfl⟩ <;> rfl
  | pushInt value =>
      rcases decoded with ⟨_, _, rfl⟩ | rfl | rfl | ⟨_, _, _, _, rfl | rfl⟩ <;> rfl
  | pushText text =>
      rcases decoded with ⟨_, _, _, _, rfl | rfl⟩ <;> rfl
  | access | increment =>
      obtain ⟨_, rfl⟩ := decoded
      rfl
  | field | invoke | newDup | newRefArray | call | getCell | putCell =>
      obtain ⟨_, _, rfl⟩ := decoded
      rfl
  | newMultiArray descriptor dimensions =>
      obtain ⟨_, _, _, rfl⟩ := decoded
      rfl

/-- What the code at a position holds of an instruction besides what it decodes to: the first key of a
table and the value of an integer. -/
def Told (pool : ConstantPool) (code : Array UInt8) (position : Nat) : Insn → Prop
  | tableSwitch low _ _ => ∀ instruction, decodeAt code position = .ok instruction →
    instruction.lowKey code = .ok low.toInt
  | pushInt value => ∀ instruction, decodeAt code position = .ok instruction →
    instruction.pushed? pool code = some value.toInt
  | _ => True

/-- The operands of an instruction that decoding passes over: the amount of an increment and the type of
the elements of an array. -/
def Immediate (code : Array UInt8) (position : Nat) : Insn → Prop
  | increment _ amount => amountAt? code position = some amount.toInt
  | newArray elementType => code[position + 1]? = some elementType
  | _ => True

end Insn

namespace Fragment

def InRange (target : Label → Nat) (position : Nat) : Fragment → Prop
  | bytes _ => True
  | branch _ label =>
    -32768 ≤ (target label : Int) - position ∧ (target label : Int) - position ≤ 32767
  | tableSwitch _ labels default =>
    position ≤ 65535 ∧ labels.length < 16384 ∧ ∀ label ∈ default :: labels, target label ≤ 65535

/-- A fragment has the labels of a symbolic instruction, stays within its room and, wherever it is
written, decodes to what the instruction stands for. -/
structure Denotes (pool : ConstantPool) (owner : String) (insn : Insn) (fragment : Fragment) : Prop
    where
  labels : fragment.labels = insn.labels
  size : ∀ position, fragment.size position ≤ insn.room
  decodes : insn.Shaped → ∀ target code position, fragment.InRange target position →
    Holds code position (fragment.render target position) →
      ∃ instructions, insn.Decoded pool owner target code position instructions ∧
        Decodes code position instructions (position + (fragment.render target position).length)
  told : ∀ target code position, Holds code position (fragment.render target position) →
    insn.Told pool code position
  immediate : ∀ target code position, Holds code position (fragment.render target position) →
    insn.Immediate code position

end Fragment

namespace Insn

theorem Decodes.single {tail : Nat} {instruction : Instruction}
    (decoded : decodeAt code position = .ok instruction) (tailEq : instruction.tail = tail) :
    Decodes code position [instruction] (position + (tail + 1)) := by
  refine ⟨decoded, ?_⟩
  simp only [Decodes, Instruction.length, tailEq]

def loading (position : Nat) (index : UInt16) : Instruction :=
  if index.toNat ≤ 255 then { position, opcode := Opcode.ldc, tail := 1, poolIndex := some index }
  else { position, opcode := Opcode.ldcW, tail := 2, poolIndex := some index }

theorem loading_decodes {index : UInt16} (written : Holds code position (loadConstant index)) :
    Decodes code position [loading position index] (position + (loadConstant index).length) := by
  unfold loadConstant at written ⊢
  unfold loading
  split at written
  · rename_i small
    rw [if_pos small, if_pos small]
    have same : index.toUInt8.toUInt16 = index := by
      apply UInt16.toNat_inj.mp
      rw [UInt8.toNat_toUInt16, UInt16.toNat_toUInt8]
      omega
    have decoded := decodeAt_poolByte (by decide) written
    rw [same] at decoded
    exact Decodes.single decoded rfl
  · rename_i large
    rw [if_neg large, if_neg large]
    have shape : Opcode.ldcW.shape = .poolWord 0 := by decide
    have decoded := decodeAt_poolWord [] shape (by simpa using written)
    exact Decodes.single decoded rfl

theorem loads_loading {index : UInt16} {entry : Constant} {holds : Constant → Prop}
    (found : pool.lookup index = .ok entry) (accepted : holds entry) (position : Nat) :
    Loads pool position holds [loading position index] := by
  refine ⟨index, entry, found, accepted, ?_⟩
  unfold loading
  split
  · exact .inl rfl
  · exact .inr rfl

theorem narrow_slot (small : slot ≤ 255) :
    (UInt8.ofNat slot).toUInt16 = UInt16.ofNat slot := by
  apply UInt16.toNat_inj.mp
  rw [UInt8.toNat_toUInt16, UInt8.toNat_ofNat', UInt16.toNat_ofNat']
  omega

theorem slotBytes_decodes (accesses : opcode.accessesSlot = true)
    (written : Holds code position (slotBytes opcode slot)) :
    Decodes code position
      [{ position
         opcode
         tail := if slot ≤ 255 then 1 else 3
         slot := some (UInt16.ofNat slot) }]
      (position + (slotBytes opcode slot).length) := by
  unfold slotBytes at written ⊢
  split at written
  · rename_i small
    rw [if_pos small, if_pos small]
    have shape : opcode.shape = .slotByte 0 := by simp only [Opcode.shape, accesses, if_true]
    have decoded := decodeAt_slotByte [] shape written
    rw [narrow_slot small] at decoded
    exact Decodes.single decoded rfl
  · rename_i large
    rw [if_neg large, if_neg large]
    exact Decodes.single (decodeAt_widened accesses written) rfl

theorem incrementBytes_decodes (amount : Int8) (written : Holds code position (incrementBytes slot amount)) :
    Decodes code position
      [{ position
         opcode := Opcode.iinc
         tail := if slot ≤ 255 then 2 else 5
         slot := some (UInt16.ofNat slot) }]
      (position + (incrementBytes slot amount).length) := by
  unfold incrementBytes at written ⊢
  split at written
  · rename_i small
    rw [if_pos small, if_pos small]
    have shape : Opcode.iinc.shape = .slotByte 1 := by decide
    have decoded := decodeAt_slotByte [amount.toUInt8] shape written
    rw [narrow_slot small] at decoded
    exact Decodes.single decoded rfl
  · rename_i large
    rw [if_neg large, if_neg large]
    exact Decodes.single (decodeAt_widenedIncrement written) rfl

theorem tableSwitch_decodes {low : Int32} {labels : List Label} {default : Label} (some : labels ≠ [])
    (keys : low.toInt + labels.length ≤ 2147483648)
    (inRange : (Fragment.tableSwitch low labels default).InRange target position)
    (written : Holds code position ((Fragment.tableSwitch low labels default).render target position)) :
    Decodes code position
      [{ position
         opcode := Opcode.tableswitch
         tail := switchPadding position + 12 + 4 * labels.length
         targets := labels.map target ++ [target default] }]
      (position + ((Fragment.tableSwitch low labels default).render target position).length) := by
  obtain ⟨positionBound, _, targetBound⟩ := inRange
  have positive : 0 < labels.length := List.length_pos_iff.mpr some
  have lower : -2147483648 ≤ low.toInt := low.le_toInt
  have high : (Buffer.highKey low labels).toInt = low.toInt + (labels.map target).length - 1 := by
    rw [List.length_map, Buffer.highKey, Int32.toInt_ofInt_of_le (by omega) (by omega)]
  have decoded := decodeAt_tableSwitch positionBound (targetBound default (by simp))
    (by
      intro position member
      obtain ⟨label, isLabel, rfl⟩ := List.mem_map.mp member
      exact targetBound label (by simp [isLabel]))
    (by simpa using some) high written
  rw [List.length_map] at decoded
  rw [Fragment.render, List.length_cons, switchBytes_length, List.length_map]
  exact Decodes.single decoded rfl

theorem small_shape {small : Nat} (bound : small ≤ 6) :
    Opcode.shape (UInt8.ofNat (small + 2)) = .plain 0 := by
  have cases : small = 0 ∨ small = 1 ∨ small = 2 ∨ small = 3 ∨ small = 4 ∨ small = 5 ∨
      small = 6 := by omega
  rcases cases with rfl | rfl | rfl | rfl | rfl | rfl | rfl <;> decide

end Insn

namespace Build

def Adds {α : Type} (action : BuildM α) (result : α → ConstantPool → Prop) : Prop :=
  ∀ build, Ends action build
    (fun value final => build.pool.Extends final.pool ∧ (build.pool.Indexed → result value final.pool))
    (fun error final => build.pool.Extends final.pool ∧ ∃ cause, error = .classFile cause)

theorem ends_interned (action : PoolM α) (build : Build) (success : α → Build → Prop)
    (failure : CompileError → Build → Prop) :
    Ends (interned action) build success failure ↔
      Ends action build.pool (fun value pool => success value { build with pool })
        (fun error pool => failure (.classFile error) { build with pool }) := by
  obtain ⟨pool, library, events⟩ := build
  unfold Ends interned
  simp only [ExceptT.run]
  generalize action pool = outcome
  rcases outcome with ⟨result | result, final⟩ <;> rfl

theorem interned_adds {action : PoolM α} {result : α → ConstantPool → Prop}
    (adds : ConstantPool.Adds action result) : Adds (interned action) result := by
  intro build
  rw [ends_interned]
  exact (adds build.pool).mono (fun _ _ ends => ends) (fun error _ grown => ⟨grown, error, rfl⟩)

theorem Adds.pure {value : α} {result : α → ConstantPool → Prop} (holds : ∀ pool, result value pool) :
    Adds (Pure.pure value) result :=
  fun _ => ⟨.refl _, fun _ => holds _⟩

theorem Adds.map {β : Type} {action : BuildM α} {change : α → β} {result : α → ConstantPool → Prop}
    {changed : β → ConstantPool → Prop} (adds : Adds action result)
    (implies : ∀ value pool, result value pool → changed (change value) pool) :
    Adds (do return change (← action)) changed := by
  intro build
  rw [ends_bind]
  refine (adds build).imp ?_
  rintro value final ⟨grown, found⟩
  exact ⟨grown, fun indexed => implies value final.pool (found indexed)⟩

theorem Adds.after {β : Type} {first : BuildM α} {next : α → BuildM β} {result : β → ConstantPool → Prop}
    (silent : ∀ build, Ends first build (fun _ final => final.pool = build.pool) fun _ _ => False)
    (adds : ∀ value, Adds (next value) result) : Adds (first >>= next) result := by
  intro build
  rw [ends_bind]
  refine (silent build).mono ?_ (fun _ _ impossible => impossible.elim)
  intro value middle same
  rw [← same]
  exact adds value middle

theorem request_silent (helper : Helper) (build : Build) :
    Ends (request helper) build (fun _ final => final.pool = build.pool) fun _ _ => False := by
  unfold request
  rw [ends_modify]
  change (if build.library.requests helper then _ else _ : Build).pool = _
  split <;> rfl

end Build

namespace Insn

def constantIndex? (owner : String) : Insn → Option (PoolM UInt16)
  | pushFloat value =>
    if value = .zero ∨ value = .one ∨ value = .two then none else some (ConstantPool.float value)
  | pushInt value =>
    if -32768 ≤ value.toInt ∧ value.toInt ≤ 32767 then none else some (ConstantPool.integer value)
  | pushText text => some (ConstantPool.string text)
  | field _ member => some (ConstantPool.fieldRef member.owner member.name member.descriptor)
  | invoke _ member => some (ConstantPool.methodRef member.owner member.name member.descriptor)
  | newDup name | newRefArray name | newMultiArray name _ => some (ConstantPool.classRef name)
  | call helper =>
    let member := helperRef owner helper
    some (ConstantPool.methodRef member.owner member.name member.descriptor)
  | getCell cell | putCell cell =>
    let member := cellRef owner cell
    some (ConstantPool.fieldRef member.owner member.name member.descriptor)
  | op _ | branch _ _ | tableSwitch _ _ _ | access _ _ | increment _ _ | newArray _ => none

/-- The instructions that stand for a symbolic one at a position, when its constant has an index and
labels have the positions of `target`. -/
def instructions (target : Label → Nat) (position : Nat) (index : Option UInt16) :
    Insn → List Instruction
  | op opcode => [{ position, opcode, tail := 0 }]
  | branch opcode label => [{ position, opcode, tail := 2, targets := [target label] }]
  | tableSwitch _ labels default =>
    [{ position
       opcode := Opcode.tableswitch
       tail := switchPadding position + 12 + 4 * labels.length
       targets := labels.map target ++ [target default] }]
  | pushFloat value =>
    match index with
    | some index => [loading position index]
    | none =>
      let opcode :=
        if value = .zero then Opcode.fconst0
        else if value = .one then Opcode.fconst1
        else Opcode.fconst2
      [{ position, opcode, tail := 0 }]
  | pushInt value =>
    match index with
    | some index => [loading position index]
    | none =>
      if -1 ≤ value.toInt ∧ value.toInt ≤ 5 then
        [{ position, opcode := UInt8.ofNat (value.toInt + 3).toNat, tail := 0 }]
      else if -128 ≤ value.toInt ∧ value.toInt ≤ 127 then
        [{ position, opcode := Opcode.bipush, tail := 1 }]
      else [{ position, opcode := Opcode.sipush, tail := 2 }]
  | pushText _ => [loading position (index.getD 0)]
  | access opcode slot =>
    [{ position
       opcode
       tail := if slot ≤ 255 then 1 else 3
       slot := some (UInt16.ofNat slot) }]
  | increment slot _ =>
    [{ position
       opcode := Opcode.iinc
       tail := if slot ≤ 255 then 2 else 5
       slot := some (UInt16.ofNat slot) }]
  | field opcode _ | invoke opcode _ => [{ position, opcode, tail := 2, poolIndex := index }]
  | newDup _ =>
    [{ position, opcode := Opcode.new, tail := 2, poolIndex := index },
      { position := position + 3, opcode := Opcode.dup, tail := 0 }]
  | newArray _ => [{ position, opcode := Opcode.newarray, tail := 1 }]
  | newRefArray _ => [{ position, opcode := Opcode.anewarray, tail := 2, poolIndex := index }]
  | newMultiArray _ _ =>
    [{ position, opcode := Opcode.multianewarray, tail := 3, poolIndex := index }]
  | call _ => [{ position, opcode := Opcode.invokestatic, tail := 2, poolIndex := index }]
  | getCell _ => [{ position, opcode := Opcode.getstatic, tail := 2, poolIndex := index }]
  | putCell _ => [{ position, opcode := Opcode.putstatic, tail := 2, poolIndex := index }]

theorem instructions_length (target : Label → Nat) (position : Nat) (index : Option UInt16)
    (insn : Insn) : (insn.instructions target position index).length = insn.parts := by
  cases insn with
  | pushFloat value => cases index <;> rfl
  | pushInt value =>
      simp only [instructions]
      split
      · rfl
      · split
        · rfl
        · split <;> rfl
  | _ => rfl

theorem constant_float {value : Single} (refers : (pushFloat value).constantIndex? owner = some action) :
    action = ConstantPool.float value := by
  simp only [constantIndex?] at refers
  split at refers <;> cases refers
  rfl

theorem constant_int (refers : (pushInt value).constantIndex? owner = some action) :
    action = ConstantPool.integer value := by
  simp only [constantIndex?] at refers
  split at refers <;> cases refers
  rfl

/-- What an instruction enters in the library of its class. -/
def announce : Insn → BuildM Unit
  | call helper => Build.request helper
  | getCell cell | putCell cell => Build.register cell
  | _ => return

/-- The code of an instruction whose constant has an index. -/
def fragment (index : Option UInt16) : Insn → Fragment
  | op opcode => .bytes [opcode]
  | branch opcode target => .branch opcode target
  | tableSwitch low targets default => .tableSwitch low targets default
  | pushFloat value =>
    match index with
    | some index => .bytes (loadConstant index)
    | none => .bytes [
        if value = .zero then Opcode.fconst0
        else if value = .one then Opcode.fconst1
        else Opcode.fconst2]
  | pushInt value =>
    match index with
    | some index => .bytes (loadConstant index)
    | none => .bytes <|
        if -1 ≤ value.toInt ∧ value.toInt ≤ 5 then [UInt8.ofNat (value.toInt + 3).toNat]
        else if -128 ≤ value.toInt ∧ value.toInt ≤ 127 then [Opcode.bipush, value.toInt8.toUInt8]
        else Opcode.sipush :: encode16 value.toInt16.toUInt16
  | pushText _ => .bytes (loadConstant (index.getD 0))
  | access opcode slot => .bytes (slotBytes opcode slot)
  | increment slot amount => .bytes (incrementBytes slot amount)
  | field opcode _ | invoke opcode _ => .bytes (withIndex opcode (index.getD 0))
  | newDup _ => .bytes (withIndex Opcode.new (index.getD 0) ++ [Opcode.dup])
  | newArray elementType => .bytes [Opcode.newarray, elementType]
  | newRefArray _ => .bytes (withIndex Opcode.anewarray (index.getD 0))
  | newMultiArray _ dimensions =>
    .bytes (withIndex Opcode.multianewarray (index.getD 0) ++ [dimensions])
  | call _ => .bytes (withIndex Opcode.invokestatic (index.getD 0))
  | getCell _ => .bytes (withIndex Opcode.getstatic (index.getD 0))
  | putCell _ => .bytes (withIndex Opcode.putstatic (index.getD 0))

/-- Linking is the same for all instructions: the library gets what they use, the pool their constant,
and the index of the constant gives the code. -/
theorem link_eq (owner : String) (insn : Insn) :
    insn.link owner = (do
      insn.announce
      match insn.constantIndex? owner with
      | none => return insn.fragment none
      | some action => return insn.fragment (some (← Build.interned action))) := by
  cases insn with
  | pushFloat value =>
      simp only [link, linkFloat, announce, constantIndex?, fragment, pure_bind]
      by_cases short : value = .zero ∨ value = .one ∨ value = .two
      · rcases short with rfl | rfl | rfl <;> rfl
      · obtain ⟨notZero, notOne, notTwo⟩ : value ≠ .zero ∧ value ≠ .one ∧ value ≠ .two := by
          simpa only [not_or] using short
        simp only [if_neg notZero, if_neg notOne, if_neg notTwo, if_neg short, bind_assoc, pure_bind]
  | pushInt value =>
      simp only [link, linkInt, announce, constantIndex?, fragment, pure_bind]
      by_cases short : -32768 ≤ value.toInt ∧ value.toInt ≤ 32767
      · simp only [if_pos short]
        split_ifs <;> simp only [pure_bind]
      · have small : ¬ (-1 ≤ value.toInt ∧ value.toInt ≤ 5) := by omega
        have byte : ¬ (-128 ≤ value.toInt ∧ value.toInt ≤ 127) := by omega
        simp only [if_neg short, if_neg small, if_neg byte, bind_assoc, pure_bind]
  | _ =>
      simp only [link, linkField, linkMethod, linkClass, announce, constantIndex?, fragment, pure_bind, bind_assoc,
        Option.getD_some]

theorem announce_silent (insn : Insn) (build : Build) :
    Ends insn.announce build (fun _ final => final.pool = build.pool) fun _ _ => False := by
  cases insn with
  | call helper => exact Build.request_silent helper build
  | _ => rfl

theorem loadConstant_length (index : UInt16) : (loadConstant index).length ≤ 6 := by
  unfold loadConstant
  split <;> exact Nat.le_of_ble_eq_true rfl

theorem slotBytes_length (opcode : Opcode) (slot : Nat) : (slotBytes opcode slot).length ≤ 6 := by
  unfold slotBytes
  split <;> exact Nat.le_of_ble_eq_true rfl

theorem incrementBytes_length (slot : Nat) (amount : Int8) :
    (incrementBytes slot amount).length ≤ 6 := by
  unfold incrementBytes
  split <;> exact Nat.le_of_ble_eq_true rfl

theorem tableSwitch_size (low : Int32) (labels : List Label) (default : Label) (position : Nat) :
    (Fragment.tableSwitch low labels default).size position ≤ (tableSwitch low labels default).room := by
  have padding : switchPadding position < 4 := Nat.mod_lt _ (by decide)
  rw [Fragment.size, Fragment.raw_length (fun _ => 0), Fragment.render, List.length_cons,
    switchBytes_length, List.length_map, room]
  omega

theorem told_small (small : -1 ≤ value.toInt ∧ value.toInt ≤ 5)
    (written : Holds code position [UInt8.ofNat (value.toInt + 3).toNat]) :
    (pushInt value).Told pool code position := by
  intro instruction decoded
  have opcode : (value.toInt + 3).toNat = (value.toInt + 1).toNat + 2 := by omega
  have number : (UInt8.ofNat ((value.toInt + 1).toNat + 2)).toNat = (value.toInt + 1).toNat + 2 := by
    rw [UInt8.toNat_ofNat']
    omega
  rw [opcode] at written
  have known := decodeAt_plain (small_shape (by omega)) written
  cases decoded.symm.trans known
  simp only [pushed?, number]
  rw [if_pos (by omega)]
  exact congrArg some (by omega)

theorem told_byte (small : -128 ≤ value.toInt ∧ value.toInt ≤ 127)
    (written : Holds code position [Opcode.bipush, value.toInt8.toUInt8]) :
    (pushInt value).Told pool code position := by
  intro instruction decoded
  have shape : Opcode.bipush.shape = .plain 1 := by decide
  have known := decodeAt_plain shape written
  cases decoded.symm.trans known
  have operand : code[position + 1]? = some value.toInt8.toUInt8 := written.2.1
  have same : value.toInt8.toInt = value.toInt := by
    rw [Int32.toInt_toInt8]
    exact Int.bmod_eq_of_le (by omega) (by omega)
  simp [pushed?, operand, same, Opcode.bipush]

theorem told_word (small : -32768 ≤ value.toInt ∧ value.toInt ≤ 32767)
    (written : Holds code position (Opcode.sipush :: encode16 value.toInt16.toUInt16)) :
    (pushInt value).Told pool code position := by
  intro instruction decoded
  have shape : Opcode.sipush.shape = .plain 2 := by decide
  have known := decodeAt_plain shape written
  cases decoded.symm.trans known
  have same : value.toInt16.toInt = value.toInt := by
    rw [Int32.toInt_toInt16]
    exact Int.bmod_eq_of_le (by omega) (by omega)
  have operand : int16At code (position + 1) = .ok value.toInt := by
    simp only [int16At, word16At_eq written.2, bind, Except.bind, pure, Except.pure,
      Int16.toInt16_toUInt16, same]
  simp [pushed?, operand, Opcode.bipush, Opcode.sipush, Except.toOption]

theorem told_constant {index : UInt16} (found : pool.lookup index = .ok (.integer value))
    (written : Holds code position (loadConstant index)) : (pushInt value).Told pool code position := by
  intro instruction decoded
  cases decoded.symm.trans (loading_decodes written).1
  unfold loading
  split
  · simp [pushed?, found, Opcode.bipush, Opcode.sipush, Opcode.ldc]
  · simp [pushed?, found, Opcode.bipush, Opcode.sipush, Opcode.ldc, Opcode.ldcW]

theorem told_switch {low : Int32} {labels : List Label} {default : Label}
    (written : Holds code position ((Fragment.tableSwitch low labels default).render target position)) :
    (tableSwitch low labels default).Told pool code position := by
  intro instruction decoded
  have fields := written.2
  simp only [switchBytes, holds_append, List.length_replicate, encode32_length] at fields
  rw [lowKey, decodeAt_position decoded]
  exact int32At_eq fields.2.2.1

theorem increment_immediate {amount : Int8} (written : Holds code position (incrementBytes slot amount)) :
    (increment slot amount).Immediate code position := by
  unfold incrementBytes at written
  split at written
  · have first : code[position]? ≠ some Opcode.wide := by
      rw [written.1]
      decide
    have operand : code[position + 2]? = some amount.toUInt8 := written.2.2.1
    rw [Immediate, amountAt?, if_neg first, operand]
    rfl
  · obtain ⟨first, _, fields⟩ := written
    have amountField := ((holds_append _ _ _ _).mp fields).2
    have same : amount.toInt16.toInt = amount.toInt := Int8.toInt_toInt16 amount
    have operand : int16At code (position + 4) = .ok amount.toInt := by
      have word := word16At_eq amountField
      simp only [int16At, encode16_length] at word ⊢
      rw [word]
      simp only [bind, Except.bind, pure, Except.pure, Int16.toInt16_toUInt16, same]
    rw [Immediate, amountAt?, if_pos first, operand]
    rfl

end Insn

/-- A fragment has the labels of a symbolic instruction and, wherever it is written, decodes to the
instructions that stand for it. -/
structure Fragment.Shows (insn : Insn) (index : Option UInt16) (fragment : Fragment) : Prop where
  labels : fragment.labels = insn.labels
  decodes : insn.Shaped → ∀ target code position, fragment.InRange target position →
    Holds code position (fragment.render target position) →
      Decodes code position (insn.instructions target position index)
        (position + (fragment.render target position).length)

namespace Insn

variable {index : Option UInt16}

theorem shows_plain {opcode : UInt8} {operands : List UInt8}
    (jumpless : insn.labels = []) (shape : Opcode.shape opcode = .plain operands.length)
    (stands : ∀ target position, insn.instructions target position index =
      [{ position, opcode, tail := operands.length }]) :
    (Fragment.bytes (opcode :: operands)).Shows insn index := by
  refine ⟨jumpless.symm, ?_⟩
  intro _ target code position _ written
  rw [stands]
  exact Decodes.single (decodeAt_plain shape written) rfl

theorem shows_loading {index : UInt16} (jumpless : insn.labels = [])
    (stands : ∀ target position, insn.instructions target position (some index) =
      [loading position index]) :
    (Fragment.bytes (loadConstant index)).Shows insn (some index) := by
  refine ⟨jumpless.symm, ?_⟩
  intro _ target code position _ written
  rw [stands]
  exact loading_decodes written

theorem shows_withIndex {index : UInt16} (more : List UInt8) (jumpless : insn.labels = [])
    (shape : insn.Shaped → opcode.shape = .poolWord more.length)
    (stands : ∀ target position, insn.instructions target position (some index) =
      [{ position, opcode, tail := 2 + more.length, poolIndex := some index }]) :
    (Fragment.bytes (withIndex opcode index ++ more)).Shows insn (some index) := by
  refine ⟨jumpless.symm, ?_⟩
  intro shaped target code position _ written
  rw [stands]
  have length : (withIndex opcode index ++ more).length = 2 + more.length + 1 := by
    simp [withIndex, encode16]
    omega
  rw [Fragment.render, length]
  exact Decodes.single (decodeAt_poolWord more (shape shaped) written) rfl

/-- The code of an instruction decodes to the instructions that stand for it. -/
theorem fragment_shows (refers : index.isSome = (insn.constantIndex? owner).isSome) :
    (insn.fragment index).Shows insn index := by
  cases insn with
  | op opcode =>
      refine ⟨rfl, ?_⟩
      intro shaped target code position _ written
      have shape : opcode.shape = .plain 0 := shaped
      exact Decodes.single (decodeAt_plain shape written) rfl
  | branch opcode label =>
      refine ⟨rfl, ?_⟩
      intro shaped target code position inRange written
      exact Decodes.single (decodeAt_branch shaped inRange.1 inRange.2 written) rfl
  | tableSwitch low labels default =>
      refine ⟨rfl, ?_⟩
      intro shaped target code position inRange written
      exact tableSwitch_decodes shaped.1 (shaped.2 inRange.2.1) inRange written
  | pushFloat value =>
      cases index with
      | some index => exact shows_loading rfl fun _ _ => rfl
      | none =>
          refine shows_plain rfl ?_ fun _ _ => rfl
          split
          · decide
          · split <;> decide
  | pushInt value =>
      cases index with
      | some index => exact shows_loading rfl fun _ _ => rfl
      | none =>
          have byteShape : Opcode.bipush.shape = .plain 1 := by decide
          have wordShape : Opcode.sipush.shape = .plain 2 := by decide
          simp only [fragment]
          split
          · rename_i small
            have opcode : (value.toInt + 3).toNat = (value.toInt + 1).toNat + 2 := by omega
            refine shows_plain rfl ?_ fun _ _ => by simp [instructions, small]
            rw [opcode]
            exact small_shape (by omega)
          · rename_i notSmall
            split
            · rename_i byte
              exact shows_plain rfl byteShape fun _ _ => by simp [instructions, notSmall, byte]
            · rename_i notByte
              exact shows_plain rfl wordShape fun _ _ => by simp [instructions, notSmall, notByte, encode16]
  | pushText text =>
      obtain ⟨index, rfl⟩ := Option.isSome_iff_exists.mp refers
      exact shows_loading rfl fun _ _ => rfl
  | access opcode slot =>
      refine ⟨rfl, ?_⟩
      intro shaped target code position _ written
      exact slotBytes_decodes shaped written
  | increment slot amount =>
      refine ⟨rfl, ?_⟩
      intro _ target code position _ written
      exact incrementBytes_decodes amount written
  | field opcode member =>
      obtain ⟨index, rfl⟩ := Option.isSome_iff_exists.mp refers
      refine shows_withIndex [] rfl ?_ fun _ _ => rfl
      rintro (rfl | rfl) <;> decide
  | invoke opcode member =>
      obtain ⟨index, rfl⟩ := Option.isSome_iff_exists.mp refers
      refine shows_withIndex [] rfl ?_ fun _ _ => rfl
      rintro (rfl | rfl | rfl) <;> decide
  | newDup className =>
      obtain ⟨index, rfl⟩ := Option.isSome_iff_exists.mp refers
      refine ⟨rfl, ?_⟩
      intro _ target code position _ written
      obtain ⟨first, second⟩ := (holds_append _ _ _ _).mp written
      have shape : Opcode.new.shape = .poolWord 0 := by decide
      have allocated := decodeAt_poolWord [] shape (by simpa [withIndex] using first)
      have doubled := decodeAt_plain (by decide) second
      exact (Decodes.single allocated rfl).append (Decodes.single doubled rfl)
  | newArray elementType =>
      have shape : Opcode.newarray.shape = .plain 1 := by decide
      exact shows_plain rfl shape fun _ _ => rfl
  | newMultiArray descriptor dimensions =>
      obtain ⟨index, rfl⟩ := Option.isSome_iff_exists.mp refers
      have shape : Opcode.multianewarray.shape = .poolWord 1 := by decide
      exact shows_withIndex [dimensions] rfl (fun _ => shape) fun _ _ => rfl
  | newRefArray | call | getCell | putCell =>
      obtain ⟨index, rfl⟩ := Option.isSome_iff_exists.mp refers
      exact shows_withIndex [] rfl (fun _ => by decide) fun _ _ => rfl

/-- An instruction without a constant stands for what it decodes to. -/
theorem decoded_none (unnamed : insn.constantIndex? owner = none) (target : Label → Nat)
    (code : Array UInt8) (position : Nat) :
    insn.Decoded pool owner target code position (insn.instructions target position none) := by
  cases insn with
  | op | branch | tableSwitch | newArray => rfl
  | access | increment => exact ⟨_, rfl⟩
  | pushFloat value =>
      have short : value = .zero ∨ value = .one ∨ value = .two := by
        by_contra long
        simp [constantIndex?, long] at unnamed
      rcases short with rfl | rfl | rfl
      · exact .inl ⟨rfl, rfl⟩
      · exact .inr (.inl ⟨rfl, rfl⟩)
      · exact .inr (.inr (.inl ⟨rfl, rfl⟩))
  | pushInt value =>
      simp only [instructions]
      split
      · rename_i small
        have opcode : (value.toInt + 3).toNat = (value.toInt + 1).toNat + 2 := by omega
        exact .inl ⟨(value.toInt + 1).toNat, by omega, by rw [opcode]⟩
      · split
        · exact .inr (.inl rfl)
        · exact .inr (.inr (.inl rfl))
  | pushText | field | invoke | newDup | newRefArray | newMultiArray | call | getCell | putCell =>
      cases unnamed

theorem told_none (unnamed : insn.constantIndex? owner = none)
    (written : Holds code position ((insn.fragment none).render target position)) :
    insn.Told pool code position := by
  cases insn with
  | tableSwitch low labels default => exact told_switch written
  | pushInt value =>
      have short : -32768 ≤ value.toInt ∧ value.toInt ≤ 32767 := by
        by_contra long
        simp [constantIndex?, long] at unnamed
      simp only [fragment] at written
      split at written
      · rename_i small
        exact told_small small written
      · split at written
        · rename_i byte
          exact told_byte byte written
        · exact told_word short written
  | _ => trivial

/-- The constant of an instruction gets the index that its code refers to. -/
theorem constant_adds (refers : insn.constantIndex? owner = some action) :
    ConstantPool.Adds action (fun index pool => ∀ target code position,
      Holds code position ((insn.fragment (some index)).render target position) →
        insn.Decoded pool owner target code position (insn.instructions target position (some index)) ∧
        insn.Told pool code position) := by
  cases insn with
  | op | branch | tableSwitch | access | increment | newArray => cases refers
  | pushFloat value =>
      obtain rfl := constant_float refers
      refine (ConstantPool.intern_adds (.float value)).imp ?_
      intro index pool found target code position written
      exact ⟨.inr (.inr (.inr (loads_loading found rfl position))), trivial⟩
  | pushInt value =>
      obtain rfl := constant_int refers
      refine (ConstantPool.intern_adds (.integer value)).imp ?_
      intro index pool found target code position written
      exact ⟨.inr (.inr (.inr (loads_loading found rfl position))), told_constant found written⟩
  | pushText text =>
      cases refers
      refine (ConstantPool.string_adds text).imp ?_
      rintro index pool ⟨content, found, named⟩ target code position written
      exact ⟨loads_loading found ⟨content, rfl, named⟩ position, trivial⟩
  | field | getCell | putCell =>
      cases refers
      refine (ConstantPool.fieldRef_adds _ _ _).imp ?_
      exact fun index pool found _ _ _ _ => ⟨⟨index, found, rfl⟩, trivial⟩
  | invoke | call =>
      cases refers
      refine (ConstantPool.methodRef_adds _ _ _).imp ?_
      exact fun index pool found _ _ _ _ => ⟨⟨index, found, rfl⟩, trivial⟩
  | newDup | newRefArray =>
      cases refers
      refine (ConstantPool.classRef_adds _).imp ?_
      exact fun index pool found _ _ _ _ => ⟨⟨index, found, rfl⟩, trivial⟩
  | newMultiArray descriptor dimensions =>
      cases refers
      refine (ConstantPool.classRef_adds _).imp ?_
      intro index pool found target code position written
      exact ⟨⟨((holds_append _ _ _ _).mp written).2.1, index, found, rfl⟩, trivial⟩

theorem fragment_size (index : Option UInt16) (insn : Insn) (position : Nat) :
    (insn.fragment index).size position ≤ insn.room := by
  cases insn with
  | tableSwitch low labels default => exact tableSwitch_size low labels default position
  | pushFloat value =>
      cases index with
      | none => exact Nat.le_of_ble_eq_true rfl
      | some index => exact loadConstant_length index
  | pushInt value =>
      cases index with
      | none =>
          simp only [fragment]
          split_ifs <;> exact Nat.le_of_ble_eq_true rfl
      | some index => exact loadConstant_length index
  | pushText text => exact loadConstant_length _
  | access opcode slot => exact slotBytes_length opcode slot
  | increment slot amount => exact incrementBytes_length slot amount
  | _ => exact Nat.le_of_ble_eq_true rfl

theorem fragment_denotes (refers : index.isSome = (insn.constantIndex? owner).isSome)
    (tells : ∀ target code position, Holds code position ((insn.fragment index).render target position) →
      insn.Decoded pool owner target code position (insn.instructions target position index) ∧
      insn.Told pool code position) :
    (insn.fragment index).Denotes pool owner insn where
  labels := (fragment_shows refers).labels
  size := fragment_size index insn
  decodes shaped target code position inRange written :=
    ⟨_, (tells target code position written).1,
      (fragment_shows refers).decodes shaped target code position inRange written⟩
  told target code position written := (tells target code position written).2
  immediate target code position written := by
    cases insn with
    | increment slot amount => exact increment_immediate written
    | newArray elementType => exact written.2.1
    | _ => trivial

/-- An instruction is linked to bytes that decode to it, unless the pool is full. -/
theorem link_adds (owner : String) (insn : Insn) :
    Build.Adds (insn.link owner) (fun fragment pool => fragment.Denotes pool owner insn) := by
  rw [link_eq]
  refine .after insn.announce_silent fun _ => ?_
  cases refers : insn.constantIndex? owner with
  | none =>
      exact .pure fun pool => fragment_denotes (by rw [refers]; rfl) fun target code position written =>
        ⟨decoded_none refers target code position, told_none refers written⟩
  | some action =>
      refine (Build.interned_adds (constant_adds refers)).map fun index pool tells => ?_
      exact fragment_denotes (by rw [refers]; rfl) tells

theorem Loads.mono (grown : pool.Extends extended) {holds holds' : Constant → Prop}
    (implies : ∀ entry, holds entry → holds' entry) {instructions : List Instruction}
    (loads : Loads pool position holds instructions) :
    Loads extended position holds' instructions := by
  obtain ⟨index, entry, found, accepted, forms⟩ := loads
  exact ⟨index, entry, grown.kept found, implies entry accepted, forms⟩

theorem Refers.mono {names names' : UInt16 → Prop} (implies : ∀ index, names index → names' index)
    {instructions : List Instruction} (refers : Refers position opcode names instructions) :
    Refers position opcode names' instructions := by
  obtain ⟨index, named, form⟩ := refers
  exact ⟨index, implies index named, form⟩

theorem Decoded.mono (grown : pool.Extends extended) {instructions : List Instruction}
    (decoded : insn.Decoded pool owner target code position instructions) :
    insn.Decoded extended owner target code position instructions := by
  have isField (member : MemberRef) (index : UInt16) (found : member.IsFieldAt pool index) :
      member.IsFieldAt extended index := by
    obtain ⟨⟨first, second, entry⟩, named⟩ := found
    exact ⟨⟨first, second, grown.kept entry⟩, grown.memberAt named⟩
  have isMethod (member : MemberRef) (index : UInt16) (found : member.IsMethodAt pool index) :
      member.IsMethodAt extended index := by
    obtain ⟨⟨first, second, entry⟩, named⟩ := found
    exact ⟨⟨first, second, grown.kept entry⟩, grown.memberAt named⟩
  cases insn with
  | op _ | branch _ _ | tableSwitch _ _ _ | access _ _ | increment _ _ | newArray _ => exact decoded
  | pushFloat value =>
      exact decoded.imp id (Or.imp id (Or.imp id (Loads.mono grown fun _ same => same)))
  | pushInt value =>
      exact decoded.imp id (Or.imp id (Or.imp id (Loads.mono grown fun _ same => same)))
  | pushText text =>
      refine Loads.mono grown ?_ decoded
      rintro entry ⟨content, isString, named⟩
      exact ⟨content, isString, grown.textAt named⟩
  | field opcode member => exact Refers.mono (isField member) decoded
  | invoke opcode member => exact Refers.mono (isMethod member) decoded
  | newDup className =>
      obtain ⟨index, named, form⟩ := decoded
      exact ⟨index, grown.classNameAt named, form⟩
  | newRefArray className => exact Refers.mono (fun _ named => grown.classNameAt named) decoded
  | newMultiArray descriptor dimensions =>
      obtain ⟨last, index, named, form⟩ := decoded
      exact ⟨last, index, grown.classNameAt named, form⟩
  | call helper => exact Refers.mono (isMethod _) decoded
  | getCell cell => exact Refers.mono (isField _) decoded
  | putCell cell => exact Refers.mono (isField _) decoded

theorem pushed?_mono (grown : pool.Extends extended) {instruction : Instruction} {value : Int}
    (pushed : instruction.pushed? pool code = some value) :
    instruction.pushed? extended code = some value := by
  unfold pushed? at pushed ⊢
  cases isIndex : instruction.poolIndex with
  | none => simpa only [isIndex, Option.map_none] using pushed
  | some index =>
      simp only [isIndex, Option.map_some] at pushed ⊢
      cases found : pool.lookup index with
      | ok entry => simpa only [found, grown.kept found] using pushed
      | error error =>
          simp only [found] at pushed
          split_ifs at pushed ⊢ <;> exact pushed

theorem Told.mono (grown : pool.Extends extended) (told : insn.Told pool code position) :
    insn.Told extended code position := by
  cases insn with
  | pushInt value => exact fun instruction decoded => pushed?_mono grown (told instruction decoded)
  | tableSwitch => exact told
  | _ => trivial

end Insn

theorem Fragment.Denotes.mono (grown : pool.Extends extended) {fragment : Fragment}
    (denotes : fragment.Denotes pool owner insn) : fragment.Denotes extended owner insn := by
  refine ⟨denotes.labels, denotes.size, fun shaped target code position inRange written => ?_,
    fun target code position written => (denotes.told target code position written).mono grown,
    denotes.immediate⟩
  obtain ⟨instructions, decoded, decodes⟩ :=
    denotes.decodes shaped target code position inRange written
  exact ⟨instructions, decoded.mono grown, decodes⟩

end BasicCompiler
