import BasicCompiler.Proofs.Method.Typing

/-!
Well-formed code: it can be decoded, every branch leads to an instruction, and every operand names a
local slot of the method or a constant of the right kind. Methods whose drafts are typed are assembled
to well-formed code.
-/

namespace BasicCompiler

open Instruction

def Opcode.admits (opcode : Opcode) : Constant → Bool
  | .integer _ | .float _ | .string _ => opcode == ldc || opcode == ldcW
  | .fieldRef _ _ => opcode == getstatic || opcode == putstatic
  | .methodRef _ _ => opcode == invokevirtual || opcode == invokespecial || opcode == invokestatic
  | .classRef _ => opcode == new || opcode == anewarray || opcode == multianewarray
  | _ => false

def Instruction.Starts (instructions : List Instruction) (position : Nat) : Prop :=
  ∃ instruction ∈ instructions, instruction.position = position

/-- A row of an exception table covers some code and names its class. -/
structure HandlerRow.WellFormed (pool : ConstantPool) (size : Nat) (instructions : List Instruction)
    (row : HandlerRow) : Prop where
  covers : row.start < row.stop
  start : Starts instructions row.start.toNat
  stop : Starts instructions row.stop.toNat ∨ row.stop.toNat = size
  handler : Starts instructions row.handler.toNat
  catchType : ∃ name, pool.lookup row.catchType = .ok (.classRef name)

structure CodeAttribute.WellFormed (pool : ConstantPool) (code : CodeAttribute)
    (instructions : List Instruction) : Prop where
  nonempty : 0 < code.bytes.size
  decoded : decode code.bytes = .ok instructions
  targets : ∀ instruction ∈ instructions, ∀ target ∈ instruction.targets, Starts instructions target
  slots : ∀ instruction ∈ instructions, ∀ slot, instruction.slot = some slot → slot < code.maxLocals
  constants : ∀ instruction ∈ instructions, ∀ index, instruction.poolIndex = some index →
    ∃ entry, pool.lookup index = .ok entry ∧ instruction.opcode.admits entry = true
  handlers : ∀ row ∈ code.handlers, row.WellFormed pool code.bytes.size instructions

namespace Insn

/-- What an instruction names by an opcode and an index of the pool. -/
def Names (pool : ConstantPool) (owner : String) (opcode : Opcode) (index : UInt16) : Insn → Prop
  | pushFloat value =>
    (opcode = Opcode.ldc ∨ opcode = Opcode.ldcW) ∧ pool.lookup index = .ok (.float value)
  | pushInt value =>
    (opcode = Opcode.ldc ∨ opcode = Opcode.ldcW) ∧ pool.lookup index = .ok (.integer value)
  | pushText text =>
    (opcode = Opcode.ldc ∨ opcode = Opcode.ldcW) ∧
      ∃ content, pool.lookup index = .ok (.string content) ∧ pool.textAt content = .ok text
  | field written member => opcode = written ∧ member.IsFieldAt pool index
  | invoke written member => opcode = written ∧ member.IsMethodAt pool index
  | newDup name => opcode = Opcode.new ∧ pool.classNameAt index = .ok name
  | newRefArray name => opcode = Opcode.anewarray ∧ pool.classNameAt index = .ok name
  | newMultiArray name _ => opcode = Opcode.multianewarray ∧ pool.classNameAt index = .ok name
  | call helper => opcode = Opcode.invokestatic ∧ (helperRef owner helper).IsMethodAt pool index
  | getCell cell => opcode = Opcode.getstatic ∧ (cellRef owner cell).IsFieldAt pool index
  | putCell cell => opcode = Opcode.putstatic ∧ (cellRef owner cell).IsFieldAt pool index
  | op _ | branch _ _ | tableSwitch _ _ _ | access _ _ | increment _ _ | newArray _ => False

variable {pool : ConstantPool} {owner : String} {target : Label → Nat} {code : Array UInt8}
  {position : Nat} {insn : Insn} {instructions : List Instruction} {instruction : Instruction}

/-- The operands of a decoded instruction are those of the symbolic one. -/
theorem Decoded.operands (decoded : insn.Decoded pool owner target code position instructions)
    (isPart : instruction ∈ instructions) :
    instruction.slot = insn.slot?.map UInt16.ofNat ∧
      ∀ index, instruction.poolIndex = some index → insn.Names pool owner instruction.opcode index := by
  have plain {form : Instruction} (isForm : instructions = [form]) (noIndex : form.poolIndex = none)
      (slot : form.slot = insn.slot?.map UInt16.ofNat) :
      instruction.slot = insn.slot?.map UInt16.ofNat ∧ ∀ index, instruction.poolIndex = some index →
        insn.Names pool owner instruction.opcode index := by
    rw [isForm, List.mem_singleton] at isPart
    subst isPart
    exact ⟨slot, by simp [noIndex]⟩
  have named {form : Instruction} (isForm : instructions = [form]) {index : UInt16}
      (isIndex : form.poolIndex = some index) (slot : form.slot = insn.slot?.map UInt16.ofNat)
      (names : insn.Names pool owner form.opcode index) :
      instruction.slot = insn.slot?.map UInt16.ofNat ∧ ∀ index, instruction.poolIndex = some index →
        insn.Names pool owner instruction.opcode index := by
    rw [isForm, List.mem_singleton] at isPart
    subst isPart
    exact ⟨slot, fun other isOther => Option.some.inj (isIndex.symm.trans isOther) ▸ names⟩
  cases insn with
  | op | branch | tableSwitch | newArray => exact plain decoded rfl rfl
  | access | increment =>
      obtain ⟨_, form⟩ := decoded
      exact plain form rfl rfl
  | pushFloat value =>
      rcases decoded with ⟨_, form⟩ | ⟨_, form⟩ | ⟨_, form⟩ | ⟨index, _, found, rfl, form | form⟩
      · exact plain form rfl rfl
      · exact plain form rfl rfl
      · exact plain form rfl rfl
      · exact named form rfl rfl ⟨.inl rfl, found⟩
      · exact named form rfl rfl ⟨.inr rfl, found⟩
  | pushInt value =>
      rcases decoded with ⟨_, _, form⟩ | form | form | ⟨index, _, found, rfl, form | form⟩
      · exact plain form rfl rfl
      · exact plain form rfl rfl
      · exact plain form rfl rfl
      · exact named form rfl rfl ⟨.inl rfl, found⟩
      · exact named form rfl rfl ⟨.inr rfl, found⟩
  | pushText text =>
      obtain ⟨index, _, found, ⟨content, rfl, isText⟩, form | form⟩ := decoded
      · exact named form rfl rfl ⟨.inl rfl, content, found, isText⟩
      · exact named form rfl rfl ⟨.inr rfl, content, found, isText⟩
  | newDup className =>
      obtain ⟨index, found, rfl⟩ := decoded
      rcases List.mem_cons.mp isPart with rfl | isLast
      · exact ⟨rfl, by rintro _ ⟨⟩; exact ⟨rfl, found⟩⟩
      · cases List.mem_singleton.mp isLast
        exact ⟨rfl, nofun⟩
  | newMultiArray descriptor dimensions =>
      obtain ⟨_, index, found, form⟩ := decoded
      exact named form rfl rfl ⟨rfl, found⟩
  | field | invoke | newRefArray | call | getCell | putCell =>
      obtain ⟨index, found, form⟩ := decoded
      exact named form rfl rfl ⟨rfl, found⟩

theorem Names.admitted {opcode : Opcode} {index : UInt16} (shaped : insn.Shaped)
    (names : insn.Names pool owner opcode index) :
    ∃ entry, pool.lookup index = .ok entry ∧ opcode.admits entry = true := by
  cases insn with
  | pushFloat | pushInt => obtain ⟨rfl | rfl, found⟩ := names <;> exact ⟨_, found, rfl⟩
  | pushText => obtain ⟨rfl | rfl, content, found, _⟩ := names <;> exact ⟨_, found, rfl⟩
  | newDup | newRefArray | newMultiArray =>
      obtain ⟨rfl, named⟩ := names
      obtain ⟨text, found, _⟩ := (ConstantPool.classNameAt_eq_ok_iff _ _ _).mp named
      exact ⟨_, found, rfl⟩
  | field opcode member =>
      obtain ⟨rfl, ⟨_, _, found⟩, _⟩ := names
      exact ⟨_, found, by rcases shaped with rfl | rfl <;> rfl⟩
  | invoke opcode member =>
      obtain ⟨rfl, ⟨_, _, found⟩, _⟩ := names
      exact ⟨_, found, by rcases shaped with rfl | rfl | rfl <;> rfl⟩
  | call | getCell | putCell =>
      obtain ⟨rfl, ⟨_, _, found⟩, _⟩ := names
      exact ⟨_, found, rfl⟩
  | op | branch | tableSwitch | access | increment | newArray => exact names.elim

end Insn

theorem Laid.count_le {pool : ConstantPool} {owner : String} {target : Label → Nat}
    {code : Array UInt8} {position stop : Nat} {items : List Item} {instructions : List Instruction}
    (laid : Laid pool owner target code position items instructions stop) :
    Item.count items ≤ instructions.length := by
  induction laid with
  | nil => exact Nat.le_refl _
  | @insn _ _ _ insn _ _ _ decoded _ _ ih =>
      have here := decoded.length_eq
      have positive := insn.parts_pos
      simp only [Item.count, List.countP_cons_of_pos, List.length_append] at ih ⊢
      omega
  | label _ _ ih | sourceLine _ ih | request _ ih => simpa [Item.count] using ih

def Handler.Spans (items : List Item) (handler : Handler) : Prop :=
  ∃ before between after, items = before ++ .label handler.start :: (between ++ .label handler.stop :: after) ∧
    0 < Item.count between

theorem Handler.Spans.lt {pool : ConstantPool} {owner : String} {target : Label → Nat}
    {code : Array UInt8} {position stop : Nat} {items : List Item} {instructions : List Instruction}
    {handler : Handler} (spans : handler.Spans items)
    (laid : Laid pool owner target code position items instructions stop) :
    target handler.start < target handler.stop ∧ target handler.stop ≤ stop := by
  obtain ⟨before, between, after, rfl, positive⟩ := spans
  obtain ⟨_, _, _, _, _, laidRest⟩ := laid.split
  cases laidRest with
  | label startHere laidRest =>
      obtain ⟨covered, _, _, _, laidBetween, laidRest⟩ := laidRest.split
      cases laidRest with
      | label stopHere laidAfter =>
          have some := laidBetween.count_le
          have length := laidBetween.decodes.length_le
          have end_le := laidAfter.le
          omega

/-- A draft whose code is typed from an empty stack on, does not run off its end, and enters each of
its handlers with the exception on the stack. -/
structure Draft.Certified (frame : Frame) (draft : Draft) : Prop where
  slots : frame.slots = draft.scope.nextSlot
  typed : Typed frame (some []) draft.items.toList none
  handled : ∀ handler ∈ draft.handlers.toList,
    handler.className ≠ none ∧ handler.Spans draft.items.toList ∧
    (∃ stack, frame.stackOf handler.start = some stack) ∧
    frame.stackOf handler.handler = some [.reference]

theorem Draft.Certified.shaped {frame : Frame} {draft : Draft} (certified : draft.Certified frame) (insn : Insn)
    (member : .insn insn ∈ draft.items.toList) : insn.Shaped :=
  (certified.typed.part member).1.shaped

namespace MethodUnit.Realizes

variable {pool : ConstantPool} {draft : Draft} {header : MethodHeader} {target : Label → Nat}
  {instructions : List Instruction} {unit : MethodUnit} {frame : Frame}
  {marks : List (Nat × StackType)} {height : Nat}

theorem decode (realizes : unit.Realizes pool draft header target instructions) :
    Instruction.decode unit.code = .ok instructions :=
  realizes.laid.decodes.decode

theorem starts {exit : Option StackType} {stop position : Nat} {stack : StackType}
    (positions : marks.map Prod.fst = instructions.map Instruction.position)
    (closed : exit = none) (reaches : Reaches marks exit stop position stack) :
    Starts instructions position := by
  rcases reaches with mark | ⟨_, impossible⟩
  · have member : position ∈ marks.map Prod.fst := List.mem_map.mpr ⟨_, mark, rfl⟩
    rw [positions] at member
    obtain ⟨instruction, isInstruction, rfl⟩ := List.mem_map.mp member
    exact ⟨instruction, isInstruction, rfl⟩
  · rw [closed] at impossible
    cases impossible

theorem target_starts
    (marked : Marked pool unit.code target frame none unit.code.size (some []) 0 draft.items.toList
      instructions marks height)
    {label : Label} (defined : label ∈ Item.definitions draft.items.toList) {stack : StackType}
    (typed : frame.stackOf label = some stack) : Starts instructions (target label) :=
  starts marked.positions rfl (marked.labels label defined stack typed)

theorem handler_of_row (realizes : unit.Realizes pool draft header target instructions)
    {row : HandlerRow} (isRow : row ∈ unit.handlers) :
    ∃ handler ∈ draft.handlers.toList,
      (∀ label ∈ handler.labels, label ∈ Item.definitions draft.items.toList) ∧
      row.Stands pool target handler :=
  exists_of_forall₂ realizes.handlers isRow

theorem row_wellFormed (realizes : unit.Realizes pool draft header target instructions)
    (certified : draft.Certified frame)
    (marked : Marked pool unit.code target frame none unit.code.size (some []) 0 draft.items.toList
      instructions marks height)
    {handler : Handler} (isHandler : handler ∈ draft.handlers.toList)
    (defined : ∀ label ∈ handler.labels, label ∈ Item.definitions draft.items.toList)
    {row : HandlerRow} (stands : row.Stands pool target handler) :
    row.WellFormed pool unit.code.size instructions := by
  obtain ⟨caught, spans, ⟨_, startTyped⟩, handlerTyped⟩ :=
    certified.handled handler isHandler
  obtain ⟨ordered, inside⟩ := spans.lt realizes.laid
  have small := realizes.size
  have starting := target_starts marked (defined handler.start (by simp [Handler.labels])) startTyped
  have stopping := realizes.laid.target_starts (defined handler.stop (by simp [Handler.labels]))
  have handling :=
    target_starts marked (defined handler.handler (by simp [Handler.labels])) handlerTyped
  have narrow {position : Nat} (bound : position ≤ 65535) :
      (UInt16.ofNat position).toNat = position := by
    rw [UInt16.toNat_ofNat']
    omega
  have startAt : row.start.toNat = target handler.start := by
    rw [stands.startsAt, narrow (by omega)]
  have stopAt : row.stop.toNat = target handler.stop := by
    rw [stands.stopsAt, narrow (by omega)]
  have handlerAt : row.handler.toNat = target handler.handler := by
    have bound := realizes.laid.target_le (defined handler.handler (by simp [Handler.labels]))
    rw [stands.entersAt, narrow (by omega)]
  obtain ⟨name, isName⟩ := Option.ne_none_iff_exists'.mp caught
  obtain ⟨text, found, _⟩ := (ConstantPool.classNameAt_eq_ok_iff _ _ _).mp (stands.catches name isName)
  refine ⟨?_, ?_, ?_, ?_, text, found⟩
  · rw [UInt16.lt_iff_toNat_lt, startAt, stopAt]
    exact ordered
  · rw [startAt]
    exact starting
  · rw [stopAt]
    exact stopping
  · rw [handlerAt]
    exact handling

theorem wellFormed (realizes : unit.Realizes pool draft header target instructions)
    (certified : draft.Certified frame) (few : draft.scope.nextSlot ≤ 65535) {code : CodeAttribute}
    (bytes : code.bytes = unit.code) (locals : code.maxLocals = unit.maxLocals)
    (rows : code.handlers = unit.handlers) : code.WellFormed pool instructions := by
  have shaped := certified.shaped
  obtain ⟨height, climbs, _⟩ := certified.typed
  obtain ⟨marks, marked⟩ := climbs.marked realizes.laid
  constructor
  · obtain ⟨instruction, member, _⟩ := starts marked.positions rfl (marked.enters [] rfl)
    have length := realizes.laid.decodes.length_le
    have positive := List.length_pos_of_mem member
    rw [bytes]
    omega
  · rw [bytes]
    exact realizes.decode
  · intro instruction member position isTarget
    obtain ⟨stack, after, _, _, jumps, _⟩ := marked.steps instruction member
    rcases jumps position isTarget with reaches | ⟨label, isReferred, rfl, typed⟩
    · exact starts marked.positions rfl reaches
    · exact target_starts marked (realizes.jumps label isReferred) typed
  · intro instruction member slot isSlot
    obtain ⟨_, insn, _, _, _, _, _, items, _, decoded, _, isPart⟩ := realizes.laid.origin member
    have isItem : .insn insn ∈ draft.items.toList := by simp [items]
    rw [(decoded.operands isPart).1, Option.map_eq_some_iff] at isSlot
    obtain ⟨number, isNumber, rfl⟩ := isSlot
    have bound := (certified.typed.part isItem).1.within number isNumber
    rw [certified.slots] at bound
    rw [locals, realizes.locals, UInt16.lt_iff_toNat_lt, UInt16.toNat_ofNat', UInt16.toNat_ofNat']
    omega
  · intro instruction member index isIndex
    obtain ⟨_, insn, _, _, _, _, _, items, _, decoded, _, isPart⟩ := realizes.laid.origin member
    exact ((decoded.operands isPart).2 index isIndex).admitted (shaped insn (by simp [items]))
  · intro row isRow
    rw [rows] at isRow
    obtain ⟨handler, isHandler, defined, stands⟩ := realizes.handler_of_row isRow
    rw [bytes]
    exact realizes.row_wellFormed certified marked isHandler defined stands

end MethodUnit.Realizes

end BasicCompiler
