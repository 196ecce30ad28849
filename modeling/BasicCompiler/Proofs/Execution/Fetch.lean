import BasicCompiler.Proofs.Method.Layout

/-!
The operations of finished code. An operation is read from the bytes at a position, with its constants
looked up in the pool. Code that was finished from a draft yields the operations of the instructions of
the draft, in the places where these stand.
-/

namespace BasicCompiler

open Instruction

variable {pool : ConstantPool} {code : Array UInt8} {position stop : Nat} {opcode : Opcode}
  {instructions : List Instruction} {instruction : Instruction} {operation : Operation}

inductive Literal where
  | int (value : Int32)
  | float (value : Single)
  | text (text : String)
  deriving DecidableEq, Repr

inductive Operation where
  | push (literal : Literal)
  | plain (opcode : Opcode)
  | branch (opcode : Opcode) (target : Nat)
  /-- A jump table for the keys from `low` on, the default last. -/
  | tableSwitch (low : Int) (targets : List Nat)
  | access (opcode : Opcode) (slot : Nat)
  | increment (slot : Nat) (amount : Int)
  | field (opcode : Opcode) (member : MemberRef)
  | invoke (opcode : Opcode) (member : MemberRef)
  | create (className : String)
  | newArray (elementType : UInt8)
  | newRefArray (className : String)
  | newMultiArray (descriptor : String) (dimensions : UInt8)
  deriving DecidableEq, Repr

namespace Operation

def ofPlain (opcode : Opcode) : Operation :=
  if 2 ≤ opcode.toNat ∧ opcode.toNat ≤ 8 then .push (.int (Int32.ofInt (opcode.toNat - 3)))
  else if opcode = Opcode.fconst0 then .push (.float .zero)
  else if opcode = Opcode.fconst1 then .push (.float .one)
  else if opcode = Opcode.fconst2 then .push (.float .two)
  else .plain opcode

def ofLoaded (pool : ConstantPool) : Constant → Option Operation
  | .float value => some (.push (.float value))
  | .string content => (pool.textAt content).toOption.map fun text => .push (.text text)
  | _ => none

def ofIndexed (pool : ConstantPool) (code : Array UInt8) (position : Nat) (opcode : Opcode)
    (index : UInt16) : Option Operation :=
  if opcode = Opcode.ldc ∨ opcode = Opcode.ldcW then
    (pool.lookup index).toOption.bind (ofLoaded pool)
  else if opcode = Opcode.new then (pool.classNameAt index).toOption.map .create
  else if opcode = Opcode.anewarray then (pool.classNameAt index).toOption.map .newRefArray
  else if opcode = Opcode.multianewarray then do
    let descriptor ← (pool.classNameAt index).toOption
    return .newMultiArray descriptor (← code[position + 3]?)
  else do
    let (owner, name, descriptor) ← (pool.memberAt index).toOption
    if opcode = Opcode.getstatic ∨ opcode = Opcode.putstatic then
      return .field opcode ⟨owner, name, descriptor⟩
    else return .invoke opcode ⟨owner, name, descriptor⟩

def ofOther (pool : ConstantPool) (code : Array UInt8) (instruction : Instruction) : Option Operation :=
  if instruction.opcode = Opcode.tableswitch then
    (instruction.lowKey code).toOption.map (.tableSwitch · instruction.targets)
  else if instruction.opcode = Opcode.newarray then
    code[instruction.position + 1]?.map .newArray
  else if instruction.opcode = Opcode.iinc then do
    let slot ← instruction.slot
    return .increment slot.toNat (← amountAt? code instruction.position)
  else
    match instruction.targets, instruction.slot, instruction.poolIndex with
    | [target], _, _ => some (.branch instruction.opcode target)
    | [], some slot, _ => some (.access instruction.opcode slot.toNat)
    | [], none, some index => ofIndexed pool code instruction.position instruction.opcode index
    | [], none, none => some (ofPlain instruction.opcode)
    | _, _, _ => none

def ofInstruction (pool : ConstantPool) (code : Array UInt8) (instruction : Instruction) :
    Option Operation :=
  match instruction.pushed? pool code with
  | some value => some (.push (.int (Int32.ofInt value)))
  | none => ofOther pool code instruction

def fetch (pool : ConstantPool) (code : Array UInt8) (position : Nat) : Option (Operation × Nat) := do
  let instruction ← (decodeAt code position).toOption
  let operation ← ofInstruction pool code instruction
  return (operation, position + instruction.length)

def Fetches (pool : ConstantPool) (code : Array UInt8) : Nat → List Operation → Nat → Prop
  | start, [], stop => start = stop
  | start, operation :: rest, stop =>
    ∃ next, fetch pool code start = some (operation, next) ∧ Fetches pool code next rest stop

theorem fetches_single (decodes : Decodes code position [instruction] stop)
    (means : ofInstruction pool code instruction = some operation) :
    Fetches pool code position [operation] stop := by
  obtain ⟨decoded, rfl⟩ := decodes
  refine ⟨position + instruction.length, ?_, rfl⟩
  simp only [fetch, decoded, Except.toOption, Option.bind_eq_bind, Option.bind_some, means]
  rfl

end Operation

namespace Insn

open Operation

/-- The operations of an instruction of the class `owner`, when labels have the positions of
`target`. -/
def operations (owner : String) (target : Label → Nat) : Insn → List Operation
  | op opcode => [ofPlain opcode]
  | branch opcode label => [.branch opcode (target label)]
  | tableSwitch low labels default => [.tableSwitch low.toInt (labels.map target ++ [target default])]
  | pushFloat value => [.push (.float value)]
  | pushInt value => [.push (.int value)]
  | pushText text => [.push (.text text)]
  | access opcode slot => [.access opcode (UInt16.ofNat slot).toNat]
  | increment slot amount => [.increment (UInt16.ofNat slot).toNat amount.toInt]
  | field opcode member => [.field opcode member]
  | invoke opcode member => [.invoke opcode member]
  | newDup className => [.create className, .plain Opcode.dup]
  | newArray elementType => [.newArray elementType]
  | newRefArray className => [.newRefArray className]
  | newMultiArray descriptor dimensions => [.newMultiArray descriptor dimensions]
  | call helper => [.invoke Opcode.invokestatic (helperRef owner helper)]
  | getCell cell => [.field Opcode.getstatic (cellRef owner cell)]
  | putCell cell => [.field Opcode.putstatic (cellRef owner cell)]

theorem pushed?_high (high : 19 < instruction.opcode.toNat) : instruction.pushed? pool code = none := by
  have other (opcode : Opcode) (low : opcode.toNat ≤ 19) : instruction.opcode ≠ opcode := by
    rintro rfl
    omega
  unfold pushed?
  rw [if_neg (by omega), if_neg (other _ (by decide)), if_neg (other _ (by decide)), if_neg]
  rintro (isLoad | isLoad)
  · exact other _ (by decide) isLoad
  · exact other _ (by decide) isLoad

theorem ofInstruction_high (high : 19 < instruction.opcode.toNat) :
    ofInstruction pool code instruction = ofOther pool code instruction := by
  rw [ofInstruction, pushed?_high high]

theorem accessesSlot_high (accesses : opcode.accessesSlot = true) :
    19 < opcode.toNat := by
  simp only [Opcode.accessesSlot, Bool.or_eq_true, Bool.and_eq_true, decide_eq_true_eq,
    beq_iff_eq] at accesses
  omega

theorem branch_high (shaped : opcode.shape = .branch) : 19 < opcode.toNat := by
  by_contra low
  have silent : opcode.accessesSlot = false := by
    simp only [Opcode.accessesSlot, Bool.or_eq_false_iff, Bool.and_eq_false_iff,
      decide_eq_false_iff_not, beq_eq_false_iff_ne]
    omega
  unfold Opcode.shape at shaped
  simp only [silent, Bool.false_eq_true, if_false] at shaped
  generalize opcode.toNat = code at low shaped
  have cases : code < 16 ∨ code = 16 ∨ code = 17 ∨ code = 18 ∨ code = 19 := by omega
  rcases cases with small | rfl | rfl | rfl | rfl
  · repeat rw [if_neg (by omega)] at shaped
    cases shaped
  all_goals cases shaped

theorem ne_of_shape {other : Opcode} {shape : OperandShape} (shaped : opcode.shape = shape)
    (different : other.shape ≠ shape) : opcode ≠ other := by
  rintro rfl
  exact different shaped

theorem ofInstruction_plain (shaped : opcode.shape = .plain 0) :
    ofInstruction pool code { position, opcode, tail := 0 } = some (ofPlain opcode) := by
  have other {opcode' : Opcode} (different : opcode'.shape ≠ .plain 0) : opcode ≠ opcode' :=
    ne_of_shape shaped different
  by_cases small : 2 ≤ opcode.toNat ∧ opcode.toNat ≤ 8
  · simp only [ofInstruction, pushed?, ofPlain, small, and_self, if_true]
  · have silent : pushed? pool code { position, opcode, tail := 0 } = none := by
      unfold pushed?
      rw [if_neg small, if_neg (other (by decide)), if_neg (other (by decide)), if_neg]
      rintro (isLoad | isLoad)
      · exact other (by decide) isLoad
      · exact other (by decide) isLoad
    rw [ofInstruction, silent]
    dsimp only [ofOther]
    rw [if_neg (other (by decide)), if_neg (other (by decide)), if_neg (other (by decide))]

theorem ofInstruction_loaded {tail : Nat} {index : UInt16} {entry : Constant}
    (loads : opcode = Opcode.ldc ∨ opcode = Opcode.ldcW) (found : pool.lookup index = .ok entry)
    (means : ofLoaded pool entry = some operation) :
    ofInstruction pool code { position, opcode, tail, poolIndex := some index } = some operation := by
  have silent : pushed? pool code { position, opcode, tail, poolIndex := some index } = none := by
    cases entry with
    | integer value => cases means
    | _ => rcases loads with rfl | rfl <;> simp [pushed?, found, Opcode.ldc, Opcode.ldcW,
        Opcode.bipush, Opcode.sipush]
  have indexed : ofIndexed pool code position opcode index = some operation := by
    rw [ofIndexed, if_pos loads, found]
    exact means
  rw [ofInstruction, silent]
  rcases loads with rfl | rfl <;> exact indexed

theorem fetches_loads {holds : Constant → Prop} (loads : Loads pool position holds instructions)
    (means : ∀ entry, holds entry → ofLoaded pool entry = some operation)
    (decodes : Decodes code position instructions stop) :
    Fetches pool code position [operation] stop := by
  obtain ⟨index, entry, found, accepted, rfl | rfl⟩ := loads
  · exact fetches_single decodes (ofInstruction_loaded (.inl rfl) found (means entry accepted))
  · exact fetches_single decodes (ofInstruction_loaded (.inr rfl) found (means entry accepted))

theorem fetches_field {member : MemberRef}
    (accesses : opcode = Opcode.getstatic ∨ opcode = Opcode.putstatic)
    (refers : Refers position opcode (member.IsFieldAt pool) instructions)
    (decodes : Decodes code position instructions stop) :
    Fetches pool code position [.field opcode member] stop := by
  obtain ⟨index, ⟨_, named⟩, rfl⟩ := refers
  refine fetches_single decodes ?_
  have parts : (pool.memberAt index).toOption.bind (fun parts : String × String × String =>
      some (Operation.field opcode ⟨parts.1, parts.2.1, parts.2.2⟩)) = some (.field opcode member) := by
    rw [named]
    rfl
  rcases accesses with rfl | rfl
  all_goals exact (ofInstruction_high (by dsimp only; decide)).trans parts

theorem fetches_method {member : MemberRef}
    (invokes : opcode = Opcode.invokevirtual ∨ opcode = Opcode.invokespecial ∨ opcode = Opcode.invokestatic)
    (refers : Refers position opcode (member.IsMethodAt pool) instructions)
    (decodes : Decodes code position instructions stop) :
    Fetches pool code position [.invoke opcode member] stop := by
  obtain ⟨index, ⟨_, named⟩, rfl⟩ := refers
  refine fetches_single decodes ?_
  have parts : (pool.memberAt index).toOption.bind (fun parts : String × String × String =>
      some (Operation.invoke opcode ⟨parts.1, parts.2.1, parts.2.2⟩)) = some (.invoke opcode member) := by
    rw [named]
    rfl
  rcases invokes with rfl | rfl | rfl
  all_goals exact (ofInstruction_high (by dsimp only; decide)).trans parts

/-- Finished code yields the operations of its symbolic form. -/
theorem Decoded.fetches {owner : String} {target : Label → Nat} {insn : Insn}
    (decoded : insn.Decoded pool owner target code position instructions) (shaped : insn.Shaped)
    (decodes : Decodes code position instructions stop) (told : insn.Told pool code position)
    (immediate : insn.Immediate code position) :
    Fetches pool code position (insn.operations owner target) stop := by
  cases insn with
  | op opcode =>
      cases decoded
      exact fetches_single decodes (ofInstruction_plain shaped)
  | branch opcode label =>
      cases decoded
      have shaped : opcode.shape = .branch := shaped
      refine fetches_single decodes ((ofInstruction_high (branch_high shaped :)).trans ?_)
      dsimp only [ofOther]
      rw [if_neg (ne_of_shape shaped (by decide)), if_neg (ne_of_shape shaped (by decide)),
        if_neg (ne_of_shape shaped (by decide))]
  | tableSwitch low labels default =>
      cases decoded
      refine fetches_single decodes ((ofInstruction_high (by dsimp only; decide)).trans ?_)
      rw [ofOther, if_pos rfl, told _ decodes.1]
      rfl
  | pushFloat value =>
      rcases decoded with ⟨rfl, rfl⟩ | ⟨rfl, rfl⟩ | ⟨rfl, rfl⟩ | loads
      · exact fetches_single decodes (ofInstruction_plain (by decide))
      · exact fetches_single decodes (ofInstruction_plain (by decide))
      · exact fetches_single decodes (ofInstruction_plain (by decide))
      · refine fetches_loads loads ?_ decodes
        rintro _ rfl
        rfl
  | pushInt value =>
      obtain ⟨instruction, rfl⟩ := List.length_eq_one_iff.mp (Decoded.length_eq decoded)
      refine fetches_single decodes ?_
      simp only [ofInstruction, told instruction decodes.1, Int32.ofInt_toInt]
  | pushText text =>
      refine fetches_loads decoded ?_ decodes
      rintro _ ⟨content, rfl, named⟩
      simp only [ofLoaded, named]
      rfl
  | access opcode slot =>
      obtain ⟨tail, rfl⟩ := decoded
      have shaped : opcode.accessesSlot = true := shaped
      have accesses : opcode.shape = .slotByte 0 := by rw [Opcode.shape, if_pos shaped]
      refine fetches_single decodes ((ofInstruction_high (accessesSlot_high shaped :)).trans ?_)
      dsimp only [ofOther]
      rw [if_neg (ne_of_shape accesses (by decide)), if_neg (ne_of_shape accesses (by decide)),
        if_neg (ne_of_shape accesses (by decide))]
  | increment slot amount =>
      obtain ⟨tail, rfl⟩ := decoded
      refine fetches_single decodes ((ofInstruction_high (by dsimp only; decide)).trans ?_)
      change (amountAt? code position).bind (fun amount => some (Operation.increment _ amount)) = _
      rw [show amountAt? code position = _ from immediate]
      rfl
  | field opcode member => exact fetches_field shaped decoded decodes
  | invoke opcode member => exact fetches_method shaped decoded decodes
  | newDup className =>
      obtain ⟨index, named, rfl⟩ := decoded
      obtain ⟨first, second, stops⟩ := decodes
      have created : (pool.classNameAt index).toOption.map Operation.create =
          some (.create className) := by
        rw [named]
        rfl
      obtain ⟨next, fetched, rfl⟩ := fetches_single ⟨first, rfl⟩
        ((ofInstruction_high (by dsimp only; decide)).trans created)
      exact ⟨_, fetched, fetches_single ⟨second, stops⟩ (ofInstruction_plain (by decide))⟩
  | newArray elementType =>
      cases decoded
      refine fetches_single decodes ((ofInstruction_high (by dsimp only; decide)).trans ?_)
      change code[position + 1]?.map Operation.newArray = _
      rw [show code[position + 1]? = _ from immediate]
      rfl
  | newRefArray className =>
      obtain ⟨index, named, rfl⟩ := decoded
      refine fetches_single decodes ((ofInstruction_high (by dsimp only; decide)).trans ?_)
      change (pool.classNameAt index).toOption.map Operation.newRefArray = _
      rw [named]
      rfl
  | newMultiArray descriptor dimensions =>
      obtain ⟨last, index, named, rfl⟩ := decoded
      refine fetches_single decodes ((ofInstruction_high (by dsimp only; decide)).trans ?_)
      change (pool.classNameAt index).toOption.bind (fun found => code[position + 3]?.bind
        fun dimensions => some (Operation.newMultiArray found dimensions)) = _
      rw [named, last]
      rfl
  | call helper => exact fetches_method (.inr (.inr rfl)) decoded decodes
  | getCell cell => exact fetches_field (.inl rfl) decoded decodes
  | putCell cell => exact fetches_field (.inr rfl) decoded decodes

end Insn

/-- Items stand in the code from a position to the end of a method. -/
inductive Stands (pool : ConstantPool) (owner : String) (target : Label → Nat) (code : Array UInt8) :
    Nat → List Item → Prop where
  | nil {position : Nat} : Stands pool owner target code position []
  | insn {position next : Nat} {insn : Insn} {items : List Item} :
      Operation.Fetches pool code position (insn.operations owner target) next →
      Stands pool owner target code next items →
      Stands pool owner target code position (.insn insn :: items)
  | label {position : Nat} {label : Label} {items : List Item} :
      target label = position → Stands pool owner target code position items →
      Stands pool owner target code position (.label label :: items)
  | sourceLine {position : Nat} {line : UInt32} {items : List Item} :
      Stands pool owner target code position items →
      Stands pool owner target code position (.sourceLine line :: items)
  | request {position : Nat} {helper : Helper} {items : List Item} :
      Stands pool owner target code position items →
      Stands pool owner target code position (.request helper :: items)

namespace Stands

variable {pool : ConstantPool} {owner : String} {target : Label → Nat} {code : Array UInt8}

theorem behind {front back : List Item} {label : Label}
    (stands : Stands pool owner target code position (front ++ .label label :: back)) :
    Stands pool owner target code (target label) back := by
  induction front generalizing position with
  | nil =>
      obtain _ | _ | ⟨here, later⟩ | _ | _ := stands
      exact here ▸ later
  | cons item rest ih =>
      cases stands with
      | insn _ later => exact ih later
      | label _ later => exact ih later
      | sourceLine later => exact ih later
      | request later => exact ih later

theorem of_laid {draft : Draft} {header : MethodHeader} {unit : MethodUnit}
    (spells : unit.Spells pool draft header target instructions)
    (shaped : ∀ insn, .insn insn ∈ draft.items.toList → insn.Shaped) {back : List Item}
    {rest : List Instruction} (laid : Laid pool header.owner target unit.code position back rest stop)
    {front : List Item} {first : List Instruction} (items : draft.items.toList = front ++ back)
    (before : Laid pool header.owner target unit.code 0 front first position) :
    Stands pool header.owner target unit.code position back := by
  induction laid generalizing front first with
  | nil => exact .nil
  | @insn position _ _ insn _ _ _ decoded decodes _ ih =>
      obtain ⟨_, _, toldAfter, told⟩ := spells.told items
      obtain ⟨_, rfl⟩ := toldAfter.unique before
      obtain ⟨_, _, immediateAfter, immediate⟩ := spells.immediate items
      obtain ⟨_, rfl⟩ := immediateAfter.unique before
      exact .insn (decoded.fetches (shaped insn (by simp [items])) decodes told immediate)
        (ih (items.trans (List.append_cons ..)) (before.append (.insn decoded decodes .nil)))
  | label here _ ih =>
      exact .label here (ih (items.trans (List.append_cons ..)) (before.append (.label here .nil)))
  | sourceLine _ ih =>
      exact .sourceLine (ih (items.trans (List.append_cons ..)) (before.append (.sourceLine .nil)))
  | request _ ih =>
      exact .request (ih (items.trans (List.append_cons ..)) (before.append (.request .nil)))

end Stands

/-- The items of a draft stand in the code that was finished from it. -/
theorem MethodUnit.Spells.stands {draft : Draft} {header : MethodHeader} {target : Label → Nat}
    {unit : MethodUnit} (spells : unit.Spells pool draft header target instructions)
    (shaped : ∀ insn, .insn insn ∈ draft.items.toList → insn.Shaped) :
    Stands pool header.owner target unit.code 0 draft.items.toList :=
  .of_laid spells shaped spells.laid rfl .nil

end BasicCompiler
