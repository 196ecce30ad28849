import BasicCompiler.Proofs.Compile.ResolvedJumps
import BasicCompiler.Proofs.Compile.StatementSlots

/-!
The slots of a main method. Its first jump leads to the code that gives every slot its first value, from
there the statements are entered, and these use each slot for one local only.
-/

namespace BasicCompiler

open Draft Body Instruction

structure FirstValue where
  push : Instruction
  store : Instruction

def FirstValue.parts (value : FirstValue) : List Instruction := [value.push, value.store]

structure MainParts where
  enter : Instruction
  /-- The statements and the code that ends the program. -/
  statements : List Instruction
  initial : List FirstValue
  resume : Instruction

namespace MainParts

variable (parts : MainParts)

def opening : List Instruction := parts.initial.flatMap FirstValue.parts ++ [parts.resume]

def instructions : List Instruction := parts.enter :: (parts.statements ++ parts.opening)

end MainParts

namespace FinishedCode

def PushesInitial (code : FinishedCode) (instruction : Instruction) : Initial → Prop
  | .number => instruction.opcode = Opcode.fconst0
  | .text => code.PushesText "" instruction
  | .null => instruction.opcode = Opcode.aconstNull
  | .int => instruction.opcode = Opcode.iconst0

structure Initializes (code : FinishedCode) (slot : Nat) (initial : Initial) (value : FirstValue) : Prop where
  push : code.PushesInitial value.push initial
  unused : value.push.slotUse? = none
  store : value.store.slotUse? = some ⟨initial.storeOpcode, slot⟩

namespace Shows

variable {code : FinishedCode} {start stop : Nat} {items : List Item} {parts : List Instruction}

theorem head_position {first : Instruction} (shown : code.Shows start items parts stop)
    (isFirst : parts.head? = some first) : first.position = start := by
  obtain ⟨rest, rfl⟩ := List.head?_eq_some_iff.mp isFirst
  exact decodeAt_position shown.lays.decodes.1

theorem op {opcode : Opcode} (shown : code.Shows start (.insn (.op opcode) :: items) parts stop) :
    ∃ instruction later middle, parts = instruction :: later ∧ instruction.opcode = opcode ∧
      instruction.slotUse? = opcode.shortUse? ∧ code.Shows middle items later stop := by
  obtain ⟨instruction, later, middle, rfl, _, decoded, _, _, rest⟩ := shown.insn rfl
  obtain ⟨rfl, _⟩ := List.cons.inj decoded
  exact ⟨_, later, middle, rfl, rfl, rfl, rest⟩

theorem text {content : String} (shown : code.Shows start (.insn (.pushText content) :: items) parts stop) :
    ∃ push later middle, parts = push :: later ∧ code.PushesText content push ∧ push.slotUse? = none ∧
      code.Shows middle items later stop := by
  obtain ⟨push, later, middle, rfl, _, decoded, _, _, rest⟩ := shown.insn rfl
  obtain ⟨index, _, found, ⟨place, rfl, isText⟩, isPush | isPush⟩ := decoded
  all_goals
    obtain ⟨rfl, _⟩ := List.cons.inj isPush
    exact ⟨_, later, middle, rfl, ⟨by simp, index, place, rfl, found, isText⟩,
      by dsimp only [Instruction.slotUse?]; decide, rest⟩

theorem access {opcode : Opcode} {slot : Nat} (small : slot < 65536)
    (shown : code.Shows start (.insn (.access opcode slot) :: items) parts stop) :
    ∃ instruction later middle, parts = instruction :: later ∧
      instruction.slotUse? = some ⟨opcode, slot⟩ ∧ code.Shows middle items later stop := by
  obtain ⟨instruction, later, middle, rfl, _, decoded, _, _, rest⟩ := shown.insn rfl
  obtain ⟨tail, isAccess⟩ := decoded
  obtain ⟨rfl, _⟩ := List.cons.inj isAccess
  refine ⟨_, later, middle, rfl, ?_, rest⟩
  simp [Instruction.slotUse?, Utf16.toNat_ofNat_of_lt small]

theorem initializer {slot : Nat} {initial : Initial} (small : slot < 65536)
    (shown : code.Shows start ((Scope.initializer slot initial).map Item.insn ++ items) parts stop) :
    ∃ value later middle, parts = value.parts ++ later ∧ code.Initializes slot initial value ∧
      code.Shows middle items later stop := by
  have pushed : ∃ push later middle, parts = push :: later ∧ code.PushesInitial push initial ∧
      push.slotUse? = none ∧
      code.Shows middle (.insn (.access initial.storeOpcode slot) :: items) later stop := by
    cases initial with
    | number | null | int => exact shown.op
    | text => exact shown.text
  obtain ⟨push, later, middle, rfl, isPush, unused, rest⟩ := pushed
  obtain ⟨store, later, middle, rfl, isStore, rest⟩ := rest.access small
  exact ⟨⟨push, store⟩, later, middle, rfl, ⟨isPush, unused, isStore⟩, rest⟩

theorem initializers {entries : List (Nat × Initial)} (small : ∀ entry ∈ entries, entry.1 < 65536)
    (shown : code.Shows start
      ((entries.flatMap fun entry => Scope.initializer entry.1 entry.2).map Item.insn ++ items) parts stop) :
    ∃ values later middle, parts = values.flatMap FirstValue.parts ++ later ∧
      List.Forall₂ (fun entry value => code.Initializes entry.1 entry.2 value) entries values ∧
      code.Shows middle items later stop := by
  induction entries generalizing start parts with
  | nil => exact ⟨[], parts, start, rfl, .nil, shown⟩
  | cons entry rest ih =>
      obtain ⟨here, others⟩ := List.forall_mem_cons.mp small
      rw [List.flatMap_cons, List.map_append, List.append_assoc] at shown
      obtain ⟨value, later, middle, rfl, isValue, shown⟩ := shown.initializer here
      obtain ⟨values, later, middle, rfl, areValues, shown⟩ := ih others shown
      exact ⟨value :: values, later, middle, by rw [List.flatMap_cons, List.append_assoc],
        .cons isValue areValues, shown⟩

end Shows

end FinishedCode

theorem Touch.opcode_type (touch : Touch) :
    touch.opcode.slotType? = touch.holder.initial.storeOpcode.slotType? := by
  cases touch with
  | load holder => cases isInitial : holder.initial <;> simp [opcode, Touch.holder, isInitial] <;> decide
  | store holder => rfl

theorem Local.storeOpcode_type (holder : Local) :
    holder.initial.storeOpcode.slotType? = some .float ∨
      holder.initial.storeOpcode.slotType? = some .reference := by
  cases holder with
  | scalar name =>
      rw [Local.initial]
      cases name.kind with
      | number => exact .inl rfl
      | text => exact .inr rfl
  | array => exact .inr rfl
  | limit | step => exact .inl rfl

namespace MainMethod

theorem opened_follows : opened.Follows Usage.empty where
  records := by
    refine ⟨⟨by decide, rfl, fun {holder key} _ _ => ?_⟩, rfl, by simp [Usage.empty]⟩
    change (∅ : Std.HashMap String Nat)[key]? = _
    simp [Usage.empty]
  loops := .nil

theorem closingItems_slotUses (through : Body) : Item.slotUses (closingItems through) = [] := by
  have exits (helpers : List Helper) : Item.slotUses (exitItems helpers) = [] := by
    unfold exitItems
    split <;> rfl
  have dispatches (unknown : Label) : Item.slotUses (dispatchOf through unknown) = [] := by
    unfold dispatchOf dispatchItems
    split
    · split <;> rfl
    · rfl
  have reports (helpers : List Helper) : Item.slotUses (reportItems helpers) = [] := by
    unfold reportItems
    split <;> rfl
  rw [closingItems, Item.slotUses_append, exits, Item.slotUses_append, dispatches]
  exact reports _

/-- The code between the first jump of a main method and the first values of its locals touches them as
the program says. -/
structure Arranged (program : Program) (body : Body) (statements : List Item) : Prop where
  items : body.draft.items.toList = framed statements body.draft.scope.initializers
  uses : Item.slotUses statements = program.usage.touches.map program.usage.use
  allots : body.draft.scope.Allots program.usage.locals

theorem compile_arranged (surroundings : Surroundings) {program : Program}
    (separate : ∀ holder ∈ program.usage.locals, holder.Separate) :
    Ends (compile surroundings program) (Body.empty descriptor)
      (fun _ body => ∃ statements, Arranged program body statements) (fun _ _ => True) := by
  refine compile_ends (((Stmt.compileAll_tracks program Usage.empty opened .empty opened_follows
    separate).and ((Stmt.compileAll_advances program).ends opened)).mono (fun _ _ both => both)
      fun _ _ _ => trivial) (fun _ _ _ _ _ => trivial) ?_
  rintro through body ⟨follows, advances⟩ _ _ closed
  obtain ⟨statements, items, _⟩ := advances.grows.items
  obtain ⟨nextLabel, scope⟩ := closed.scope
  have uses := follows.records.uses
  rw [items] at uses
  refine ⟨statements ++ closingItems through, closed.framed items, ?_, ?_⟩
  · rw [Item.slotUses_append, closingItems_slotUses, List.append_nil]
    exact uses
  · rw [scope]
    exact ⟨follows.records.allots.next, follows.records.allots.initials, follows.records.allots.named⟩

structure Parted (program : Program) (code : FinishedCode) (parts : MainParts) : Prop where
  whole : code.instructions = parts.instructions
  /-- The method starts with a jump to the code that gives the slots their first values. -/
  enters : parts.enter.position = 0 ∧
    ∃ first, parts.opening.head? = some first ∧ FinishedCode.JumpsTo first.position parts.enter
  /-- Every local gets its first value in its slot. -/
  initial : List.Forall₂ (fun holder value =>
    code.Initializes (holder.slotIn program.usage.locals) holder.initial value)
    program.usage.locals parts.initial
  resumes : FinishedCode.JumpsTo 3 parts.resume
  /-- The loads and stores of the statements are those of the program, in order. -/
  uses : parts.statements.filterMap Instruction.slotUse? = program.usage.touches.map program.usage.use
  jumps : parts.enter.slotUse? = none ∧ parts.resume.slotUse? = none

structure Slots (program : Program) (code : FinishedCode) (maxLocals : Nat) (parts : MainParts) : Prop
    extends Parted program code parts where
  /-- Every slot but the first gets its first value once. -/
  once : (parts.initial.filterMap fun value => value.store.slotUse?).map SlotUse.slot =
    List.range' 1 (maxLocals - 1)
  known : ∀ touch ∈ program.usage.touches, touch.holder ∈ program.usage.locals
  /-- Two locals have the same slot if and only if they are the same. -/
  apart : ∀ first ∈ program.usage.locals, ∀ second ∈ program.usage.locals,
    first.slotIn program.usage.locals = second.slotIn program.usage.locals ↔ first = second
  /-- Every loop that counts has a limit and a step. -/
  loops : ∀ loop < (Stmt.inlinedAll program).countP Stmt.opensCounting,
    .limit loop ∈ program.usage.locals ∧ .step loop ∈ program.usage.locals
  /-- A slot is loaded and stored with the type of its first value. -/
  typed : ∀ use ∈ parts.statements.filterMap Instruction.slotUse?, ∃ value ∈ parts.initial, ∃ store,
    value.store.slotUse? = some store ∧ store.slot = use.slot ∧
      store.opcode.slotType? = use.opcode.slotType? ∧
      (use.opcode.slotType? = some .float ∨ use.opcode.slotType? = some .reference)
  /-- The first slot, which holds the argument, is not used. -/
  untouched : ∀ instruction ∈ code.instructions, ∀ use, instruction.slotUse? = some use → use.slot ≠ 0

theorem Arranged.initials {program : Program} {body : Body} {statements : List Item}
    (arranged : Arranged program body statements) :
    body.draft.scope.initials.toList =
      program.usage.locals.map fun holder => (holder.slotIn program.usage.locals, holder.initial) := by
  rw [arranged.allots.initials, Local.zipIdx_eq program.usage_distinct, List.map_map]
  rfl

theorem Arranged.parted {surroundings : Surroundings} {program : Program} {body : Body}
    {statements last : List Item} {pieces : List (List Item)} {code : FinishedCode}
    (arranged : Arranged program body statements) (drafted : Drafted surroundings program body pieces last)
    (shown : code.Shows 0 body.draft.items.toList code.instructions code.bytes.size)
    (small : body.draft.scope.nextSlot ≤ 65535) : ∃ parts, Parted program code parts := by
  have sensible : ∀ insn, .insn insn ∈ body.draft.items.toList → insn.Sensible := by
    intro insn member
    obtain ⟨accepts, executes⟩ := drafted.whole.part member
    exact ⟨accepts.shaped, executes, fun slot isSlot =>
      Nat.lt_of_lt_of_le (accepts.within slot isSlot) (Nat.le_succ_of_le small)⟩
  have fits : ∀ entry ∈ body.draft.scope.initials.toList, entry.1 < 65536 := by
    rw [arranged.initials]
    intro entry member
    obtain ⟨holder, isHolder, rfl⟩ := List.mem_map.mp member
    have place := List.idxOf_lt_length_of_mem isHolder
    have next := arranged.allots.next
    simp only [Local.slotIn]
    omega
  rw [arranged.items, framed] at shown sensible
  -- The code is cut at the labels. The first jump takes three bytes, so the statements stand at 3.
  obtain ⟨later, isWhole, shown⟩ := shown.jump
  obtain ⟨isBody, shown⟩ := shown.label
  obtain ⟨stated, later, middle, rfl, shownStatements, shown⟩ := shown.split
  obtain ⟨isInit, shownOpening⟩ := shown.label
  obtain ⟨values, later, point, rfl, initial, shown⟩ := shownOpening.initializers fits
  obtain ⟨later, rfl, ended⟩ := shown.jump
  obtain ⟨rfl, _⟩ := ended.nil
  rw [arranged.initials, List.forall₂_map_left_iff] at initial
  have unused : Opcode.goto.shortUse? = none := by decide
  refine ⟨⟨_, stated, values, _⟩, isWhole, ⟨rfl, ?_⟩, initial, ⟨rfl, ?_⟩, ?_, unused, unused⟩
  · obtain ⟨first, isFirst⟩ := Option.isSome_iff_exists.mp
      (List.isSome_head?.mpr (List.append_ne_nil_of_right_ne_nil (values.flatMap FirstValue.parts)
        (List.cons_ne_nil _ [])))
    rw [isInit, ← shownOpening.head_position isFirst]
    exact ⟨first, isFirst, rfl, rfl⟩
  · rw [isBody]
  · have known : ∀ insn, .insn insn ∈ statements → insn.Sensible := fun insn member =>
      sensible insn (by simp [member])
    rw [← arranged.uses]
    exact Laid.slotUses shownStatements.lays known

namespace Parted

variable {program : Program} {code : FinishedCode} {parts : MainParts}

theorem once (parted : Parted program code parts) :
    (parts.initial.filterMap fun value => value.store.slotUse?).map SlotUse.slot =
      List.range' 1 program.usage.locals.length := by
  have slots {locals : List Local} {values : List FirstValue} (initial : List.Forall₂ (fun holder value =>
      code.Initializes (holder.slotIn program.usage.locals) holder.initial value) locals values) :
      (values.filterMap fun value => value.store.slotUse?).map SlotUse.slot =
        locals.map (Local.slotIn program.usage.locals) := by
    induction initial with
    | nil => rfl
    | cons initializes _ ih => simp [initializes.store, ih]
  rw [slots parted.initial, Local.map_slotIn program.usage_distinct]

theorem typed (parted : Parted program code parts) {use : SlotUse}
    (member : use ∈ parts.statements.filterMap Instruction.slotUse?) :
    ∃ value ∈ parts.initial, ∃ store, value.store.slotUse? = some store ∧ store.slot = use.slot ∧
      store.opcode.slotType? = use.opcode.slotType? ∧
      (use.opcode.slotType? = some .float ∨ use.opcode.slotType? = some .reference) := by
  rw [parted.uses] at member
  obtain ⟨touch, isTouch, rfl⟩ := List.mem_map.mp member
  obtain ⟨value, isValue, initializes⟩ :=
    exists_of_forall₂ parted.initial.flip (program.usage_known touch isTouch)
  refine ⟨value, isValue, _, initializes.store, rfl, touch.opcode_type.symm, ?_⟩
  change touch.opcode.slotType? = _ ∨ touch.opcode.slotType? = _
  rw [touch.opcode_type]
  exact touch.holder.storeOpcode_type

theorem untouched (parted : Parted program code parts) {instruction : Instruction}
    (member : instruction ∈ code.instructions) {use : SlotUse} (uses : instruction.slotUse? = some use) :
    use.slot ≠ 0 := by
  rw [parted.whole] at member
  simp only [MainParts.instructions, MainParts.opening, List.mem_cons, List.mem_append, List.mem_flatMap,
    FirstValue.parts, List.not_mem_nil, or_false] at member
  rcases member with rfl | stated | ⟨value, isValue, isPart⟩ | rfl
  · rw [parted.jumps.1] at uses
    cases uses
  · have isUse := List.mem_filterMap.mpr ⟨instruction, stated, uses⟩
    rw [parted.uses] at isUse
    obtain ⟨touch, _, rfl⟩ := List.mem_map.mp isUse
    exact Nat.succ_ne_zero _
  · obtain ⟨holder, _, initializes⟩ := exists_of_forall₂ parted.initial isValue
    rcases isPart with rfl | rfl
    · rw [initializes.unused] at uses
      cases uses
    · rw [initializes.store] at uses
      cases uses
      exact Nat.succ_ne_zero _
  · rw [parted.jumps.2] at uses
    cases uses

theorem slots (parted : Parted program code parts) {maxLocals : Nat}
    (count : maxLocals = program.usage.locals.length + 1) : Slots program code maxLocals parts where
  toParted := parted
  once := by
    rw [count]
    exact parted.once
  known := program.usage_known
  apart := fun _ member _ _ => Local.slotIn_inj member
  loops := program.usage_held
  typed := fun _ member => parted.typed member
  untouched := fun _ member _ uses => parted.untouched member uses

end Parted

end MainMethod

namespace Program

def sampling : Program :=
  [.forLoop ⟨"I"⟩ (.number .one) (.number .ten) none, .forLoop ⟨"J"⟩ (.number .one) (.number .ten) none,
    .assign (.scalar ⟨"A"⟩) (.element ⟨"A"⟩ [.scalar ⟨"I"⟩]), .assign (.scalar ⟨"A$"⟩) (.text "HELLO"),
    .next [⟨"J"⟩, ⟨"I"⟩]]

theorem sampling_valid : sampling.Valid := by
  have all : Stmt.inlinedAll sampling = sampling := rfl
  have index : (Expr.scalar ⟨"I"⟩).HasKind .number := .scalar ⟨"I"⟩
  have element : (Expr.element ⟨"A"⟩ [.scalar ⟨"I"⟩]).HasKind .number :=
    .element ⟨"A"⟩ (.cons index .nil)
  have text : (Expr.text "HELLO").HasKind (Variable.scalar ⟨"A$"⟩).kind := .text "HELLO"
  refine ⟨List.nodup_nil, ?_, ?_, ?_, ?_⟩
  · rw [all]
    simp [sampling, Stmt.targets]
  · rw [all]
    have counts (control : VarName) (isNumber : control.kind = .number) :
        Stmt.WellKinded (.forLoop control (.number .one) (.number .ten) none) :=
      ⟨isNumber, .number _, .number _, by simp⟩
    simp only [sampling, List.forall_mem_cons]
    exact ⟨counts ⟨"I"⟩ (by decide), counts ⟨"J"⟩ (by decide), ⟨element, .scalar _⟩, ⟨text, .scalar _⟩,
      trivial, by simp⟩
  · have uses : (Stmt.inlinedAll sampling).flatMap Stmt.arrayUses = [(⟨"A"⟩, 1)] := rfl
    rw [uses]
    simp [ConsistentUses]
  · exact LoopMark.nested_iff_run.mpr (by decide)

theorem sampling_compiles : ∃ file, compile {} sampling = .ok file :=
  compile_succeeds_as_main false sampling_valid (by decide +kernel)

/-- In the main method of a compiled class every local has a slot of its own, which gets its first value
once and is used with the type of that value. -/
theorem compile_allots_slots (options : Options) (program : Program) (file : ClassFile)
    (compiled : compile options program = .ok file)
    (separate : ∀ holder ∈ program.usage.locals, holder.Separate) :
    ∃ main others code target instructions parts, file.methods = main :: others ∧
      file.pool.textAt main.nameIndex = .ok "main" ∧ main.code = some code ∧
      decode code.bytes = .ok instructions ∧
      MainMethod.Slots program ⟨file.pool, options.className, target, code.bytes, instructions⟩
        code.maxLocals.toNat parts := by
  obtain ⟨lines, body, built⟩ := built_of_compile compiled
  obtain ⟨statements, arranged⟩ := (MainMethod.compile_arranged _ separate).of_run built.compiled
  obtain ⟨pieces, last, drafted⟩ := built.drafted
  obtain ⟨library, assembled⟩ := built.assembled
  obtain ⟨main, others, isMain, _, methods⟩ := List.forall₂_cons_left_iff.mp assembled.methods
  have named := MethodInfo.Completes.named isMain
  obtain ⟨unit, ⟨⟨target, instructions, realizes⟩, _⟩, carries⟩ := isMain
  obtain ⟨code, isCode, _, locals, bytes, _⟩ := carries.code
  have small := built.nextSlot_le
  have shown : FinishedCode.Shows ⟨file.pool, options.className, target, unit.code, instructions⟩ 0
      body.draft.items.toList instructions unit.code.size := ⟨realizes.laid, realizes.told⟩
  obtain ⟨parts, parted⟩ := arranged.parted drafted shown small
  have count : code.maxLocals.toNat = program.usage.locals.length + 1 := by
    rw [locals, realizes.locals, Utf16.toNat_ofNat_of_lt (Nat.lt_succ_of_le small), arranged.allots.next]
  rw [← bytes] at parted
  refine ⟨main, others, code, target, instructions, parts, methods, named.1, isCode, ?_, parted.slots count⟩
  rw [bytes]
  exact realizes.decode

theorem sampling_allots_slots :
    sampling.usage.locals = [.scalar ⟨"I"⟩, .limit 0, .step 0, .scalar ⟨"J"⟩, .limit 1, .step 1,
      .array ⟨"A"⟩, .scalar ⟨"A"⟩, .scalar ⟨"A$"⟩] ∧
    (∀ holder ∈ sampling.usage.locals, holder.Separate) ∧
    ∃ file, compile {} sampling = .ok file ∧
      ∃ main others code target instructions parts, file.methods = main :: others ∧
        file.pool.textAt main.nameIndex = .ok "main" ∧ main.code = some code ∧
        decode code.bytes = .ok instructions ∧
        MainMethod.Slots sampling ⟨file.pool, "Main", target, code.bytes, instructions⟩
          code.maxLocals.toNat parts := by
  have separate : ∀ holder ∈ sampling.usage.locals, holder.Separate := by decide
  obtain ⟨file, compiled⟩ := sampling_compiles
  exact ⟨by decide, separate, file, compiled, compile_allots_slots {} sampling file compiled separate⟩

end Program

end BasicCompiler
