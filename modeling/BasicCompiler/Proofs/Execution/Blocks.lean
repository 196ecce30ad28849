import BasicCompiler.Proofs.Execution.Process

/-!
Execution of blocks. Instructions that stand one after the other in the code are followed without their
positions, and the code behind them goes on with what they leave.
-/

namespace BasicCompiler.Process

variable {slot : Nat} {value : Value} {data : Data} {opcode : Opcode} {label : Label}

namespace Environment

variable {environment : Environment} {goal : State → Prop} {state : State}

theorem Runs.here (holds : goal state) : environment.Runs goal state := ⟨state, .refl, holds⟩

theorem Runs.step {next : State} (steps : environment.step state = some next)
    (runs : environment.Runs goal next) : environment.Runs goal state := by
  obtain ⟨final, path, holds⟩ := runs
  exact ⟨final, path.head steps, holds⟩

theorem Runs.progress (runs : environment.Runs (· = .returned value) state) {middle : State}
    (reached : environment.Reaches state middle) :
    middle = .returned value ∨ ∃ next, environment.step middle = some next := by
  obtain ⟨_, path, rfl⟩ := runs
  have unique : Relator.RightUnique fun before after => environment.step before = some after :=
    fun _ _ _ first second => Option.some_inj.mp (first.symm.trans second)
  rcases Relation.ReflTransGen.total_of_right_unique unique path reached with beyond | before
  · rcases beyond.cases_head with same | ⟨next, steps, _⟩
    · exact .inl same.symm
    · cases steps
  · rcases before.cases_head with same | ⟨next, steps, _⟩
    · exact .inl same
    · exact .inr ⟨next, steps⟩

theorem step_of_fetch {code : Array UInt8} {position next : Nat} {callers : List Caller}
    {operation : Operation} {outcome : Outcome}
    (fetched : Operation.fetch environment.pool code position = some (operation, next))
    (executed : environment.execute data operation = some outcome) :
    environment.step (.running code position data callers) = some (outcome.state code next callers) := by
  simp only [Environment.step, fetched, Option.bind_eq_bind, Option.bind_some, executed]
  rfl

def follow (environment : Environment) : List Operation → Data → Option Data
  | [], data => some data
  | operation :: rest, data =>
    match environment.execute data operation with
    | some (.next data) => environment.follow rest data
    | _ => none

theorem follow_append (first second : List Operation) (data : Data) :
    environment.follow (first ++ second) data =
      (environment.follow first data).bind (environment.follow second) := by
  induction first generalizing data with
  | nil => rfl
  | cons operation rest ih =>
      simp only [List.cons_append, follow]
      split
      · exact ih _
      · rfl

theorem runs_follow {code : Array UInt8} {position stop : Nat} {final : Data} {callers : List Caller}
    {operations : List Operation}
    (fetches : Operation.Fetches environment.pool code position operations stop)
    (followed : environment.follow operations data = some final)
    (onwards : environment.Runs goal (.running code stop final callers)) :
    environment.Runs goal (.running code position data callers) := by
  induction operations generalizing position data with
  | nil =>
      cases fetches
      cases followed
      exact onwards
  | cons operation rest ih =>
      obtain ⟨next, fetched, later⟩ := fetches
      simp only [follow] at followed
      split at followed
      · rename_i middle executed
        exact .step (step_of_fetch fetched executed) (ih later followed)
      · cases followed

abbrev StandsAt (environment : Environment) (target : Label → Nat) (code : Array UInt8) (position : Nat)
    (items : List Item) : Prop :=
  Stands environment.pool environment.owner target code position items

end Environment

/-- Where blocks stand and what their runs lead to. -/
structure Course where
  environment : Environment
  target : Label → Nat
  code : Array UInt8
  callers : List Caller
  goal : State → Prop

namespace Course

open Environment

/-- Wherever the items stand in the code, a run from there with the data leads to the goal. -/
abbrev Leads (course : Course) (items : List Item) (data : Data) : Prop :=
  ∀ position, course.environment.StandsAt course.target course.code position items →
    course.environment.Runs course.goal (.running course.code position data course.callers)

abbrev Jumps (course : Course) (label : Label) (data : Data) : Prop :=
  course.environment.Runs course.goal (.running course.code (course.target label) data course.callers)

abbrev Returns (course : Course) (value : Value) (data : Data) : Prop :=
  course.environment.Runs course.goal (Outcome.state course.code 0 course.callers (.return value data))

def Passes (course : Course) (block : List Insn) (data final : Data) : Prop :=
  course.environment.follow (block.flatMap (Insn.operations course.environment.owner course.target)) data =
    some final

theorem runs_of_leads {environment : Environment} {target : Label → Nat} {code : Array UInt8}
    {callers : List Caller} {goal : State → Prop} {items : List Item} {position : Nat}
    (stands : environment.StandsAt target code position items)
    (leads : Leads ⟨environment, target, code, callers, goal⟩ items data) :
    environment.Runs goal (.running code position data callers) :=
  leads position stands

variable {course : Course} {rest : List Item}

theorem leads_block (block : List Insn) (final : Data) (passes : course.Passes block data final)
    (onwards : course.Leads rest final) : course.Leads (block.map .insn ++ rest) data := by
  intro position stands
  induction block generalizing position data with
  | nil =>
      cases passes
      exact onwards position stands
  | cons insn block ih =>
      obtain _ | ⟨fetches, later⟩ := stands
      rw [Passes, List.flatMap_cons, follow_append, Option.bind_eq_some_iff] at passes
      obtain ⟨middle, first, second⟩ := passes
      exact runs_follow fetches first (ih second _ later)

theorem leads_label (onwards : course.Leads rest data) : course.Leads (.label label :: rest) data := by
  intro position stands
  obtain _ | _ | ⟨_, later⟩ := stands
  exact onwards position later

theorem leads_goto (onwards : course.Jumps label data) :
    course.Leads (.insn (.branch Opcode.goto label) :: rest) data := by
  intro position stands
  obtain _ | ⟨⟨next, fetched, _⟩, _⟩ := stands
  exact .step (step_of_fetch fetched rfl) onwards

theorem decide?_pair {test : Int → Int → Bool} (tests : pairTest? opcode = some test) (first second : Int32)
    (stack : List Value) :
    decide? opcode (.int second :: .int first :: stack) =
      some (decide (test first.toInt second.toInt = true), stack) := by
  unfold pairTest? at tests
  split_ifs at tests with isEq isNe isLt isGe isGt isLe
  all_goals
    subst opcode
    cases tests
    simp [decide?, zeroTest?, pairTest?, Opcode.goto, Opcode.ifeq, Opcode.ifne, Opcode.iflt, Opcode.ifge,
      Opcode.ifgt, Opcode.ifle, Opcode.ificmpeq, Opcode.ificmpne, Opcode.ificmplt, Opcode.ificmpge,
      Opcode.ificmpgt, Opcode.ificmple]

theorem leads_branch (block : List Insn) (operands : List Value) {stack : List Value} {test : Prop}
    [Decidable test] (passes : course.Passes block data { data with stack := operands })
    (decided : decide? opcode operands = some (decide test, stack))
    (jump : test → course.Jumps label { data with stack := stack })
    (fall : ¬ test → course.Leads rest { data with stack := stack }) :
    course.Leads (block.map .insn ++ .insn (.branch opcode label) :: rest) data := by
  refine leads_block block _ passes fun position stands => ?_
  obtain _ | ⟨⟨next, fetched, rfl⟩, later⟩ := stands
  have executed : course.environment.execute { data with stack := operands }
      (.branch opcode (course.target label)) =
      some (if test then .jump (course.target label) { data with stack := stack }
        else .next { data with stack := stack }) := by
    simp [execute, decided]
  refine .step (step_of_fetch fetched executed) ?_
  by_cases holds : test
  · rw [if_pos holds]
    exact jump holds
  · rw [if_neg holds]
    exact fall holds next later

theorem leads_return (block : List Insn) (value : Value) (returns : returned? opcode = some value.kind)
    (passes : course.Passes block data { data with stack := [value] })
    (onwards : course.Returns value { data with stack := [value] }) :
    course.Leads (block.map .insn ++ .insn (.op opcode) :: rest) data := by
  refine leads_block block _ passes fun position stands => ?_
  have plain : Operation.ofPlain opcode = .plain opcode := by
    unfold returned? at returns
    split_ifs at returns with isInt isFloat isReference
    · rw [isInt]
      rfl
    · rw [isFloat]
      rfl
    · rw [isReference]
      rfl
  obtain _ | ⟨⟨next, fetched, rfl⟩, later⟩ := stands
  rw [plain] at fetched
  have executed : course.environment.execute { data with stack := [value] } (.plain opcode) =
      some (.return value { data with stack := [value] }) := by
    simp [execute, returns]
  exact .step (step_of_fetch fetched executed) onwards

theorem leads_call (block : List Insn) (parameters stack : List Value) {helper : Helper}
    {unit : MethodUnit}
    (foreign : PlatformMethod.find? Opcode.invokestatic (Insn.helperRef course.environment.owner helper) = none)
    (found : course.environment.method? (Insn.helperRef course.environment.owner helper) = some unit)
    (count : Descriptor.parameterSlots helper.spec.descriptor = parameters.length)
    (passes : course.Passes block data { data with stack := parameters.reverse ++ stack })
    (onwards : ∀ next, course.environment.StandsAt course.target course.code next rest →
      course.environment.Runs course.goal (.entry unit parameters data.heap data.created
        (⟨course.code, next, stack, data.locals⟩ :: course.callers))) :
    course.Leads (block.map .insn ++ .insn (.call helper) :: rest) data := by
  refine leads_block block _ passes fun position stands => ?_
  obtain _ | ⟨⟨next, fetched, rfl⟩, later⟩ := stands
  have slots : Descriptor.parameterSlots (Insn.helperRef course.environment.owner helper).descriptor =
      parameters.reverse.length := by
    rw [List.length_reverse]
    exact count
  have executed : course.environment.execute { data with stack := parameters.reverse ++ stack }
      (.invoke Opcode.invokestatic (Insn.helperRef course.environment.owner helper)) =
        some (.call unit parameters { data with stack := stack }) := by
    simp only [execute, invoke, foreign, found, Option.bind_eq_bind, Option.bind_some, slots]
    simp
  exact .step (step_of_fetch fetched executed) (onwards next later)

variable {block : List Insn} {stack : List Value} {locals : Nat → Option Value}
  {heap : Heap} {created : Nat} {final : Data}

@[simp] theorem passes_nil : course.Passes [] data final ↔ data = final := by
  simp [Passes, follow]

theorem passes_cons {insn : Insn} :
    course.Passes (insn :: block) data final ↔
      ∃ middle, course.environment.follow (insn.operations course.environment.owner course.target) data =
        some middle ∧ course.Passes block middle final := by
  simp only [Passes, List.flatMap_cons, follow_append, Option.bind_eq_some_iff]

theorem Passes.append {second : List Insn} {middle : Data} (passes : course.Passes block data middle)
    (later : course.Passes second middle final) : course.Passes (block ++ second) data final := by
  rw [Passes, List.flatMap_append, follow_append, show _ = some middle from passes]
  exact later

theorem slot_toNat (small : slot < 65536) : (UInt16.ofNat slot).toNat = slot := by
  rw [UInt16.toNat_ofNat', Nat.mod_eq_of_lt small]

-- A proof by `rfl` here would keep `simp` from using these for the conditions of `passes_load` and `passes_store`.

@[simp, grind =] theorem loaded?_iload : loaded? Opcode.iload = some .int := by decide

@[simp, grind =] theorem loaded?_fload : loaded? Opcode.fload = some .float := by decide

@[simp, grind =] theorem loaded?_aload : loaded? Opcode.aload = some .reference := by decide

@[simp, grind =] theorem loaded?_istore : loaded? Opcode.istore = none := by decide

@[simp, grind =] theorem loaded?_fstore : loaded? Opcode.fstore = none := by decide

@[simp, grind =] theorem loaded?_astore : loaded? Opcode.astore = none := by decide

@[simp, grind =] theorem stored?_istore : stored? Opcode.istore = some .int := by decide

@[simp, grind =] theorem stored?_fstore : stored? Opcode.fstore = some .float := by decide

@[simp, grind =] theorem stored?_astore : stored? Opcode.astore = some .reference := by decide

@[simp] theorem passes_load (loads : (loaded? opcode).isSome) (small : slot < 65536) :
    course.Passes (.access opcode slot :: block) ⟨stack, locals, heap, created⟩ final ↔
      ∃ value, locals slot = some value ∧ some value.kind = loaded? opcode ∧
        course.Passes block ⟨value :: stack, locals, heap, created⟩ final := by
  obtain ⟨kind, isKind⟩ := Option.isSome_iff_exists.mp loads
  rw [passes_cons, Insn.operations, slot_toNat small]
  cases found : locals slot with
  | none => simp [follow, execute, access, isKind, found]
  | some value =>
      by_cases same : value.kind = kind <;> simp [follow, execute, access, isKind, found, same, Data.push]

@[simp] theorem passes_store (loads : loaded? opcode = none) (stores : (stored? opcode).isSome)
    (small : slot < 65536) :
    course.Passes (.access opcode slot :: block) ⟨value :: stack, locals, heap, created⟩ final ↔
      some value.kind = stored? opcode ∧ course.Passes block
        ⟨stack, Function.update locals slot (some value), heap, created⟩ final := by
  obtain ⟨kind, isKind⟩ := Option.isSome_iff_exists.mp stores
  rw [passes_cons, Insn.operations, slot_toNat small]
  by_cases same : value.kind = kind <;> simp [follow, execute, access, loads, isKind, same]

@[simp] theorem passes_increment (small : slot < 65536) {amount : Int8} :
    course.Passes (.increment slot amount :: block) ⟨stack, locals, heap, created⟩ final ↔
      ∃ value, locals slot = some (.int value) ∧ course.Passes block
        ⟨stack, Function.update locals slot (some (.int (value + Int32.ofInt amount.toInt))), heap,
          created⟩ final := by
  rw [passes_cons, Insn.operations, slot_toNat small]
  simp only [follow, execute]
  cases found : locals slot with
  | none => simp
  | some value => cases value <;> simp

@[simp] theorem passes_pushInt {value : Int32} :
    course.Passes (.pushInt value :: block) ⟨stack, locals, heap, created⟩ final ↔
      course.Passes block ⟨.int value :: stack, locals, heap, created⟩ final := Iff.rfl

@[simp] theorem passes_pushFloat {value : Single} :
    course.Passes (.pushFloat value :: block) ⟨stack, locals, heap, created⟩ final ↔
      course.Passes block ⟨.float value :: stack, locals, heap, created⟩ final := Iff.rfl

@[simp] theorem passes_pushText {text : String} :
    course.Passes (.pushText text :: block) ⟨stack, locals, heap, created⟩ final ↔
      course.Passes block
        ⟨.text (Utf16.encode text.toList) :: stack, locals, heap, created⟩ final := Iff.rfl

@[simp] theorem passes_iconst0 :
    course.Passes (.op Opcode.iconst0 :: block) ⟨stack, locals, heap, created⟩ final ↔
      course.Passes block ⟨.int 0 :: stack, locals, heap, created⟩ final := Iff.rfl

@[simp] theorem passes_iconst1 :
    course.Passes (.op Opcode.iconst1 :: block) ⟨stack, locals, heap, created⟩ final ↔
      course.Passes block ⟨.int 1 :: stack, locals, heap, created⟩ final := Iff.rfl

@[simp] theorem passes_iconst2 :
    course.Passes (.op Opcode.iconst2 :: block) ⟨stack, locals, heap, created⟩ final ↔
      course.Passes block ⟨.int 2 :: stack, locals, heap, created⟩ final := Iff.rfl

@[simp] theorem passes_fconst0 :
    course.Passes (.op Opcode.fconst0 :: block) ⟨stack, locals, heap, created⟩ final ↔
      course.Passes block ⟨.float .zero :: stack, locals, heap, created⟩ final := Iff.rfl

@[simp] theorem passes_iadd {first second : Int32} :
    course.Passes (.op Opcode.iadd :: block)
        ⟨.int second :: .int first :: stack, locals, heap, created⟩ final ↔
      course.Passes block ⟨.int (first + second) :: stack, locals, heap, created⟩ final := Iff.rfl

@[simp] theorem passes_isub {first second : Int32} :
    course.Passes (.op Opcode.isub :: block)
        ⟨.int second :: .int first :: stack, locals, heap, created⟩ final ↔
      course.Passes block ⟨.int (first - second) :: stack, locals, heap, created⟩ final := Iff.rfl

@[simp] theorem passes_ineg {value : Int32} :
    course.Passes (.op Opcode.ineg :: block) ⟨.int value :: stack, locals, heap, created⟩ final ↔
      course.Passes block ⟨.int (-value) :: stack, locals, heap, created⟩ final := Iff.rfl

@[simp] theorem passes_i2f {value : Int32} :
    course.Passes (.op Opcode.i2f :: block) ⟨.int value :: stack, locals, heap, created⟩ final ↔
      course.Passes block
        ⟨.float (Single.ofInt value.toInt) :: stack, locals, heap, created⟩ final := Iff.rfl

@[simp] theorem passes_f2i {value : Single} :
    course.Passes (.op Opcode.f2i :: block) ⟨.float value :: stack, locals, heap, created⟩ final ↔
      course.Passes block ⟨.int value.truncate :: stack, locals, heap, created⟩ final := Iff.rfl

@[simp] theorem passes_f2d {value : Single} :
    course.Passes (.op Opcode.f2d :: block) ⟨.float value :: stack, locals, heap, created⟩ final ↔
      course.Passes block ⟨.double value :: stack, locals, heap, created⟩ final := Iff.rfl

@[simp] theorem passes_fcmpl {first second : Single} :
    course.Passes (.op Opcode.fcmpl :: block)
        ⟨.float second :: .float first :: stack, locals, heap, created⟩ final ↔
      course.Passes block ⟨.int (first.compare second) :: stack, locals, heap, created⟩ final := Iff.rfl

@[simp] theorem passes_newDup {className : String} :
    course.Passes (.newDup className :: block) ⟨stack, locals, heap, created⟩ final ↔
      course.Passes block
        ⟨.fresh created className :: .fresh created className :: stack, locals, heap, created + 1⟩
        final := Iff.rfl

@[simp] theorem passes_getstatic {member : MemberRef} :
    course.Passes (.field Opcode.getstatic member :: block) ⟨stack, locals, heap, created⟩ final ↔
      ∃ value, constant? member = some value ∧
        course.Passes block ⟨value :: stack, locals, heap, created⟩ final := by
  rw [passes_cons]
  simp only [Insn.operations, follow, execute, if_true]
  cases constant? member <;> simp [Data.push]

@[simp] theorem passes_newChars {length : Int32} :
    course.Passes (.newArray ElementType.char :: block) ⟨.int length :: stack, locals, heap, created⟩ final ↔
      0 ≤ length.toInt ∧ course.Passes block
        ⟨.chars heap.chars.length :: stack, locals,
          { heap with chars := heap.chars ++ [List.replicate length.toNatClampNeg 0] }, created⟩ final := by
  rw [passes_cons]
  by_cases negative : length.toInt < 0 <;> simp [Insn.operations, follow, execute, negative, ← Int.not_lt]

@[simp] theorem passes_newInts {length : Int32} :
    course.Passes (.newArray ElementType.int :: block) ⟨.int length :: stack, locals, heap, created⟩ final ↔
      0 ≤ length.toInt ∧ course.Passes block
        ⟨.ints heap.ints.length :: stack, locals,
          { heap with ints := heap.ints ++ [List.replicate length.toNatClampNeg 0] }, created⟩ final := by
  rw [passes_cons]
  have other : ElementType.int ≠ ElementType.char := by decide
  by_cases negative : length.toInt < 0 <;>
    simp [Insn.operations, follow, execute, negative, ← Int.not_lt, other]

@[simp] theorem passes_ior {first second : Int32} :
    course.Passes (.op Opcode.ior :: block)
        ⟨.int second :: .int first :: stack, locals, heap, created⟩ final ↔
      course.Passes block ⟨.int (first ||| second) :: stack, locals, heap, created⟩ final := Iff.rfl

@[simp] theorem passes_ishl {first second : Int32} :
    course.Passes (.op Opcode.ishl :: block)
        ⟨.int second :: .int first :: stack, locals, heap, created⟩ final ↔
      course.Passes block ⟨.int (first <<< second) :: stack, locals, heap, created⟩ final := Iff.rfl

@[simp] theorem passes_putCell {cell : Cell} :
    course.Passes (.putCell cell :: block) ⟨value :: stack, locals, heap, created⟩ final ↔
      course.Passes block
        ⟨stack, locals, { heap with cells := Function.update heap.cells cell (some value) }, created⟩ final := by
  rw [passes_cons]
  have named : Cell.ofName? cell.name = some cell := by cases cell <;> rfl
  have other : Opcode.putstatic ≠ Opcode.getstatic := by decide
  simp [Insn.operations, follow, execute, store, Insn.cellRef, named, other]

theorem position?_word {index length : Nat} (within : index < length) (small : length < lengthLimit) :
    position? (word index) length = some index := by
  rw [position?, word_toInt (Nat.lt_trans within small), word_toNat (Nat.lt_trans within small),
    if_pos (by omega)]

theorem passes_op {middle : Data}
    (plain : Operation.ofPlain opcode = .plain opcode ∧ returned? opcode = none ∧ opcode ≠ Opcode.vreturn)
    (operates : operate data opcode = some middle) :
    course.Passes (.op opcode :: block) data final ↔ course.Passes block middle final := by
  rw [passes_cons]
  simp [Insn.operations, follow, execute, plain, operates]

section

variable {units : List UInt16} {values : List Int32} {address index : Nat}

theorem passes_arraylength (known : heap.chars[address]? = some units) :
    course.Passes (.op Opcode.arraylength :: block) ⟨.chars address :: stack, locals, heap, created⟩ final ↔
      course.Passes block ⟨.int (word units.length) :: stack, locals, heap, created⟩ final := by
  refine passes_op (by decide) ?_
  change heap.chars[address]?.map _ = _
  rw [known]
  rfl

theorem passes_caload (known : heap.chars[address]? = some units) (small : units.length < lengthLimit)
    {unit : UInt16} (found : units[index]? = some unit) :
    course.Passes (.op Opcode.caload :: block)
        ⟨.int (word index) :: .chars address :: stack, locals, heap, created⟩ final ↔
      course.Passes block ⟨.int (word unit.toNat) :: stack, locals, heap, created⟩ final := by
  refine passes_op (by decide) ?_
  change heap.chars[address]?.bind (fun units => (position? (word index) units.length).bind
    fun position => units[position]?.bind _) = _
  rw [known, Option.bind_some, position?_word (List.getElem?_eq_some_iff.mp found).1 small,
    Option.bind_some, found]
  rfl

theorem passes_iastore (known : heap.ints[address]? = some values) (small : values.length < lengthLimit)
    (within : index < values.length) {number : Int32} :
    course.Passes (.op Opcode.iastore :: block)
        ⟨.int number :: .int (word index) :: .ints address :: stack, locals, heap, created⟩ final ↔
      course.Passes block
        ⟨stack, locals, { heap with ints := heap.ints.set address (values.set index number) }, created⟩
        final := by
  refine passes_op (by decide) ?_
  change heap.ints[address]?.bind (fun values => (position? (word index) values.length).bind _) = _
  rw [known, Option.bind_some, position?_word within small]
  rfl

end

end Course

def PlatformMethod.insn (method : PlatformMethod) : Insn :=
  .invoke method.reference.1 method.reference.2

@[simp] theorem Course.passes_platform {course : Course} {block : List Insn} {final : Data}
    {method : PlatformMethod} :
    course.Passes (method.insn :: block) data final ↔
      ∃ middle, method.call course.environment.parse data = some middle ∧
        course.Passes block middle final := by
  rw [passes_cons]
  simp only [PlatformMethod.insn, Insn.operations, Environment.follow, Environment.execute, Environment.invoke,
    method.find?_reference]
  cases method.call course.environment.parse data <;> simp

end BasicCompiler.Process
