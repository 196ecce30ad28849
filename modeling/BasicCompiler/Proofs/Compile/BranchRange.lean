import BasicCompiler.Proofs.Compile.MainContents
import BasicCompiler.Proofs.Compile.SmallPrograms
import BasicCompiler.Proofs.Execution.Initializer
import BasicCompiler.Proofs.Method.Distances

/-!
Which errors of the assembler a program is refused with. The main method starts with a jump over all
statements and ends with a jump back over them, so these two are the branches that can be out of range,
and they are so in methods that are far from too large. The code of the class initializer has short
branches only, and the helpers are small.
-/

namespace BasicCompiler

open Draft

theorem Scope.initializers_plain (scope : Scope) : ∀ insn ∈ scope.initializers, insn.labels = [] := by
  intro insn member
  obtain ⟨⟨slot, initial⟩, _, isPart⟩ := List.mem_flatMap.mp member
  cases initial <;>
  · simp only [initializer, List.mem_cons, List.not_mem_nil, or_false] at isPart
    rcases isPart with rfl | rfl <;> rfl

namespace MainMethod

def overrun? (main : OpenMethod) : Option AssemblyError :=
  if 65535 < main.size then some (.methodTooLarge "main" main.size)
  else if 32767 < main.labelAt MainLabel.init then some (.branchOutOfRange "main" MainLabel.init)
  else if 32774 < main.size then some (.branchOutOfRange "main" MainLabel.body)
  else none

structure Spans (main : OpenMethod) (inner : List Patch) : Prop where
  patches : main.emitter.buffer.patches.toList = ⟨1, some 0, .short, MainLabel.init⟩ ::
    (inner ++ [⟨main.size - 3 + 1, some (main.size - 3), .short, MainLabel.body⟩])
  body : main.emitter.buffer.labels[MainLabel.body]? = some 3
  init : main.emitter.buffer.labels[MainLabel.init]? = some (main.labelAt MainLabel.init)
  back : 3 ≤ main.size
  inside : main.labelAt MainLabel.init ≤ 32767 →
    inner.findSome? (Patch.fault? "main" main.emitter.buffer.labels) = none

theorem framed_target {pool : ConstantPool} {owner : String} {labels : Std.HashMap Label Nat} {label : Label}
    {statements : List Item} {values : List Insn} {stated : List Fragment}
    (isStated : Placed pool owner labels 3 statements stated) (atBody : labels[MainLabel.body]? = some 3)
    (atInit : labels[MainLabel.init]? = some (Fragment.stop 3 stated))
    (defined : label ∈ Item.definitions (framed statements values)) :
    ∃ target, labels[label]? = some target ∧ 0 ≤ target ∧ target ≤ Fragment.stop 3 stated := by
  have unlabelled : Item.definitions
      (values.map Item.insn ++ [Item.insn (.branch Opcode.goto MainLabel.body)]) = [] := by
    simp [Item.definitions, Item.defined]
  have all : Item.definitions (framed statements values) =
      MainLabel.body :: (Item.definitions statements ++ [MainLabel.init]) := by
    rw [← unlabelled]
    simp [framed, Item.definitions, Item.defined]
  rw [all, List.mem_cons, List.mem_append, List.mem_singleton] at defined
  rcases defined with rfl | inner | rfl
  · exact ⟨3, atBody, Nat.zero_le _, Fragment.le_stop 3 stated⟩
  · obtain ⟨target, known, _, before⟩ := isStated.target_within inner
    exact ⟨target, known, Nat.zero_le _, before⟩
  · exact ⟨_, atInit, Nat.zero_le _, Nat.le_refl _⟩

theorem spans_of_lays {main : OpenMethod} {header : MethodHeader} {statements : List Item}
    {values : List Insn} {between : Build}
    (lays : Emission.Lays header (framed statements values) ⟨between, main.emitter⟩)
    (plain : ∀ insn ∈ values, insn.labels = [])
    (defined : ∀ label ∈ Item.references (framed statements values),
      label ∈ Item.definitions (framed statements values)) : ∃ inner, Spans main inner := by
  obtain ⟨fragments, written, whole⟩ := lays.written
  -- The code is cut at its labels, and the first jump takes three bytes.
  obtain ⟨enter, afterEnter, rfl, atThree⟩ := whole.jump
  obtain ⟨atBody, atThree⟩ := Placed.label_iff.mp atThree
  obtain ⟨stated, afterStated, rfl, isStated, placed⟩ := atThree.split
  obtain ⟨atInit, opening⟩ := Placed.label_iff.mp placed
  obtain ⟨valued, afterValued, rfl, isValued, last⟩ := opening.split
  obtain ⟨resume, nothing, rfl, done⟩ := last.jump
  cases done
  -- Only the statements between the two jumps have further branches.
  have silent : Fragment.spread Fragment.patches (Fragment.stop 3 stated) valued = [] := by
    refine isValued.no_patches (List.flatMap_eq_nil_iff.mpr ?_)
    rintro _ member
    obtain ⟨insn, isValue, rfl⟩ := List.mem_map.mp member
    exact plain insn isValue
  have init : main.labelAt MainLabel.init = Fragment.stop 3 stated := by
    rw [OpenMethod.labelAt, Buffer.targetOf]
    exact congrArg (Option.getD · 0) atInit
  have size : main.size = Fragment.stop (Fragment.stop 3 stated) valued + 3 := by
    refine written.position.trans ?_
    rw [Fragment.stop, Fragment.stop_append, Fragment.stop_append]
    rfl
  refine ⟨Fragment.spread Fragment.patches 3 stated, ?_, atBody, ?_, ?_, ?_⟩
  · refine written.patches.trans ?_
    rw [Fragment.spread, Fragment.spread_append, Fragment.spread_append, size, Nat.add_sub_cancel]
    exact congrArg _ (congrArg _ (congrArg (· ++ _) silent))
  · rw [init]
    exact atInit
  · omega
  · intro near
    rw [init] at near
    refine isStated.faultless 0 (fun label refers => ?_) (Nat.zero_le _) (Nat.le_refl _) (by omega)
    refine framed_target isStated atBody atInit (defined label ?_)
    unfold framed Item.references
    simp only [List.flatMap_cons, List.flatMap_append, List.mem_append]
    exact .inr (.inr (.inl refers))

theorem Spans.fault?_eq {main : OpenMethod} {inner : List Patch} (spans : Spans main inner)
    (named : main.emitter.buffer.method = "main")
    (limited : main.emitter.buffer.limit = Buffer.maxCodeLength) :
    main.emitter.buffer.fault? = overrun? main := by
  have size : main.emitter.buffer.position = main.size := rfl
  have back := spans.back
  unfold Buffer.fault? overrun?
  rw [named, limited, size, Buffer.maxCodeLength, spans.patches, List.findSome?_cons,
    List.findSome?_append, Patch.fault?_short spans.init]
  by_cases large : 65535 < main.size
  · rw [if_pos large, if_pos large]
  rw [if_neg large, if_neg large]
  by_cases far : 32767 < main.labelAt MainLabel.init
  · rw [if_pos far, if_neg (by omega)]
  rw [if_neg far, if_pos (by omega)]
  dsimp only
  rw [spans.inside (Nat.not_lt.mp far), Option.none_or, List.findSome?_singleton,
    Patch.fault?_short spans.body]
  -- The last jump stands three bytes before the end and leads to the third byte.
  by_cases long : 32774 < main.size
  · rw [if_pos long, if_neg (by omega)]
  · rw [if_neg long, if_pos (by omega)]

def openMethod (options : Options) (surroundings : Surroundings) (program : Program) :
    BuildM OpenMethod :=
  match (compile surroundings program).run (Body.empty descriptor) with
  | (.ok _, body) => body.draft.openMethod (header options)
  | (.error error, body) => do
    let _ ← body.draft.assemble (header options)
    throw error

theorem build_eq_open (options : Options) (surroundings : Surroundings) (program : Program) :
    MainMethod.build options surroundings program =
      openMethod options surroundings program >>= OpenMethod.close := by
  unfold MainMethod.build openMethod
  rcases (compile surroundings program).run (Body.empty descriptor) with ⟨error | _, body⟩
  · dsimp only
    rw [bind_assoc]
    rfl
  · exact body.draft.finish_eq_open (header options)

theorem openMethod_ends (options : Options) {program : Program} {lines : LineSet}
    (scanned : LineSet.scan program = .ok lines) {build : Build} (sound : build.pool.Sound) :
    Ends (openMethod options ⟨lines, DataTable.scan program, options.lineNumbers⟩ program) build
      (fun main _ => ∃ fragments, main.emitter.buffer.Written fragments ∧
        main.emitter.buffer.fault? = overrun? main)
      (fun error _ => ∀ cause, error ≠ .assembly cause) := by
  have all := (Program.main_resolved options scanned).and
    (compile_framed ⟨lines, DataTable.scan program, options.lineNumbers⟩ program)
  unfold Ends at all
  unfold openMethod
  generalize (compile ⟨lines, DataTable.scan program, options.lineNumbers⟩ program).run
    (Body.empty descriptor) = outcome at all ⊢
  rcases outcome with ⟨refusal | _, body⟩
  · obtain ⟨⟨distinct, other⟩, _⟩ := all
    dsimp only
    rw [ends_bind]
    refine (body.draft.assemble_ends (header options) sound.indexed).mono (fun _ _ _ => other) ?_
    rintro error _ (⟨limit, rfl⟩ | ⟨_, _, repeated⟩)
    · simp
    · exact absurd distinct repeated
  · obtain ⟨resolved, statements, items⟩ := all
    refine (Draft.openMethod_ends resolved (header options) sound).mono ?_ ?_
    · rintro main final ⟨_, between, lays⟩
      rw [items] at lays
      have defined : ∀ label ∈ Item.references (framed statements body.draft.scope.initializers),
          label ∈ Item.definitions (framed statements body.draft.scope.initializers) := by
        rw [← items]
        exact fun label refers => resolved.defined label (List.mem_append_left _ refers)
      obtain ⟨inner, spans⟩ := spans_of_lays lays body.draft.scope.initializers_plain defined
      obtain ⟨fragments, written, _⟩ := lays.written
      exact ⟨fragments, written, spans.fault?_eq lays.method lays.limit⟩
    · rintro error _ ⟨limit, rfl⟩
      simp

end MainMethod

namespace CellCode

theorem pushLongText_compacts (text : String) : Compacts (pushLongText text) := by
  intro draft
  refine (pushLongText_items text draft).mono fun _ final added => ⟨_, added.1, .insns ?_⟩
  exact joinCode_plain _

theorem pushDataIndex_compacts (data : DataTable) : Compacts (pushDataIndex data) := by
  intro draft
  refine (pushDataIndex_items data draft).mono fun _ final added => ⟨_, added.1, ?_⟩
  refine (((Item.Compact.insns (joinCode_plain _)).append (.insns ?_)).append ?_).append (.insn rfl)
  · simp [indexSetup, Insn.labels, Process.PlatformMethod.insn]
  · refine .single ?_ ?_
    · simp [indexLoop, indexTest, indexRead, indexWrite, indexAdvance, Item.total, Insn.room]
    · simp [indexLoop, indexTest, indexRead, indexWrite, indexAdvance, Item.references, Item.jumps,
        Item.definitions, Item.defined, Insn.labels]

end CellCode

namespace ClassInitializer

theorem draft_compact (data : DataTable) (cells : List Cell) :
    Item.Compact (draft data cells).items.toList := by
  have prepared : Compacts (CellCode.prepareAll data cells) :=
    CellCode.prepareAll_rule (.pure ()) (fun first next => first.bind fun _ => next) .emit
      (CellCode.pushLongText_compacts _) (CellCode.pushDataIndex_compacts data) cells
  have drafted : Compacts (code data cells) := prepared.bind fun _ => .emit rfl
  obtain ⟨added, items, compact⟩ := drafted (.empty descriptor)
  have whole : (draft data cells).items.toList = added := items
  rwa [whole]

def openMethod (options : Options) (data : DataTable) : BuildM OpenMethod := do
  let cells := (← get).library.cells.toList
  (draft data cells).openMethod (header options)

theorem build_eq_open (options : Options) (data : DataTable) :
    ClassInitializer.build options data = openMethod options data >>= OpenMethod.close := by
  unfold ClassInitializer.build openMethod
  rw [bind_assoc]
  exact congrArg _ (funext fun build => (draft data build.library.cells.toList).finish_eq_open _)

theorem build_reports (options : Options) (data : DataTable) {build : Build} (sound : build.pool.Sound) :
    Reports (ClassInitializer.build options data) build fun error => ∃ initializer after,
      (openMethod options data).run build = (.ok initializer, after) ∧ 65535 < initializer.size ∧
        error = .methodTooLarge "<clinit>" initializer.size := by
  have opens : Ends (openMethod options data) build
      (fun initializer _ => ∃ between, Emission.Lays (header options)
        (draft data build.library.cells.toList).items.toList ⟨between, initializer.emitter⟩)
      (fun error _ => ∃ cause, error = .classFile cause) := by
    rw [openMethod, ends_bind, ends_get]
    exact (Draft.openMethod_ends (draft_resolved data _) (header options) sound).mono
      (fun _ _ opened => opened.2) (fun _ _ failed => failed)
  rw [build_eq_open]
  refine Reports.after opens ?_ ?_
  · rintro error _ ⟨limit, rfl⟩ cause
    simp
  · rintro initializer after ⟨between, lays⟩
    obtain ⟨fragments, written, placed⟩ := lays.written
    refine (initializer.close_reports written after).congr fun error => ?_
    have size : initializer.emitter.buffer.position = initializer.size := rfl
    have inRange : initializer.emitter.buffer.patches.toList.findSome?
        (Patch.fault? "<clinit>" initializer.emitter.buffer.labels) = none := by
      rw [written.patches]
      exact (draft_compact data _).faultless placed
    have named : initializer.emitter.buffer.method = "<clinit>" := lays.method
    have limited : initializer.emitter.buffer.limit = 65535 := lays.limit
    rw [Buffer.fault?, named, limited, size, inRange]
    by_cases large : 65535 < initializer.size
    · rw [if_pos large, Option.some.injEq]
      exact ⟨fun same => ⟨large, same.symm⟩, fun ⟨_, same⟩ => same.symm⟩
    · rw [if_neg large]
      simp [large]

end ClassInitializer

theorem Helper.not_assembly {helper : Helper} {error : CompileError}
    (refused : helper.draft.Refused helper.spec.name error) (cause : AssemblyError) :
    error ≠ .assembly cause := by
  obtain ⟨limit, rfl⟩ := helper.draft_fit.1.limited refused
  simp

theorem Reports.compile_iff {options : Options} {program : Program} {fault : AssemblyError → Prop}
    (reports : Reports (Program.build options program) .empty fault) (error : AssemblyError) :
    Program.compile options program = .error (.assembly error) ↔ fault error := by
  unfold Reports Ends at reports
  unfold Program.compile Program.compileTraced
  generalize (Program.build options program).run .empty = outcome at reports
  rcases outcome with ⟨refusal | file, build⟩
  · rw [← reports error]
    simp
  · exact iff_of_false (by simp) (reports error)

namespace Program

def openMain (options : Options) (program : Program) : BuildM OpenMethod := do
  Build.report (.compiling program.length options.className)
  match LineSet.scan program with
  | .error error => throw error
  | .ok lines =>
    MainMethod.openMethod options ⟨lines, DataTable.scan program, options.lineNumbers⟩ program

def openInitializer (options : Options) (program : Program) : BuildM OpenMethod := do
  let main ← openMain options program
  let _ ← main.close
  let _ ← Library.flush options.className
  ClassInitializer.openMethod options (DataTable.scan program)

def AssemblyFault (options : Options) (program : Program) (error : AssemblyError) : Prop :=
  (∃ main after, (openMain options program).run .empty = (.ok main, after) ∧
    MainMethod.overrun? main = some error) ∨
  ∃ initializer after, (openInitializer options program).run .empty = (.ok initializer, after) ∧
    65535 < initializer.size ∧ error = .methodTooLarge "<clinit>" initializer.size

theorem openMain_ends (options : Options) (program : Program) :
    Ends (openMain options program) .empty
      (fun main _ => ∃ fragments, main.emitter.buffer.Written fragments ∧
        main.emitter.buffer.fault? = MainMethod.overrun? main)
      (fun error _ => ∀ cause, error ≠ .assembly cause) := by
  rw [openMain, ends_bind, Build.report, ends_modify]
  cases scanned : LineSet.scan program with
  | error error =>
      have marked := LineSet.scan_holds program
      rw [scanned] at marked
      obtain ⟨⟨line, rfl⟩, _⟩ := marked
      exact fun cause => by simp
  | ok lines => exact MainMethod.openMethod_ends options scanned ConstantPool.empty_sound

theorem closeMain_ends (options : Options) (program : Program) :
    Ends (openMain options program >>= OpenMethod.close) .empty
      (fun _ final => final.pool.Sound ∧ final.library.Distinct) (fun _ _ => True) := by
  rw [openMain, bind_assoc, ends_bind, Build.report, ends_modify]
  cases LineSet.scan program with
  | error error => trivial
  | ok lines =>
      dsimp only
      rw [← MainMethod.build_eq_open]
      refine (MainMethod.build_ends options _ program _ ConstantPool.empty_sound
        Library.empty_distinct).mono ?_ (fun _ _ _ => trivial)
      rintro unit final ⟨grown, body, _, _, gains⟩
      exact ⟨grown.sound ConstantPool.empty_sound, gains.distinct⟩

/-- What follows once the main method is closed. -/
def complete (options : Options) (data : DataTable) (main : MethodUnit) : BuildM ClassFile := do
  let helpers ← Library.flush options.className
  let initializer ← ClassInitializer.build options data
  let file ← assembleClass options (main :: initializer :: helpers)
  Build.report (.classAssembled options.className file.methods.length file.fields.length file.pool.size)
  return file

theorem build_eq_open (options : Options) (program : Program) :
    Program.build options program =
      (openMain options program >>= OpenMethod.close) >>= complete options (DataTable.scan program) := by
  unfold Program.build openMain complete
  simp only [bind_assoc]
  cases LineSet.scan program with
  | error error => rfl
  | ok lines => simp only [MainMethod.build_eq_open, bind_assoc]

theorem complete_reports (options : Options) (data : DataTable) (main : MethodUnit) {build : Build}
    (sound : build.pool.Sound) (distinct : build.library.Distinct) :
    Reports (complete options data main) build fun error => ∃ initializer after,
        (Library.flush options.className >>= fun _ => ClassInitializer.openMethod options data).run build =
          (.ok initializer, after) ∧
        65535 < initializer.size ∧ error = .methodTooLarge "<clinit>" initializer.size := by
  simp only [exists_run_bind]
  refine .after (Library.flush_ends options.className sound distinct)
    (fun _ _ ⟨_, refused⟩ => Helper.not_assembly refused) fun helpers afterHelpers flushed => ?_
  have sound := flushed.grown.sound sound
  refine (ClassInitializer.build_reports options data sound).before fun initializer final ran => ?_
  have prepared := (ClassInitializer.build_ends options data sound flushed.gains.distinct).of_run ran
  have assembled := assembleClass_ends options (main :: initializer :: helpers) (prepared.1.sound sound)
  have limited : Reports (assembleClass options (main :: initializer :: helpers)) final fun _ => False := by
    refine .silent assembled ?_
    rintro error _ ⟨limit, rfl⟩ cause
    simp
  exact limited.before fun file _ _ => show ∀ cause, ¬False from fun _ => id

theorem build_reports (options : Options) (program : Program) :
    Reports (Program.build options program) .empty (AssemblyFault options program) := by
  have closed : Reports (openMain options program >>= OpenMethod.close) .empty fun error =>
      ∃ main after, (openMain options program).run .empty = (.ok main, after) ∧
        MainMethod.overrun? main = some error := by
    refine .after (openMain_ends options program) (fun _ _ other => other) ?_
    rintro main after ⟨fragments, written, faults⟩
    rw [← faults]
    exact main.close_reports written after
  have whole := closed.bind fun main afterMain ran =>
    have ⟨sound, distinct⟩ := (closeMain_ends options program).of_run ran
    complete_reports options (DataTable.scan program) main sound distinct
  rw [build_eq_open]
  refine whole.congr fun error => ?_
  unfold AssemblyFault openInitializer
  simp only [exists_run_bind]

/-- A program is refused by the assembler if and only if its main method is longer than the method or
its two longest jumps may be, or its initializer is too large. -/
theorem compile_assembly_error_iff (options : Options) (program : Program) (error : AssemblyError) :
    compile options program = .error (.assembly error) ↔
      (∃ main after, (openMain options program).run .empty = (.ok main, after) ∧
        MainMethod.overrun? main = some error) ∨
      ∃ initializer after, (openInitializer options program).run .empty = (.ok initializer, after) ∧
        65535 < initializer.size ∧ error = .methodTooLarge "<clinit>" initializer.size :=
  (build_reports options program).compile_iff error

def finishes (count : Nat) : Program := List.replicate count .finish

end Program

namespace MainMethod

def finishItems (count : Nat) : List Item :=
  List.replicate count (.insn (.branch Opcode.goto MainLabel.exit)) ++
    [.label MainLabel.exit, .insn (.op Opcode.vreturn), .label MainLabel.bodyEnd]

theorem compileAll_finishes (surroundings : Surroundings) (count : Nat) (body : Body) :
    Ends (Stmt.compileAll surroundings (Program.finishes count)) body
      (fun _ final => final.loops = body.loops ∧ final.returns = body.returns ∧
        final.usesReturn = body.usesReturn ∧ final.draft.scope = body.draft.scope ∧
        final.draft.handlers = body.draft.handlers ∧ final.draft.items.toList = body.draft.items.toList ++
          List.replicate count (Item.insn (.branch Opcode.goto MainLabel.exit)))
      (fun _ _ => False) := by
  induction count generalizing body with
  | zero => exact ⟨rfl, rfl, rfl, rfl, rfl, (List.append_nil _).symm⟩
  | succ count ih =>
      rw [Program.finishes, List.replicate_succ, Stmt.compileAll, ends_bind, Stmt.compile, Draft.goto,
        Draft.branch, ends_lift, drafts_emit]
      refine (ih _).imp ?_
      rintro _ final ⟨loops, returns, uses, scope, handlers, items⟩
      refine ⟨loops, returns, uses, scope, handlers, ?_⟩
      rw [items, add_items, List.replicate_succ]
      simp

theorem compile_finishes (surroundings : Surroundings) (count : Nat) :
    Ends (compile surroundings (Program.finishes count)) (Body.empty descriptor)
      (fun _ body => body.draft.handlers = #[] ∧
        body.draft.items.toList = framed (finishItems count) [])
      (fun _ _ => False) := by
  refine compile_ends (compileAll_finishes surroundings count opened) ?_ ?_
  · rintro through _ ⟨loops, _⟩ isOpen
    exact absurd loops isOpen
  · rintro through body ⟨_, returns, uses, scope, handlers, items⟩ _ _ closed
    -- No helper is used and no subroutine is entered, so nothing but the return follows.
    have undispatched (unknown : Label) : dispatchOf through unknown = [] := by
      rw [dispatchOf, uses, returns]
      rfl
    have unused : Item.helpers through.draft.items.toList = [] := by
      simp [items, opened, Item.helpers, Item.helper?, Draft.empty]
    refine ⟨?_, ?_⟩
    · simp [closed.handlers, helpersOf, undispatched, unused, handlers, opened, Draft.empty]
    · rw [closed.items, closingItems, helpersOf, undispatched, List.append_nil, unused, items, scope]
      have unset : opened.draft.scope.initializers = [] := rfl
      rw [openingItems, unset]
      simp [framed, finishItems, exitItems, reportItems, opened, Draft.empty]

end MainMethod

theorem LineSet.scan_finishes (count : Nat) : LineSet.scan (Program.finishes count) = .ok .empty := by
  unfold LineSet.scan
  induction count with
  | zero => rfl
  | succ count ih => exact ih

theorem Draft.openMethod_costs {draft : Draft} {header : MethodHeader}
    (isBrief : ConstantPool.Brief header.owner) (brief : draft.Brief) :
    Costs (Build.ledger True) (fun _ => False) draft.cost (draft.openMethod header) := by
  rw [cost, ← Array.length_toList]
  exact (assemble_costs (absurd isBrief) fun insn member text isText =>
    absurd (brief.items insn member text isText)).bind fun emitter =>
    (Costs.mapM fun handler member => emitter.handlerRow_costs fun name isName =>
      absurd (brief.handlers handler member name isName)).map

namespace MainMethod

theorem finishes_free {draft : Draft} {count : Nat} (unhandled : draft.handlers = #[])
    (items : draft.items.toList = framed (finishItems count) []) : draft.cost = 0 ∧ draft.Brief := by
  refine ⟨?_, fun insn member text isText => ?_, by simp [unhandled]⟩
  · rw [Draft.cost, unhandled, items]
    simp [framed, finishItems, Item.total_append, Item.total, Item.total_replicate, Insn.cost]
  · rw [items] at member
    simp only [framed, finishItems, List.mem_cons, List.mem_append, List.mem_replicate, Item.insn.injEq,
      reduceCtorEq, false_or, or_false, List.map_nil, List.not_mem_nil, List.nil_append] at member
    rcases member with rfl | (⟨_, rfl⟩ | rfl) | rfl <;> cases isText

theorem finishes_size {main : OpenMethod} {header : MethodHeader} {count : Nat} {between : Build}
    (lays : Emission.Lays header (framed (finishItems count) []) ⟨between, main.emitter⟩) :
    3 + 3 * count ≤ main.labelAt MainLabel.init ∧ main.size ≤ 15 + 3 * count := by
  obtain ⟨fragments, written, whole⟩ := lays.written
  obtain ⟨enter, afterEnter, rfl, atThree⟩ := whole.jump
  obtain ⟨_, atThree⟩ := Placed.label_iff.mp atThree
  rw [finishItems, List.append_assoc] at atThree
  obtain ⟨later, stop, isLater⟩ := atThree.jumps
  obtain ⟨target, known, above, _⟩ := isLater.target_within (show MainLabel.init ∈ _ by decide)
  have size : main.size = Fragment.stop (0 + 3 + 3 * count) later := written.position.trans stop
  have init : main.labelAt MainLabel.init = target := by
    rw [OpenMethod.labelAt, Buffer.targetOf]
    exact congrArg (Option.getD · 0) known
  have short := isLater.stop_le
  simp only [List.map_nil, List.nil_append, List.cons_append, Item.total, Insn.room] at short
  omega

end MainMethod

namespace Program

theorem openMain_finishes (count : Nat) :
    Ends (openMain {} (finishes count)) .empty
      (fun main _ => 3 + 3 * count ≤ main.labelAt MainLabel.init ∧ main.size ≤ 15 + 3 * count)
      (fun _ _ => False) := by
  have scanned := LineSet.scan_finishes count
  have drafted := (main_resolved {} scanned).and (MainMethod.compile_finishes ⟨.empty, _, _⟩ count)
  unfold Ends at drafted
  rw [openMain, scanned, ends_bind, Build.report, ends_modify]
  dsimp only
  unfold MainMethod.openMethod
  generalize (MainMethod.compile _ (finishes count)).run (Body.empty MainMethod.descriptor) = outcome
    at drafted ⊢
  rcases outcome with ⟨error | _, body⟩
  · exact drafted.2.elim
  obtain ⟨resolved, unhandled, items⟩ := drafted
  obtain ⟨free, brief⟩ := MainMethod.finishes_free unhandled items
  have named : ConstantPool.Brief ({} : Options).className :=
    ClassFile.brief_of_fixed (by simp [ClassFile.fixedNames])
  have spares : Build.Spares ⟨.empty, .empty, #[.compiling (finishes count).length "Main"]⟩
      (body.draft.cost + 0) := by
    have room : ConstantPool.empty.size + (0 + 0) ≤ ConstantPool.maxIndex := by decide
    rw [free]
    exact ⟨room, .nil⟩
  refine ((Draft.openMethod_ends resolved (MainMethod.header {}) ConstantPool.empty_sound).and
    ((Draft.openMethod_costs named brief).affords spares)).mono ?_ ?_
  · rintro main after ⟨⟨_, between, lays⟩, _⟩
    rw [items] at lays
    exact MainMethod.finishes_size lays
  · rintro error _ ⟨⟨cause, isLimit⟩, notLimit⟩
    exact notLimit cause isLimit

theorem finishes_refused {count : Nat} (long : 10922 ≤ count) (short : count ≤ 21840) :
    ∃ main after, (openMain {} (finishes count)).run .empty = (.ok main, after) ∧ main.size ≤ 65535 ∧
      compile {} (finishes count) = .error (.assembly (.branchOutOfRange "main" MainLabel.init)) := by
  have opens := openMain_finishes count
  unfold Ends at opens
  generalize ran : (openMain {} (finishes count)).run .empty = outcome at opens
  rcases outcome with ⟨error | main, after⟩
  · exact opens.elim
  obtain ⟨far, small⟩ := opens
  refine ⟨main, after, rfl, by omega, ((build_reports _ _).compile_iff _).mpr (.inl ⟨main, after, ran, ?_⟩)⟩
  rw [MainMethod.overrun?, if_neg (by omega), if_pos (by omega)]

theorem finishes_out_of_range :
    ∃ main after, (openMain {} (finishes 11000)).run .empty = (.ok main, after) ∧ main.size ≤ 65535 ∧
      compile {} (finishes 11000) = .error (.assembly (.branchOutOfRange "main" MainLabel.init)) :=
  finishes_refused (by decide) (by decide)

end Program

end BasicCompiler
