import BasicCompiler.Proofs.Compile.Checks
import BasicCompiler.Proofs.Compile.ClassLayout

/-!
A program is refused exactly when it breaks a rule, apart from the limits of class files and of the code
of a method.
-/

namespace BasicCompiler

open Draft Body

namespace Checks

variable {α : Type} {lines : LineSet} {demand demand' : Demand}

theorem cast {action : BodyM α} (checks : Checks lines demand action) (same : demand = demand') :
    Checks lines demand' action := same ▸ checks

theorem refuse (error : CompileError) (unmet : ¬ demand.kinds) :
    Checks lines demand (throw error : BodyM α) :=
  fun _ _ _ _ _ met => unmet met.kinds

theorem openLoop (mark : LoopMark) (loop : Loop) (isMark : loop.mark = mark) :
    Checks lines ⟨True, [], [], [mark]⟩ (Body.openLoop loop) := by
  intro uses opened body reflects
  have started : LoopMark.step opened mark = some (mark :: opened) := by
    subst isMark
    cases loop <;> rfl
  rw [ends_openLoop]
  refine ⟨mark :: opened, ⟨trivial, by simp, by simpa using reflects.consistent, ?_⟩, ?_⟩
  · rw [LoopMark.run_cons, started]
    rfl
  · have loops : (loop :: body.loops).map Loop.mark = mark :: opened := by
      rw [List.map_cons, isMark, reflects.loops]
    simpa using ⟨reflects.consistent, reflects.dimensions, loops⟩

theorem closeLoop {mark : LoopMark} {next : Option Loop → BodyM Unit}
    (isEnd : LoopMark.step [] mark = none ∧ ∀ start rest, LoopMark.step (start :: rest) mark =
      if start.encloses mark then some rest else none)
    (closes : ∀ loop, loop.mark.encloses mark = true → Checks lines (.values True []) (next (some loop)))
    (refuses : ∀ found : Option Loop, (∀ loop ∈ found, loop.mark.encloses mark = false) →
      ∃ error, next found = throw error) :
    Checks lines ⟨True, [], [], [mark]⟩ (Body.closeLoop >>= next) := by
  intro uses opened body reflects
  obtain ⟨consistent, dimensions, rfl⟩ := reflects
  rw [ends_bind, ends_closeLoop]
  cases isOpen : body.loops with
  | nil =>
      obtain ⟨error, thrown⟩ := refuses none (by simp)
      rw [List.head?_nil, thrown]
      intro opened' met
      have ran := met.marks
      rw [LoopMark.run_cons, List.map_nil, isEnd.1] at ran
      cases ran
  | cons loop rest =>
      rw [List.head?_cons, List.tail_cons]
      by_cases encloses : loop.mark.encloses mark = true
      · have stepped : LoopMark.run ((loop :: rest).map Loop.mark) [mark] = some (rest.map Loop.mark) := by
          rw [LoopMark.run_cons, List.map_cons, isEnd.2, if_pos encloses]
          rfl
        refine (closes loop encloses uses _ { body with loops := rest }
          ⟨consistent, dimensions, rfl⟩).mono ?_ ?_
        · rintro _ final ⟨opened', met, reflects⟩
          obtain rfl := Option.some.inj met.marks
          exact ⟨_, ⟨trivial, by simp, met.uses, stepped⟩, reflects⟩
        · intro _ _ unmet
          exact absurd ⟨trivial, by simp [Demand.values], by simpa [Demand.values] using consistent, rfl⟩
            (unmet (rest.map Loop.mark))
      · obtain ⟨error, thrown⟩ := refuses (some loop) (by simpa using encloses)
        rw [thrown]
        intro opened' met
        have ran := met.marks
        rw [LoopMark.run_cons, List.map_cons, isEnd.2, if_neg encloses] at ran
        cases ran

theorem addReturn (label : Label) : Checks lines (.values True []) (Body.addReturn label) :=
  .quiet fun _ => ⟨rfl, rfl⟩

theorem markReturn : Checks lines (.values True []) Body.markReturn :=
  .quiet fun _ => ⟨rfl, rfl⟩

theorem each {γ : Type} {action : γ → BodyM Unit} {all : List γ → BodyM Unit}
    (nil : all [] = Pure.pure ()) (cons : ∀ first rest, all (first :: rest) = do action first; all rest)
    {kinds : γ → Prop} {uses : γ → List (VarName × Nat)}
    (checks : ∀ item, Checks lines (.values (kinds item) (uses item)) (action item)) (items : List γ) :
    Checks lines (.values (∀ item ∈ items, kinds item) (items.flatMap uses)) (all items) := by
  induction items with
  | nil =>
      rw [nil]
      exact (Checks.pure ()).congr (by simp) rfl
  | cons first rest ih =>
      rw [cons]
      exact ((checks first).bindValues fun _ _ => ih).congr (by simp) rfl

end Checks

def Stmt.asks (stmt : Stmt) : Demand := ⟨stmt.WellKinded, stmt.targets, stmt.arrayUses, stmt.loopMarks⟩

def Stmt.demand (stmts : List Stmt) : Demand where
  kinds := ∀ stmt ∈ stmts, stmt.WellKinded
  targets := stmts.flatMap targets
  uses := stmts.flatMap arrayUses
  marks := stmts.flatMap loopMarks

namespace Stmt

variable {lines : LineSet}

theorem demand_cons (first : Stmt) (rest : List Stmt) :
    demand (first :: rest) = first.asks.andThen (demand rest) := by
  simp [demand, asks, Demand.andThen]

theorem demand_append (front back : List Stmt) :
    demand (front ++ back) = (demand front).andThen (demand back) := by
  simp [demand, Demand.andThen, or_imp, forall_and]

theorem store_checks (target : Variable) {pushValue : BodyM Unit} {kinds : Prop}
    {uses : List (VarName × Nat)} (pushes : Checks lines (.values kinds uses) pushValue) :
    Checks lines (.values (target.WellKinded ∧ kinds) (target.toExpr.arrayUses ++ uses))
      (store target pushValue) := by
  cases target with
  | scalar name =>
      have typed : (Variable.scalar name).WellKinded := Expr.HasKind.scalar name
      have stores : Checks lines (.values (kinds ∧ True) (uses ++ [])) (store (.scalar name) pushValue) := by
        refine pushes.bindValues fun _ _ => .afterLift fun slot => ?_
        cases name.kind <;> exact .lift _
      exact stores.congr (by simp [typed]) (List.append_nil uses)
  | element name subscripts =>
      refine ((Expr.pushArray_checks name _).bindValues fun _ shape =>
        (Expr.compileNumbers_checks _ subscripts).bindValues fun _ _ => .thenLift pushes).congr ?_ rfl
      simp [Variable.WellKinded, Variable.toExpr, Variable.kind, Variable.name]

theorem compileAssign_checks (target : Variable) (value : Expr) :
    Checks lines (asks (.assign target value)) (compileAssign target value) := by
  refine ((Checks.expect _ _ value).bindValues fun _ _ =>
    store_checks target value.compile_checks).congr ?_ rfl
  rw [and_left_comm, ← Expr.hasKind_iff, and_comm]
  rfl

theorem compileDim_checks (array : ArrayBounds) :
    Checks lines (.values (∀ bound ∈ array.bounds, bound.HasKind .number)
      ((array.name, array.bounds.length) :: Expr.arrayUsesAll array.bounds)) (compileDim array) := by
  refine ((Checks.arrayShape _ _).bindValues fun _ shape => .afterLift fun _ => .afterLift fun _ =>
    (Expr.compileNumbers_checks _ array.bounds).bindValues fun _ _ =>
      .afterLift fun _ => .lift _).congr ?_ ?_
  · simp [Expr.haveKinds_replicate]
  · simp

theorem compilePrintItem_checks (item : PrintItem) :
    Checks lines (.values item.WellKinded item.arrayUses) (compilePrintItem item) := by
  cases item with
  | expr value =>
      exact (Checks.thenLift value.compile_checks).congr
        ⟨fun typed => ⟨_, typed⟩, fun ⟨_, typed⟩ => typed.kind_eq.symm ▸ typed⟩ rfl
  | comma => exact .lift _
  | semicolon => exact .pure ()
  | tab column => exact .thenLift (column.compileNumber_checks _)
  | spc count => exact .thenLift (count.compileNumber_checks _)

theorem compilePrint_checks (items : List PrintItem) :
    Checks lines (asks (.print items)) (compilePrint items) := by
  refine ((Checks.each rfl (fun _ _ => rfl) compilePrintItem_checks items).bind fun _ _ => ?_).cast
    (Demand.andThen_nothing _)
  split
  · exact .pure ()
  · exact .lift _

theorem storeInput_checks (target : Variable) {pushValue : BodyM Unit}
    (pushes : Checks lines (.values True []) pushValue) :
    Checks lines (.values target.WellKinded target.toExpr.arrayUses) (store target pushValue) :=
  (store_checks target pushes).congr (by simp) (List.append_nil _)

theorem compileAsks_checks (prompt : String) (targets : List Variable) :
    Checks lines (.values (∀ target ∈ targets, target.WellKinded)
      (targets.flatMap (·.toExpr.arrayUses))) (compileAsks prompt targets) := by
  induction targets generalizing prompt with
  | nil => exact (Checks.pure ()).congr (by simp) rfl
  | cons first rest ih =>
      exact ((storeInput_checks first (.afterLift fun _ => .lift _)).bindValues
        fun _ _ => ih furtherPrompt).congr (by simp) rfl

theorem compileRestore_checks (surroundings : Surroundings) (start : Option LineNumber) :
    Checks surroundings.lines (asks (.restore start)) (compileRestore surroundings start) := by
  have moves (index : Nat) : Checks surroundings.lines (.values True [])
      (do pushInt (Int32.ofNat index); call .restore : BodyM Unit) :=
    .afterLift fun _ => .lift _
  cases start with
  | none => exact moves 0
  | some number =>
      exact ((Checks.requireLabel number).bind fun _ _ => moves _).cast (Demand.andThen_nothing _)

theorem compileGoto_checks (line : LineNumber) :
    Checks lines (asks (.goto line)) (compileGoto lines line) :=
  .thenLift (.requireLabel line)

theorem compileGosub_checks (line : LineNumber) :
    Checks lines (asks (.gosub line)) (compileGosub lines line) :=
  ((Checks.requireLabel line).bind fun _ _ => .afterLift fun label =>
    ((Checks.addReturn label).bind fun _ _ => .afterLift fun _ => .lift _).cast
      (Demand.andThen_nothing _)).cast (Demand.andThen_nothing _)

theorem compileReturn_checks : Checks lines (asks .returnFromSub) compileReturn :=
  ((Checks.markReturn).bind fun _ _ => .afterLift fun _ => .lift _).cast (Demand.andThen_nothing _)

theorem requireLabels_checks (numbers : List LineNumber) :
    Checks lines ⟨True, numbers, [], []⟩ (require (lineLabels lines numbers)) := by
  have unfolds (body : Body) (success : List Label → Body → Prop)
      (failure : CompileError → Body → Prop) :
      Ends (require (lineLabels lines numbers)) body success failure ↔
        if numbers.find? (fun number => !lines.contains number) = none then
          success (numbers.map LineSet.labelOf) body
        else failure (.undefinedLine ((numbers.find? fun number => !lines.contains number).getD 0)) body := by
    rw [ends_requireLabels]
    cases numbers.find? fun number => !lines.contains number <;> simp
  exact .test _ _ unfolds ⟨rfl, rfl⟩ (by simp)

theorem compileSelector_checks (selector : Expr) :
    Checks lines (.values (selector.HasKind .number) selector.arrayUses) (compileSelector selector) :=
  .thenLift (selector.compileNumber_checks _)

theorem compileOnGoto_checks (selector : Expr) (numbers : List LineNumber) :
    Checks lines (asks (.onGoto selector numbers)) (compileOnGoto lines selector numbers) := by
  have jumps (targets : List Label) : Checks lines (.values True []) (do
      if targets.isEmpty then
        op Opcode.pop
      else
        let next ← freshLabel "on_next"
        emit (.tableSwitch 1 targets next)
        place next : BodyM Unit) := by
    split
    · exact .lift _
    · exact .afterLift fun _ => .afterLift fun _ => .lift _
  exact ((requireLabels_checks numbers).bind fun _ targets =>
    (compileSelector_checks selector).bind fun _ _ => jumps targets).cast
      (by simp [Demand.andThen, Demand.values, asks, WellKinded, targets, arrayUses, loopMarks])

theorem compileOnGosub_checks (selector : Expr) (numbers : List LineNumber) :
    Checks lines (asks (.onGosub selector numbers)) (compileOnGosub lines selector numbers) := by
  have calls (targets : List Label) : Checks lines (.values True []) (do
      if targets.isEmpty then
        op Opcode.pop
      else
        let after ← freshLabel "gosub_return"
        let site ← addReturn after
        let stubs ← freshLabels "on_gosub" targets
        emit (.tableSwitch 1 stubs after)
        enterSubs site stubs targets
        place after : BodyM Unit) := by
    split
    · exact .lift _
    · exact .afterLift fun after => ((Checks.addReturn after).bind fun _ _ => .afterLift fun _ =>
        .afterLift fun _ => .afterLift fun _ => .lift _).cast (Demand.andThen_nothing _)
  exact ((requireLabels_checks numbers).bind fun _ targets =>
    (compileSelector_checks selector).bind fun _ _ => calls targets).cast
      (by simp [Demand.andThen, Demand.values, asks, WellKinded, targets, arrayUses, loopMarks])

theorem compileCondition_checks (place : Place) (condition : Expr) (whenFalse : Label) :
    Checks lines (.values (condition.HasKind .number) condition.arrayUses)
      (compileCondition place condition whenFalse) :=
  ((condition.compileNumber_checks place).bind fun _ _ => .afterLift fun _ => .afterLift fun _ =>
    .lift _).cast (Demand.andThen_nothing _)

theorem compileStep_checks (step : Option Expr) (place : Place) :
    Checks lines (.values (∀ expr ∈ step, expr.HasKind .number) (step.toList.flatMap Expr.arrayUses))
      (compileStep step place) := by
  cases step with
  | some step => exact (step.compileNumber_checks place).congr (by simp) (by simp)
  | none => exact (Checks.lift _).congr (by simp) rfl

theorem compileFor_checks (control : VarName) (first last : Expr) (step : Option Expr) :
    Checks lines (asks (.forLoop control first last step)) (compileFor control first last step) := by
  unfold compileFor
  dsimp only
  split
  · rename_i isNumber
    refine ((first.compileNumber_checks _).bind fun _ _ => .afterLift fun counter => .afterLift fun _ =>
      (last.compileNumber_checks _).bind fun _ _ => .afterLift fun limit => .afterLift fun _ =>
        (compileStep_checks step _).bind fun _ _ => .afterLift fun amount => .afterLift fun _ =>
          .afterLift fun test => .afterLift fun body => .afterLift fun done => .afterLift fun _ =>
            .afterLift fun _ =>
              .openLoop (.forLoop control) (.counting control counter limit amount test body done)
                rfl).cast ?_
    simp [Demand.andThen, Demand.values, asks, WellKinded, targets, arrayUses, loopMarks, isNumber]
  · rename_i isText
    exact .refuse _ fun kinds => isText kinds.1

theorem compileNext_checks (name : Option VarName) :
    Checks lines ⟨True, [], [], [.next name]⟩ (compileNext name) := by
  refine .closeLoop ⟨rfl, fun _ _ => rfl⟩ ?_ ?_
  · intro loop encloses
    cases loop with
    | conditional top done => cases encloses
    | counting control counter limit step test body done =>
        cases name with
        | none => exact .lift _
        | some found =>
            have same : found = control := by simpa [Loop.mark, LoopMark.encloses] using encloses
            dsimp only
            rw [if_pos same]
            exact .lift _
  · intro found apart
    rcases found with _ | ⟨control, counter, limit, step, test, body, done⟩ | ⟨top, done⟩
    · exact ⟨_, rfl⟩
    · cases name with
      | none => cases apart _ rfl
      | some found =>
          have different : found ≠ control := by
            simpa [Loop.mark, LoopMark.encloses] using apart
          exact ⟨.nextMismatch control found, if_neg different⟩
    · exact ⟨_, rfl⟩

theorem compileNexts_checks (controls : List VarName) :
    Checks lines (asks (.next controls)) (compileNexts controls) := by
  have named (controls : List VarName) :
      Checks lines ⟨True, [], [], controls.map fun control => .next (some control)⟩
        (compileNamedNexts controls) := by
    induction controls with
    | nil => exact .pure ()
    | cons first rest ih =>
        exact ((compileNext_checks (some first)).bind fun _ _ => ih).cast (by simp [Demand.andThen])
  cases controls with
  | nil => exact compileNext_checks none
  | cons first rest => exact named (first :: rest)

theorem compileWhile_checks (condition : Expr) :
    Checks lines (asks (.whileLoop condition)) (compileWhile condition) :=
  Checks.cast (.afterLift fun top => .afterLift fun done => .afterLift fun _ =>
    (compileCondition_checks .whileCondition condition done).bind fun _ _ =>
      .openLoop .whileLoop (.conditional top done) rfl)
    (by simp [Demand.andThen, Demand.values, asks, WellKinded, targets, arrayUses, loopMarks])

theorem compileWend_checks : Checks lines (asks .wend) compileWend := by
  refine .closeLoop ⟨rfl, fun _ _ => rfl⟩ ?_ ?_
  · intro loop encloses
    cases loop with
    | counting => cases encloses
    | conditional top done => exact .afterLift fun _ => .lift _
  · intro found apart
    rcases found with _ | ⟨control, counter, limit, step, test, body, done⟩ | ⟨top, done⟩
    · exact ⟨_, rfl⟩
    · exact ⟨_, rfl⟩
    · cases apart _ rfl

mutual

theorem compile_checks (surroundings : Surroundings) (stmt : Stmt) :
    Checks surroundings.lines (demand (inlined stmt)) (compile surroundings stmt) := by
  have alone {stmt : Stmt} {action : BodyM Unit} (checks : Checks surroundings.lines stmt.asks action) :
      Checks surroundings.lines (demand [stmt]) action :=
    checks.cast (by simp [demand, asks])
  cases stmt with
  | line number => exact alone (.lift _)
  | assign target value => exact alone (compileAssign_checks target value)
  | dim arrays => exact alone (.each rfl (fun _ _ => rfl) compileDim_checks arrays)
  | print items => exact alone (compilePrint_checks items)
  | input prompt targets => exact alone (compileAsks_checks _ targets)
  | goto target => exact alone (compileGoto_checks target)
  | gosub target => exact alone (compileGosub_checks target)
  | returnFromSub => exact alone compileReturn_checks
  | onGoto selector targets => exact alone (compileOnGoto_checks selector targets)
  | onGosub selector targets => exact alone (compileOnGosub_checks selector targets)
  | conditional condition thenBody elseBody =>
      rw [inlined, demand_cons, demand_append, compile]
      refine .afterLift fun done => ?_
      cases elseBody with
      | nil =>
          have nothing : demand (inlinedAll []) = .values True [] := by
            simp [demand, inlinedAll, Demand.values]
          rw [nothing, Demand.andThen_nothing]
          exact (compileCondition_checks .ifCondition condition done).bind fun _ _ =>
            .thenLift (compileAll_checks surroundings thenBody)
      | cons first rest =>
          exact .afterLift fun otherwise =>
            (compileCondition_checks .ifCondition condition otherwise).bind fun _ _ =>
              (compileAll_checks surroundings thenBody).bind fun _ _ => .afterLift fun _ =>
                .afterLift fun _ => .thenLift (compileAll_checks surroundings (first :: rest))
  | forLoop control first last step => exact alone (compileFor_checks control first last step)
  | next controls => exact alone (compileNexts_checks controls)
  | whileLoop condition => exact alone (compileWhile_checks condition)
  | wend => exact alone compileWend_checks
  | data items => exact alone (.pure ())
  | read targets =>
      exact alone (.each rfl (fun _ _ => rfl) (fun target => storeInput_checks target (.lift _)) targets)
  | restore start => exact alone (compileRestore_checks surroundings start)
  | remark text => exact alone (.pure ())
  | finish => exact alone (.lift _)
  | stop => exact alone (.lift _)

theorem compileAll_checks (surroundings : Surroundings) (stmts : List Stmt) :
    Checks surroundings.lines (demand (inlinedAll stmts)) (compileAll surroundings stmts) := by
  cases stmts with
  | nil => exact (Checks.pure ()).cast (by simp [demand, inlinedAll, Demand.values])
  | cons first rest =>
      rw [inlinedAll, demand_append]
      exact (compile_checks surroundings first).bind fun _ _ => compileAll_checks surroundings rest

end

end Stmt

namespace MainMethod

theorem valid_iff_met {lines : LineSet} {program : Program} (distinct : (Stmt.markers program).Nodup)
    (holds : lines.Holds (Stmt.markers program)) :
    program.Valid ↔ (Stmt.demand (Stmt.inlinedAll program)).Met lines [] [] [] := by
  constructor
  · intro valid
    refine ⟨valid.wellKinded, fun line named => ?_, valid.consistentUses,
      LoopMark.nested_iff_run.mp valid.nestedLoops⟩
    obtain ⟨stmt, isStmt, isTarget⟩ := List.mem_flatMap.mp named
    exact (holds line).mpr (valid.knownTargets stmt isStmt line isTarget)
  · intro met
    refine ⟨distinct, fun stmt isStmt line isTarget => ?_, met.kinds, met.uses,
      LoopMark.nested_iff_run.mpr met.marks⟩
    exact (holds line).mp (met.targets line (List.mem_flatMap.mpr ⟨stmt, isStmt, isTarget⟩))

theorem compile_accepts (surroundings : Surroundings) (program : Program)
    (distinct : (Stmt.markers program).Nodup)
    (holds : surroundings.lines.Holds (Stmt.markers program)) :
    Ends (compile surroundings program) (Body.empty descriptor)
      (fun _ _ => program.Valid) (fun _ _ => ¬ program.Valid) := by
  have nothing : opened.Reflects [] [] := ⟨by simp [ConsistentUses], by simp [opened], rfl⟩
  rw [valid_iff_met distinct holds]
  refine compile_ends ((Stmt.compileAll_checks surroundings program [] [] opened nothing).mono
    (fun _ _ stated => stated) fun _ _ unmet => unmet []) ?_ ?_
  · rintro through _ ⟨opened', met, reflects⟩ isOpen _ closed
    have same := Option.some.inj (met.marks.symm.trans closed.marks)
    exact isOpen (List.map_eq_nil_iff.mp (reflects.loops.trans same))
  · rintro through _ ⟨opened', met, reflects⟩ _ closed _
    have isNil : opened' = [] := by rw [← reflects.loops, closed, List.map_nil]
    exact isNil ▸ met

end MainMethod

namespace Program

theorem Fails.not_valid {options : Options} {program : Program} {error : CompileError}
    (fails : Fails options program error) (isRule : ∀ cause, error ≠ .assembly cause)
    (isRule' : ∀ cause, error ≠ .classFile cause) : ¬ program.Valid := by
  have marked := LineSet.scan_holds program
  have notLimit {draft : Draft} {method : String} : ¬ draft.Refused method error := by
    rintro (⟨cause, rfl⟩ | ⟨_, rfl, _⟩ | ⟨_, rfl, _⟩ | ⟨_, rfl, _⟩ | ⟨_, _, rfl, _⟩)
    · exact isRule' _ rfl
    all_goals exact isRule _ rfl
  cases fails with
  | lines refused =>
      rw [refused] at marked
      exact fun valid => marked.2 valid.distinctLines
  | statement scanned refused =>
      rw [scanned] at marked
      have accepts := MainMethod.compile_accepts ⟨_, DataTable.scan program, options.lineNumbers⟩ program
        marked.1 marked.2
      rwa [Ends, refused] at accepts
  | front scanned refused unassembled =>
      rcases unassembled with ⟨cause, rfl⟩ | ⟨_, rfl, _⟩
      · exact absurd rfl (isRule' _)
      · exact absurd rfl (isRule _)
  | main scanned compiled refused => exact absurd refused notLimit
  | initializer refused => exact absurd refused notLimit
  | helper refused => exact absurd refused notLimit
  | limit isLimit => exact absurd isLimit (isRule' _)

theorem Built.valid {options : Options} {program : Program} {file : ClassFile} {lines : LineSet}
    {body : Body} (built : Built options program file lines body) : program.Valid := by
  have marked := LineSet.scan_holds program
  rw [built.scanned] at marked
  exact (MainMethod.compile_accepts _ program marked.1 marked.2).of_run built.compiled

/-- A program is valid if it is compiled, and not valid if it is refused for any other reason than the
limits of a class file. So a valid program can only fail because of these limits. -/
theorem compile_accepts_valid (options : Options) (program : Program) :
    (∀ file, compile options program = .ok file → program.Valid) ∧
    (∀ error, compile options program = .error error →
      (∀ cause, error ≠ .assembly cause) → (∀ cause, error ≠ .classFile cause) → ¬ program.Valid) ∧
    (program.Valid → (∃ file, compile options program = .ok file) ∨
      (∃ cause, compile options program = .error (.assembly cause)) ∨
      ∃ cause, compile options program = .error (.classFile cause)) := by
  refine ⟨fun file compiled => ?_, fun error failed => (fails_of_compile failed).not_valid, fun valid => ?_⟩
  · obtain ⟨lines, body, built⟩ := built_of_compile compiled
    exact built.valid
  · cases outcome : compile options program with
    | ok file => exact .inl ⟨file, rfl⟩
    | error error =>
        by_contra other
        simp only [reduceCtorEq, exists_false, Except.error.injEq, false_or, not_or, not_exists] at other
        exact (fails_of_compile outcome).not_valid other.1 other.2 valid

end Program

end BasicCompiler
