import BasicCompiler.Proofs.Compile.LocalSlots
import BasicCompiler.Proofs.Compile.Sizes
import BasicCompiler.Proofs.Compile.Tallies

/-!
The code of expressions, and of the statements that go straight on. It is at most a constant factor
larger than its source, its labels are its own, and it touches locals as its source does.
-/

namespace BasicCompiler

open Draft Body

variable {α β : Type} {cost cost' : Nat}

/-- Drafting that adds at most `cost` bytes, with labels of its own only and without use of a slot. -/
structure Neutral (cost : Nat) (action : DraftM α) : Prop where
  balances : Balances action
  writes : Writes Item.Plain cost action
  passive : Passive action

namespace Neutral

theorem mono {action : DraftM α} (neutral : Neutral cost action) (cheaper : cost ≤ cost') :
    Neutral cost' action :=
  { neutral with writes := neutral.writes.mono cheaper }

theorem bind {first : DraftM α} {next : α → DraftM β} (neutral : Neutral cost first)
    (neutral' : ∀ value, Neutral cost' (next value)) : Neutral (cost + cost') (first >>= next) where
  balances := neutral.balances.bind fun value => (neutral' value).balances
  writes := neutral.writes.bind fun value => (neutral' value).writes
  passive := neutral.passive.bind fun value => (neutral' value).passive

theorem emit {insn : Insn} (simple : insn.isSimple = true)
    (bare : insn.labels = [] ∧ insn.slotUse? = none) : Neutral 6 (Draft.emit insn) :=
  ⟨.emit bare.1, .simple simple, .emit bare.2⟩

theorem call {helper : Helper} (other : helper ≠ .gosubPush) : Neutral 6 (Draft.call helper) :=
  ⟨.emit rfl, .call other, .emit rfl⟩

end Neutral

/-- Compiling that adds at most `cost` bytes, with labels of its own only, and touches locals. -/
structure Codes (touches : List Touch) (cost : Nat) (action : BodyM α) : Prop where
  tallies : Tallies action
  spends : Spends cost action
  touches : ∀ given, Touches given touches action

namespace Codes

variable {touches touches' : List Touch}

theorem mono {action : BodyM α} (codes : Codes touches cost action) (same : touches = touches')
    (cheaper : cost ≤ cost') : Codes touches' cost' action :=
  ⟨codes.tallies, codes.spends.mono cheaper, same ▸ codes.touches⟩

theorem pure (value : α) : Codes [] 0 (Pure.pure value) := ⟨.pure value, .pure value, fun _ => .pure value⟩

theorem throw {error : CompileError} (apart : ∀ cause, error ≠ .assembly cause) :
    Codes touches cost (throw error : BodyM α) := ⟨.throw apart, .throw error, fun _ => .throw error⟩

theorem bind {first : BodyM α} {next : α → BodyM β} (codes : Codes touches cost first)
    (codes' : ∀ value, Codes touches' cost' (next value)) :
    Codes (touches ++ touches') (cost + cost') (first >>= next) where
  tallies := codes.tallies.bind fun value => (codes' value).tallies
  spends := codes.spends.bind fun value => (codes' value).spends
  touches given := (codes.touches given).bind fun value => (codes' value).touches given

theorem lift {action : DraftM α} (neutral : Neutral cost action) :
    Codes [] cost (liftM action : BodyM α) :=
  ⟨.lift neutral.balances, .lift neutral.writes, fun _ => .passive neutral.passive⟩

theorem emit {insn : Insn} (simple : insn.isSimple = true)
    (bare : insn.labels = [] ∧ insn.slotUse? = none) :
    Codes [] 6 (liftM (Draft.emit insn) : BodyM Unit) := lift (.emit simple bare)

theorem call {helper : Helper} (other : helper ≠ .gosubPush) :
    Codes [] 6 (liftM (Draft.call helper) : BodyM Unit) := lift (.call other)

theorem pushText (text : String) :
    Codes [] (6 + 6 * text.length) (liftM (Draft.pushText text) : BodyM Unit) :=
  ⟨.lift (.emit rfl), .pushText text, fun _ => .emit rfl⟩

theorem visit (touch : Touch) {key : String} {opcode : Opcode} (isKey : touch.holder.key? = some key)
    (isOpcode : touch.opcode = opcode) :
    Codes [touch] 18 (do
      let slot ← (Draft.slotOf key touch.holder.initial : BodyM Nat)
      (Draft.emit (.access opcode slot) : BodyM Unit)) where
  tallies := (Tallies.lift (.slotOf _ _)).bind fun _ => .lift (.emit rfl)
  spends := (Spends.slotOf _ _).bind fun _ => .emit rfl
  touches _ := .slotOf touch isKey fun _ => .access touch isOpcode (List.mem_cons_self ..)

theorem expect (place : Place) (expected : ValueKind) (expr : Expr) :
    Codes [] 0 (expr.expect place expected) := by
  unfold Expr.expect
  split
  · exact .pure ()
  · exact .throw nofun

theorem checkArity {function : Builtin} {count : Nat} {next : BodyM α}
    (codes : count ∈ function.arities → Codes touches cost next) :
    Codes touches cost (do
      Expr.checkArity function count
      next) := by
  unfold Expr.checkArity
  split
  · rename_i accepted
    exact codes accepted
  · exact .throw nofun

theorem requireLabel (lines : LineSet) (line : LineNumber) : Codes [] 0 (require (lines.label line)) := by
  unfold LineSet.label
  split
  · exact .pure _
  · exact .throw nofun

end Codes

namespace Expr

theorem operate_neutral (operator : BinaryOp) : Neutral 6 (operate operator) := by
  cases operator with
  | add | sub | mul => exact .emit rfl ⟨rfl, rfl⟩
  | div | intDiv | mod | pow | and | or | xor => exact .call (by nofun)

theorem combine_neutral (operator : BinaryOp) (left : Expr) : Neutral 6 (combine operator left) := by
  unfold combine
  split
  · exact .call (by nofun)
  · exact operate_neutral operator

theorem choice_neutral (operator : CompareOp) : Neutral 24 (do
    let holds ← freshLabel "cmp_true"
    let done ← freshLabel "cmp_done"
    branch operator.branch holds
    op Opcode.fconst0
    goto done
    place holds
    pushFloat .negativeOne
    place done) := by
  refine ⟨fun owed spare known draft tallied => ?_, Writes.mono ?_ (Nat.le_refl 24), ?_⟩
  · rw [drafts_bind]
    refine (tallied.freshLabel "cmp_true" (by decide)).mono fun holds draft labelled => ?_
    rw [drafts_bind]
    refine (labelled.freshLabel "cmp_done" (by decide)).mono fun done draft labelled => ?_
    have branched := labelled.insn (.branch operator.branch holds) (by simp [Insn.labels])
    have pushed := branched.insn (.op Opcode.fconst0) (by simp [Insn.labels])
    have jumped := pushed.insn (.branch Opcode.goto done) (by simp [Insn.labels])
    have placed := (jumped.perm (.swap _ _ _) (.refl _)).label holds
    have finished := (placed.insn (.pushFloat .negativeOne) (by simp [Insn.labels])).label done
    exact finished.forget (by simp +contextual)
  · exact (Writes.freshLabel _).bind fun _ => (Writes.freshLabel _).bind fun _ =>
      (Writes.simple rfl).bind fun _ => (Writes.simple rfl).bind fun _ => (Writes.simple rfl).bind fun _ =>
      (Writes.place trivial).bind fun _ => (Writes.simple rfl).bind fun _ => .place trivial
  · exact (Passive.freshLabel _).bind fun holds => (Passive.freshLabel _).bind fun done =>
      (Passive.emit rfl).bind fun _ => (Passive.emit rfl).bind fun _ => (Passive.emit rfl).bind fun _ =>
      (Passive.place holds).bind fun _ => (Passive.emit rfl).bind fun _ => .place done

theorem compareValues_neutral (operator : CompareOp) (kind : ValueKind) :
    Neutral 30 (compareValues operator kind) := by
  cases kind with
  | text => exact (Neutral.call (by nofun)).bind fun _ => choice_neutral operator
  | number => exact (Neutral.emit rfl ⟨rfl, rfl⟩).bind fun _ => choice_neutral operator

theorem callBuiltin_neutral (function : Builtin) (arguments : List Expr) :
    Neutral 18 (callBuiltin function arguments) := by
  have called : Neutral 6 (Draft.call (function.helper arguments.length)) := by
    refine .call ?_
    unfold Builtin.helper
    split
    case h_8 | h_13 => split <;> nofun
    all_goals nofun
  have drawn : Neutral 6 (op Opcode.fconst1) := .emit rfl ⟨rfl, rfl⟩
  have coded : Neutral 6 (Draft.call .chr) := .call (by nofun)
  unfold callBuiltin
  dsimp only
  split
  · split
    · exact drawn.bind fun _ => coded.bind fun _ => called
    · exact (drawn.bind fun _ => called).mono (by decide)
  · split
    · exact (coded.bind fun _ => called).mono (by decide)
    · exact called.mono (by decide)

theorem pushScalar_codes (name : VarName) :
    Codes [.load (.scalar name)] 18 (liftM (pushScalar name) : BodyM Unit) := by
  have visited := Codes.visit (.load (.scalar name)) rfl rfl
  rw [Touch.opcode, Touch.holder, Local.initial] at visited
  unfold pushScalar scalarSlot
  cases kind : name.kind with
  | number | text =>
      rw [kind] at visited
      exact visited

section

variable {given : List (Local × Nat)} (name : VarName) (slot : Nat)

theorem aload_touches : Touches ((Local.array name, slot) :: given) [.load (.array name)]
    (liftM (aload slot) : BodyM Unit) := .access (.load (.array name)) rfl (List.mem_cons_self ..)

theorem astore_touches : Touches ((Local.array name, slot) :: given) [.store (.array name)]
    (liftM (astore slot) : BodyM Unit) := .access (.store (.array name)) rfl (List.mem_cons_self ..)

end

theorem pushArray_codes (name : VarName) (count : Nat) :
    Codes [.load (.array name), .store (.array name)] 36 (pushArray name count) where
  tallies := (Tallies.arrayShape name count).bind fun shape => (Tallies.lift (.slotOf _ _)).bind fun _ =>
    (Tallies.lift (.emit rfl)).bind fun _ => (Tallies.lift (.emit rfl)).bind fun _ =>
    (Tallies.lift (.emit rfl)).bind fun _ => (Tallies.lift (.emit rfl)).bind fun _ => .pure shape
  spends := (Spends.arrayShape name count).bind fun _ => (Spends.slotOf _ _).bind fun _ =>
    (Spends.emit rfl).bind fun _ => (Spends.call (by nofun)).bind fun _ => (Spends.emit rfl).bind fun _ =>
    (Spends.emit rfl).bind fun _ => .pure _
  touches _ := (Touches.arrayShape name count).after fun shape =>
    .slotOf (.load (.array name)) rfl fun slot => (aload_touches name slot).bind fun _ =>
    (Touches.emit rfl).after fun _ => (Touches.emit rfl).after fun _ =>
    (astore_touches name slot).before fun _ => .pure shape

mutual

theorem compile_codes (expr : Expr) : Codes expr.touches (60 * expr.size) expr.compile := by
  cases expr with
  | number value => exact (Codes.emit rfl ⟨rfl, rfl⟩).mono (by rw [touches]) (by simp [size])
  | text value => exact (Codes.pushText value).mono (by rw [touches]) (by simp only [size]; omega)
  | scalar name => exact (pushScalar_codes name).mono (by rw [touches]) (by simp [size])
  | element name subscripts =>
      rw [compile]
      exact ((pushArray_codes name _).bind fun _ => (compileNumbers_codes _ subscripts).bind fun _ =>
        .call (by nofun)).mono (by simp [touches]) (by simp only [size]; omega)
  | unary operator operand =>
      cases operator with
      | neg =>
          rw [compile]
          exact ((Codes.expect _ _ operand).bind fun _ => (compile_codes operand).bind fun _ =>
            .emit rfl ⟨rfl, rfl⟩).mono (by simp [touches]) (by simp only [size]; omega)
      | not =>
          rw [compile]
          exact ((Codes.expect _ _ operand).bind fun _ => (compile_codes operand).bind fun _ =>
            .call (by nofun)).mono (by simp [touches]) (by simp only [size]; omega)
  | binary operator left right =>
      rw [compile]
      exact ((Codes.expect _ _ left).bind fun _ => (compile_codes left).bind fun _ =>
        (Codes.expect _ _ right).bind fun _ => (compile_codes right).bind fun _ =>
        .lift (combine_neutral operator left)).mono (by simp [touches]) (by simp only [size]; omega)
  | compare operator left right =>
      rw [compile]
      exact ((compile_codes left).bind fun _ => (Codes.expect _ _ right).bind fun _ =>
        (compile_codes right).bind fun _ => .lift (compareValues_neutral operator left.kind)).mono
        (by simp [touches]) (by simp only [size]; omega)
  | call function arguments =>
      rw [compile]
      -- There are as many kinds as accepted arguments, so none of these is left out.
      exact .checkArity fun accepted =>
        ((compileArguments_codes function 1 _ arguments (length_le_parameters accepted)).bind fun _ =>
        .lift (callBuiltin_neutral function arguments)).mono (by simp [touches]) (by simp only [size]; omega)

theorem compileNumbers_codes (place : Place) (exprs : List Expr) :
    Codes (touchesAll exprs) (60 * sizes exprs) (compileNumbers place exprs) := by
  cases exprs with
  | nil => exact .pure ()
  | cons first rest =>
      rw [compileNumbers]
      exact ((Codes.expect _ _ first).bind fun _ => (compile_codes first).bind fun _ =>
        compileNumbers_codes place rest).mono (by simp [touchesAll]) (by simp only [sizes]; omega)

theorem compileArguments_codes (function : Builtin) (position : Nat) (kinds : List ValueKind)
    (exprs : List Expr) (enough : exprs.length ≤ kinds.length) :
    Codes (touchesAll exprs) (60 * sizes exprs) (compileArguments function position kinds exprs) := by
  cases exprs with
  | nil => cases kinds <;> exact .pure ()
  | cons first rest =>
      cases kinds with
      | nil => cases enough
      | cons kind kinds =>
          rw [compileArguments]
          exact ((Codes.expect _ _ first).bind fun _ => (compile_codes first).bind fun _ =>
            compileArguments_codes function (position + 1) kinds rest (Nat.le_of_succ_le_succ enough)).mono
            (by simp [touchesAll]) (by simp only [sizes]; omega)

end

theorem compileNumber_codes (place : Place) (expr : Expr) :
    Codes expr.touches (60 * expr.size) (expr.compileNumber place) :=
  ((Codes.expect _ _ expr).bind fun _ => compile_codes expr).mono rfl (by omega)

end Expr

namespace Stmt

theorem store_codes (target : Variable) {pushValue : BodyM Unit} {value : List Touch}
    (pushes : Codes value cost pushValue) :
    Codes (target.storing value) (60 * target.size + cost) (store target pushValue) := by
  cases target with
  | scalar name =>
      have visited := Codes.visit (.store (.scalar name)) rfl rfl
      rw [Touch.opcode, Touch.holder, Local.initial] at visited
      have room : cost + 18 ≤ 60 * (Variable.scalar name).size + cost := by
        simp only [Variable.size]
        omega
      refine (pushes.bind fun _ => ?_).mono rfl room
      unfold scalarSlot
      cases kind : name.kind with
      | number | text =>
          rw [kind] at visited
          exact visited
  | element name subscripts =>
      exact ((Expr.pushArray_codes name _).bind fun _ => (Expr.compileNumbers_codes _ subscripts).bind fun _ =>
        pushes.bind fun _ => .call (by rintro ⟨⟩)).mono (by simp [Variable.storing])
        (by simp only [Variable.size]; omega)

theorem compileAssign_codes (target : Variable) (value : Expr) :
    Codes (target.storing value.touches) (60 * (target.size + value.size)) (compileAssign target value) :=
  ((Codes.expect _ _ value).bind fun _ => store_codes target value.compile_codes).mono rfl (by omega)

theorem compileDim_codes (array : ArrayBounds) :
    Codes array.touches (60 * (1 + Expr.sizes array.bounds)) (compileDim array) where
  tallies := (Tallies.arrayShape _ _).bind fun _ => (Tallies.lift (.slotOf _ _)).bind fun _ =>
    (Tallies.lift (.emit rfl)).bind fun _ => (Expr.compileNumbers_codes _ array.bounds).tallies.bind fun _ =>
    (Tallies.lift (.emit rfl)).bind fun _ => .lift (.emit rfl)
  spends := ((Spends.arrayShape _ _).bind fun _ => (Spends.slotOf _ _).bind fun _ =>
    (Spends.emit rfl).bind fun _ => (Expr.compileNumbers_codes _ array.bounds).spends.bind fun _ =>
    (Spends.call (by nofun)).bind fun _ => .emit rfl).mono (by omega)
  touches _ := (Touches.arrayShape _ _).after fun _ => .slotOf (.load (.array array.name)) rfl fun slot =>
    (Expr.aload_touches array.name slot).bind fun _ =>
    ((Expr.compileNumbers_codes _ array.bounds).touches _).bind fun _ => (Touches.emit rfl).after fun _ =>
    Expr.astore_touches array.name slot

theorem compileDims_codes (arrays : List ArrayBounds) :
    Codes (arrays.flatMap ArrayBounds.touches)
      (60 * (arrays.map fun array => 1 + Expr.sizes array.bounds).sum) (compileDims arrays) := by
  induction arrays with
  | nil => exact .pure ()
  | cons first rest ih =>
      exact ((compileDim_codes first).bind fun _ => ih).mono rfl
        (by simp only [List.map_cons, List.sum_cons]; omega)

theorem compilePrintItem_codes (item : PrintItem) :
    Codes item.touches (60 * item.size) (compilePrintItem item) := by
  cases item with
  | expr value =>
      have prints : printer value.kind ≠ .gosubPush := by cases value.kind <;> nofun
      exact (value.compile_codes.bind fun _ => .call prints).mono (List.append_nil _)
        (by simp only [PrintItem.size]; omega)
  | comma => exact (Codes.call (by nofun)).mono rfl (by simp [PrintItem.size])
  | semicolon => exact (Codes.pure ()).mono rfl (Nat.zero_le _)
  | tab value | spc value =>
      exact ((value.compileNumber_codes _).bind fun _ => .call (by nofun)).mono (List.append_nil _)
        (by simp only [PrintItem.size]; omega)

theorem compilePrint_codes (items : List PrintItem) :
    Codes (items.flatMap PrintItem.touches) (60 * (1 + (items.map PrintItem.size).sum))
      (compilePrint items) := by
  have all : Codes (items.flatMap PrintItem.touches) (60 * (items.map PrintItem.size).sum)
      (compilePrintItems items) := by
    induction items with
    | nil => exact .pure ()
    | cons first rest ih =>
        exact ((compilePrintItem_codes first).bind fun _ => ih).mono rfl
          (by simp only [List.map_cons, List.sum_cons]; omega)
  have newline : Codes [] 6 (if PrintItem.suppressesNewline items then pure () else
      (Draft.call .printNewline : BodyM Unit)) := by
    split
    · exact (Codes.pure ()).mono rfl (Nat.zero_le _)
    · exact .call (by nofun)
  exact (all.bind fun _ => newline).mono (List.append_nil _) (by omega)

theorem compileAsks_codes (prompt : String) (targets : List Variable) :
    Codes (targets.flatMap (Variable.storing []))
      (6 * prompt.length + 120 * (targets.map Variable.size).sum) (compileAsks prompt targets) := by
  induction targets generalizing prompt with
  | nil => exact (Codes.pure ()).mono rfl (Nat.zero_le _)
  | cons first rest ih =>
      have asked : Codes [] (6 + 6 * prompt.length + 6) (do
          pushText prompt
          call (asker first.kind) : BodyM Unit) :=
        (Codes.pushText prompt).bind fun _ => .call (by cases first.kind <;> nofun)
      have positive := Variable.size_pos first
      have further : furtherPrompt.length = 3 := by decide
      exact ((store_codes first asked).bind fun _ => ih furtherPrompt).mono rfl
        (by simp only [List.map_cons, List.sum_cons, further]; omega)

theorem compileReads_codes (targets : List Variable) :
    Codes (targets.flatMap (Variable.storing [])) (120 * (targets.map Variable.size).sum)
      (compileReads targets) := by
  induction targets with
  | nil => exact .pure ()
  | cons first rest ih =>
      have reads : dataReader first.kind ≠ .gosubPush := by cases first.kind <;> nofun
      have positive := Variable.size_pos first
      exact ((store_codes first (.call reads)).bind fun _ => ih).mono rfl
        (by simp only [List.map_cons, List.sum_cons]; omega)

theorem compileRestore_codes (surroundings : Surroundings) (start : Option LineNumber) :
    Codes [] 12 (compileRestore surroundings start) := by
  have moves (index : Nat) : Codes [] 12 (do pushInt (Int32.ofNat index); call .restore : BodyM Unit) :=
    (Codes.emit rfl ⟨rfl, rfl⟩).bind fun _ => .call (by nofun)
  cases start with
  | none => exact moves 0
  | some number => exact (Codes.requireLabel surroundings.lines number).bind fun _ => moves _

theorem compileSelector_codes (selector : Expr) :
    Codes selector.touches (60 * selector.size + 6) (compileSelector selector) :=
  ((selector.compileNumber_codes _).bind fun _ => .call (by nofun)).mono (List.append_nil _) (Nat.le_refl _)

theorem compileStep_codes (step : Option Expr) (place : Place) :
    Codes (step.elim [] Expr.touches) (60 * (step.map Expr.size).getD 0 + 6) (compileStep step place) := by
  cases step with
  | none => exact .emit rfl ⟨rfl, rfl⟩
  | some step => exact (step.compileNumber_codes place).mono rfl (by simp)

end Stmt

end BasicCompiler
