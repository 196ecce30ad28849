import BasicCompiler.Proofs.Compile.Occurrences

/-!
Where the expressions of a statement are compiled: one after the other, and those that an expression is
made of inside of its own code.
-/

namespace BasicCompiler

open Draft Body

def Expr.subexpressions : Expr → List Expr
  | number _ | text _ | scalar _ => []
  | element _ exprs | call _ exprs => exprs
  | unary _ operand => [operand]
  | binary _ left right | compare _ left right => [left, right]

def Variable.subscripts : Variable → List Expr
  | scalar _ => []
  | element _ subscripts => subscripts

def PrintItem.expressions : PrintItem → List Expr
  | comma | semicolon => []
  | expr value | tab value | spc value => [value]

/-- The expressions of a statement in the order of their code. Those of the statements inside of a
conditional are not among them. -/
def Stmt.expressions : Stmt → List Expr
  | assign target value => target.subscripts ++ [value]
  | dim arrays => arrays.flatMap ArrayBounds.bounds
  | print items => items.flatMap PrintItem.expressions
  | input _ targets | read targets => targets.flatMap Variable.subscripts
  | onGoto selector _ | onGosub selector _ => [selector]
  | conditional condition _ _ | whileLoop condition => [condition]
  | forLoop _ first last step => first :: last :: step.toList
  | _ => []

/-- Expressions are compiled one after the other from one state of a main method to another, and so are,
inside of the code of each, the expressions it is made of. -/
inductive Evaluated (holds : Expr → Body → Body → Prop) : List Expr → Body → Body → Prop where
  | nil {body final : Body} : body.draft.Precedes final.draft → Evaluated holds [] body final
  | cons {expr : Expr} {rest : List Expr} {body before after final : Body} :
      body.draft.Precedes before.draft → holds expr before after →
      Evaluated holds expr.subexpressions before after → Evaluated holds rest after final →
      Evaluated holds (expr :: rest) body final

namespace Evaluated

variable {holds holds' : Expr → Body → Body → Prop} {exprs exprs' : List Expr} {body middle final : Body}

theorem precedes (evaluated : Evaluated holds exprs body final) : body.draft.Precedes final.draft := by
  induction evaluated with
  | nil precedes => exact precedes
  | cons first _ _ _ inside later => exact first.trans (inside.trans later)

theorem append (first : Evaluated holds exprs body middle) (second : Evaluated holds exprs' middle final) :
    Evaluated holds (exprs ++ exprs') body final := by
  induction first with
  | nil precedes =>
      cases second with
      | nil precedes' => exact .nil (precedes.trans precedes')
      | cons precedes' isHeld inside later => exact .cons (precedes.trans precedes') isHeld inside later
  | cons precedes isHeld inside _ _ ih => exact .cons precedes isHeld inside (ih second)

theorem imp (evaluated : Evaluated holds exprs body final)
    (implies : ∀ expr before after, body.draft.Precedes before.draft → after.draft.Precedes final.draft →
      holds expr before after → holds' expr before after) : Evaluated holds' exprs body final := by
  induction evaluated with
  | nil precedes => exact .nil precedes
  | cons first isHeld inside later insideIh laterIh =>
      have passed := first.trans inside.precedes
      exact .cons first (implies _ _ _ first later.precedes isHeld)
        (insideIh fun _ _ _ lower upper => implies _ _ _ (first.trans lower) (upper.trans later.precedes))
        (laterIh fun _ _ _ lower => implies _ _ _ (passed.trans lower))

end Evaluated

def Expr.Compiled (expr : Expr) (before after : Body) : Prop := expr.compile.run before = (.ok (), after)

variable {α β : Type}

/-- Compiling that compiles the given expressions one after the other. -/
def Evaluates (exprs : List Expr) (action : BodyM α) : Prop :=
  ∀ body : Body, Ends action body (fun _ final => Evaluated Expr.Compiled exprs body final) (fun _ _ => True)

theorem Advances.evaluates {lines : List LineNumber} {sites cost : Nat} {action : BodyM α}
    (advances : Advances lines sites cost action) : Evaluates [] action :=
  fun body => (advances.ends body).imp fun _ _ advanced => .nil advanced.grows.precedes

theorem Spends.evaluates {cost : Nat} {action : BodyM α} (spends : Spends cost action) : Evaluates [] action :=
  spends.advances.evaluates

namespace Evaluates

variable {exprs exprs' : List Expr} {cost : Nat} {first : BodyM α} {next : α → BodyM β}

theorem bind (evaluates : Evaluates exprs first) (evaluates' : ∀ value, Evaluates exprs' (next value)) :
    Evaluates (exprs ++ exprs') (first >>= next) :=
  fun body => (evaluates body).bind fun value middle evaluated =>
    (evaluates' value middle).imp fun _ _ => evaluated.append

theorem after (spends : Spends cost first) (evaluates : ∀ value, Evaluates exprs (next value)) :
    Evaluates exprs (first >>= next) := spends.evaluates.bind evaluates

theorem before (evaluates : Evaluates exprs first) (spends : ∀ value, Spends cost (next value)) :
    Evaluates exprs (first >>= next) :=
  List.append_nil exprs ▸ evaluates.bind fun value => (spends value).evaluates

theorem expect (place : Place) (expected : ValueKind) (expr : Expr) {next : Unit → BodyM β}
    (evaluates : ∀ value, Evaluates exprs (next value)) :
    Evaluates exprs (expr.expect place expected >>= next) :=
  .after (Codes.expect place expected expr).spends evaluates

end Evaluates

namespace Expr

mutual

theorem compile_evaluates (expr : Expr) : Evaluates [expr] expr.compile := by
  have inside : Evaluates expr.subexpressions expr.compile := by
    cases expr with
    | number | text | scalar => exact (compile_codes _).spends.evaluates
    | element name subscripts =>
        rw [compile]
        exact .after (pushArray_codes name _).spends fun _ =>
          (compileNumbers_evaluates _ subscripts).before fun _ => .call (by nofun)
    | unary operator operand =>
        cases operator with
        | neg =>
            rw [compile]
            exact .expect _ _ operand fun _ => (compile_evaluates operand).before fun _ => .emit rfl
        | not =>
            rw [compile]
            exact .expect _ _ operand fun _ => (compile_evaluates operand).before fun _ => .call (by nofun)
    | binary operator left right =>
        rw [compile]
        exact .expect _ _ left fun _ => (compile_evaluates left).bind fun _ =>
          .expect _ _ right fun _ => (compile_evaluates right).before fun _ =>
          .lift (combine_neutral operator left).writes
    | compare operator left right =>
        rw [compile]
        exact (compile_evaluates left).bind fun _ => .expect _ _ right fun _ =>
          (compile_evaluates right).before fun _ => .lift (compareValues_neutral operator left.kind).writes
    | call function arguments =>
        rw [compile]
        unfold checkArity
        split
        · rename_i accepted
          exact (compileArguments_evaluates function 1 _ arguments (length_le_parameters accepted)).before fun _ =>
            .lift (callBuiltin_neutral function arguments).writes
        · exact fun _ => trivial
  exact fun body => (inside body).outcome.imp fun _ _ ⟨evaluated, ran⟩ =>
    .cons (.refl _) ran evaluated (.nil (.refl _))

theorem compileNumbers_evaluates (place : Place) (exprs : List Expr) :
    Evaluates exprs (compileNumbers place exprs) := by
  cases exprs with
  | nil => exact (Spends.pure ()).evaluates
  | cons first rest =>
      rw [compileNumbers]
      exact .expect _ _ first fun _ => (compile_evaluates first).bind fun _ =>
        compileNumbers_evaluates place rest

theorem compileArguments_evaluates (function : Builtin) (position : Nat) (kinds : List ValueKind)
    (exprs : List Expr) (enough : exprs.length ≤ kinds.length) :
    Evaluates exprs (compileArguments function position kinds exprs) := by
  cases exprs with
  | nil => cases kinds <;> exact (Spends.pure ()).evaluates
  | cons first rest =>
      cases kinds with
      | nil => cases enough
      | cons kind kinds =>
          rw [compileArguments]
          exact .expect _ _ first fun _ => (compile_evaluates first).bind fun _ =>
            compileArguments_evaluates function (position + 1) kinds rest (Nat.le_of_succ_le_succ enough)

end

theorem compileNumber_evaluates (place : Place) (expr : Expr) : Evaluates [expr] (expr.compileNumber place) :=
  .expect _ _ expr fun _ => compile_evaluates expr

end Expr

namespace Stmt

theorem store_evaluates (target : Variable) {pushValue : BodyM Unit} {exprs : List Expr}
    (evaluates : Evaluates exprs pushValue) :
    Evaluates (target.subscripts ++ exprs) (store target pushValue) := by
  cases target with
  | scalar name =>
      refine evaluates.before fun _ => (Spends.slotOf _ _).bind fun _ => (?_ : Spends 6 _)
      cases name.kind <;> exact .emit rfl
  | element name subscripts =>
      exact .after (Expr.pushArray_codes name _).spends fun _ =>
        (Expr.compileNumbers_evaluates _ subscripts).bind fun _ => evaluates.before fun _ => .call (by rintro ⟨⟩)

theorem store_silent (target : Variable) {pushValue : BodyM Unit} {cost : Nat} (spends : Spends cost pushValue) :
    Evaluates target.subscripts (store target pushValue) :=
  List.append_nil target.subscripts ▸ store_evaluates target spends.evaluates

theorem compileDims_evaluates (arrays : List ArrayBounds) :
    Evaluates (arrays.flatMap ArrayBounds.bounds) (compileDims arrays) := by
  induction arrays with
  | nil => exact (Spends.pure ()).evaluates
  | cons first rest ih =>
      refine Evaluates.bind ?_ fun _ => ih
      exact .after (Spends.arrayShape _ _) fun _ => .after (Spends.slotOf _ _) fun _ =>
        .after (Spends.emit rfl) fun _ => (Expr.compileNumbers_evaluates _ first.bounds).before fun _ =>
        (Spends.call (by nofun)).bind fun _ => .emit rfl

theorem compilePrintItem_evaluates (item : PrintItem) :
    Evaluates item.expressions (compilePrintItem item) := by
  cases item with
  | expr value =>
      exact value.compile_evaluates.before fun _ => .call (by cases value.kind <;> nofun)
  | comma => exact (Spends.call (by nofun)).evaluates
  | semicolon => exact (Spends.pure ()).evaluates
  | tab value | spc value => exact (value.compileNumber_evaluates _).before fun _ => .call (by nofun)

theorem compilePrint_evaluates (items : List PrintItem) :
    Evaluates (items.flatMap PrintItem.expressions) (compilePrint items) := by
  have all : Evaluates (items.flatMap PrintItem.expressions) (compilePrintItems items) := by
    induction items with
    | nil => exact (Spends.pure ()).evaluates
    | cons first rest ih => exact (compilePrintItem_evaluates first).bind fun _ => ih
  refine all.before fun _ => (?_ : Spends 6 _)
  split
  · exact (Spends.pure ()).mono (Nat.zero_le _)
  · exact .call (by nofun)

theorem compileAsks_evaluates (prompt : String) (targets : List Variable) :
    Evaluates (targets.flatMap Variable.subscripts) (compileAsks prompt targets) := by
  induction targets generalizing prompt with
  | nil => exact (Spends.pure ()).evaluates
  | cons first rest ih =>
      exact (store_silent first ((Spends.pushText prompt).bind fun _ =>
        .call (by cases first.kind <;> nofun))).bind fun _ => ih furtherPrompt

theorem compileReads_evaluates (targets : List Variable) :
    Evaluates (targets.flatMap Variable.subscripts) (compileReads targets) := by
  induction targets with
  | nil => exact (Spends.pure ()).evaluates
  | cons first rest ih =>
      exact (store_silent first (.call (by cases first.kind <;> nofun))).bind fun _ => ih

theorem compileCondition_evaluates (place : Place) (condition : Expr) (whenFalse : Label) :
    Evaluates [condition] (compileCondition place condition whenFalse) :=
  (condition.compileNumber_evaluates place).before fun _ => (Spends.emit rfl).bind fun _ =>
    (Spends.emit rfl).bind fun _ => .emit rfl

theorem compileSelector_evaluates (selector : Expr) : Evaluates [selector] (compileSelector selector) :=
  (selector.compileNumber_evaluates _).before fun _ => .call (by nofun)

theorem enterThen_evaluates (condition : Expr) (elseBody : List Stmt) :
    Evaluates [condition] (enterThen condition elseBody) := by
  refine .after (Spends.freshLabel _) fun done => ?_
  split
  · exact (compileCondition_evaluates _ condition done).before fun _ => .pure _
  · exact .after (Spends.freshLabel _) fun otherwise =>
      (compileCondition_evaluates _ condition otherwise).before fun _ => .pure _

theorem compileStep_evaluates (step : Option Expr) (place : Place) :
    Evaluates step.toList (compileStep step place) := by
  cases step with
  | none => exact (Spends.emit rfl).evaluates
  | some step => exact step.compileNumber_evaluates place

theorem compileFor_evaluates (control : VarName) (first last : Expr) (step : Option Expr) :
    Evaluates (first :: last :: step.toList) (compileFor control first last step) := by
  unfold compileFor
  dsimp only
  split
  · exact (first.compileNumber_evaluates _).bind fun _ => .after (Spends.slotOf _ _) fun _ =>
      .after (Spends.emit rfl) fun _ => (last.compileNumber_evaluates _).bind fun _ =>
      .after (Spends.lift (.temporary _)) fun _ => .after (Spends.emit rfl) fun _ =>
      (compileStep_evaluates step _).before fun _ => (Spends.lift (.temporary _)).bind fun _ =>
      (Spends.emit rfl).bind fun _ => (Spends.freshLabel _).bind fun _ => (Spends.freshLabel _).bind fun _ =>
      (Spends.freshLabel _).bind fun _ => (Spends.emit rfl).bind fun _ => (Spends.place _).bind fun _ =>
      .openLoop _
  · exact fun _ => trivial

variable {surroundings : Surroundings}

theorem compile_evaluates (stmt : Stmt) : Evaluates stmt.expressions (compile surroundings stmt) := by
  cases stmt with
  | assign target value => exact .expect _ _ value fun _ => store_evaluates target value.compile_evaluates
  | dim arrays => exact compileDims_evaluates arrays
  | print items => exact compilePrint_evaluates items
  | input prompt targets => exact compileAsks_evaluates _ targets
  | read targets => exact compileReads_evaluates targets
  | onGoto selector targets =>
      rw [compile, compileOnGoto]
      rcases requireLabels_bind surroundings.lines targets _ with ⟨error, thrown⟩ | known
      · rw [thrown]
        exact fun _ => trivial
      · rw [known]
        exact (compileSelector_evaluates selector).before fun _ => jumpTo_spends _
  | onGosub selector targets =>
      rw [compile, compileOnGosub]
      rcases requireLabels_bind surroundings.lines targets _ with ⟨error, thrown⟩ | known
      · rw [thrown]
        exact fun _ => trivial
      · rw [known]
        exact (compileSelector_evaluates selector).bind fun _ => (callOne_advances _).evaluates
  | conditional condition thenBody elseBody =>
      rw [compile_conditional]
      refine (enterThen_evaluates condition elseBody).bind fun _ =>
        (compileAll_advances thenBody).evaluates.bind fun _ => ?_
      split
      · exact (Spends.place _).evaluates
      · exact .after (enterElse_spends _ _) fun _ => (compileAll_advances elseBody).evaluates.before fun _ =>
          .place _
  | forLoop control first last step => exact compileFor_evaluates control first last step
  | whileLoop condition =>
      exact .after (Spends.freshLabel _) fun _ => .after (Spends.freshLabel _) fun _ =>
        .after (Spends.place _) fun _ => (compileCondition_evaluates _ condition _).before fun _ => .openLoop _
  | _ => exact (compile_advances _).evaluates

theorem Occurs.reached {stmt : Stmt} {site sites : Nat} {before after body : Body} {stmts : List Stmt}
    (occurs : Occurs surroundings stmt site before after stmts sites body) :
    body.draft.Precedes before.draft := by
  induction occurs with
  | here => exact .refl _
  | thenArm enters _ ih => exact ((enterThen_spends _ _).advances.precedes enters).draft.trans ih
  | elseArm enters thens turns _ ih =>
      exact ((enterThen_spends _ _).advances.precedes enters).draft.trans
        ((compileAll_precedes thens).draft.trans ((enterElse_precedes turns).draft.trans ih))
  | later compiled _ ih => exact ((compile_advances _).precedes compiled).draft.trans ih

end Stmt

end BasicCompiler
