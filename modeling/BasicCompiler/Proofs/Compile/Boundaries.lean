import BasicCompiler.Proofs.Compile.StatementTyping

/-!
The code of a main method falls into pieces that start and end with an empty stack, and every statement
starts and ends between two of them.
-/

namespace BasicCompiler

open ValueType Draft Body

/-- A main method between two statements, whatever code stands before. -/
structure Body.Fits (body : Body) : Prop where
  sound : body.draft.scope.Sound 1
  handlers : body.draft.handlers = #[]
  loops : ∀ loop ∈ body.loops, loop.Fits body.draft.scope.nextSlot
  returns : ∀ label ∈ body.returns.targets.toList, MainMethod.stackOf label = some []

/-- Pieces of code that start and end with an empty stack lead from one statement to another. -/
structure Body.Paves (body final : Body) (pieces : List (List Item)) (height : Nat) : Prop where
  items : final.draft.items.toList = body.draft.items.toList ++ pieces.flatten
  climbs : ClimbsEach ⟨final.draft.scope.nextSlot, none, MainMethod.stackOf, true⟩ (some []) pieces height
  slots : body.draft.scope.nextSlot ≤ final.draft.scope.nextSlot
  fits : final.Fits

theorem Body.Fits.ready {body : Body} (fits : body.Fits) :
    body.Ready body.draft.items.toList (some []) 0 :=
  ⟨⟨⟨[], 0, (List.append_nil _).symm, .nil, rfl⟩, fits.sound, fits.handlers⟩, fits.loops, fits.returns⟩

namespace Body.Paves

variable {body middle final : Body} {pieces pieces' : List (List Item)} {height height' : Nat}

theorem congr (paves : body.Paves final pieces height) (same : height = height') :
    body.Paves final pieces height' := same ▸ paves

theorem nothing (fits : body.Fits) : body.Paves body [] 0 :=
  ⟨by simp, .nil, Nat.le_refl _, fits⟩

theorem trans (first : body.Paves middle pieces height) (second : middle.Paves final pieces' height') :
    body.Paves final (pieces ++ pieces') (max height height') where
  items := by rw [second.items, first.items, List.flatten_append, List.append_assoc]
  climbs := (first.climbs.grow second.slots).append second.climbs
  slots := Nat.le_trans first.slots second.slots
  fits := second.fits

end Body.Paves

def Body.Cuts (body : Body) (pieces : List (List Item)) (place : Body) : Prop :=
  ∃ front back, pieces = front ++ back ∧
    place.draft.items.toList = body.draft.items.toList ++ front.flatten

namespace Body.Cuts

variable {body middle place : Body} {pieces pieces' : List (List Item)} {height : Nat}

theorem here : body.Cuts pieces body := ⟨[], pieces, rfl, by simp⟩

theorem append (cuts : body.Cuts pieces place) (more : List (List Item)) :
    body.Cuts (pieces ++ more) place := by
  obtain ⟨front, back, rfl, items⟩ := cuts
  exact ⟨front, back ++ more, by simp, items⟩

theorem prepend (cuts : middle.Cuts pieces' place) (paves : body.Paves middle pieces height) :
    body.Cuts (pieces ++ pieces') place := by
  obtain ⟨front, back, rfl, items⟩ := cuts
  refine ⟨pieces ++ front, back, by simp, ?_⟩
  rw [items, paves.items, List.flatten_append, List.append_assoc]

end Body.Cuts

theorem Body.Ready.paves {body final : Body} {peak : Nat}
    (ready : final.Ready body.draft.items.toList (some []) peak)
    (more : body.draft.scope.nextSlot ≤ final.draft.scope.nextSlot) :
    ∃ piece, body.Paves final [piece] peak := by
  obtain ⟨⟨⟨piece, height, items, climbs, rfl⟩, sound, handlers⟩, loops, returns⟩ := ready
  refine ⟨piece, ?_, ?_, more, sound, handlers, loops, returns⟩
  · rw [items, List.flatten_singleton]
    rfl
  · exact (Nat.zero_max _).symm ▸ .cons climbs .nil

theorem Runs.paves {action : BodyM Unit} {body : Body} {height : Nat} (fits : body.Fits)
    (runs : Runs body.draft.items.toList (some []) action height) :
    Ends action body (fun _ final => ∃ piece, body.Paves final [piece] height) (fun _ _ => True) := by
  refine (runs body 0 fits.ready).imp ?_
  rw [Nat.zero_max]
  exact fun _ _ ⟨ready, more⟩ => ready.paves more

namespace Stmt

mutual

/-- A place between the statements of the arms of a statement. -/
inductive Inside (surroundings : Surroundings) : Stmt → Body → Body → Prop where
  | thenArm {condition : Expr} {thenBody elseBody : List Stmt} {body middle place : Body}
      {labels : Label × Label} :
      (enterThen condition elseBody).run body = (.ok labels, middle) →
      Between surroundings thenBody middle place →
      Inside surroundings (.conditional condition thenBody elseBody) body place
  | elseArm {condition : Expr} {thenBody elseBody : List Stmt} {body entered left middle place : Body}
      {done otherwise : Label} :
      elseBody ≠ [] →
      (enterThen condition elseBody).run body = (.ok (done, otherwise), entered) →
      (compileAll surroundings thenBody).run entered = (.ok (), left) →
      (enterElse done otherwise).run left = (.ok (), middle) →
      Between surroundings elseBody middle place →
      Inside surroundings (.conditional condition thenBody elseBody) body place

/-- A place before or after a statement of a list, or inside of one. -/
inductive Between (surroundings : Surroundings) : List Stmt → Body → Body → Prop where
  | here {stmts : List Stmt} {body : Body} : Between surroundings stmts body body
  | inside {first : Stmt} {rest : List Stmt} {body place : Body} :
      Inside surroundings first body place → Between surroundings (first :: rest) body place
  | later {first : Stmt} {rest : List Stmt} {body middle place : Body} :
      (compile surroundings first).run body = (.ok (), middle) →
      Between surroundings rest middle place → Between surroundings (first :: rest) body place

end

def Paved (action : BodyM Unit) (body : Body) (isPlace : Body → Prop) (height : Nat) : Prop :=
  Ends action body (fun _ final => ∃ pieces, body.Paves final pieces height ∧
    ∀ place, isPlace place → body.Cuts pieces place) (fun _ _ => True)

variable {surroundings : Surroundings}

theorem paved_of_runs {stmt : Stmt} {body : Body} (fits : body.Fits)
    (runs : Runs body.draft.items.toList (some []) (compile surroundings stmt) stmt.height)
    (simple : ∀ place, ¬ Inside surroundings stmt body place) :
    Paved (compile surroundings stmt) body (Inside surroundings stmt body) stmt.height := by
  refine (runs.paves fits).imp ?_
  rintro _ final ⟨piece, paves⟩
  exact ⟨[piece], paves, fun place inside => absurd inside (simple place)⟩

/-- A statement that holds no other statements runs as a whole. -/
theorem compile_runs {before : List Item} {entry : Option StackType} (stmt : Stmt)
    (simple : ∀ condition thenBody elseBody, stmt ≠ conditional condition thenBody elseBody) :
    Runs before entry (compile surroundings stmt) stmt.height := by
  cases stmt with rw [compile, height]
  | conditional condition thenBody elseBody => exact absurd rfl (simple condition thenBody elseBody)
  | line number => exact (compileLine_moves _ number).runs
  | assign target value => exact (compileAssign_moves target value).runs
  | dim arrays => exact (compileDims_moves arrays).runs
  | print items => exact (compilePrint_moves items).runs
  | input prompt targets => exact (compileAsks_moves _ targets).runs
  | goto target => exact (compileGoto_moves _ target).runs
  | gosub target => exact compileGosub_runs _ target
  | returnFromSub => exact compileReturn_runs
  | onGoto selector targets => exact compileOnGoto_runs _ selector targets
  | onGosub selector targets => exact compileOnGosub_runs _ selector targets
  | forLoop control first last step => exact compileFor_runs control first last step
  | next controls => exact compileNexts_runs controls
  | whileLoop condition => exact compileWhile_runs condition
  | wend => exact compileWend_runs
  | data items => exact .nothing
  | read targets => exact (compileReads_moves targets).runs
  | restore start => exact (compileRestore_moves _ start).runs
  | remark text => exact .nothing
  | finish => exact (goto_moves rfl).runs
  | stop => exact (goto_moves rfl).runs

theorem enterThen_paves {body : Body} (fits : body.Fits) (condition : Expr) (elseBody : List Stmt) :
    Ends (enterThen condition elseBody) body
      (fun labels final => (MainMethod.stackOf labels.1 = some [] ∧ MainMethod.stackOf labels.2 = some []) ∧
        ∃ piece, body.Paves final [piece] (max condition.height 2))
      (fun _ _ => True) := by
  have done := MainMethod.stackOf_numbered "if_end" body.draft.scope.nextLabel (by decide)
  have otherwise := MainMethod.stackOf_numbered "if_else" (body.draft.scope.nextLabel + 1) (by decide)
  have labelled := fits.ready.stands.freshLabel "if_end"
  rw [enterThen, ends_bind, ends_lift, drafts_freshLabel]
  split
  · rw [ends_bind]
    refine (compileCondition_moves .ifCondition condition done _ 0 labelled).imp ?_
    rintro _ final ⟨stands, keeps⟩
    have keeps' : body.Keeps final := ⟨keeps.slots, keeps.loops, keeps.returns, keeps.usesReturn⟩
    exact ⟨⟨done, done⟩, (fits.ready.keep keeps' (stands.congr (Nat.zero_max _))).paves keeps.slots⟩
  · rw [ends_bind, ends_lift, drafts_freshLabel, ends_bind]
    refine (compileCondition_moves .ifCondition condition otherwise _ 0
      (labelled.freshLabel "if_else")).imp ?_
    rintro _ final ⟨stands, keeps⟩
    have keeps' : body.Keeps final := ⟨keeps.slots, keeps.loops, keeps.returns, keeps.usesReturn⟩
    exact ⟨⟨done, otherwise⟩,
      (fits.ready.keep keeps' (stands.congr (Nat.zero_max _))).paves keeps.slots⟩

theorem enterElse_runs {before : List Item} {entry : Option StackType} {done otherwise : Label}
    (isDone : MainMethod.stackOf done = some []) (isOtherwise : MainMethod.stackOf otherwise = some []) :
    Runs before entry (enterElse done otherwise) 0 :=
  ((goto_moves isDone).bind (place_moves isOtherwise)).runs

mutual

theorem compile_paved (stmt : Stmt) {body : Body} (fits : body.Fits) :
    Paved (compile surroundings stmt) body (Inside surroundings stmt body) stmt.height := by
  cases stmt with
  | conditional condition thenBody elseBody =>
      unfold Paved
      rw [compile_conditional, ends_bind]
      refine (enterThen_paves fits condition elseBody).outcome.imp ?_
      rintro ⟨done, otherwise⟩ entered ⟨⟨⟨isDone, isOtherwise⟩, piece, paves⟩, ran⟩
      rw [ends_bind]
      refine (compileAll_paved thenBody paves.fits).outcome.imp ?_
      rintro _ left ⟨⟨pieces, paves', between⟩, ran'⟩
      dsimp only
      by_cases noElse : elseBody = []
      · subst noElse
        rw [List.isEmpty_nil, if_pos rfl]
        refine ((place_moves isDone).runs.paves paves'.fits).imp ?_
        rintro _ final ⟨last, paves''⟩
        refine ⟨[piece] ++ pieces ++ [last], ((paves.trans paves').trans paves'').congr ?_, ?_⟩
        · simp [height, heightAll]
        intro place isPlace
        cases isPlace with
        | thenArm ran'' isBetween =>
            cases ran.symm.trans ran''
            exact ((between place isBetween).prepend paves).append [last]
        | elseArm hasElse => exact absurd rfl hasElse
      · rw [if_neg (by simpa using noElse), ends_bind]
        refine ((enterElse_runs isDone isOtherwise).paves paves'.fits).outcome.imp ?_
        rintro _ turned ⟨⟨turn, turns⟩, ran''⟩
        rw [ends_bind]
        refine (compileAll_paved elseBody turns.fits).imp ?_
        rintro _ through ⟨pieces', paves'', between'⟩
        refine ((place_moves isDone).runs.paves paves''.fits).imp ?_
        rintro _ final ⟨last, ends⟩
        have toElse := (paves.trans paves').trans turns
        refine ⟨[piece] ++ pieces ++ [turn] ++ pieces' ++ [last],
          ((toElse.trans paves'').trans ends).congr ?_, ?_⟩
        · simp [height, Nat.max_assoc]
        intro place isPlace
        cases isPlace with
        | thenArm ran₁ isBetween =>
            cases ran.symm.trans ran₁
            exact ((((between place isBetween).prepend paves).append [turn]).append pieces').append [last]
        | elseArm _ ran₁ ran₂ ran₃ isBetween =>
            cases ran.symm.trans ran₁
            cases ran'.symm.trans ran₂
            cases ran''.symm.trans ran₃
            exact ((between' place isBetween).prepend toElse).append [last]
  | _ => exact paved_of_runs fits (compile_runs _ nofun) nofun

theorem compileAll_paved (stmts : List Stmt) {body : Body} (fits : body.Fits) :
    Paved (compileAll surroundings stmts) body (Between surroundings stmts body) (heightAll stmts) := by
  cases stmts with
  | nil =>
      refine ⟨[], .nothing fits, ?_⟩
      rintro _ ⟨⟩
      exact .here
  | cons first rest =>
      unfold Paved
      rw [compileAll, ends_bind]
      refine (compile_paved first fits).outcome.imp ?_
      rintro _ middle ⟨⟨pieces, paves, inside⟩, ran⟩
      refine (compileAll_paved rest paves.fits).imp ?_
      rintro _ final ⟨pieces', paves', between⟩
      refine ⟨pieces ++ pieces', paves.trans paves', ?_⟩
      intro place isPlace
      cases isPlace with
      | here => exact .here
      | inside isInside => exact (inside place isInside).append pieces'
      | later ran' isLater =>
          cases ran.symm.trans ran'
          exact (between place isLater).prepend paves

end

end Stmt

end BasicCompiler
