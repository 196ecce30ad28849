import BasicCompiler.Compile.Statement
import BasicCompiler.Proofs.Computation
import BasicCompiler.Proofs.Method.Drafting

/-!
How the steps of compiling a main method end.
-/

namespace BasicCompiler

variable {α : Type}

theorem ends_lift (action : DraftM α) (body : Body) (success : α → Body → Prop)
    (failure : CompileError → Body → Prop) :
    Ends (liftM action : BodyM α) body success failure ↔
      Drafts action body.draft fun value draft => success value { body with draft } := Iff.rfl

theorem ends_getBody (body : Body) (success : Body → Body → Prop) (failure : CompileError → Body → Prop) :
    Ends (getThe Body : BodyM Body) body success failure ↔ success body body := Iff.rfl

theorem ends_expect (place : Place) (expected : ValueKind) (expr : Expr) (body : Body)
    (success : Unit → Body → Prop) (failure : CompileError → Body → Prop) :
    Ends (expr.expect place expected) body success failure ↔
      if expr.kind = expected then success () body
      else failure (.kindMismatch place expected expr.kind) body := by
  unfold Expr.expect
  split <;> rfl

theorem ends_require (result : Except CompileError α) (body : Body) (success : α → Body → Prop)
    (failure : CompileError → Body → Prop) :
    Ends (Body.require result) body success failure ↔
      match result with
      | .ok value => success value body
      | .error error => failure error body := by
  cases result <;> rfl

theorem ends_requireLabel (lines : LineSet) (line : LineNumber) (body : Body)
    (success : Label → Body → Prop) (failure : CompileError → Body → Prop) :
    Ends (Body.require (lines.label line)) body success failure ↔
      if lines.contains line then success (LineSet.labelOf line) body
      else failure (.undefinedLine line) body := by
  rw [ends_require]
  unfold LineSet.label
  cases lines.contains line <;> rfl

theorem lineLabels_eq (lines : LineSet) (numbers : List LineNumber) :
    Stmt.lineLabels lines numbers = match numbers.find? fun number => !lines.contains number with
      | none => .ok (numbers.map LineSet.labelOf)
      | some missing => .error (.undefinedLine missing) := by
  induction numbers with
  | nil => rfl
  | cons first rest ih =>
      rw [Stmt.lineLabels, ih]
      unfold LineSet.label
      by_cases known : lines.contains first = true
      · rw [if_pos known, List.find?_cons_of_neg (by simpa using known)]
        cases rest.find? fun number => !lines.contains number <;> rfl
      · rw [if_neg known, List.find?_cons_of_pos (by simpa using known)]
        rfl

theorem ends_requireLabels (lines : LineSet) (numbers : List LineNumber) (body : Body)
    (success : List Label → Body → Prop) (failure : CompileError → Body → Prop) :
    Ends (Body.require (Stmt.lineLabels lines numbers)) body success failure ↔
      match numbers.find? fun number => !lines.contains number with
      | none => success (numbers.map LineSet.labelOf) body
      | some missing => failure (.undefinedLine missing) body := by
  rw [ends_require, lineLabels_eq]
  cases numbers.find? fun number => !lines.contains number <;> rfl

/-- Where the lines are not all known nothing follows, and else what follows gets their labels. -/
theorem requireLabels_bind (lines : LineSet) (numbers : List LineNumber) (next : List Label → BodyM α) :
    (∃ error, (Body.require (Stmt.lineLabels lines numbers) >>= next) = throw error) ∨
      (Body.require (Stmt.lineLabels lines numbers) >>= next) = next (numbers.map LineSet.labelOf) := by
  rw [lineLabels_eq]
  cases numbers.find? fun number => !lines.contains number with
  | none => exact .inr rfl
  | some missing => exact .inl ⟨_, rfl⟩

theorem ends_openLoop (loop : Loop) (body : Body) (success : Unit → Body → Prop)
    (failure : CompileError → Body → Prop) :
    Ends (Body.openLoop loop) body success failure ↔
      success () { body with loops := loop :: body.loops } := Iff.rfl

theorem ends_closeLoop (body : Body) (success : Option Loop → Body → Prop)
    (failure : CompileError → Body → Prop) :
    Ends Body.closeLoop body success failure ↔
      success body.loops.head? { body with loops := body.loops.tail } := by
  obtain ⟨draft, loops, returns, usesReturn, dimensions⟩ := body
  cases loops <;> rfl

theorem ends_checkLoopsClosed (body : Body) (success : Unit → Body → Prop)
    (failure : CompileError → Body → Prop) :
    Ends Body.checkLoopsClosed body success failure ↔
      match body.loops with
      | [] => success () body
      | .counting control _ _ _ _ _ _ :: _ => failure (.forWithoutNext control) body
      | .conditional _ _ :: _ => failure .whileWithoutWend body := by
  obtain ⟨draft, loops, returns, usesReturn, dimensions⟩ := body
  rcases loops with _ | ⟨_ | _, _⟩ <;> rfl

theorem ends_addReturn (label : Label) (body : Body) (success : Nat → Body → Prop)
    (failure : CompileError → Body → Prop) :
    Ends (Body.addReturn label) body success failure ↔
      success body.returns.size { body with returns := ⟨body.returns.targets.push label⟩ } := Iff.rfl

theorem ends_markReturn (body : Body) (success : Unit → Body → Prop)
    (failure : CompileError → Body → Prop) :
    Ends Body.markReturn body success failure ↔ success () { body with usesReturn := true } := Iff.rfl

theorem ends_checkArity (function : Builtin) (count : Nat) (body : Body)
    (success : Unit → Body → Prop) (failure : CompileError → Body → Prop) :
    Ends (Expr.checkArity function count) body success failure ↔
      if count ∈ function.arities then success () body
      else failure (.arity function function.arities count) body := by
  unfold Expr.checkArity
  split <;> rfl

theorem arrayShape_ends (name : VarName) (count : Nat) (body : Body) :
    Ends (Body.arrayShape name count) body
      (fun shape final => ArrayShape.of? name.kind count = some shape ∧
        (∀ known, body.dimensions[name]? = some known → known = count) ∧
        final = { body with dimensions := body.dimensions.insert name count })
      (fun error final => final = body ∧
        (∃ expected, error = .arrayDimensions name expected count ∨
          error = .tooManyDimensions name count) ∧
        (ArrayShape.of? name.kind count = none ∨
          ∃ known, body.dimensions[name]? = some known ∧ known ≠ count)) := by
  unfold Body.arrayShape Body.checkDimensions
  simp only [ends_bind, ends_get]
  cases known : body.dimensions[name]? with
  | some expected =>
      by_cases same : expected = count
      · subst same
        simp only [if_true, ends_pure]
        cases shape : ArrayShape.of? name.kind expected with
        | some found => exact ⟨rfl, by rintro _ ⟨⟩; rfl, rfl⟩
        | none =>
            dsimp only
            split
            · exact ⟨rfl, ⟨1, .inr rfl⟩, .inl rfl⟩
            · exact ⟨rfl, ⟨1, .inl rfl⟩, .inl rfl⟩
      · dsimp only
        rw [if_neg same]
        exact ⟨rfl, ⟨expected, .inl rfl⟩, .inr ⟨expected, rfl, same⟩⟩
  | none =>
      simp only [ends_pure]
      cases shape : ArrayShape.of? name.kind count with
      | some found => exact ⟨rfl, by simp, rfl⟩
      | none =>
          dsimp only
          split
          · exact ⟨rfl, ⟨1, .inr rfl⟩, .inl rfl⟩
          · exact ⟨rfl, ⟨1, .inl rfl⟩, .inl rfl⟩

namespace Stmt

open Draft

/-- The code of a conditional in front of its first arm. It hands out the label of the end and the one
that a false condition leads to. -/
def enterThen (condition : Expr) (elseBody : List Stmt) : BodyM (Label × Label) := do
  let done ← freshLabel "if_end"
  if elseBody.isEmpty then
    compileCondition .ifCondition condition done
    return (done, done)
  else
    let otherwise ← freshLabel "if_else"
    compileCondition .ifCondition condition otherwise
    return (done, otherwise)

def enterElse (done otherwise : Label) : BodyM Unit := do
  Draft.goto done
  place otherwise

theorem compile_conditional (surroundings : Surroundings) (condition : Expr)
    (thenBody elseBody : List Stmt) :
    compile surroundings (.conditional condition thenBody elseBody) = (do
      let (done, otherwise) ← enterThen condition elseBody
      compileAll surroundings thenBody
      if elseBody.isEmpty then pure () else do
        enterElse done otherwise
        compileAll surroundings elseBody
      place done) := by
  rw [compile]
  cases elseBody with
  | nil => simp [enterThen]
  | cons first rest => simp [enterThen, enterElse]

end Stmt

theorem Draft.drafts_freshLabels (stem : String) (targets : List Label) (draft : Draft)
    (post : List Label → Draft → Prop) :
    Drafts (Stmt.freshLabels stem targets) draft post ↔
      post ((List.range' draft.scope.nextLabel targets.length).map (Label.numbered stem))
        { draft with scope.nextLabel := draft.scope.nextLabel + targets.length } := by
  induction targets generalizing draft post with
  | nil => rfl
  | cons first rest ih =>
      rw [Stmt.freshLabels]
      simp only [drafts_bind, drafts_freshLabel, ih, drafts_pure, List.length_cons, List.range'_succ,
        List.map_cons]
      simp only [Scope.freshLabel, Nat.add_assoc, Nat.add_comm 1]

end BasicCompiler
