import BasicCompiler.Compile.Class
import BasicCompiler.Proofs.Compile.Inventory

/-!
Marks of source lines. No code depends on them: where they are left out, the code of a program is the
code that it has with marks, less the marks.
-/

namespace BasicCompiler

open Draft Body

namespace Overlooks

theorem emit (insn : Insn) : Overlooks (Draft.emit insn) := addItem rfl

theorem place (label : Label) : Overlooks (Draft.place label) := addItem rfl

theorem emitAll (insns : List Insn) : Overlooks (Draft.emitAll insns) := by
  induction insns with
  | nil => exact .pure ()
  | cons first rest ih => exact (Overlooks.emit first).bind fun _ => ih

theorem emitInitializers : Overlooks Draft.emitInitializers :=
  fun draft => emitAll draft.scope.initializers draft

end Overlooks

namespace Unmarks

theorem emit (insn : Insn) : Unmarks (liftM (Draft.emit insn) : BodyM Unit) (liftM (Draft.emit insn)) :=
  lift (.emit insn)

theorem place (label : Label) :
    Unmarks (liftM (Draft.place label) : BodyM Unit) (liftM (Draft.place label)) := lift (.place label)

theorem usesLibrary : Unmarks Body.usesLibrary Body.usesLibrary := by
  intro body
  have same : body.unmarked.draft.items.any requestsHelper = body.draft.items.any requestsHelper := by
    unfold Body.unmarked Draft.unmarked
    rw [Array.any_filter]
    congr 1
    funext item
    cases item with
    | insn | label | request => rfl
    | sourceLine => rfl
  exact congrArg (fun uses => (Except.ok uses, body.unmarked)) same

end Unmarks

namespace Stmt

theorem compileLine_unmarks (lineNumbers : Bool) (number : LineNumber) :
    Unmarks (liftM (compileLine lineNumbers number) : BodyM Unit) (liftM (compileLine false number)) := by
  cases lineNumbers with
  | false => exact .lift ((Overlooks.place _).bind fun _ => .pure ())
  | true =>
      rintro ⟨⟨scope, items, handlers⟩, loops, returns, usesReturn, dimensions⟩
      have kept : ((items.push (.label (LineSet.labelOf number))).push (.sourceLine number)).filter
          (fun item => !item.marks) =
          (items.filter fun item => !item.marks).push (.label (LineSet.labelOf number)) := by
        simp [Item.marks]
      exact congrArg (fun items => (Except.ok (),
        Body.mk (Draft.mk scope items handlers) loops returns usesReturn dimensions)) kept.symm

variable {surroundings surroundings' : Surroundings}

theorem unmarks_of_eq {stmt : Stmt} (same : compile surroundings' stmt = compile surroundings stmt)
    (none : markers [stmt] = []) :
    Unmarks (compile surroundings stmt) (compile surroundings' stmt) := by
  rw [same]
  exact (compile_advances stmt).unmarks (marked_eq_nil none)

mutual

theorem compile_unmarks (lines : surroundings.lines = surroundings'.lines)
    (data : surroundings.data = surroundings'.data) (plain : surroundings'.lineNumbers = false)
    (stmt : Stmt) :
    Unmarks (compile surroundings stmt) (compile surroundings' stmt) := by
  cases stmt with
  | line number =>
      rw [compile, compile, plain]
      exact compileLine_unmarks _ number
  | conditional condition thenBody elseBody =>
      rw [compile_conditional, compile_conditional]
      refine (enterThen_spends condition elseBody).unmarks.bind fun ⟨done, otherwise⟩ =>
        (compileAll_unmarks lines data plain thenBody).bind fun _ => ?_
      cases elseBody with
      | nil => exact .place done
      | cons first rest =>
          exact (enterElse_spends done otherwise).unmarks.bind fun _ =>
            (compileAll_unmarks lines data plain (first :: rest)).bind fun _ => .place done
  | _ => exact unmarks_of_eq (by simp only [compile, compileRestore, lines, data]) rfl

theorem compileAll_unmarks (lines : surroundings.lines = surroundings'.lines)
    (data : surroundings.data = surroundings'.data) (plain : surroundings'.lineNumbers = false)
    (stmts : List Stmt) : Unmarks (compileAll surroundings stmts) (compileAll surroundings' stmts) := by
  cases stmts with
  | nil => exact .pure ()
  | cons first rest =>
      rw [compileAll, compileAll]
      exact (compile_unmarks lines data plain first).bind fun _ => compileAll_unmarks lines data plain rest

end

end Stmt

namespace MainMethod

theorem flushOutput_overlooks : Overlooks Draft.flushOutput := (Overlooks.emit _).bind fun _ => .emit _

theorem checkLoopsClosed_unmarks : Unmarks checkLoopsClosed checkLoopsClosed := by
  refine Unmarks.read fun body => ?_
  have same : body.unmarked.loops = body.loops := rfl
  rw [same]
  rcases body.loops with _ | ⟨_ | _, _⟩
  · exact .pure ()
  · exact .throw _
  · exact .throw _

theorem compileExit_unmarks : Unmarks compileExit compileExit := by
  refine (Unmarks.place _).bind fun _ => Unmarks.usesLibrary.bind fun uses => ?_
  cases uses with
  | true => exact (Unmarks.lift flushOutput_overlooks).bind fun _ => .emit _
  | false => exact .emit _

theorem dispatchReturns_overlooks (targets : List Label) : Overlooks (dispatchReturns targets) := by
  have raised : Overlooks (Draft.raise .returnWithoutGosub) :=
    (Overlooks.emit _).bind fun _ => (Overlooks.emit _).bind fun _ => .emit _
  have labelled : Overlooks (freshLabel "return_unknown") := fun _ => rfl
  refine (Overlooks.place _).bind fun _ => (Overlooks.emit _).bind fun _ => ?_
  split
  · exact (Overlooks.emit _).bind fun _ => raised
  · exact labelled.bind fun unknown => (Overlooks.emit _).bind fun _ =>
      (Overlooks.place unknown).bind fun _ => raised

theorem compileDispatch_unmarks : Unmarks compileDispatch compileDispatch := by
  refine Unmarks.read fun body => ?_
  have uses : body.unmarked.usesReturn = body.usesReturn := rfl
  have returns : body.unmarked.returns = body.returns := rfl
  rw [uses, returns]
  split
  · exact .lift (dispatchReturns_overlooks _)
  · exact .pure ()

theorem compileReport_unmarks : Unmarks compileReport compileReport := by
  refine Unmarks.usesLibrary.bind fun uses => ?_
  cases uses with
  | true =>
      exact .lift ((Overlooks.place _).bind fun _ => (Overlooks.emit _).bind fun _ =>
        flushOutput_overlooks.bind fun _ => (Overlooks.emit _).bind fun _ _ => rfl)
  | false => exact .pure ()

/-- The code of a program without marks of lines is the code that it has with marks, less the marks. -/
theorem compile_unmarks (lines : LineSet) (data : DataTable) (lineNumbers : Bool) (program : Program) :
    Unmarks (compile ⟨lines, data, lineNumbers⟩ program) (compile ⟨lines, data, false⟩ program) := by
  have stated : Unmarks (Stmt.compileAll ⟨lines, data, lineNumbers⟩ program)
      (Stmt.compileAll ⟨lines, data, false⟩ program) :=
    Stmt.compileAll_unmarks (by rfl) (by rfl) (by rfl) program
  exact (Unmarks.emit _).bind fun _ => (Unmarks.place _).bind fun _ => stated.bind fun _ =>
    checkLoopsClosed_unmarks.bind fun _ => compileExit_unmarks.bind fun _ =>
    compileDispatch_unmarks.bind fun _ => (Unmarks.place _).bind fun _ =>
    compileReport_unmarks.bind fun _ => (Unmarks.place _).bind fun _ =>
    (Unmarks.lift .emitInitializers).bind fun _ => .emit _

end MainMethod

end BasicCompiler
