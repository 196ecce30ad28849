import BasicCompiler.Proofs.Method.Labels
import BasicCompiler.Proofs.Method.Layout

/-!
Open methods: the code is written and the exception table is made, but the branches have no offsets yet.
Which error of the assembler a method ends with can be read off the open method.
-/

namespace BasicCompiler

variable {α β : Type}

structure OpenMethod where
  emitter : Emitter
  rows : List HandlerRow
  locals : Nat

namespace OpenMethod

def size (method : OpenMethod) : Nat := method.emitter.position

def labelAt (method : OpenMethod) (label : Label) : Nat :=
  Buffer.targetOf method.emitter.buffer.labels label

def close (method : OpenMethod) : BuildM MethodUnit := do
  let code ← Build.traced method.emitter.buffer.finish
  Build.report (.methodFinished method.emitter.header.name method.emitter.header.descriptor code.size
    method.locals)
  return {
    header := method.emitter.header
    maxLocals := UInt16.ofNat method.locals
    code
    handlers := method.rows
    lines := method.emitter.lines.toList.map fun (position, line) => Emitter.lineRow position line
  }

end OpenMethod

def Draft.openMethod (draft : Draft) (header : MethodHeader) : BuildM OpenMethod := do
  let emitter ← draft.assemble header
  let rows ← draft.handlers.toList.mapM emitter.handlerRow
  return ⟨emitter, rows, draft.scope.nextSlot⟩

theorem Draft.finish_eq_open (draft : Draft) (header : MethodHeader) :
    draft.finish header = draft.openMethod header >>= OpenMethod.close := by
  unfold Draft.finish Emitter.finish Draft.openMethod OpenMethod.close
  simp only [bind_assoc, pure_bind]

def Reports (action : BuildM α) (start : Build) (fault : AssemblyError → Prop) : Prop :=
  Ends action start (fun _ _ => ∀ cause, ¬fault cause)
    (fun error _ => ∀ cause, error = .assembly cause ↔ fault cause)

namespace Reports

variable {start : Build}

theorem silent {action : BuildM α} {success : α → Build → Prop} {failure : CompileError → Build → Prop}
    (ends : Ends action start success failure)
    (other : ∀ error final, failure error final → ∀ cause, error ≠ .assembly cause) :
    Reports action start fun _ => False :=
  ends.mono (fun _ _ _ _ never => never) fun error final failed cause =>
    iff_of_false (other error final failed cause) id

theorem bind {first : BuildM α} {next : α → BuildM β} {fault : AssemblyError → Prop}
    {later : α → Build → AssemblyError → Prop} (reports : Reports first start fault)
    (reports' : ∀ value middle, first.run start = (.ok value, middle) →
      Reports (next value) middle (later value middle)) :
    Reports (first >>= next) start fun cause =>
      fault cause ∨ ∃ value middle, first.run start = (.ok value, middle) ∧ later value middle cause := by
  unfold Reports at *
  rw [ends_bind]
  unfold Ends at reports ⊢
  generalize first.run start = outcome at reports reports' ⊢
  rcases outcome with ⟨error | value, middle⟩
  · intro cause
    refine Iff.trans (reports cause) ⟨.inl, ?_⟩
    rintro (early | ⟨_, _, same, _⟩)
    · exact early
    · cases same
  · refine (reports' value middle rfl).mono ?_ ?_
    · rintro _ _ none cause (early | ⟨_, _, same, late⟩)
      · exact reports cause early
      · cases same
        exact none cause late
    · intro error _ exact cause
      rw [exact cause]
      refine ⟨fun late => .inr ⟨value, middle, rfl, late⟩, ?_⟩
      rintro (early | ⟨_, _, same, late⟩)
      · exact absurd early (reports cause)
      · cases same
        exact late

theorem congr {action : BuildM α} {fault fault' : AssemblyError → Prop}
    (reports : Reports action start fault) (same : ∀ cause, fault cause ↔ fault' cause) :
    Reports action start fault' :=
  reports.mono (fun _ _ none cause has => none cause ((same cause).mpr has))
    fun _ _ exact cause => (exact cause).trans (same cause)

theorem after {first : BuildM α} {next : α → BuildM β} {success : α → Build → Prop}
    {failure : CompileError → Build → Prop} {later : α → Build → AssemblyError → Prop}
    (ends : Ends first start success failure)
    (other : ∀ error final, failure error final → ∀ cause, error ≠ .assembly cause)
    (reports : ∀ value middle, success value middle → Reports (next value) middle (later value middle)) :
    Reports (first >>= next) start fun cause =>
      ∃ value middle, first.run start = (.ok value, middle) ∧ later value middle cause :=
  ((silent ends other).bind fun value middle ran => reports value middle (ends.of_run ran)).congr
    fun _ => iff_of_eq (false_or _)

theorem before {first : BuildM α} {next : α → BuildM β} {fault : AssemblyError → Prop}
    (reports : Reports first start fault)
    (silent : ∀ value middle, first.run start = (.ok value, middle) →
      Reports (next value) middle fun _ => False) : Reports (first >>= next) start fault :=
  (reports.bind silent).congr fun _ => by simp

end Reports

theorem OpenMethod.close_reports (method : OpenMethod) {fragments : List Fragment}
    (written : method.emitter.buffer.Written fragments) (start : Build) :
    Reports method.close start fun cause => method.emitter.buffer.fault? = some cause := by
  unfold close Reports
  rw [ends_bind, Build.ends_traced]
  refine (written.finish_fault start.events).mono ?_ ?_
  · rintro code events ⟨sound, _⟩
    rw [ends_bind, Build.report, ends_modify, ends_pure]
    simp [sound]
  · intro error events fault cause
    rw [fault]
    simp

namespace Draft

theorem openMethod_ends {draft : Draft} (resolved : draft.Resolved) (header : MethodHeader) {build : Build}
    (sound : build.pool.Sound) :
    Ends (draft.openMethod header) build
      (fun method final => build.pool.Extends final.pool ∧
        ∃ between, Emission.Lays header draft.items.toList ⟨between, method.emitter⟩)
      (fun error _ => ∃ cause, error = .classFile cause) := by
  unfold openMethod
  rw [ends_bind]
  refine (draft.assemble_ends header sound.indexed).mono ?_ ?_
  · rintro emitter middle ⟨grown, lays⟩
    rw [ends_bind]
    refine (emitter.rows_ends draft.handlers.toList lays.indexed).mono ?_ ?_
    · rintro rows final ⟨grown', _⟩
      exact ⟨grown.trans grown', middle, lays⟩
    · rintro error _ (limited | ⟨handler, isHandler, label, isLabel, _, missing⟩)
      · exact limited
      · have refers : label ∈ draft.references :=
          List.mem_append_right _ (List.mem_flatMap.mpr ⟨handler, isHandler, isLabel⟩)
        rw [(lays.defined label).mpr (resolved.defined label refers)] at missing
        cases missing
  · rintro error _ (limited | ⟨_, _, repeated⟩)
    · exact limited
    · exact absurd resolved.distinct repeated

end Draft

end BasicCompiler
