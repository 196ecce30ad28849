import BasicCompiler.Proofs.Compile.Rules
import BasicCompiler.Proofs.Method.Labels

/-!
Steps of compiling whose labels are their own: every one that is handed out is defined and used in the
code that they add.
-/

namespace BasicCompiler

open Draft Body

def Stopped (error : CompileError) (body : Body) : Prop :=
  body.draft.definitions.Nodup ∧ ∀ cause, error ≠ .assembly cause

structure Body.Agrees (body final : Body) : Prop where
  loops : final.loops = body.loops
  returns : final.returns = body.returns
  usesReturn : final.usesReturn = body.usesReturn

theorem Body.Agrees.refl (body : Body) : body.Agrees body := ⟨rfl, rfl, rfl⟩

theorem Body.Agrees.trans {first second third : Body} (before : first.Agrees second)
    (after : second.Agrees third) : first.Agrees third :=
  ⟨after.loops.trans before.loops, after.returns.trans before.returns,
    after.usesReturn.trans before.usesReturn⟩

def Tallies {α : Type} (action : BodyM α) : Prop :=
  ∀ owed spare known (body : Body), body.draft.Tallied owed spare known →
    Ends action body
      (fun _ final => final.draft.Tallied owed spare known ∧ body.Agrees final) Stopped

namespace Tallies

variable {α β : Type}

theorem pure (value : α) : Tallies (Pure.pure value) :=
  fun _ _ _ body tallied => ⟨tallied, .refl body⟩

theorem throw {error : CompileError} (apart : ∀ cause, error ≠ .assembly cause) :
    Tallies (throw error : BodyM α) :=
  fun _ _ _ _ tallied => ⟨tallied.nodup, apart⟩

theorem bind {first : BodyM α} {next : α → BodyM β} (tallies : Tallies first)
    (tallies' : ∀ value, Tallies (next value)) : Tallies (first >>= next) := by
  intro owed spare known body tallied
  rw [ends_bind]
  refine (tallies owed spare known body tallied).imp ?_
  rintro value middle ⟨tallied', agrees⟩
  refine (tallies' value owed spare known middle tallied').imp ?_
  rintro _ final ⟨tallied'', agrees'⟩
  exact ⟨tallied'', agrees.trans agrees'⟩

theorem lift {action : DraftM α} (balances : Balances action) :
    Tallies (liftM action : BodyM α) := by
  intro owed spare known body tallied
  rw [ends_lift]
  exact (balances owed spare known body.draft tallied).mono fun _ _ tallied' => ⟨tallied', rfl, rfl, rfl⟩

theorem arrayShape (name : VarName) (count : Nat) : Tallies (Body.arrayShape name count) := by
  intro owed spare known body tallied
  refine (arrayShape_ends name count body).mono ?_ ?_
  · rintro shape _ ⟨_, _, rfl⟩
    exact ⟨tallied, rfl, rfl, rfl⟩
  · rintro error _ ⟨rfl, ⟨expected, rfl | rfl⟩, _⟩
    · exact ⟨tallied.nodup, nofun⟩
    · exact ⟨tallied.nodup, nofun⟩

end Tallies

end BasicCompiler
