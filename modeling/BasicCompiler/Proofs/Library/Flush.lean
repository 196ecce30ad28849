import Mathlib.Data.List.Perm.Subperm
import BasicCompiler.Proofs.Library.Helpers
import BasicCompiler.Proofs.Method.Uses

/-!
The order in which the requested helpers are assembled. A library requests each helper of the catalogue
once, so the assembly ends with the last request.
-/

namespace BasicCompiler.Library

variable {owner : String} {next : Nat} {build : Build}

theorem Distinct.few {library : Library} (distinct : library.Distinct) :
    library.requested.size ≤ Helper.all.length := by
  rw [← Array.length_toList]
  exact (List.subperm_of_subset distinct.requested fun helper _ => helper.mem_all).length_le

/-- The requested helpers are assembled one after the other, from an index on, until one fails or none is
left. -/
inductive Drains (owner : String) : Nat → Build → Except CompileError (List MethodUnit) → Build → Prop where
  | done {next : Nat} {build : Build} : build.library.requested[next]? = none →
      Drains owner next build (.ok []) build
  | failed {next : Nat} {build final : Build} {helper : Helper} {error : CompileError} :
      build.library.requested[next]? = some helper →
      (helper.draft.finish (helper.header owner)).run build = (.error error, final) →
      Drains owner next build (.error error) final
  | helper {next : Nat} {build middle final : Build} {helper : Helper} {unit : MethodUnit}
      {result : Except CompileError (List MethodUnit)} : build.library.requested[next]? = some helper →
      (helper.draft.finish (helper.header owner)).run build = (.ok unit, middle) →
      Drains owner (next + 1) middle result final →
      Drains owner next build (result.map (unit :: ·)) final

/-- The bound on the helpers that are left is never what ends the loop. -/
theorem flushFrom_drains (owner : String) (remaining next : Nat) (distinct : build.library.Distinct)
    (enough : Helper.all.length ≤ remaining + next) :
    Ends (flushFrom owner remaining next) build
      (fun units final => Drains owner next build (.ok units) final)
      (fun error final => Drains owner next build (.error error) final) := by
  induction remaining generalizing next build with
  | zero =>
      have few := distinct.few
      exact .done (Array.getElem?_eq_none_iff.mpr (by omega))
  | succ remaining ih =>
      rw [flushFrom, ends_bind, ends_get]
      cases found : build.library.requested[next]? with
      | none => exact .done found
      | some helper =>
          dsimp only
          have draws := helper.draft.finish_draws (helper.header owner) distinct
          rw [ends_bind, Ends]
          rcases ran : (helper.draft.finish (helper.header owner)).run build with ⟨error | unit, middle⟩
          · exact .failed found ran
          · dsimp only
            rw [ends_bind]
            exact (ih (next + 1) (draws.of_run ran).1.distinct (by omega)).mono
              (fun _ _ drains => .helper found ran drains) (fun _ _ drains => .helper found ran drains)

theorem requested_kept {library extended : Library} {helper : Helper}
    (kept : library.requested.toList <+: extended.requested.toList)
    (found : library.requested[next]? = some helper) : extended.requested[next]? = some helper := by
  obtain ⟨more, whole⟩ := kept
  rw [← Array.getElem?_toList] at found ⊢
  rw [← whole, List.getElem?_append_left (List.getElem?_eq_some_iff.mp found).1, found]

theorem drop_requested {library : Library} {helper : Helper}
    (found : library.requested[next]? = some helper) :
    library.requested.toList.drop next = helper :: library.requested.toList.drop (next + 1) := by
  rw [← Array.getElem?_toList] at found
  exact List.drop_eq_getElem?_toList_append.trans (by rw [found]; rfl)

end BasicCompiler.Library
