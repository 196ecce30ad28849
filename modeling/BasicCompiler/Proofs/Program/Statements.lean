import BasicCompiler.Program.Lines

/-!
The statements of a program in the order in which they are read, the lines that they mark and the
subroutines that they call.
-/

namespace BasicCompiler

namespace Stmt

mutual

/-- A statement with those inside of it, the first arm of a conditional before the second one. -/
def inlined : Stmt → List Stmt
  | conditional condition thenBody elseBody =>
    conditional condition thenBody elseBody :: (inlinedAll thenBody ++ inlinedAll elseBody)
  | stmt => [stmt]

def inlinedAll : List Stmt → List Stmt
  | [] => []
  | first :: rest => inlined first ++ inlinedAll rest

end

def marker? : Stmt → Option LineNumber
  | line number => some number
  | _ => none

def markers (stmts : List Stmt) : List LineNumber := (inlinedAll stmts).filterMap marker?

def isCall : Stmt → Bool
  | gosub _ => true
  | onGosub _ targets => !targets.isEmpty
  | _ => false

def calls (stmts : List Stmt) : List Stmt := (inlinedAll stmts).filter isCall

@[simp] theorem inlinedAll_append (front back : List Stmt) :
    inlinedAll (front ++ back) = inlinedAll front ++ inlinedAll back := by
  induction front with
  | nil => rfl
  | cons first rest ih => simp only [List.cons_append, inlinedAll, ih, List.append_assoc]

theorem inlinedAll_conditional (condition : Expr) (thenBody elseBody : List Stmt) :
    inlinedAll [conditional condition thenBody elseBody] =
      conditional condition thenBody elseBody :: (inlinedAll thenBody ++ inlinedAll elseBody) := by
  simp [inlinedAll, inlined]

@[simp] theorem markers_nil : markers [] = [] := rfl

theorem markers_cons (first : Stmt) (rest : List Stmt) :
    markers (first :: rest) = markers [first] ++ markers rest := by
  simp [markers, inlinedAll]

@[simp] theorem markers_conditional (condition : Expr) (thenBody elseBody : List Stmt) :
    markers [conditional condition thenBody elseBody] = markers thenBody ++ markers elseBody := by
  rw [markers, inlinedAll_conditional, List.filterMap_cons_none rfl, List.filterMap_append]
  rfl

@[simp] theorem calls_nil : calls [] = [] := rfl

theorem calls_cons (first : Stmt) (rest : List Stmt) :
    calls (first :: rest) = calls [first] ++ calls rest := by
  simp [calls, inlinedAll]

@[simp] theorem calls_conditional (condition : Expr) (thenBody elseBody : List Stmt) :
    calls [conditional condition thenBody elseBody] = calls thenBody ++ calls elseBody := by
  rw [calls, inlinedAll_conditional, List.filter_cons_of_neg (by simp [isCall]), List.filter_append]
  rfl

end Stmt

namespace LineSet

open Stmt

def addAll (numbers : List LineNumber) (set : LineSet) : Except CompileError LineSet :=
  numbers.foldlM (fun set line => set.add line) set

theorem addAll_append (front back : List LineNumber) (set : LineSet) :
    addAll (front ++ back) set = addAll front set >>= addAll back :=
  List.foldlM_append

mutual

theorem scanStmt_eq (stmt : Stmt) (set : LineSet) : scanStmt stmt set = addAll (markers [stmt]) set := by
  cases stmt with
  | line number => exact (bind_pure (add number set)).symm
  | conditional condition thenBody elseBody =>
      rw [scanStmt, markers_conditional, addAll_append, scanStmts_eq thenBody set]
      exact congrArg (addAll (markers thenBody) set >>= ·) (funext (scanStmts_eq elseBody))
  | _ => rfl

theorem scanStmts_eq (stmts : List Stmt) (set : LineSet) :
    scanStmts stmts set = addAll (markers stmts) set := by
  cases stmts with
  | nil => rfl
  | cons first rest =>
      rw [scanStmts, markers_cons, addAll_append, scanStmt_eq first set]
      exact congrArg (addAll (markers [first]) set >>= ·) (funext (scanStmts_eq rest))

end

def Holds (set : LineSet) (numbers : List LineNumber) : Prop :=
  ∀ line, set.contains line = true ↔ line ∈ numbers

theorem addAll_holds (numbers : List LineNumber) {set : LineSet} {seen : List LineNumber}
    (holds : set.Holds seen) (distinct : seen.Nodup) :
    match addAll numbers set with
    | .ok lines => (seen ++ numbers).Nodup ∧ lines.Holds (seen ++ numbers)
    | .error error => (∃ line, error = .duplicateLine line) ∧ ¬ (seen ++ numbers).Nodup := by
  induction numbers generalizing set seen with
  | nil => exact ⟨by simpa using distinct, by simpa using holds⟩
  | cons first rest ih =>
      have grouped : seen ++ first :: rest = seen ++ [first] ++ rest := by simp
      have step : addAll (first :: rest) set = set.add first >>= addAll rest := rfl
      rw [step, grouped]
      unfold LineSet.add
      by_cases known : set.contains first = true
      · rw [if_pos known]
        refine ⟨⟨first, rfl⟩, fun nodup => ?_⟩
        have twice := (List.nodup_append.mp (List.nodup_append.mp nodup).1).2.2
        exact twice first ((holds first).mp known) first (by simp) rfl
      · rw [if_neg known]
        have new : first ∉ seen := fun member => known ((holds first).mpr member)
        refine ih ?_ ?_
        · intro line
          simp only [contains, Std.HashSet.contains_insert, Bool.or_eq_true, beq_iff_eq,
            List.mem_append, List.mem_singleton]
          rw [or_comm]
          exact or_congr (holds line) eq_comm
        · refine List.nodup_append.mpr ⟨distinct, by simp, ?_⟩
          intro line member other isFirst same
          rw [List.mem_singleton] at isFirst
          exact new (isFirst ▸ same ▸ member)

theorem scan_holds (program : Program) :
    match scan program with
    | .ok lines => (markers program).Nodup ∧ lines.Holds (markers program)
    | .error error => (∃ line, error = .duplicateLine line) ∧ ¬ (markers program).Nodup := by
  have empty : LineSet.empty.Holds [] := by simp [Holds, LineSet.empty, contains]
  simpa only [scan, scanStmts_eq, List.nil_append] using addAll_holds (markers program) empty .nil

end LineSet

end BasicCompiler
