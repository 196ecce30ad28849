import BasicCompiler.Proofs.Program.Statements

/-!
The rules that a program obeys, said without compiling it: about the lines it marks and names, the kinds
of its values, the subscripts of its arrays and the nesting of its loops.
-/

namespace BasicCompiler

def Builtin.signatures : Builtin → List (List ValueKind)
  | rnd => [[], [.number]]
  | asc | len | val => [[.text]]
  | left | right => [[.text, .number]]
  | mid => [[.text, .number], [.text, .number, .number]]
  | instr => [[.text, .text], [.number, .text, .text]]
  | stringFill => [[.number, .number], [.number, .text]]
  | _ => [[.number]]

namespace Expr

mutual

/-- An expression of a kind, all of whose parts have the kinds they must have. -/
inductive HasKind : Expr → ValueKind → Prop where
  | number (value : Single) : HasKind (.number value) .number
  | text (value : String) : HasKind (.text value) .text
  | scalar (name : VarName) : HasKind (.scalar name) name.kind
  | element (name : VarName) {subscripts : List Expr} :
      HaveKinds subscripts (.replicate subscripts.length .number) →
      HasKind (.element name subscripts) name.kind
  | unary (op : UnaryOp) {operand : Expr} : HasKind operand .number → HasKind (.unary op operand) .number
  | sum {left right : Expr} {kind : ValueKind} : HasKind left kind → HasKind right kind →
      HasKind (.binary .add left right) kind
  | binary {op : BinaryOp} {left right : Expr} : op ≠ .add → HasKind left .number →
      HasKind right .number → HasKind (.binary op left right) .number
  | compare (op : CompareOp) {left right : Expr} {kind : ValueKind} : HasKind left kind →
      HasKind right kind → HasKind (.compare op left right) .number
  | call {function : Builtin} {arguments : List Expr} {signature : List ValueKind} :
      signature ∈ function.signatures → HaveKinds arguments signature →
      HasKind (.call function arguments) function.kind

inductive HaveKinds : List Expr → List ValueKind → Prop where
  | nil : HaveKinds [] []
  | cons {first : Expr} {rest : List Expr} {kind : ValueKind} {kinds : List ValueKind} :
      HasKind first kind → HaveKinds rest kinds → HaveKinds (first :: rest) (kind :: kinds)

end

mutual

def arrayUses : Expr → List (VarName × Nat)
  | element name subscripts => (name, subscripts.length) :: arrayUsesAll subscripts
  | unary _ operand => arrayUses operand
  | binary _ left right => arrayUses left ++ arrayUses right
  | compare _ left right => arrayUses left ++ arrayUses right
  | call _ arguments => arrayUsesAll arguments
  | number _ | text _ | scalar _ => []

def arrayUsesAll : List Expr → List (VarName × Nat)
  | [] => []
  | first :: rest => arrayUses first ++ arrayUsesAll rest

end

end Expr

def Variable.WellKinded (target : Variable) : Prop := target.toExpr.HasKind target.kind

def PrintItem.WellKinded : PrintItem → Prop
  | expr value => ∃ kind, value.HasKind kind
  | tab column => column.HasKind .number
  | spc count => count.HasKind .number
  | comma | semicolon => True

def PrintItem.arrayUses : PrintItem → List (VarName × Nat)
  | expr value => value.arrayUses
  | tab column => column.arrayUses
  | spc count => count.arrayUses
  | comma | semicolon => []

inductive LoopMark where
  | forLoop (control : VarName)
  /-- The end of the innermost loop, which must have the given name, if there is one. -/
  | next (control : Option VarName)
  | whileLoop
  | wend
  deriving DecidableEq, Repr

def LoopMark.encloses : LoopMark → LoopMark → Bool
  | forLoop control, next name => name.all (· = control)
  | whileLoop, wend => true
  | _, _ => false

/-- Marks of loops that are closed in the reverse order of their starts. -/
inductive LoopMark.Nested : List LoopMark → Prop where
  | nil : Nested []
  | pair {start stop : LoopMark} {inner rest : List LoopMark} : start.encloses stop = true →
      Nested inner → Nested rest → Nested (start :: (inner ++ stop :: rest))

namespace Stmt

/-- Whether the parts of a statement have the kinds they must have, apart from the statements inside of
it. -/
def WellKinded : Stmt → Prop
  | assign target value => value.HasKind target.kind ∧ target.WellKinded
  | dim arrays => ∀ array ∈ arrays, ∀ bound ∈ array.bounds, bound.HasKind .number
  | print items => ∀ item ∈ items, item.WellKinded
  | input _ targets | read targets => ∀ target ∈ targets, target.WellKinded
  | onGoto selector _ | onGosub selector _ => selector.HasKind .number
  | conditional condition _ _ | whileLoop condition => condition.HasKind .number
  | forLoop control first last step => control.kind = .number ∧ first.HasKind .number ∧
      last.HasKind .number ∧ ∀ expr ∈ step, expr.HasKind .number
  | _ => True

def targets : Stmt → List LineNumber
  | goto target | gosub target => [target]
  | onGoto _ targets | onGosub _ targets => targets
  | restore start => start.toList
  | _ => []

def arrayUses : Stmt → List (VarName × Nat)
  | assign target value => target.toExpr.arrayUses ++ value.arrayUses
  | dim arrays => arrays.flatMap fun array =>
      (array.name, array.bounds.length) :: Expr.arrayUsesAll array.bounds
  | print items => items.flatMap PrintItem.arrayUses
  | input _ targets | read targets => targets.flatMap (·.toExpr.arrayUses)
  | onGoto selector _ | onGosub selector _ => selector.arrayUses
  | conditional condition _ _ | whileLoop condition => condition.arrayUses
  | forLoop _ first last step =>
      first.arrayUses ++ (last.arrayUses ++ step.toList.flatMap Expr.arrayUses)
  | _ => []

def loopMarks : Stmt → List LoopMark
  | forLoop control _ _ _ => [.forLoop control]
  | next [] => [.next none]
  | next controls => controls.map fun control => .next (some control)
  | whileLoop _ => [.whileLoop]
  | wend => [.wend]
  | _ => []

end Stmt

def ConsistentUses (uses : List (VarName × Nat)) : Prop :=
  ∀ use ∈ uses, (use.2 = 1 ∨ use.2 = 2) ∧ ∀ other ∈ uses, other.1 = use.1 → other.2 = use.2

structure Program.Valid (program : Program) : Prop where
  distinctLines : (Stmt.markers program).Nodup
  knownTargets : ∀ stmt ∈ Stmt.inlinedAll program, ∀ line ∈ stmt.targets, line ∈ Stmt.markers program
  wellKinded : ∀ stmt ∈ Stmt.inlinedAll program, stmt.WellKinded
  consistentUses : ConsistentUses ((Stmt.inlinedAll program).flatMap Stmt.arrayUses)
  nestedLoops : LoopMark.Nested ((Stmt.inlinedAll program).flatMap Stmt.loopMarks)

theorem ConsistentUses.mono {uses fewer : List (VarName × Nat)} (consistent : ConsistentUses uses)
    (subset : fewer ⊆ uses) : ConsistentUses fewer :=
  fun use member => ⟨(consistent use (subset member)).1,
    fun other member' => (consistent use (subset member)).2 other (subset member')⟩

theorem consistentUses_snoc {uses : List (VarName × Nat)} {name : VarName} {count : Nat}
    (consistent : ConsistentUses uses) :
    ConsistentUses (uses ++ [(name, count)]) ↔
      (count = 1 ∨ count = 2) ∧ ∀ known, (name, known) ∈ uses → known = count := by
  constructor
  · intro extended
    obtain ⟨isCount, agrees⟩ := extended (name, count) (by simp)
    exact ⟨isCount, fun known member => agrees (name, known) (by simp [member]) rfl⟩
  · rintro ⟨isCount, agrees⟩ ⟨name', count'⟩ member
    rcases List.mem_append.mp member with earlier | last
    · refine ⟨(consistent _ earlier).1, ?_⟩
      rintro ⟨other, known⟩ member' rfl
      rcases List.mem_append.mp member' with earlier' | last
      · exact (consistent _ earlier).2 _ earlier' rfl
      · obtain ⟨rfl, rfl⟩ := Prod.mk.inj (List.mem_singleton.mp last)
        exact (agrees count' earlier).symm
    · obtain ⟨rfl, rfl⟩ := Prod.mk.inj (List.mem_singleton.mp last)
      refine ⟨isCount, ?_⟩
      rintro ⟨other, known⟩ member' rfl
      rcases List.mem_append.mp member' with earlier | last
      · exact agrees known earlier
      · exact (Prod.mk.inj (List.mem_singleton.mp last)).2

namespace LoopMark

theorem Nested.append {front back : List LoopMark} (nested : Nested front) (nested' : Nested back) :
    Nested (front ++ back) := by
  induction nested with
  | nil => exact nested'
  | pair encloses inner rest _ ih =>
      rw [List.cons_append, List.append_assoc, List.cons_append]
      exact .pair encloses inner ih

def step (opened : List LoopMark) (mark : LoopMark) : Option (List LoopMark) :=
  match mark, opened with
  | forLoop _, _ | whileLoop, _ => some (mark :: opened)
  | _, start :: rest => if start.encloses mark then some rest else none
  | _, [] => none

def run (opened : List LoopMark) (marks : List LoopMark) : Option (List LoopMark) :=
  marks.foldlM step opened

theorem run_append (opened front back : List LoopMark) :
    run opened (front ++ back) = (run opened front).bind (run · back) :=
  List.foldlM_append

theorem run_cons (opened : List LoopMark) (mark : LoopMark) (rest : List LoopMark) :
    run opened (mark :: rest) = (step opened mark).bind (run · rest) :=
  List.foldlM_cons

theorem step_start {start stop : LoopMark} (encloses : start.encloses stop = true)
    (opened : List LoopMark) : step opened start = some (start :: opened) := by
  cases start with
  | forLoop control => rfl
  | whileLoop => rfl
  | next name => cases encloses
  | wend => cases encloses

theorem step_stop {start stop : LoopMark} (encloses : start.encloses stop = true)
    (opened : List LoopMark) : step (start :: opened) stop = some opened := by
  cases stop with
  | next name => exact if_pos encloses
  | wend => exact if_pos encloses
  | forLoop control => cases start <;> cases encloses
  | whileLoop => cases start <;> cases encloses

/-- Reading nested loops changes nothing about the loops around them. -/
theorem Nested.run_eq {marks : List LoopMark} (nested : Nested marks) (opened : List LoopMark) :
    run opened marks = some opened := by
  induction nested generalizing opened with
  | nil => rfl
  | @pair start stop inner rest encloses _ _ ihInner ihRest =>
      rw [run_cons, step_start encloses, Option.bind_some, run_append, ihInner, Option.bind_some,
        run_cons, step_stop encloses, Option.bind_some, ihRest]

def Close : List LoopMark → List LoopMark → Prop
  | [], marks => Nested marks
  | start :: opened, marks => ∃ inner stop rest, marks = inner ++ stop :: rest ∧
      start.encloses stop = true ∧ Nested inner ∧ Close opened rest

theorem Close.prepend {opened front marks : List LoopMark} (nested : Nested front)
    (closed : Close opened marks) : Close opened (front ++ marks) := by
  cases opened with
  | nil => exact nested.append closed
  | cons start opened =>
      obtain ⟨inner, stop, rest, rfl, encloses, isNested, closed⟩ := closed
      exact ⟨front ++ inner, stop, rest, by rw [List.append_assoc], encloses, nested.append isNested,
        closed⟩

theorem close_of_run {opened marks : List LoopMark} (ran : run opened marks = some []) :
    Close opened marks := by
  induction marks generalizing opened with
  | nil =>
      obtain rfl : opened = [] := Option.some.inj ran
      exact .nil
  | cons mark marks ih =>
      rw [run_cons] at ran
      obtain ⟨opened', stepped, ran⟩ := Option.bind_eq_some_iff.mp ran
      have closed := ih ran
      -- A start opens a loop that later marks close, and an end closes the innermost loop.
      have started (isStart : opened' = mark :: opened) : Close opened (mark :: marks) := by
        subst isStart
        obtain ⟨inner, stop, rest, rfl, encloses, nested, closed⟩ := closed
        have grouped : mark :: (inner ++ stop :: rest) = mark :: (inner ++ [stop]) ++ rest := by simp
        rw [grouped]
        exact closed.prepend (.pair encloses nested .nil)
      have ended {start : LoopMark} {rest : List LoopMark} (isOpened : opened = start :: rest)
          (found : (if start.encloses mark then some rest else none) = some opened') :
          Close opened (mark :: marks) := by
        subst isOpened
        split at found
        · rename_i encloses
          cases found
          exact ⟨[], mark, marks, rfl, encloses, .nil, closed⟩
        · cases found
      cases mark with
      | forLoop control => exact started (Option.some.inj stepped).symm
      | whileLoop => exact started (Option.some.inj stepped).symm
      | next name =>
          cases opened with
          | nil => cases stepped
          | cons start rest => exact ended rfl stepped
      | wend =>
          cases opened with
          | nil => cases stepped
          | cons start rest => exact ended rfl stepped

theorem nested_iff_run {marks : List LoopMark} : Nested marks ↔ run [] marks = some [] :=
  ⟨fun nested => nested.run_eq [], close_of_run⟩

end LoopMark

namespace Expr

theorem HasKind.kind_eq {expr : Expr} {kind : ValueKind} : HasKind expr kind → expr.kind = kind
  | .number _ => rfl
  | .text _ => rfl
  | .scalar _ => rfl
  | .element _ _ => rfl
  | .unary _ _ => rfl
  | .sum left _ => left.kind_eq
  | @HasKind.binary op _ _ isOther _ _ => by cases op <;> first | rfl | exact absurd rfl isOther
  | .compare _ _ _ => rfl
  | .call _ _ => rfl

theorem hasKind_iff {expr : Expr} {kind : ValueKind} :
    expr.HasKind kind ↔ expr.kind = kind ∧ expr.HasKind expr.kind :=
  ⟨fun typed => ⟨typed.kind_eq, typed.kind_eq ▸ typed⟩, fun ⟨same, typed⟩ => same ▸ typed⟩

@[simp] theorem haveKinds_nil {kinds : List ValueKind} : HaveKinds [] kinds ↔ kinds = [] :=
  ⟨fun typed => by cases typed; rfl, fun isNil => isNil ▸ .nil⟩

@[simp] theorem haveKinds_cons_nil {first : Expr} {rest : List Expr} :
    ¬ HaveKinds (first :: rest) [] := nofun

@[simp] theorem haveKinds_cons {first : Expr} {rest : List Expr} {kind : ValueKind}
    {kinds : List ValueKind} :
    HaveKinds (first :: rest) (kind :: kinds) ↔ first.HasKind kind ∧ HaveKinds rest kinds :=
  ⟨fun typed => by cases typed with | cons isFirst others => exact ⟨isFirst, others⟩,
    fun ⟨isFirst, others⟩ => .cons isFirst others⟩

theorem haveKinds_replicate {exprs : List Expr} {kind : ValueKind} :
    HaveKinds exprs (.replicate exprs.length kind) ↔ ∀ expr ∈ exprs, expr.HasKind kind := by
  induction exprs with
  | nil => simp
  | cons first rest ih => simp [List.replicate_succ, ih]

end Expr

end BasicCompiler
