import BasicCompiler.Syntax.Stmt

/-!
The number of stack slots that the parts of a program need. The values of operands wait on the stack
while the operands after them are computed, and a statement starts with an empty stack.
-/

namespace BasicCompiler

namespace Expr

mutual

def height : Expr → Nat
  | number _ => 1
  | text _ => 1
  | scalar _ => 1
  | element _ subscripts => 1 + heightThen 0 subscripts
  | unary _ operand => height operand
  | binary _ left right => max (height left) (1 + height right)
  | compare _ left right => max (height left) (1 + height right)
  | call _ arguments => max 1 (heightThen 0 arguments)

/-- The number of slots for values that are computed one after the other, and for what is computed
after them. -/
def heightThen (last : Nat) : List Expr → Nat
  | [] => last
  | first :: rest => max (height first) (1 + heightThen last rest)

end

theorem height_pos (expr : Expr) : 0 < expr.height := by
  cases expr with
  | number | text | scalar => simp [height]
  | element | binary | compare | call =>
      simp only [height]
      omega
  | unary operator operand =>
      rw [height]
      exact height_pos operand

theorem heightThen_eq (last : Nat) (exprs : List Expr) :
    heightThen last exprs = max (heightThen 0 exprs) (exprs.length + last) := by
  induction exprs with
  | nil => simp [heightThen]
  | cons first rest ih =>
      simp only [heightThen, List.length_cons]
      rw [ih]
      omega

theorem length_le_heightThen (exprs : List Expr) : exprs.length ≤ heightThen 0 exprs := by
  induction exprs with
  | nil => simp [heightThen]
  | cons first rest ih =>
      simp only [heightThen, List.length_cons]
      omega

end Expr

def Variable.height (value : Nat) : Variable → Nat
  | scalar _ => value
  | element _ subscripts => 1 + Expr.heightThen value subscripts

def ArrayBounds.height (array : ArrayBounds) : Nat := 1 + Expr.heightThen 0 array.bounds

def PrintItem.height : PrintItem → Nat
  | expr value => value.height
  | comma => 0
  | semicolon => 0
  | tab column => column.height
  | spc count => count.height

namespace Stmt

mutual

def height : Stmt → Nat
  | assign target value => target.height value.height
  | dim arrays => (arrays.map ArrayBounds.height).foldr max 0
  | print items => (items.map PrintItem.height).foldr max 0
  | input _ targets => (targets.map (Variable.height 1)).foldr max 0
  | read targets => (targets.map (Variable.height 1)).foldr max 0
  | gosub _ => 1
  | restore _ => 1
  | onGoto selector _ => selector.height
  | onGosub selector _ => selector.height
  | conditional condition thenBody elseBody =>
    max (max condition.height 2) (max (heightAll thenBody) (heightAll elseBody))
  | forLoop _ first last step => max first.height (max last.height (step.elim 1 Expr.height))
  | next _ => 2
  | whileLoop condition => max condition.height 2
  | line _ | goto _ | returnFromSub | wend | data _ | remark _ | finish | stop => 0

def heightAll : List Stmt → Nat
  | [] => 0
  | first :: rest => max (height first) (heightAll rest)

end

end Stmt

end BasicCompiler
