import BasicCompiler.Syntax.Expr

/-!
Statements. A program is a flat list: a line number stands in front of the statements of its line, and
the two ends of a loop are separate statements.
-/

namespace BasicCompiler

inductive PrintItem where
  | expr (value : Expr)
  | comma
  | semicolon
  | tab (column : Expr)
  | spc (count : Expr)

def PrintItem.suppressesNewline (items : List PrintItem) : Bool :=
  match items.getLast? with
  | some .comma => true
  | some .semicolon => true
  | _ => false

/-- An array of a `DIM` statement with the greatest subscript of each dimension. -/
structure ArrayBounds where
  name : VarName
  bounds : List Expr

inductive Stmt where
  | line (number : LineNumber)
  | assign (target : Variable) (value : Expr)
  | dim (arrays : List ArrayBounds)
  | print (items : List PrintItem)
  | input (prompt : Option String) (targets : List Variable)
  | goto (target : LineNumber)
  | gosub (target : LineNumber)
  | returnFromSub
  | onGoto (selector : Expr) (targets : List LineNumber)
  | onGosub (selector : Expr) (targets : List LineNumber)
  | conditional (condition : Expr) (thenBody elseBody : List Stmt)
  | forLoop (control : VarName) (first last : Expr) (step : Option Expr)
  /-- The end of the loops of the given names, or of the innermost loop when there is no name. -/
  | next (controls : List VarName)
  | whileLoop (condition : Expr)
  | wend
  | data (items : List String)
  | read (targets : List Variable)
  | restore (line : Option LineNumber)
  | remark (text : String)
  | finish
  | stop

def agreeing {α : Type} (agrees : α → α → Bool) : List α → List α → Bool
  | [], [] => true
  | first :: rest, second :: others => agrees first second && agreeing agrees rest others
  | _, _ => false

def agreeingOption {α : Type} (agrees : α → α → Bool) : Option α → Option α → Bool
  | none, none => true
  | some first, some second => agrees first second
  | _, _ => false

def PrintItem.agrees : PrintItem → PrintItem → Bool
  | expr first, expr second => first.agrees second
  | comma, comma => true
  | semicolon, semicolon => true
  | tab first, tab second => first.agrees second
  | spc first, spc second => first.agrees second
  | _, _ => false

def ArrayBounds.agrees (first second : ArrayBounds) : Bool :=
  first.name == second.name && agreeing Expr.agrees first.bounds second.bounds

namespace Stmt

mutual

def agrees : Stmt → Stmt → Bool
  | line first, line second => first == second
  | assign target value, assign target' value' => target.agrees target' && value.agrees value'
  | dim first, dim second => agreeing ArrayBounds.agrees first second
  | print first, print second => agreeing PrintItem.agrees first second
  | input prompt targets, input prompt' targets' =>
    prompt == prompt' && agreeing Variable.agrees targets targets'
  | goto first, goto second => first == second
  | gosub first, gosub second => first == second
  | returnFromSub, returnFromSub => true
  | onGoto selector targets, onGoto selector' targets' =>
    selector.agrees selector' && targets == targets'
  | onGosub selector targets, onGosub selector' targets' =>
    selector.agrees selector' && targets == targets'
  | conditional condition thenBody elseBody, conditional condition' thenBody' elseBody' =>
    condition.agrees condition' && agreesAll thenBody thenBody' && agreesAll elseBody elseBody'
  | forLoop control first last step, forLoop control' first' last' step' =>
    control == control' && first.agrees first' && last.agrees last' &&
      agreeingOption Expr.agrees step step'
  | next first, next second => first == second
  | whileLoop first, whileLoop second => first.agrees second
  | wend, wend => true
  | data first, data second => first == second
  | read first, read second => agreeing Variable.agrees first second
  | restore first, restore second => first == second
  | remark first, remark second => first == second
  | finish, finish => true
  | stop, stop => true
  | _, _ => false

def agreesAll : List Stmt → List Stmt → Bool
  | [], [] => true
  | first :: rest, second :: others => agrees first second && agreesAll rest others
  | _, _ => false

end

end Stmt

abbrev Program := List Stmt

def Program.agrees (first second : Program) : Bool :=
  Stmt.agreesAll first second

end BasicCompiler
