import BasicCompiler.Compile.Expression
import BasicCompiler.Program.Data

/-!
Code of statements. The stack is empty before and after a statement.
-/

namespace BasicCompiler

structure Surroundings where
  lines : LineSet
  data : DataTable
  /-- Whether the code says which source line it belongs to. -/
  lineNumbers : Bool

namespace MainLabel

def init : Label := "__init"

def body : Label := "__body"

def exit : Label := "__exit"

def returnDispatch : Label := "__return_dispatch"

def bodyEnd : Label := "__body_end"

def handler : Label := "__handler"

end MainLabel

namespace Stmt

open Draft Body

/-- Stores a value in a variable. The subscripts of an element are evaluated before the value. -/
def store (target : Variable) (pushValue : BodyM Unit) : BodyM Unit :=
  match target with
  | .scalar name => do
    pushValue
    let slot ← scalarSlot name
    match name.kind with
    | .number => fstore slot
    | .text => astore slot
  | .element name subscripts => do
    let shape ← Expr.pushArray name subscripts.length
    Expr.compileNumbers (.subscript name) subscripts
    pushValue
    call (.set shape)

def compileAssign (target : Variable) (value : Expr) : BodyM Unit := do
  value.expect (.assignment target.name) target.kind
  store target value.compile

def compileDim (array : ArrayBounds) : BodyM Unit := do
  let shape ← arrayShape array.name array.bounds.length
  let slot ← arraySlot array.name
  aload slot
  Expr.compileNumbers (.bound array.name) array.bounds
  call (.dim shape)
  astore slot

def compileDims : List ArrayBounds → BodyM Unit
  | [] => return
  | first :: rest => do
    compileDim first
    compileDims rest

def printer : ValueKind → Helper
  | .number => .printNumber
  | .text => .printText

def compilePrintItem : PrintItem → BodyM Unit
  | .expr value => do
    value.compile
    call (printer value.kind)
  | .comma => call .printComma
  | .semicolon => return
  | .tab column => do
    column.compileNumber .tab
    call .printTab
  | .spc count => do
    count.compileNumber .spc
    call .printSpc

def compilePrintItems : List PrintItem → BodyM Unit
  | [] => return
  | first :: rest => do
    compilePrintItem first
    compilePrintItems rest

def compilePrint (items : List PrintItem) : BodyM Unit := do
  compilePrintItems items
  if PrintItem.suppressesNewline items then return
  else call .printNewline

def asker : ValueKind → Helper
  | .number => .inputNumber
  | .text => .inputText

def furtherPrompt : String := "?? "

def compileAsk (prompt : String) (target : Variable) : BodyM Unit :=
  store target do
    pushText prompt
    call (asker target.kind)

def compileAsks (prompt : String) : List Variable → BodyM Unit
  | [] => return
  | first :: rest => do
    compileAsk prompt first
    compileAsks furtherPrompt rest

def compileInput (prompt : Option String) (targets : List Variable) : BodyM Unit :=
  compileAsks (prompt.getD "" ++ "? ") targets

def dataReader : ValueKind → Helper
  | .number => .readNumber
  | .text => .readText

def compileReads : List Variable → BodyM Unit
  | [] => return
  | first :: rest => do
    store first (call (dataReader first.kind))
    compileReads rest

def compileRestore (surroundings : Surroundings) (start : Option LineNumber) : BodyM Unit := do
  let index ←
    match start with
    | some number => do
      let _ ← require (surroundings.lines.label number)
      pure (surroundings.data.firstIndexFrom number)
    | none => pure 0
  pushInt (Int32.ofNat index)
  call .restore

def compileGoto (lines : LineSet) (line : LineNumber) : BodyM Unit := do
  let target ← require (lines.label line)
  Draft.goto target

def enterSub (site : Nat) (target : Label) : DraftM Unit := do
  pushInt (Int32.ofNat site)
  call .gosubPush
  Draft.goto target

def compileGosub (lines : LineSet) (line : LineNumber) : BodyM Unit := do
  let target ← require (lines.label line)
  let after ← freshLabel "gosub_return"
  let site ← addReturn after
  enterSub site target
  place after

def compileReturn : BodyM Unit := do
  markReturn
  addItem (.request .gosubPop)
  Draft.goto MainLabel.returnDispatch

def lineLabels (lines : LineSet) : List LineNumber → Except CompileError (List Label)
  | [] => return []
  | first :: rest => do
    let label ← lines.label first
    return label :: (← lineLabels lines rest)

def compileSelector (selector : Expr) : BodyM Unit := do
  selector.compileNumber .selector
  call .onSelector

/-- A selector jumps to the line it counts to, and any other goes on with the next statement. -/
def compileOnGoto (lines : LineSet) (selector : Expr) (numbers : List LineNumber) : BodyM Unit := do
  let targets ← require (lineLabels lines numbers)
  compileSelector selector
  if targets.isEmpty then
    op Opcode.pop
  else
    let next ← freshLabel "on_next"
    emit (.tableSwitch 1 targets next)
    place next

def freshLabels (stem : String) : List Label → DraftM (List Label)
  | [] => return []
  | _ :: rest => do
    let label ← freshLabel stem
    return label :: (← freshLabels stem rest)

def enterSubs (site : Nat) : List Label → List Label → DraftM Unit
  | stub :: stubs, target :: targets => do
    place stub
    enterSub site target
    enterSubs site stubs targets
  | _, _ => return

def compileOnGosub (lines : LineSet) (selector : Expr) (numbers : List LineNumber) : BodyM Unit := do
  let targets ← require (lineLabels lines numbers)
  compileSelector selector
  if targets.isEmpty then
    op Opcode.pop
  else
    let after ← freshLabel "gosub_return"
    let site ← addReturn after
    let stubs ← freshLabels "on_gosub" targets
    emit (.tableSwitch 1 stubs after)
    enterSubs site stubs targets
    place after

def compileCondition (place : Place) (condition : Expr) (whenFalse : Label) : BodyM Unit := do
  condition.compileNumber place
  op Opcode.fconst0
  op Opcode.fcmpl
  branch Opcode.ifeq whenFalse

def compileStep : Option Expr → Place → BodyM Unit
  | some step, place => step.compileNumber place
  | none, _ => op Opcode.fconst1

def compileFor (control : VarName) (first last : Expr) (step : Option Expr) : BodyM Unit := do
  let position := Place.loop control
  if control.kind = .number then
    first.compileNumber position
    let counterSlot ← scalarSlot control
    fstore counterSlot
    last.compileNumber position
    let limitSlot ← temporary .number
    fstore limitSlot
    compileStep step position
    let stepSlot ← temporary .number
    fstore stepSlot
    let test ← freshLabel "for_test"
    let body ← freshLabel "for_body"
    let done ← freshLabel "for_exit"
    Draft.goto test
    place body
    openLoop (.counting control counterSlot limitSlot stepSlot test body done)
  else
    throw (.kindMismatch position .number control.kind)

/-- Advances a counter and repeats the loop until the counter has passed the limit, upwards or, for a
negative step, downwards. -/
def closeCounting (counter limit step : Nat) (test body done : Label) : DraftM Unit := do
  fload counter
  fload step
  op Opcode.fadd
  fstore counter
  let downwards ← freshLabel "for_downwards"
  place test
  fload step
  op Opcode.fconst0
  op Opcode.fcmpl
  branch Opcode.iflt downwards
  fload counter
  fload limit
  op Opcode.fcmpg
  branch Opcode.ifle body
  Draft.goto done
  place downwards
  fload counter
  fload limit
  op Opcode.fcmpl
  branch Opcode.ifge body
  place done

/-- Closes the innermost loop, which must count and have the given name, if there is one. -/
def compileNext (name : Option VarName) : BodyM Unit := do
  match ← closeLoop with
  | some (.counting control counter limit step test body done) =>
    match name with
    | some found =>
      if found = control then closeCounting counter limit step test body done
      else throw (.nextMismatch control found)
    | none => closeCounting counter limit step test body done
  | _ => throw .nextWithoutFor

def compileNamedNexts : List VarName → BodyM Unit
  | [] => return
  | first :: rest => do
    compileNext (some first)
    compileNamedNexts rest

def compileNexts (controls : List VarName) : BodyM Unit :=
  if controls.isEmpty then compileNext none else compileNamedNexts controls

def compileWhile (condition : Expr) : BodyM Unit := do
  let top ← freshLabel "while_top"
  let done ← freshLabel "while_exit"
  place top
  compileCondition .whileCondition condition done
  openLoop (.conditional top done)

def compileWend : BodyM Unit := do
  match ← closeLoop with
  | some (.conditional top done) =>
    Draft.goto top
    place done
  | _ => throw .wendWithoutWhile

def compileLine (lineNumbers : Bool) (number : LineNumber) : DraftM Unit := do
  place (LineSet.labelOf number)
  if lineNumbers then
    addItem (.sourceLine number)

mutual

def compile (surroundings : Surroundings) : Stmt → BodyM Unit
  | line number => compileLine surroundings.lineNumbers number
  | assign target value => compileAssign target value
  | dim arrays => compileDims arrays
  | print items => compilePrint items
  | input prompt targets => compileInput prompt targets
  | Stmt.goto target => compileGoto surroundings.lines target
  | gosub target => compileGosub surroundings.lines target
  | returnFromSub => compileReturn
  | onGoto selector targets => compileOnGoto surroundings.lines selector targets
  | onGosub selector targets => compileOnGosub surroundings.lines selector targets
  | conditional condition thenBody elseBody => do
    let done ← freshLabel "if_end"
    if elseBody.isEmpty then
      compileCondition .ifCondition condition done
      compileAll surroundings thenBody
    else
      let otherwise ← freshLabel "if_else"
      compileCondition .ifCondition condition otherwise
      compileAll surroundings thenBody
      Draft.goto done
      place otherwise
      compileAll surroundings elseBody
    place done
  | forLoop control first last step => compileFor control first last step
  | next controls => compileNexts controls
  | whileLoop condition => compileWhile condition
  | wend => compileWend
  | data _ => return
  | read targets => compileReads targets
  | restore start => compileRestore surroundings start
  | remark _ => return
  | finish => Draft.goto MainLabel.exit
  | stop => Draft.goto MainLabel.exit

def compileAll (surroundings : Surroundings) : List Stmt → BodyM Unit
  | [] => return
  | first :: rest => do
    compile surroundings first
    compileAll surroundings rest

end

end Stmt

end BasicCompiler
