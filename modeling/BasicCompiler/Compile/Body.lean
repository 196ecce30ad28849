import BasicCompiler.Library.Code.Check
import BasicCompiler.Program.Lines
import Std.Data.HashMap

/-!
The main method of a program while its statements are compiled.
-/

namespace BasicCompiler

inductive Loop where
  /-- A counting loop with the slots of its variable, limit and step. -/
  | counting (control : VarName) (counter limit step : Nat) (test body done : Label)
  | conditional (top done : Label)
  deriving DecidableEq, Repr

structure Body where
  draft : Draft
  loops : List Loop
  returns : ReturnTable
  usesReturn : Bool
  /-- The number of subscripts of every array that was used. -/
  dimensions : Std.HashMap VarName Nat

/-- A computation on a main method. What it drafted before a failure stays. -/
abbrev BodyM := ExceptT CompileError (StateM Body)

namespace Body

def empty (descriptor : String) : Body :=
  ⟨.empty descriptor, [], .empty, false, ∅⟩

def draftCode {α : Type} (action : DraftM α) : BodyM α :=
  fun ⟨draft, loops, returns, usesReturn, dimensions⟩ =>
    match action.run draft with
    | (value, draft) => (.ok value, ⟨draft, loops, returns, usesReturn, dimensions⟩)

def require {α : Type} : Except CompileError α → BodyM α
  | .ok value => return value
  | .error error => throw error

def openLoop (loop : Loop) : BodyM Unit :=
  modify fun body => { body with loops := loop :: body.loops }

def closeLoop : BodyM (Option Loop) :=
  modifyGet fun ⟨draft, loops, returns, usesReturn, dimensions⟩ =>
    match loops with
    | [] => (none, ⟨draft, [], returns, usesReturn, dimensions⟩)
    | loop :: rest => (some loop, ⟨draft, rest, returns, usesReturn, dimensions⟩)

def checkLoopsClosed : BodyM Unit := do
  match (← get).loops with
  | .counting control _ _ _ _ _ _ :: _ => throw (.forWithoutNext control)
  | .conditional _ _ :: _ => throw .whileWithoutWend
  | [] => return

def addReturn (label : Label) : BodyM Nat :=
  modifyGet fun ⟨draft, loops, returns, usesReturn, dimensions⟩ =>
    match returns.add label with
    | (number, returns) => (number, ⟨draft, loops, returns, usesReturn, dimensions⟩)

def markReturn : BodyM Unit :=
  modify fun body => { body with usesReturn := true }

def setDimensions (name : VarName) (count : Nat) : BodyM Unit :=
  modify fun ⟨draft, loops, returns, usesReturn, dimensions⟩ =>
    ⟨draft, loops, returns, usesReturn, dimensions.insert name count⟩

def checkDimensions (name : VarName) (count : Nat) : BodyM Unit := do
  match (← get).dimensions[name]? with
  | some expected =>
    if expected = count then return
    else throw (.arrayDimensions name expected count)
  | none => return

/-- The shape of an array with a number of subscripts. An array keeps the number of subscripts of its
first use. -/
def arrayShape (name : VarName) (count : Nat) : BodyM ArrayShape := do
  checkDimensions name count
  match ArrayShape.of? name.kind count with
  | some shape =>
    setDimensions name count
    return shape
  | none =>
    if 2 < count then throw (.tooManyDimensions name count)
    else throw (.arrayDimensions name 1 count)

def requestsHelper : Item → Bool
  | .request _ => true
  | .insn (.call _) => true
  | _ => false

/-- Whether the code that was drafted uses helpers, which alone raise faults. -/
def usesLibrary : BodyM Bool :=
  return (← get).draft.items.any requestsHelper

def initialOf : ValueKind → Initial
  | .number => .number
  | .text => .text

def scalarSlot (name : VarName) : DraftM Nat :=
  Draft.slotOf name.spelling (initialOf name.kind)

/-- The slot of an array, which does not share the name space of variables. -/
def arraySlot (name : VarName) : DraftM Nat :=
  Draft.slotOf s!"{name.spelling}()" .null

instance : MonadLift DraftM BodyM := ⟨draftCode⟩

end Body

end BasicCompiler
