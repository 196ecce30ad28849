import BasicCompiler.Proofs.Compile.Rules
import BasicCompiler.Proofs.Method.Growth
import BasicCompiler.Proofs.Program.Statements

/-!
The sizes of expressions and statements, and steps of compiling that add code of limited size.
-/

namespace BasicCompiler

open Draft Body

variable {item : Item} {cost : Nat} {insn : Insn}

variable {α β : Type}

namespace Expr

mutual

def size : Expr → Nat
  | number _ | scalar _ => 1
  | text value => 1 + value.length
  | element _ subscripts => 1 + sizes subscripts
  | unary _ operand => 1 + operand.size
  | binary _ left right | compare _ left right => 1 + left.size + right.size
  | call _ arguments => 1 + sizes arguments

def sizes : List Expr → Nat
  | [] => 0
  | first :: rest => first.size + sizes rest

end

end Expr

def Variable.size : Variable → Nat
  | .scalar _ => 1
  | .element _ subscripts => 1 + Expr.sizes subscripts

theorem Variable.size_pos (target : Variable) : 1 ≤ target.size := by
  cases target with
  | scalar => exact Nat.le_refl 1
  | element => exact Nat.le_add_right 1 _

def PrintItem.size : PrintItem → Nat
  | .comma | .semicolon => 1
  | .expr value | .tab value | .spc value => 1 + value.size

namespace Stmt

mutual

/-- The number of nodes and of characters of a statement. Lines and remarks, which have no code, are
not counted. -/
def size : Stmt → Nat
  | assign target value => 1 + target.size + value.size
  | dim arrays => 1 + (arrays.map fun array => 1 + Expr.sizes array.bounds).sum
  | print items => 1 + (items.map PrintItem.size).sum
  | input prompt targets => 1 + (prompt.getD "").length + (targets.map Variable.size).sum
  | onGoto selector targets | onGosub selector targets => 1 + selector.size + targets.length
  | conditional condition thenBody elseBody =>
    1 + condition.size + sizes thenBody + sizes elseBody
  | forLoop _ first last step => 1 + first.size + last.size + (step.map Expr.size).getD 0
  | next controls => 1 + controls.length
  | whileLoop condition => 1 + condition.size
  | data items => 1 + (items.map fun text => 1 + text.length).sum
  | read targets => 1 + (targets.map Variable.size).sum
  | goto _ | gosub _ | returnFromSub | wend | restore _ | finish | stop => 1
  | line _ | remark _ => 0

def sizes : List Stmt → Nat
  | [] => 0
  | first :: rest => first.size + sizes rest

end

end Stmt

/-- What the code of expressions and most statements holds. It calls helpers and leaves the cells and
the classes of the host to them, and enters no subroutine. -/
def Item.Plain : Item → Prop
  | .insn (.tableSwitch low _ _) => low = 1
  | .insn (.call helper) => helper ≠ .gosubPush
  | .insn (.field _ _) | .insn (.invoke _ _) | .insn (.getCell _) | .insn (.putCell _)
  | .sourceLine _ | .request _ => False
  | _ => True

theorem Item.Plain.simple (simple : insn.isSimple = true) : Item.Plain (.insn insn) := by
  cases insn with
  | op | branch | pushFloat | pushInt | access | increment | newArray => trivial
  | tableSwitch | pushText | field | invoke | newDup | newRefArray | newMultiArray | call | getCell
  | putCell => cases simple

def Item.Entering (item : Item) : Prop := item.Plain ∨ item = .insn (.call .gosubPush)

theorem Item.Plain.unmarked (plain : item.Plain) : item.marks = false := by
  cases item with
  | insn | label => rfl
  | sourceLine | request => exact plain.elim

theorem Item.Entering.unmarked (entering : item.Entering) : item.marks = false := by
  rcases entering with plain | rfl
  · exact plain.unmarked
  · rfl

def Body.unmarked (body : Body) : Body := { body with draft := body.draft.unmarked }

def Unmarks (marked plain : BodyM α) : Prop := Erases Body.unmarked marked plain

namespace Unmarks

theorem pure (value : α) : Unmarks (Pure.pure value) (Pure.pure value) := fun _ => rfl

theorem throw (error : CompileError) : Unmarks (throw error : BodyM α) (throw error) := fun _ => rfl

theorem bind {first first' : BodyM α} {next next' : α → BodyM β} (unmarks : Unmarks first first')
    (unmarks' : ∀ value, Unmarks (next value) (next' value)) :
    Unmarks (first >>= next) (first' >>= next') := Erases.bind unmarks fun value _ _ _ => unmarks' value

theorem lift {action : DraftM α} (overlooks : Overlooks action) :
    Unmarks (liftM action : BodyM α) (liftM action) := by
  rintro ⟨draft, loops, returns, usesReturn, dimensions⟩
  have same := overlooks draft
  change (Except.ok (action.run draft.unmarked).1,
    Body.mk (action.run draft.unmarked).2 loops returns usesReturn dimensions) = _
  rw [same]
  rfl

theorem read {next next' : Body → BodyM α} (unmarks : ∀ body, Unmarks (next body) (next' body.unmarked)) :
    Unmarks (getThe Body >>= next) (getThe Body >>= next') := fun body => unmarks body body

theorem arrayShape (name : VarName) (count : Nat) :
    Unmarks (Body.arrayShape name count) (Body.arrayShape name count) := by
  have checked : Unmarks (checkDimensions name count) (checkDimensions name count) := by
    refine read fun body => ?_
    have same : body.unmarked.dimensions = body.dimensions := rfl
    rw [same]
    cases body.dimensions[name]? with
    | none => exact .pure ()
    | some expected =>
        dsimp only
        split
        · exact .pure ()
        · exact .throw _
  have set : Unmarks (setDimensions name count) (setDimensions name count) := fun _ => rfl
  refine checked.bind fun _ => ?_
  cases ArrayShape.of? name.kind count with
  | some shape => exact set.bind fun _ => .pure shape
  | none =>
      dsimp only
      split
      · exact .throw _
      · exact .throw _

theorem closeLoop : Unmarks Body.closeLoop Body.closeLoop := by
  rintro ⟨draft, loops, returns, usesReturn, dimensions⟩
  cases loops with
  | nil => rfl
  | cons loop rest => rfl

end Unmarks

/-- Steps that add items which are allowed and at most `cost` bytes, and enter no return point. Where no
line may be marked they do not depend on the marks before them. -/
structure Adds (allowed : Item → Prop) (cost : Nat) (action : BodyM α) : Prop where
  ends : ∀ body : Body, Ends action body
    (fun _ final => final.returns = body.returns ∧ final.usesReturn = body.usesReturn ∧
      body.draft.Grows allowed cost final.draft)
    (fun _ _ => True)
  unmarks : (∀ item, allowed item → item.marks = false) → Unmarks action action

namespace Adds

variable {allowed allowed' : Item → Prop} {cost cost' : Nat}

theorem bind_of_run {first : BodyM α} {next : α → BodyM β} (adds : Adds allowed cost first)
    (adds' : ∀ value {body final}, first.run body = (.ok value, final) →
      Adds allowed cost' (next value)) : Adds allowed (cost + cost') (first >>= next) := by
  refine ⟨fun body => (adds.ends body).outcome.bind ?_, fun unmarked =>
    Erases.bind (adds.unmarks unmarked) fun value _ _ ran => (adds' value ran).unmarks unmarked⟩
  rintro value middle ⟨⟨returns, uses, grows⟩, ran⟩
  refine ((adds' value ran).ends middle).imp ?_
  rintro _ final ⟨returns', uses', grows'⟩
  exact ⟨returns'.trans returns, uses'.trans uses, grows.trans grows'⟩

theorem bind {first : BodyM α} {next : α → BodyM β} (adds : Adds allowed cost first)
    (adds' : ∀ value, Adds allowed cost' (next value)) : Adds allowed (cost + cost') (first >>= next) :=
  adds.bind_of_run fun value _ _ _ => adds' value

theorem imp {action : BodyM α} (adds : Adds allowed cost action)
    (implies : ∀ item, allowed item → allowed' item) (cheaper : cost ≤ cost') :
    Adds allowed' cost' action where
  ends body := (adds.ends body).mono
    (fun _ _ ⟨returns, uses, grows⟩ => ⟨returns, uses, (grows.imp implies).mono cheaper⟩)
    (fun _ _ failed => failed)
  unmarks unmarked := adds.unmarks fun item allow => unmarked item (implies item allow)

theorem lift {action : DraftM α} (writes : Writes allowed cost action) :
    Adds allowed cost (liftM action : BodyM α) := by
  refine ⟨fun body => ?_, fun unmarked => .lift (writes.overlooks unmarked)⟩
  rw [ends_lift]
  exact (writes.grows body.draft).mono fun _ _ grows => ⟨rfl, rfl, grows⟩

theorem freshLabels {stem : String} {targets : List Label} {next : List Label → BodyM α}
    (adds : ∀ labels : List Label, labels.length = targets.length → Adds allowed cost (next labels)) :
    Adds allowed (0 + cost) (liftM (Stmt.freshLabels stem targets) >>= next) := by
  have fresh (targets : List Label) : Writes allowed 0 (Stmt.freshLabels stem targets) := by
    induction targets with
    | nil => exact .pure []
    | cons first rest ih => exact (Writes.freshLabel stem).bind fun _ => ih.bind fun _ => .pure _
  have sized (body : Body) : Ends (liftM (Stmt.freshLabels stem targets) : BodyM (List Label)) body
      (fun labels _ => labels.length = targets.length) (fun _ _ => False) := by
    rw [ends_lift, drafts_freshLabels, List.length_map, List.length_range']
  exact (Adds.lift (fresh targets)).bind_of_run fun labels _ _ ran => adds labels ((sized _).of_run ran)

theorem pure (value : α) : Adds allowed 0 (Pure.pure value) :=
  ⟨fun body => ⟨rfl, rfl, .refl body.draft⟩, fun _ => .pure value⟩

theorem throw (error : CompileError) : Adds allowed cost (throw error : BodyM α) :=
  ⟨fun _ => trivial, fun _ => .throw error⟩

theorem silent {action : BodyM α} (quiet : ∀ body, Ends action body
    (fun _ final => final.returns = body.returns ∧ final.usesReturn = body.usesReturn ∧
      final.draft = body.draft) (fun _ _ => True)) (unmarks : Unmarks action action) :
    Adds allowed 0 action := by
  refine ⟨fun body => (quiet body).imp ?_, fun _ => unmarks⟩
  rintro _ final ⟨returns, uses, same⟩
  exact ⟨returns, uses, same ▸ .refl _⟩

theorem expect (place : Place) (expected : ValueKind) (expr : Expr) :
    Adds allowed 0 (expr.expect place expected) := by
  unfold Expr.expect
  split
  · exact .pure ()
  · exact .throw _

theorem arrayShape (name : VarName) (count : Nat) : Adds allowed 0 (Body.arrayShape name count) := by
  refine silent (fun body => (arrayShape_ends name count body).mono ?_ (fun _ _ _ => trivial))
    (.arrayShape name count)
  rintro shape final ⟨_, _, rfl⟩
  exact ⟨rfl, rfl, rfl⟩

end Adds

def Spends (cost : Nat) (action : BodyM α) : Prop := Adds Item.Plain cost action

namespace Spends

variable {cost cost' : Nat}

theorem pure (value : α) : Spends 0 (Pure.pure value) := Adds.pure value

theorem throw (error : CompileError) : Spends cost (throw error : BodyM α) := Adds.throw error

theorem unmarks {action : BodyM α} (spends : Spends cost action) : Unmarks action action :=
  Adds.unmarks spends fun _ => Item.Plain.unmarked

theorem mono {action : BodyM α} (spends : Spends cost action) (cheaper : cost ≤ cost') :
    Spends cost' action := Adds.imp spends (fun _ plain => plain) cheaper

theorem entering {action : BodyM α} (spends : Spends cost action) : Adds Item.Entering cost action :=
  Adds.imp spends (fun _ => .inl) (Nat.le_refl _)

theorem bind {first : BodyM α} {next : α → BodyM β} (spends : Spends cost first)
    (spends' : ∀ value, Spends cost' (next value)) : Spends (cost + cost') (first >>= next) :=
  Adds.bind spends spends'

theorem lift {action : DraftM α} (writes : Writes Item.Plain cost action) :
    Spends cost (liftM action : BodyM α) := Adds.lift writes

theorem arrayShape (name : VarName) (count : Nat) : Spends 0 (Body.arrayShape name count) :=
  Adds.arrayShape name count

theorem require (result : Except CompileError α) : Spends 0 (Body.require result) := by
  cases result with
  | ok value => exact .pure value
  | error error => exact .throw error

theorem emit (simple : insn.isSimple = true) :
    Spends 6 (liftM (Draft.emit insn) : BodyM Unit) :=
  lift (.emit (.simple simple) (Nat.le_of_eq (Insn.load_of_simple simple)))

theorem call {helper : Helper} (other : helper ≠ .gosubPush) :
    Spends 6 (liftM (Draft.call helper) : BodyM Unit) := lift (.emit other (Nat.le_refl 6))

theorem place (label : Label) : Spends 0 (liftM (Draft.place label) : BodyM Unit) := lift (.place trivial)

theorem freshLabel (stem : String) : Spends 0 (liftM (Draft.freshLabel stem) : BodyM Label) :=
  lift (.freshLabel stem)

theorem slotOf (name : String) (initial : Initial) :
    Spends 12 (liftM (Draft.slotOf name initial) : BodyM Nat) := lift (.slotOf name initial)

end Spends

namespace Writes

theorem simple (isSimple : insn.isSimple = true) :
    Writes Item.Plain 6 (Draft.emit insn) :=
  .emit (.simple isSimple) (Nat.le_of_eq (Insn.load_of_simple isSimple))

theorem call {helper : Helper} (other : helper ≠ .gosubPush) : Writes Item.Plain 6 (Draft.call helper) :=
  .emit other (Nat.le_refl 6)

end Writes

theorem Spends.closeLoop {next : Option Loop → BodyM α} (spends : ∀ loop, Spends cost (next loop)) :
    Spends cost (Body.closeLoop >>= next) := by
  refine ⟨fun body => ?_, fun _ => Unmarks.closeLoop.bind fun loop => (spends loop).unmarks⟩
  rw [ends_bind, ends_closeLoop]
  exact (spends _).ends _

theorem Spends.openLoop (loop : Loop) : Spends 0 (Body.openLoop loop) :=
  .silent (fun _ => ⟨rfl, rfl, rfl⟩) fun _ => rfl

theorem Spends.pushText (text : String) :
    Spends (6 + 6 * text.length) (liftM (Draft.pushText text) : BodyM Unit) :=
  lift (.emit trivial (Insn.pushText_load text))

end BasicCompiler
