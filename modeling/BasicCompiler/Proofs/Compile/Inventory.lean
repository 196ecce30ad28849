import BasicCompiler.Proofs.Compile.StraightCode

/-!
What statements add to a main method: code that is at most a constant factor larger than the
statements, a mark for every line, and a return point for every call of a subroutine.
-/

namespace BasicCompiler

open Draft Body

variable {item : Item} {cost : Nat}

variable {α β : Type}

def Item.Ordinary (usesReturn : Bool) : Item → Prop
  | .sourceLine _ | .insn (.call _) => True
  | .request helper => helper = .gosubPop ∧ usesReturn = true
  | item => item.Plain

theorem Item.Plain.ordinary (plain : item.Plain) (usesReturn : Bool) :
    item.Ordinary usesReturn := by
  cases item with
  | insn insn =>
      cases insn with
      | call => trivial
      | _ => exact plain
  | label => exact plain
  | sourceLine | request => exact plain.elim

theorem Item.Plain.noLine (plain : item.Plain) : item.line? = none := by
  cases item with
  | sourceLine => exact plain.elim
  | insn | label | request => rfl

theorem Item.Plain.noEntry (plain : item.Plain) : item ≠ .insn (.call .gosubPush) := by
  rintro rfl
  exact plain rfl

theorem Item.Entering.ordinary (entering : item.Entering) (usesReturn : Bool) :
    item.Ordinary usesReturn := by
  rcases entering with plain | rfl
  · exact plain.ordinary usesReturn
  · trivial

theorem Item.Entering.noLine (entering : item.Entering) : item.line? = none := by
  rcases entering with plain | rfl
  · exact plain.noLine
  · rfl

def Item.entries (items : List Item) : Nat := items.count (.insn (.call .gosubPush))

theorem Item.entries_append (first second : List Item) :
    entries (first ++ second) = entries first + entries second := List.count_append

theorem Item.Ordinary.mono {usesReturn usesReturn' : Bool} (kept : usesReturn = true → usesReturn' = true)
    (ordinary : item.Ordinary usesReturn) :
    item.Ordinary usesReturn' := by
  cases item with
  | request helper => exact ⟨ordinary.1, kept ordinary.2⟩
  | insn insn =>
      cases insn with
      | _ => exact ordinary
  | label | sourceLine => exact ordinary

/-- A main method after statements that mark `lines` and have `sites` calls of subroutines. -/
structure Body.Advances (lines : List LineNumber) (sites cost : Nat) (body final : Body) : Prop where
  grows : body.draft.Grows (Item.Ordinary final.usesReturn) cost final.draft
  lines : Item.sourceLines final.draft.items.toList =
    Item.sourceLines body.draft.items.toList ++ lines
  returns : ∃ added : List Label, added.length = sites ∧
    final.returns.targets.toList = body.returns.targets.toList ++ added
  kept : body.usesReturn = true → final.usesReturn = true
  /-- Only calls of subroutines are recorded. -/
  entries : sites = 0 →
    Item.entries final.draft.items.toList = Item.entries body.draft.items.toList

theorem Body.Advances.trans {lines lines' : List LineNumber} {sites sites' cost' : Nat}
    {body middle final : Body} (first : body.Advances lines sites cost middle)
    (second : middle.Advances lines' sites' cost' final) :
    body.Advances (lines ++ lines') (sites + sites') (cost + cost') final where
  grows := (first.grows.imp fun _ => .mono second.kept).trans second.grows
  lines := by rw [second.lines, first.lines, List.append_assoc]
  returns := by
    obtain ⟨added, length, targets⟩ := first.returns
    obtain ⟨added', length', targets'⟩ := second.returns
    exact ⟨added ++ added', by simp [length, length'], by rw [targets', targets, List.append_assoc]⟩
  kept := fun uses => second.kept (first.kept uses)
  entries := fun none => (second.entries (Nat.eq_zero_of_add_eq_zero_left none)).trans
    (first.entries (Nat.eq_zero_of_add_eq_zero_right none))

theorem Body.Advances.returns_size {lines : List LineNumber} {sites : Nat} {body final : Body}
    (advances : body.Advances lines sites cost final) :
    final.returns.size = body.returns.size + sites := by
  obtain ⟨added, rfl, targets⟩ := advances.returns
  have sizes := congrArg List.length targets
  simpa [ReturnTable.size] using sizes

structure Advances (lines : List LineNumber) (sites cost : Nat) (action : BodyM α) : Prop where
  ends : ∀ body : Body, Ends action body (fun _ final => body.Advances lines sites cost final)
    (fun _ _ => True)
  unmarks : lines = [] → Unmarks action action

theorem Spends.advances {action : BodyM α} (spends : Spends cost action) :
    Advances [] 0 cost action := by
  refine ⟨fun body => (spends.ends body).imp ?_, fun _ => spends.unmarks⟩
  rintro _ final ⟨returns, uses, grows⟩
  obtain ⟨added, items, plain⟩ := grows.items
  have noLine : Item.sourceLines added = [] :=
    List.filterMap_eq_nil_iff.mpr fun item member => (plain item member).noLine
  have noEntry : Item.entries added = 0 :=
    List.count_eq_zero.mpr fun member => (plain _ member).noEntry rfl
  refine ⟨grows.imp fun _ plain => plain.ordinary _, ?_, ⟨[], rfl, by simp [returns]⟩,
    by rw [uses]; exact id, fun _ => ?_⟩
  · rw [items, Item.sourceLines_append, noLine]
  · rw [items, Item.entries_append, noEntry, Nat.add_zero]

namespace Advances

variable {lines lines' : List LineNumber} {sites sites' cost cost' : Nat}

theorem bind {first : BodyM α} {next : α → BodyM β} (advances : Advances lines sites cost first)
    (advances' : ∀ value, Advances lines' sites' cost' (next value)) :
    Advances (lines ++ lines') (sites + sites') (cost + cost') (first >>= next) where
  ends body := (advances.ends body).bind fun value middle before => ((advances' value).ends middle).mono
    (fun _ _ after => before.trans after) (fun _ _ failed => failed)
  unmarks none := (advances.unmarks (List.append_eq_nil_iff.mp none).1).bind fun value =>
    (advances' value).unmarks (List.append_eq_nil_iff.mp none).2

theorem mono {action : BodyM α} (advances : Advances lines sites cost action) (cheaper : cost ≤ cost') :
    Advances lines sites cost' action where
  ends body := (advances.ends body).mono
    (fun _ _ ⟨grows, lines, returns, kept, entries⟩ =>
      ⟨grows.mono cheaper, lines, returns, kept, entries⟩)
    (fun _ _ failed => failed)
  unmarks := advances.unmarks

theorem starting {first : BodyM α} {next : α → BodyM β} (spends : Spends cost first)
    (advances : ∀ value, Advances lines sites cost' (next value)) :
    Advances lines sites (cost + cost') (first >>= next) := by
  have whole := spends.advances.bind advances
  rwa [List.nil_append, Nat.zero_add] at whole

theorem ending {first : BodyM α} {next : α → BodyM β} (advances : Advances lines sites cost first)
    (spends : ∀ value, Spends cost' (next value)) :
    Advances lines sites (cost + cost') (first >>= next) := by
  have whole := advances.bind fun value => (spends value).advances
  rwa [List.append_nil] at whole

theorem addReturn (label : Label) {next : Nat → BodyM α} (adds : ∀ site, Adds Item.Entering cost (next site)) :
    Advances [] 1 cost (Body.addReturn label >>= next) := by
  have unmarks : Unmarks (Body.addReturn label) (Body.addReturn label) := fun _ => rfl
  refine ⟨fun body => ?_, fun _ => unmarks.bind fun site =>
    (adds site).unmarks fun _ => Item.Entering.unmarked⟩
  rw [ends_bind, ends_addReturn]
  refine ((adds _).ends _).imp ?_
  rintro _ final ⟨returns, uses, grows⟩
  obtain ⟨added, items, entering⟩ := grows.items
  have none : Item.sourceLines added = [] :=
    List.filterMap_eq_nil_iff.mpr fun item member => (entering item member).noLine
  refine ⟨grows.imp fun _ entering => entering.ordinary _, ?_, ⟨[label], rfl, ?_⟩, by rw [uses]; exact id, nofun⟩
  · rw [items, Item.sourceLines_append, none]
  · rw [returns]
    exact Array.toList_push

theorem request : Advances [] 0 0 (do
    Body.markReturn
    addItem (.request .gosubPop)) := by
  have unmarks : Unmarks markReturn markReturn := fun _ => rfl
  refine ⟨fun body => ?_, fun _ => unmarks.bind fun _ => .lift (.addItem rfl)⟩
  rw [ends_bind, ends_markReturn, ends_lift, drafts_addItem]
  refine ⟨.add ⟨rfl, rfl⟩ (Nat.le_refl _), ?_, ⟨[], rfl, (List.append_nil _).symm⟩, fun _ => rfl, fun _ => ?_⟩
  · rw [add_items, Item.sourceLines_append]
    rfl
  · rw [add_items, Item.entries_append]
    rfl

end Advances

namespace Stmt

theorem compileGoto_spends (lines : LineSet) (line : LineNumber) : Spends 6 (compileGoto lines line) :=
  (Spends.require _).bind fun _ => .emit rfl

theorem enterSub_writes (site : Nat) (target : Label) :
    Writes Item.Entering 18 (enterSub site target) := by
  have simple {insn : Insn} (isSimple : insn.isSimple = true) : Writes Item.Entering 6 (emit insn) :=
    .emit (.inl (.simple isSimple)) (Nat.le_of_eq (Insn.load_of_simple isSimple))
  have called : Writes Item.Entering 6 (Draft.call .gosubPush) := .emit (.inr rfl) (Nat.le_refl 6)
  exact (simple rfl).bind fun _ => called.bind fun _ => simple rfl

theorem compileGosub_advances (lines : LineSet) (line : LineNumber) :
    Advances [] 1 18 (compileGosub lines line) :=
  (Advances.starting (Spends.require _) fun _ => .starting (Spends.freshLabel _) fun after =>
    .addReturn after fun site => (Adds.lift (enterSub_writes site _)).bind fun _ =>
      (Spends.place after).entering).mono (by decide)

theorem compileReturn_advances : Advances [] 0 6 compileReturn := by
  have jumped : Advances [] 0 6 (liftM (Draft.goto MainLabel.returnDispatch) : BodyM Unit) :=
    (Spends.emit rfl).advances
  have all := Advances.request.bind fun _ => jumped
  rw [bind_assoc] at all
  exact all

theorem switch_writes (targets : List Label) (default : Label) :
    Writes Item.Plain (16 + 4 * targets.length) (emit (.tableSwitch 1 targets default)) :=
  .emit rfl (Nat.le_refl _)

theorem jumpTo_spends (targets : List Label) :
    Spends (16 + 4 * targets.length) (if targets.isEmpty then
        (op Opcode.pop : BodyM Unit)
      else do
        let next ← freshLabel "on_next"
        emit (.tableSwitch 1 targets next)
        place next) := by
  split
  · exact (Spends.emit rfl).mono (by omega)
  · exact ((Spends.freshLabel _).bind fun next => (Spends.lift (switch_writes targets next)).bind fun _ =>
      .place next).mono (by omega)

theorem compileOnGoto_spends (lines : LineSet) (selector : Expr) (numbers : List LineNumber) :
    Spends (60 * (1 + selector.size + numbers.length)) (compileOnGoto lines selector numbers) := by
  unfold compileOnGoto
  rcases requireLabels_bind lines numbers _ with ⟨error, thrown⟩ | known
  · rw [thrown]
    exact .throw error
  rw [known]
  exact ((compileSelector_codes selector).spends.bind fun _ => jumpTo_spends _).mono
    (by rw [List.length_map]; omega)

theorem enterSubs_writes (site : Nat) (stubs targets : List Label) :
    Writes Item.Entering (18 * targets.length) (enterSubs site stubs targets) := by
  induction targets generalizing stubs with
  | nil => cases stubs <;> exact .pure ()
  | cons target rest ih =>
      cases stubs with
      | nil => exact (Writes.pure ()).mono (Nat.zero_le _)
      | cons stub stubs =>
          refine ((Writes.place (.inl trivial)).bind fun _ => (enterSub_writes site target).bind fun _ =>
            ih stubs).mono ?_
          rw [List.length_cons]
          omega

theorem enterStubs_adds (site : Nat) (targets : List Label) (after : Label) :
    Adds Item.Entering (16 + 22 * targets.length) (do
      let stubs ← freshLabels "on_gosub" targets
      emit (.tableSwitch 1 stubs after)
      enterSubs site stubs targets
      place after : BodyM Unit) := by
  refine (Adds.freshLabels fun stubs length => ?_).imp (fun _ entering => entering)
    (Nat.le_of_eq (Nat.zero_add _))
  have entered := (Spends.lift (switch_writes stubs after)).entering.bind fun _ =>
    (Adds.lift (enterSubs_writes site stubs targets)).bind fun _ => (Spends.place after).entering
  rw [length] at entered
  exact entered.imp (fun _ entering => entering) (by omega)

theorem callOne_advances (targets : List Label) :
    Advances [] (if targets.isEmpty then 0 else 1) (16 + 22 * targets.length) (if targets.isEmpty then
        (op Opcode.pop : BodyM Unit)
      else do
        let after ← freshLabel "gosub_return"
        let site ← addReturn after
        let stubs ← freshLabels "on_gosub" targets
        emit (.tableSwitch 1 stubs after)
        enterSubs site stubs targets
        place after) := by
  cases targets with
  | nil => exact (Spends.emit rfl).advances.mono (by decide)
  | cons first rest =>
      exact (Advances.starting (Spends.freshLabel _) fun after => .addReturn after fun site =>
        enterStubs_adds site (first :: rest) after).mono (by omega)

theorem compileOnGosub_advances (lines : LineSet) (selector : Expr) (numbers : List LineNumber) :
    Advances [] (calls [.onGosub selector numbers]).length
      (60 * (1 + selector.size + numbers.length)) (compileOnGosub lines selector numbers) := by
  unfold compileOnGosub
  rcases requireLabels_bind lines numbers _ with ⟨error, thrown⟩ | known
  · rw [thrown]
    exact ⟨fun _ => trivial, fun _ => .throw error⟩
  rw [known]
  have chosen := callOne_advances (numbers.map LineSet.labelOf)
  have sites : (calls [.onGosub selector numbers]).length =
      if (numbers.map LineSet.labelOf).isEmpty then 0 else 1 := by cases numbers <;> rfl
  rw [List.length_map, ← sites] at chosen
  exact (Advances.starting (compileSelector_codes selector).spends fun _ => chosen).mono (by omega)

theorem compileCondition_spends (place : Place) (condition : Expr) (whenFalse : Label) :
    Spends (60 * condition.size + 18) (compileCondition place condition whenFalse) :=
  (condition.compileNumber_codes place).spends.bind fun _ => (Spends.emit rfl).bind fun _ =>
    (Spends.emit rfl).bind fun _ => .emit rfl

theorem compileFor_spends (control : VarName) (first last : Expr) (step : Option Expr) :
    Spends (60 * (first.size + last.size + (step.map Expr.size).getD 0) + 66)
      (compileFor control first last step) := by
  unfold compileFor
  dsimp only
  split
  · exact ((first.compileNumber_codes _).spends.bind fun _ => (Spends.slotOf _ _).bind fun _ =>
      (Spends.emit rfl).bind fun _ => (last.compileNumber_codes _).spends.bind fun _ =>
      (Spends.lift (.temporary _)).bind fun _ => (Spends.emit rfl).bind fun _ =>
      (compileStep_codes step _).spends.bind fun _ => (Spends.lift (.temporary _)).bind fun _ =>
      (Spends.emit rfl).bind fun _ => (Spends.freshLabel _).bind fun _ =>
      (Spends.freshLabel _).bind fun _ => (Spends.freshLabel _).bind fun _ =>
      (Spends.emit rfl).bind fun _ => (Spends.place _).bind fun _ => .openLoop _).mono (by omega)
  · exact .throw _

theorem closeCounting_writes (counter limit step : Nat) (test body done : Label) :
    Writes Item.Plain 102 (closeCounting counter limit step test body done) := by
  apply Writes.mono
  · iterate 4 apply (Writes.simple rfl).bind; intro _
    apply (Writes.freshLabel _).bind; intro _
    apply (Writes.place trivial).bind; intro _
    iterate 9 apply (Writes.simple rfl).bind; intro _
    apply (Writes.place trivial).bind; intro _
    iterate 4 apply (Writes.simple rfl).bind; intro _
    exact .place trivial
  · decide

theorem compileNext_spends (name : Option VarName) : Spends 102 (compileNext name) := by
  refine .closeLoop fun loop => ?_
  cases loop with
  | none => exact .throw _
  | some loop =>
      cases loop with
      | conditional top done => exact .throw _
      | counting control counter limit step test body done =>
          have counted := Spends.lift (closeCounting_writes counter limit step test body done)
          cases name with
          | none => exact counted
          | some found =>
              dsimp only
              split
              · exact counted
              · exact .throw _

theorem compileNexts_spends (controls : List VarName) :
    Spends (102 * (1 + controls.length)) (compileNexts controls) := by
  have named (names : List VarName) : Spends (102 * names.length) (compileNamedNexts names) := by
    induction names with
    | nil => exact .pure ()
    | cons first rest ih =>
        refine ((compileNext_spends _).bind fun _ => ih).mono ?_
        rw [List.length_cons]
        omega
  unfold compileNexts
  split
  · exact (compileNext_spends none).mono (by omega)
  · exact (named controls).mono (by omega)

theorem compileWhile_spends (condition : Expr) :
    Spends (60 * condition.size + 18) (compileWhile condition) := by
  exact ((Spends.freshLabel _).bind fun _ => (Spends.freshLabel _).bind fun _ =>
    (Spends.place _).bind fun _ => (compileCondition_spends _ condition _).bind fun _ => .openLoop _).mono
    (by omega)

theorem compileWend_spends : Spends 6 compileWend := by
  refine .closeLoop fun loop => ?_
  cases loop with
  | none => exact .throw _
  | some loop =>
      cases loop with
      | counting => exact .throw _
      | conditional top done => exact (Spends.emit rfl).bind fun _ => .place done

def marked (surroundings : Surroundings) (stmts : List Stmt) : List LineNumber :=
  if surroundings.lineNumbers then markers stmts else []

theorem marked_eq_nil {surroundings : Surroundings} {stmts : List Stmt} (none : markers stmts = []) :
    marked surroundings stmts = [] := by
  simp [marked, none]

theorem marked_append {surroundings : Surroundings} {whole front back : List Stmt}
    (split : markers whole = markers front ++ markers back) :
    marked surroundings whole = marked surroundings front ++ marked surroundings back := by
  unfold marked
  split
  · exact split
  · rfl

theorem compileLine_advances (surroundings : Surroundings) (number : LineNumber) :
    Advances (marked surroundings [.line number]) 0 0
      (compileLine surroundings.lineNumbers number : BodyM Unit) := by
  refine ⟨fun body => ?_, fun none => ?_⟩
  rotate_left
  · have unmarked : surroundings.lineNumbers = false := by
      cases marks : surroundings.lineNumbers with
      | false => rfl
      | true => cases (if_pos marks).symm.trans none
    rw [unmarked]
    exact .lift (.bind (.addItem rfl) fun _ => .pure ())
  rw [ends_lift, compileLine, drafts_bind, drafts_place, marked]
  have placed : body.draft.Grows (Item.Ordinary body.usesReturn) 0
      (body.draft.add (.label (LineSet.labelOf number))) := .add trivial (Nat.le_refl _)
  split
  · have noted {draft : Draft} : draft.Grows (Item.Ordinary body.usesReturn) 0
        (draft.add (.sourceLine number)) := .add trivial (Nat.le_refl _)
    rw [drafts_addItem]
    refine ⟨placed.trans noted, ?_, ⟨[], rfl, (List.append_nil _).symm⟩, id, fun _ => ?_⟩
    · simp only [add_items, Item.sourceLines_append, List.append_assoc]
      rfl
    · simp only [add_items, Item.entries_append]
      rfl
  · rw [drafts_pure]
    refine ⟨placed, ?_, ⟨[], rfl, (List.append_nil _).symm⟩, id, fun _ => ?_⟩
    · simp only [add_items, Item.sourceLines_append]
      rfl
    · simp only [add_items, Item.entries_append]
      rfl

theorem enterThen_spends (condition : Expr) (elseBody : List Stmt) :
    Spends (60 * condition.size + 18) (enterThen condition elseBody) := by
  unfold enterThen
  refine ((Spends.freshLabel _).bind fun done => ?_).mono (Nat.le_of_eq (Nat.zero_add _))
  split
  · exact (compileCondition_spends _ condition done).bind fun _ => .pure _
  · exact ((Spends.freshLabel _).bind fun otherwise =>
      (compileCondition_spends _ condition otherwise).bind fun _ => .pure _).mono (by omega)

theorem enterElse_spends (done otherwise : Label) : Spends 6 (enterElse done otherwise) :=
  (Spends.emit rfl).bind fun _ => .place otherwise

variable {surroundings : Surroundings}

theorem advances_of_spends {stmt : Stmt} (spends : Spends cost (compile surroundings stmt))
    (cheaper : cost ≤ 120 * stmt.size) (noMarker : markers [stmt] = []) (noCall : calls [stmt] = []) :
    Advances (marked surroundings [stmt]) (calls [stmt]).length (120 * stmt.size)
      (compile surroundings stmt) := by
  rw [marked_eq_nil noMarker, noCall]
  exact (spends.mono cheaper).advances

mutual

theorem compile_advances (stmt : Stmt) :
    Advances (marked surroundings [stmt]) (calls [stmt]).length (120 * stmt.size)
      (compile surroundings stmt) := by
  cases stmt with
  | conditional condition thenBody elseBody =>
      have closed (done otherwise : Label) : Advances (marked surroundings elseBody)
          (calls elseBody).length (6 + 120 * sizes elseBody) (if elseBody.isEmpty = true then
            (place done : BodyM Unit)
          else do
            enterElse done otherwise
            compileAll surroundings elseBody
            place done) := by
        cases elseBody with
        | nil =>
            rw [marked_eq_nil markers_nil]
            exact (Spends.place done).advances.mono (Nat.zero_le _)
        | cons first rest =>
            exact .starting (enterElse_spends done otherwise) fun _ =>
              (compileAll_advances (first :: rest)).ending fun _ => .place done
      rw [compile_conditional, marked_append (markers_conditional condition thenBody elseBody),
        calls_conditional, List.length_append]
      refine (Advances.starting (enterThen_spends condition elseBody) fun labels =>
        (compileAll_advances thenBody).bind fun _ => closed labels.1 labels.2).mono ?_
      simp only [size]
      omega
  | line number =>
      rw [compile]
      exact compileLine_advances surroundings number
  | assign target value =>
      exact advances_of_spends (compileAssign_codes target value).spends
        (by simp only [size]; omega) rfl rfl
  | dim arrays =>
      exact advances_of_spends (compileDims_codes arrays).spends
        (by simp only [size]; omega) rfl rfl
  | print items =>
      exact advances_of_spends (compilePrint_codes items).spends
        (by simp only [size]; omega) rfl rfl
  | input prompt targets =>
      have length : (prompt.getD "" ++ "? ").length = (prompt.getD "").length + 2 := by
        rw [String.length_append]
        rfl
      exact advances_of_spends (compileAsks_codes _ targets).spends
        (by simp only [size]; omega) rfl rfl
  | goto target =>
      exact advances_of_spends (compileGoto_spends _ target)
        (by simp only [size]; omega) rfl rfl
  | gosub target =>
      rw [compile, marked_eq_nil rfl]
      exact (compileGosub_advances _ target).mono (by simp [size])
  | returnFromSub =>
      rw [compile, marked_eq_nil rfl]
      exact compileReturn_advances.mono (by simp [size])
  | onGoto selector targets =>
      exact advances_of_spends (compileOnGoto_spends _ selector targets)
        (by simp only [size]; omega) rfl rfl
  | onGosub selector targets =>
      rw [compile, marked_eq_nil rfl]
      exact (compileOnGosub_advances _ selector targets).mono (by simp only [size]; omega)
  | forLoop control first last step =>
      exact advances_of_spends (compileFor_spends control first last step)
        (by simp only [size]; omega) rfl rfl
  | next controls =>
      exact advances_of_spends (compileNexts_spends controls)
        (by simp only [size]; omega) rfl rfl
  | whileLoop condition =>
      exact advances_of_spends (compileWhile_spends condition)
        (by simp only [size]; omega) rfl rfl
  | wend => exact advances_of_spends compileWend_spends (by simp [size]) rfl rfl
  | data items => exact advances_of_spends (.pure ()) (Nat.zero_le _) rfl rfl
  | read targets =>
      exact advances_of_spends (compileReads_codes targets).spends
        (by simp only [size]; omega) rfl rfl
  | restore start =>
      exact advances_of_spends (compileRestore_codes _ start).spends (by simp [size]) rfl rfl
  | remark text => exact advances_of_spends (.pure ()) (Nat.zero_le _) rfl rfl
  | finish => exact advances_of_spends (.emit rfl) (by simp [size]) rfl rfl
  | stop => exact advances_of_spends (.emit rfl) (by simp [size]) rfl rfl

theorem compileAll_advances (stmts : List Stmt) :
    Advances (marked surroundings stmts) (calls stmts).length (120 * sizes stmts)
      (compileAll surroundings stmts) := by
  cases stmts with
  | nil =>
      rw [marked_eq_nil markers_nil]
      exact (Spends.pure ()).advances
  | cons first rest =>
      have whole := (compile_advances first).bind fun _ => compileAll_advances rest
      rw [marked_append (markers_cons first rest), calls_cons, List.length_append, sizes, Nat.mul_add, compileAll]
      exact whole

end

end Stmt

end BasicCompiler
