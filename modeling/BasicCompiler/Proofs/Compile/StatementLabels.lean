import BasicCompiler.Proofs.Compile.StraightCode
import BasicCompiler.Proofs.Program.Statements

/-!
The labels of statements. An open loop owes the labels of its end, a `RETURN` owes the label of the
dispatch, and a line defines the label it is known by. Statements pay for the lines they mark.
-/

namespace BasicCompiler

open Draft Body

def Loop.owed : Loop → List Label
  | counting _ _ _ _ test _ done => [test, done]
  | conditional _ done => [done]

def Loop.known : Loop → List Label
  | counting _ _ _ _ _ body done => [body, done]
  | conditional top _ => [top]

namespace Body

def dispatch (body : Body) : List Label := if body.usesReturn then [MainLabel.returnDispatch] else []

def owed (body : Body) : List Label := body.loops.flatMap Loop.owed ++ body.dispatch

def spare (body : Body) : List Label := if body.usesReturn then [] else [MainLabel.returnDispatch]

def known (body : Body) : List Label :=
  body.loops.flatMap Loop.known ++ (body.dispatch ++ body.returns.targets.toList)

def Tallied (owed spare known : List Label) (body : Body) : Prop :=
  body.draft.Tallied (body.owed ++ owed) (body.spare ++ spare) (body.known ++ known)

namespace Tallied

variable {owed spare known : List Label} {body final : Body}

theorem perm {owed' : List Label} (tallied : body.Tallied owed spare known)
    (same : owed.Perm owed') : body.Tallied owed' spare known :=
  Draft.Tallied.perm tallied (.append_left _ same) (.refl _)

theorem forget {known' : List Label} (tallied : body.Tallied owed spare known)
    (fewer : ∀ label ∈ known', label ∈ known) : body.Tallied owed spare known' :=
  Draft.Tallied.forget tallied fun label member =>
    (List.mem_append.mp member).elim (List.mem_append_left _)
      fun isKnown => List.mem_append_right _ (fewer label isKnown)

theorem agrees (tallied : final.draft.Tallied (body.owed ++ owed) (body.spare ++ spare)
    (body.known ++ known)) (agrees : body.Agrees final) : final.Tallied owed spare known := by
  simpa only [Tallied, Body.owed, Body.spare, Body.known, dispatch, agrees.loops, agrees.returns,
    agrees.usesReturn] using tallied

theorem run {α : Type} {action : BodyM α} (tallies : Tallies action)
    (tallied : body.Tallied owed spare known) :
    Ends action body (fun _ final => final.Tallied owed spare known) Stopped :=
  (tallies _ _ _ body tallied).imp (fun _ _ done => Tallied.agrees done.1 done.2)

theorem freshLabel (stem : String) (tallied : body.Tallied owed spare known) (isStem : stem ≠ "line") :
    Ends (liftM (Draft.freshLabel stem) : BodyM Label) body
      (fun label final => final.Tallied (label :: owed) spare (label :: known)) Stopped := by
  rw [ends_lift]
  refine (Draft.Tallied.freshLabel stem tallied isStem).mono fun label draft labelled => ?_
  exact (labelled.perm List.perm_middle.symm (.refl _)).forget fun other member =>
    List.perm_middle.mem_iff.mp member

theorem place {label : Label} (tallied : body.Tallied (label :: owed) spare known) :
    Ends (liftM (Draft.place label) : BodyM Unit) body
      (fun _ final => final.Tallied owed spare known) Stopped :=
  (Draft.Tallied.perm tallied List.perm_middle (.refl _)).label label

theorem emit {insn : Insn} (tallied : body.Tallied owed spare known)
    (jumps : ∀ label ∈ insn.labels, label ∈ known) :
    Ends (liftM (Draft.emit insn) : BodyM Unit) body
      (fun _ final => final.Tallied owed spare known) Stopped :=
  Draft.Tallied.insn insn tallied fun label member => List.mem_append_right _ (jumps label member)

theorem openLoop_iff {loop : Loop} {rest : List Loop} (loops : body.loops = loop :: rest) :
    body.Tallied owed spare known ↔
      Tallied (loop.owed ++ owed) spare (loop.known ++ known) { body with loops := rest } := by
  obtain ⟨draft, _, returns, usesReturn, dimensions⟩ := body
  obtain rfl : _ = loop :: rest := loops
  constructor
  · intro tallied
    refine (Draft.Tallied.perm tallied ?_ (.refl _)).forget ?_
    · simp only [Body.owed, dispatch, List.flatMap_cons, List.append_assoc]
      exact (List.perm_append_comm_assoc _ _ _).trans (.append_left _ (List.perm_append_comm_assoc _ _ _))
    · simp only [Body.known, dispatch, List.flatMap_cons, List.mem_append]
      tauto
  · intro tallied
    refine (Draft.Tallied.perm tallied ?_ (.refl _)).forget ?_
    · simp only [Body.owed, dispatch, List.flatMap_cons, List.append_assoc]
      exact (List.Perm.append_left _ (List.perm_append_comm_assoc _ _ _)).trans
        (List.perm_append_comm_assoc _ _ _)
    · simp only [Body.known, dispatch, List.flatMap_cons, List.mem_append]
      tauto

theorem openLoop (loop : Loop)
    (tallied : body.Tallied (loop.owed ++ owed) spare (loop.known ++ known)) :
    Tallied owed spare known { body with loops := loop :: body.loops } :=
  (openLoop_iff rfl).mpr tallied

theorem addReturn {label : Label} (tallied : body.Tallied owed spare (label :: known)) :
    Tallied owed spare (label :: known)
      { body with returns := ⟨body.returns.targets.push label⟩ } := by
  refine Draft.Tallied.forget tallied ?_
  simp only [Body.known, dispatch, Array.toList_push, List.mem_append, List.mem_cons]
  tauto

theorem markReturn (tallied : body.Tallied owed spare known) :
    Tallied owed spare (MainLabel.returnDispatch :: known) { body with usesReturn := true } := by
  obtain ⟨draft, loops, returns, usesReturn, dimensions⟩ := body
  cases usesReturn with
  | true =>
      refine Draft.Tallied.forget tallied ?_
      simp only [Body.known, dispatch, List.mem_append, List.mem_cons, if_true]
      tauto
  | false =>
      refine (Draft.Tallied.perm (Draft.Tallied.claim tallied) ?_ (.refl _)).forget ?_
      · simp only [Body.owed, dispatch, Bool.false_eq_true, if_false, if_true, List.append_nil,
          List.append_assoc]
        exact List.perm_middle.symm
      · simp only [Body.known, dispatch, Bool.false_eq_true, if_false, if_true, List.mem_append,
          List.mem_cons]
        tauto

theorem nodup (tallied : body.Tallied owed spare known) : body.draft.definitions.Nodup :=
  Draft.Tallied.nodup tallied

end Tallied

end Body

namespace Stmt

variable {owed spare known : List Label} {body : Body}

theorem compileCondition_ends (place : Place) (condition : Expr) {whenFalse : Label}
    (tallied : body.Tallied owed spare known) (isKnown : whenFalse ∈ known) :
    Ends (compileCondition place condition whenFalse) body
      (fun _ final => final.Tallied owed spare known) Stopped :=
  (tallied.run (condition.compileNumber_codes place).tallies).bind fun _ _ tallied =>
    (tallied.emit (by simp [Insn.labels])).bind fun _ _ tallied =>
      (tallied.emit (by simp [Insn.labels])).bind fun _ _ tallied =>
        tallied.emit (by simpa [Insn.labels] using isKnown)

end Stmt

/-- The lines can be jumped to, and so can the end of the program. -/
structure LineSet.Reached (lines : LineSet) (known : List Label) : Prop where
  exit : MainLabel.exit ∈ known
  line : ∀ number, lines.contains number = true → labelOf number ∈ known

theorem LineSet.Reached.mono {lines : LineSet} {known known' : List Label}
    (reached : lines.Reached known) (more : ∀ label ∈ known, label ∈ known') : lines.Reached known' :=
  ⟨more _ reached.exit, fun number isLine => more _ (reached.line number isLine)⟩

def Settles (lines : LineSet) (marked : List LineNumber) (action : BodyM Unit) : Prop :=
  ∀ owed spare known (body : Body), lines.Reached known →
    body.Tallied (marked.map LineSet.labelOf ++ owed) spare known →
    Ends action body (fun _ final => final.Tallied owed spare known) Stopped

theorem Tallies.settles {lines : LineSet} {action : BodyM Unit} (tallies : Tallies action) :
    Settles lines [] action :=
  fun _ _ _ _ _ tallied => tallied.run tallies

theorem Settles.bind {lines : LineSet} {front back : List LineNumber} {first next : BodyM Unit}
    (settles : Settles lines front first) (settles' : Settles lines back next) :
    Settles lines (front ++ back) (do first; next) := by
  intro owed spare known body reached tallied
  rw [List.map_append, List.append_assoc] at tallied
  exact (settles _ spare known body reached tallied).bind fun _ middle tallied =>
    settles' owed spare known middle reached tallied

namespace Stmt

variable {lines : LineSet} {owed spare known : List Label} {body : Body}

theorem compileLine_settles (lineNumbers : Bool) (number : LineNumber) :
    Settles lines [number] (compileLine lineNumbers number) := by
  intro owed spare known body reached tallied
  have placed := (Draft.Tallied.perm tallied List.perm_middle (.refl _)).label (LineSet.labelOf number)
  rw [ends_lift, compileLine, drafts_bind, drafts_place]
  cases lineNumbers with
  | false => exact placed
  | true => exact placed.item (.sourceLine number) rfl (by simp [Item.jumps])

theorem goto_settles {target : Label} (reached : ∀ known, lines.Reached known → target ∈ known) :
    Settles lines [] (Draft.goto target) := by
  intro owed spare known body isReached tallied
  exact tallied.emit (by simpa [Insn.labels] using reached known isReached)

theorem compileGoto_settles (line : LineNumber) : Settles lines [] (compileGoto lines line) := by
  intro owed spare known body reached tallied
  rw [compileGoto, ends_bind, ends_requireLabel]
  split
  · rename_i isLine
    exact goto_settles (fun known reached => reached.line line isLine) owed spare known body reached tallied
  · exact ⟨tallied.nodup, by simp⟩

theorem enterSub_tallied {draft : Draft} (site : Nat) {target : Label}
    (tallied : draft.Tallied owed spare known) (isKnown : target ∈ known) :
    Drafts (enterSub site target) draft fun _ final => final.Tallied owed spare known := by
  have pushed := tallied.insn (.pushInt (Int32.ofNat site)) (by simp [Insn.labels])
  have recorded := pushed.insn (.call .gosubPush) (by simp [Insn.labels])
  exact recorded.insn (.branch Opcode.goto target) (by simpa [Insn.labels] using isKnown)

theorem compileGosub_settles (line : LineNumber) : Settles lines [] (compileGosub lines line) := by
  intro owed spare known body reached tallied
  rw [compileGosub, ends_bind, ends_requireLabel]
  split
  · rename_i isLine
    refine (tallied.freshLabel "gosub_return" (by decide)).bind fun after labelled tallied => ?_
    rw [ends_bind, ends_addReturn, ends_bind, ends_lift]
    refine (enterSub_tallied _ tallied.addReturn ?_).mono fun _ draft tallied => ?_
    · simp [reached.line line isLine]
    · exact Body.Tallied.place (Body.Tallied.forget tallied fun _ => List.mem_cons_of_mem _)
  · exact ⟨tallied.nodup, by simp⟩

theorem compileReturn_settles : Settles lines [] compileReturn := by
  intro owed spare known body reached tallied
  rw [compileReturn, ends_bind, ends_markReturn, ends_bind, ends_lift]
  have requested := tallied.markReturn.item (.request .gosubPop) rfl (by simp [Item.jumps])
  have jumped := requested.insn (.branch Opcode.goto MainLabel.returnDispatch) (by simp [Insn.labels])
  exact Body.Tallied.forget jumped fun _ => List.mem_cons_of_mem _

/-- Statements that choose from a list of lines. -/
theorem choice_settles (selector : Expr) (numbers : List LineNumber) {next : List Label → BodyM Unit}
    (settles : ∀ owed spare known targets (body : Body), (∀ target ∈ targets, target ∈ known) →
      body.Tallied owed spare known →
      Ends (next targets) body (fun _ final => final.Tallied owed spare known) Stopped) :
    Settles lines [] (do
      let targets ← require (lineLabels lines numbers)
      compileSelector selector
      if targets.isEmpty then op Opcode.pop else next targets) := by
  intro owed spare known body reached tallied
  rw [ends_bind, ends_requireLabels]
  split
  · rename_i noneMissing
    refine (tallied.run (compileSelector_codes selector).tallies).bind fun _ selected tallied => ?_
    split
    · exact tallied.emit (by simp [Insn.labels])
    · refine settles owed spare known _ selected (List.forall_mem_map.mpr fun number member => ?_) tallied
      have isLine := List.find?_eq_none.mp noneMissing number member
      exact reached.line number (by simpa using isLine)
  · exact ⟨tallied.nodup, by simp⟩

theorem compileOnGoto_settles (selector : Expr) (numbers : List LineNumber) :
    Settles lines [] (compileOnGoto lines selector numbers) := by
  refine choice_settles selector numbers fun owed spare known targets body targetsKnown tallied => ?_
  refine (tallied.freshLabel "on_next" (by decide)).bind fun next labelled tallied => ?_
  refine (tallied.emit ?_).bind fun _ switched tallied => ?_
  · simpa [Insn.labels] using fun label member => .inr (targetsKnown label member)
  · exact Body.Tallied.place (tallied.forget fun _ => List.mem_cons_of_mem _)

theorem freshLabels_tallied (stem : String) (isStem : stem ≠ "line") (targets : List Label)
    {draft : Draft} (tallied : draft.Tallied owed spare known) :
    Drafts (freshLabels stem targets) draft fun labels final =>
      final.Tallied (labels ++ owed) spare (labels ++ known) ∧ labels.length = targets.length := by
  induction targets generalizing owed known draft with
  | nil => exact ⟨tallied, rfl⟩
  | cons _ rest ih =>
      rw [freshLabels, drafts_bind]
      refine (tallied.freshLabel stem isStem).mono fun label draft tallied => ?_
      rw [drafts_bind]
      refine (ih tallied).mono ?_
      rintro labels draft ⟨tallied, paired⟩
      exact ⟨(tallied.perm List.perm_middle (.refl _)).forget fun _ member =>
        List.perm_middle.mem_iff.mpr member, congrArg (· + 1) paired⟩

theorem enterSubs_tallied (site : Nat) (stubs targets : List Label) {draft : Draft}
    (tallied : draft.Tallied (stubs ++ owed) spare known) (paired : stubs.length = targets.length)
    (targetsKnown : ∀ target ∈ targets, target ∈ known) :
    Drafts (enterSubs site stubs targets) draft fun _ final => final.Tallied owed spare known := by
  induction stubs generalizing targets draft with
  | nil => exact tallied
  | cons stub stubs ih =>
      cases targets with
      | nil => cases paired
      | cons target targets =>
          obtain ⟨targetKnown, othersKnown⟩ := List.forall_mem_cons.mp targetsKnown
          rw [enterSubs, drafts_bind, drafts_place, drafts_bind]
          refine (enterSub_tallied site (tallied.label stub) targetKnown).mono fun _ draft tallied => ?_
          exact ih targets tallied (by simpa using paired) othersKnown

theorem compileOnGosub_settles (selector : Expr) (numbers : List LineNumber) :
    Settles lines [] (compileOnGosub lines selector numbers) := by
  refine choice_settles selector numbers fun owed spare known targets body targetsKnown tallied => ?_
  refine (tallied.freshLabel "gosub_return" (by decide)).bind fun after labelled tallied => ?_
  rw [ends_bind, ends_addReturn, ends_bind, ends_lift]
  refine (freshLabels_tallied "on_gosub" (by decide) targets tallied.addReturn).mono ?_
  rintro stubs draft ⟨tallied, paired⟩
  have switched := tallied.insn (.tableSwitch 1 stubs after) (by simp +contextual [Insn.labels])
  rw [ends_bind, ends_lift, drafts_emit, ends_bind, ends_lift]
  refine (enterSubs_tallied _ stubs targets switched paired ?_).mono fun _ draft tallied => ?_
  · simp +contextual [targetsKnown]
  · have kept := tallied.forget fun _ => List.mem_append_right stubs
    exact Body.Tallied.place (Body.Tallied.forget kept fun _ => List.mem_cons_of_mem _)

theorem compileFor_settles (control : VarName) (first last : Expr) (step : Option Expr) :
    Settles lines [] (compileFor control first last step) := by
  intro owed spare known body reached tallied
  unfold compileFor
  dsimp only
  split
  · refine (tallied.run (first.compileNumber_codes _).tallies).bind fun _ _ tallied => ?_
    refine (tallied.run (.lift (.slotOf _ _))).bind fun counter _ tallied => ?_
    refine (tallied.run (.lift (.emit rfl))).bind fun _ _ tallied => ?_
    refine (tallied.run (last.compileNumber_codes _).tallies).bind fun _ _ tallied => ?_
    refine (tallied.run (.lift (.temporary _))).bind fun limit _ tallied => ?_
    refine (tallied.run (.lift (.emit rfl))).bind fun _ _ tallied => ?_
    refine (tallied.run (compileStep_codes step _).tallies).bind fun _ _ tallied => ?_
    refine (tallied.run (.lift (.temporary _))).bind fun step _ tallied => ?_
    refine (tallied.run (.lift (.emit rfl))).bind fun _ _ tallied => ?_
    refine (tallied.freshLabel "for_test" (by decide)).bind fun test _ tallied => ?_
    refine (tallied.freshLabel "for_body" (by decide)).bind fun start _ tallied => ?_
    refine (tallied.freshLabel "for_exit" (by decide)).bind fun done _ tallied => ?_
    refine (tallied.emit (by simp [Insn.labels])).bind fun _ _ tallied => ?_
    refine (tallied.perm (.swap _ _ _)).place.bind fun _ _ tallied => ?_
    rw [ends_openLoop]
    refine Body.Tallied.openLoop (.counting control counter limit step test start done) ?_
    exact (tallied.perm (.swap _ _ _)).forget (by simp +contextual [Loop.known])
  · exact ⟨tallied.nodup, by simp⟩

theorem closeCounting_tallied (counter limit step : Nat) {test start done : Label} {draft : Draft}
    (tallied : draft.Tallied (test :: done :: owed) spare known)
    (isKnown : start ∈ known ∧ done ∈ known) :
    Drafts (closeCounting counter limit step test start done) draft fun _ final =>
      final.Tallied owed spare known := by
  have loaded := tallied.insn (.access Opcode.fload counter) (by simp [Insn.labels])
  have stepped := (loaded.insn (.access Opcode.fload step) (by simp [Insn.labels])).insn
    (.op Opcode.fadd) (by simp [Insn.labels])
  have advanced := stepped.insn (.access Opcode.fstore counter) (by simp [Insn.labels])
  simp only [closeCounting, drafts_bind, Draft.fload, Draft.fstore, Draft.op, Draft.branch, Draft.goto,
    drafts_emit, drafts_place]
  refine (advanced.freshLabel "for_downwards" (by decide)).mono fun downwards draft labelled => ?_
  have begun := (labelled.perm (.swap _ _ _) (.refl _)).label test
  have signed := ((begun.insn (.access Opcode.fload step) (by simp [Insn.labels])).insn
    (.op Opcode.fconst0) (by simp [Insn.labels])).insn (.op Opcode.fcmpl) (by simp [Insn.labels])
  have parted := signed.insn (.branch Opcode.iflt downwards) (by simp [Insn.labels])
  have compared := ((parted.insn (.access Opcode.fload counter) (by simp [Insn.labels])).insn
    (.access Opcode.fload limit) (by simp [Insn.labels])).insn (.op Opcode.fcmpg) (by simp [Insn.labels])
  have repeated := compared.insn (.branch Opcode.ifle start) (by simp [Insn.labels, isKnown.1])
  have left := (repeated.insn (.branch Opcode.goto done) (by simp [Insn.labels, isKnown.2])).label downwards
  have compared' := ((left.insn (.access Opcode.fload counter) (by simp [Insn.labels])).insn
    (.access Opcode.fload limit) (by simp [Insn.labels])).insn (.op Opcode.fcmpl) (by simp [Insn.labels])
  have repeated' := compared'.insn (.branch Opcode.ifge start) (by simp [Insn.labels, isKnown.1])
  exact (repeated'.label done).forget fun _ => List.mem_cons_of_mem _

theorem compileNext_settles (name : Option VarName) : Settles lines [] (compileNext name) := by
  intro owed spare known body reached tallied
  rw [compileNext, ends_bind, ends_closeLoop]
  cases isOpen : body.loops with
  | nil => exact ⟨tallied.nodup, by simp⟩
  | cons loop rest =>
      have closed := (Body.Tallied.openLoop_iff isOpen).mp tallied
      cases loop with
      | conditional top done => exact ⟨tallied.nodup, by simp⟩
      | counting control counter limit step test start done =>
          have closes : Ends (liftM (closeCounting counter limit step test start done) : BodyM Unit)
              { body with loops := rest } (fun _ final => final.Tallied owed spare known) Stopped := by
            rw [ends_lift]
            have front := Draft.Tallied.perm closed (List.perm_append_comm_assoc _ _ _) (.refl _)
            refine (closeCounting_tallied counter limit step front (by simp [Loop.known])).mono ?_
            intro _ draft tallied
            exact Body.Tallied.forget tallied fun _ => List.mem_append_right _
          cases name with
          | none => exact closes
          | some found =>
              dsimp only [List.head?_cons, List.tail_cons]
              split
              · exact closes
              · exact ⟨tallied.nodup, by simp⟩

theorem compileNexts_settles (controls : List VarName) : Settles lines [] (compileNexts controls) := by
  unfold compileNexts
  split
  · exact compileNext_settles none
  · induction controls with
    | nil => exact (Tallies.pure ()).settles
    | cons first rest ih =>
        refine (compileNext_settles (some first)).bind ?_
        cases rest with
        | nil => exact (Tallies.pure ()).settles
        | cons => exact ih (by simp)

theorem compileWhile_settles (condition : Expr) : Settles lines [] (compileWhile condition) := by
  intro owed spare known body reached tallied
  refine (tallied.freshLabel "while_top" (by decide)).bind fun top labelled tallied => ?_
  refine (tallied.freshLabel "while_exit" (by decide)).bind fun done labelled tallied => ?_
  refine (tallied.perm (.swap _ _ _)).place.bind fun _ placed tallied => ?_
  refine (compileCondition_ends .whileCondition condition tallied (by simp)).bind fun _ final tallied => ?_
  rw [ends_openLoop]
  exact Body.Tallied.openLoop (.conditional top done)
    (tallied.forget (by simp +contextual [Loop.known]))

theorem compileWend_settles : Settles lines [] compileWend := by
  intro owed spare known body reached tallied
  rw [compileWend, ends_bind, ends_closeLoop]
  cases isOpen : body.loops with
  | nil => exact ⟨tallied.nodup, by simp⟩
  | cons loop rest =>
      have closed := (Body.Tallied.openLoop_iff isOpen).mp tallied
      cases loop with
      | counting => exact ⟨tallied.nodup, by simp⟩
      | conditional top done =>
          refine (closed.emit (by simp [Insn.labels, Loop.known])).bind fun _ jumped tallied => ?_
          exact Body.Tallied.place (tallied.forget fun _ => List.mem_cons_of_mem _)

mutual

theorem compile_settles (surroundings : Surroundings) (stmt : Stmt) :
    Settles surroundings.lines (markers [stmt]) (compile surroundings stmt) := by
  cases stmt with
  | line number => exact compileLine_settles _ number
  | assign target value => exact (compileAssign_codes target value).tallies.settles
  | dim arrays => exact (compileDims_codes arrays).tallies.settles
  | print items => exact (compilePrint_codes items).tallies.settles
  | input prompt targets => exact (compileAsks_codes _ targets).tallies.settles
  | goto target => exact compileGoto_settles target
  | gosub target => exact compileGosub_settles target
  | returnFromSub => exact compileReturn_settles
  | onGoto selector targets => exact compileOnGoto_settles selector targets
  | onGosub selector targets => exact compileOnGosub_settles selector targets
  | conditional condition thenBody elseBody =>
      intro owed spare known body reached tallied
      rw [markers_conditional, List.map_append, List.append_assoc] at tallied
      rw [compile]
      refine (tallied.freshLabel "if_end" (by decide)).bind fun done _ tallied => ?_
      have reached := reached.mono fun _ => List.mem_cons_of_mem done
      have tallied := tallied.perm
        (List.perm_middle.symm.trans (.append_left _ List.perm_middle.symm))
      cases elseBody with
      | nil =>
          refine (compileCondition_ends .ifCondition condition tallied (by simp)).bind fun _ _ tallied => ?_
          refine (compileAll_settles surroundings thenBody _ _ _ _ reached tallied).bind
            fun _ _ tallied => ?_
          exact Body.Tallied.place (tallied.forget fun _ => List.mem_cons_of_mem _)
      | cons first rest =>
          refine (tallied.freshLabel "if_else" (by decide)).bind fun otherwise _ tallied => ?_
          have reached := reached.mono fun _ => List.mem_cons_of_mem otherwise
          refine (compileCondition_ends .ifCondition condition tallied (by simp)).bind fun _ _ tallied => ?_
          refine (compileAll_settles surroundings thenBody _ _ _ _ reached
            (tallied.perm List.perm_middle.symm)).bind fun _ _ tallied => ?_
          refine (tallied.emit (by simp [Insn.labels])).bind fun _ _ tallied => ?_
          refine (Body.Tallied.place tallied).bind fun _ _ tallied => ?_
          refine (compileAll_settles surroundings (first :: rest) _ _ _ _ reached tallied).bind
            fun _ _ tallied => ?_
          exact Body.Tallied.place (tallied.forget (by simp +contextual))
  | forLoop control first last step => exact compileFor_settles control first last step
  | next controls => exact compileNexts_settles controls
  | whileLoop condition => exact compileWhile_settles condition
  | wend => exact compileWend_settles
  | data items => exact (Tallies.pure ()).settles
  | read targets => exact (compileReads_codes targets).tallies.settles
  | restore start => exact (compileRestore_codes surroundings start).tallies.settles
  | remark text => exact (Tallies.pure ()).settles
  | finish => exact goto_settles fun _ reached => reached.exit
  | stop => exact goto_settles fun _ reached => reached.exit

theorem compileAll_settles (surroundings : Surroundings) (stmts : List Stmt) :
    Settles surroundings.lines (markers stmts) (compileAll surroundings stmts) := by
  cases stmts with
  | nil => exact (Tallies.pure ()).settles
  | cons first rest =>
      rw [markers_cons]
      exact (compile_settles surroundings first).bind (compileAll_settles surroundings rest)

end

end Stmt

end BasicCompiler
