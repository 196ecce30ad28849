import BasicCompiler.Proofs.Compile.StraightCode

/-!
The code of statements touches the slots of locals as the usage of the statements says, through loops
and conditionals.
-/

namespace BasicCompiler

open Draft Body

variable {usage : Usage} {body : Body} {control : VarName} {loop counter limit step : Nat}

theorem Body.Follows.bind {α : Type} (follows : body.Follows usage) {touches : List Touch} {first : BodyM α}
    {next : α → BodyM Unit} (action : Touches [] touches first)
    (separate : ∀ touch ∈ touches, touch.holder.Separate) {success : Unit → Body → Prop}
    (later : ∀ value middle, middle.Follows (usage.touchAll touches) →
      Ends (next value) middle success (fun _ _ => True)) :
    Ends (first >>= next) body success (fun _ _ => True) :=
  (action usage body follows (by simp) separate).bind later

theorem Body.Follows.storing (follows : body.Follows usage) {holder : Local} {request : DraftM Nat}
    (isNumber : holder.initial = .number)
    (gives : Drafts request body.draft fun slot final =>
      final.Records (usage.reserve holder) ∧ (usage.reserve holder).Holds holder slot)
    {next : Nat → BodyM Unit} {success : Unit → Body → Prop} {failure : CompileError → Body → Prop}
    (later : ∀ slot middle, middle.Follows (usage.touchAll [.store holder]) →
      (usage.touchAll [.store holder]).Holds holder slot → Ends (next slot) middle success failure) :
    Ends (do
      let slot ← (request : BodyM Nat)
      fstore slot
      next slot) body success failure := by
  rw [ends_bind, ends_lift]
  refine gives.mono ?_
  rintro slot draft ⟨records, holds⟩
  have isOpcode : (Touch.store holder).opcode = Opcode.fstore := by
    rw [Touch.opcode, isNumber]
    rfl
  have stored := records.access (.store holder) isOpcode holds
  have touched : (usage.reserve holder).touch (.store holder) = usage.touchAll [.store holder] :=
    usage.reserve_touch (.store holder)
  rw [touched] at stored
  rw [ends_bind, ends_lift, Draft.fstore, drafts_emit]
  exact later slot _ (follows.redraft stored) holds

namespace Stmt

section Touches

variable {given : List (Local × Nat)}

theorem compileGoto_touches (lines : LineSet) (line : LineNumber) :
    Touches given [] (compileGoto lines line) :=
  (Touches.require _).after fun _ => .emit rfl

theorem addReturn_touches (label : Label) : Touches given [] (addReturn label) :=
  .silent fun _ => ⟨rfl, rfl⟩

theorem enterSub_passive (site : Nat) (target : Label) : Passive (enterSub site target) :=
  (Passive.emit rfl).bind fun _ => (Passive.emit rfl).bind fun _ => .emit rfl

theorem compileGosub_touches (lines : LineSet) (line : LineNumber) :
    Touches given [] (compileGosub lines line) :=
  (Touches.require _).after fun target => (Touches.freshLabel _).after fun after =>
    (addReturn_touches after).after fun site => (Touches.passive (enterSub_passive site target)).after fun _ =>
    .place after

theorem compileReturn_touches : Touches given [] compileReturn := by
  have marked : Touches given [] markReturn := .silent fun _ => ⟨rfl, rfl⟩
  exact marked.after fun _ => (Touches.passive (.addItem rfl)).after fun _ => .emit rfl

theorem compileOnGoto_touches (lines : LineSet) (selector : Expr) (numbers : List LineNumber) :
    Touches given selector.touches (compileOnGoto lines selector numbers) := by
  refine (Touches.require _).after fun targets => ((compileSelector_codes selector).touches _).before fun _ => ?_
  split
  · exact .emit rfl
  · exact (Touches.freshLabel _).after fun next => (Touches.emit rfl).after fun _ => .place next

theorem freshLabels_passive (stem : String) (targets : List Label) : Passive (freshLabels stem targets) := by
  induction targets with
  | nil => exact .pure []
  | cons first rest ih => exact (Passive.freshLabel stem).bind fun label => ih.bind fun labels => .pure _

theorem enterSubs_passive (site : Nat) (stubs targets : List Label) :
    Passive (enterSubs site stubs targets) := by
  induction targets generalizing stubs with
  | nil => cases stubs <;> exact .pure ()
  | cons target rest ih =>
      cases stubs with
      | nil => exact .pure ()
      | cons stub stubs =>
          exact (Passive.place stub).bind fun _ => (enterSub_passive site target).bind fun _ => ih stubs

theorem compileOnGosub_touches (lines : LineSet) (selector : Expr) (numbers : List LineNumber) :
    Touches given selector.touches (compileOnGosub lines selector numbers) := by
  refine (Touches.require _).after fun targets => ((compileSelector_codes selector).touches _).before fun _ => ?_
  split
  · exact .emit rfl
  · exact (Touches.freshLabel _).after fun after => (addReturn_touches after).after fun site =>
      (Touches.passive (freshLabels_passive _ targets)).after fun stubs => (Touches.emit rfl).after fun _ =>
      (Touches.passive (enterSubs_passive site stubs targets)).after fun _ => .place after

theorem compileCondition_touches (place : Place) (condition : Expr) (whenFalse : Label) :
    Touches given condition.touches (compileCondition place condition whenFalse) :=
  ((condition.compileNumber_codes place).touches _).before fun _ => (Touches.emit rfl).after fun _ =>
    (Touches.emit rfl).after fun _ => .emit rfl

theorem enterThen_touches (condition : Expr) (elseBody : List Stmt) :
    Touches given condition.touches (enterThen condition elseBody) := by
  refine (Touches.freshLabel _).after fun done => ?_
  split
  · exact (compileCondition_touches _ condition done).before fun _ => .pure _
  · exact (Touches.freshLabel _).after fun otherwise =>
      (compileCondition_touches _ condition otherwise).before fun _ => .pure _

theorem enterElse_touches (done otherwise : Label) : Touches given [] (enterElse done otherwise) :=
  (Touches.emit rfl).after fun _ => .place otherwise

theorem compileLine_passive (lineNumbers : Bool) (number : LineNumber) :
    Passive (compileLine lineNumbers number) := by
  refine (Passive.place _).bind fun _ => ?_
  split
  · exact .addItem rfl
  · exact .pure ()

end Touches

theorem closeCounting_traces {given : List (Local × Nat)} (test body done : Label)
    (isNumber : control.kind = .number) (hasCounter : (.scalar control, counter) ∈ given)
    (hasLimit : (.limit loop, limit) ∈ given) (hasStep : (.step loop, step) ∈ given) :
    Traces given (Touch.closing control loop) (closeCounting counter limit step test body done) := by
  have loadCounter : Traces given [.load (.scalar control)] (fload counter) :=
    .access _ (by simp [Touch.opcode, Local.initial, isNumber]; rfl) hasCounter
  have storeCounter : Traces given [.store (.scalar control)] (fstore counter) :=
    .access _ (by simp [Touch.opcode, Local.initial, isNumber]; rfl) hasCounter
  have loadLimit : Traces given [.load (.limit loop)] (fload limit) := .access _ rfl hasLimit
  have loadStep : Traces given [.load (.step loop)] (fload step) := .access _ rfl hasStep
  exact loadCounter.bind fun _ => loadStep.bind fun _ => .after (.emit rfl) fun _ =>
    storeCounter.bind fun _ => .after (.freshLabel _) fun downwards => .after (.place test) fun _ =>
    loadStep.bind fun _ => .after (.emit rfl) fun _ => .after (.emit rfl) fun _ => .after (.emit rfl) fun _ =>
    loadCounter.bind fun _ => loadLimit.bind fun _ => .after (.emit rfl) fun _ => .after (.emit rfl) fun _ =>
    .after (.emit rfl) fun _ => .after (.place downwards) fun _ => loadCounter.bind fun _ =>
    loadLimit.bind fun _ => .after (.emit rfl) fun _ => .after (.emit rfl) fun _ => .passive (.place done)

theorem closeCounting_follows (records : body.draft.Records usage) {name : VarName} {test top done : Label}
    (stands : Loop.Stands usage (some (control, loop)) (.counting name counter limit step test top done))
    {entries : List (Option (VarName × Nat))} {rest : List Loop}
    (others : List.Forall₂ (fun entry loop => Loop.Stands usage entry loop) entries rest)
    (separate : ∀ holder ∈ (Usage.touchAll { usage with loops := entries }
      (Touch.closing control loop)).locals, holder.Separate) :
    Ends (liftM (closeCounting counter limit step test top done) : BodyM Unit) { body with loops := rest }
      (fun _ final => final.Follows
        (Usage.touchAll { usage with loops := entries } (Touch.closing control loop)))
      (fun _ _ => True) := by
  obtain ⟨isNumber, holdsCounter, holdsLimit, holdsStep⟩ := stands
  have left := Body.Follows.reloop records List.prefix_rfl others usage.count body
  have traces : Traces [(.scalar control, counter), (.limit loop, limit), (.step loop, step)]
      (Touch.closing control loop) (closeCounting counter limit step test top done) :=
    closeCounting_traces test top done isNumber (by simp) (by simp) (by simp)
  refine Touches.lift traces _ _ left ?_ fun touch member => separate _ (Usage.mem_of_touch member)
  simp only [List.forall_mem_cons]
  exact ⟨holdsCounter, holdsLimit, holdsStep, by simp⟩

theorem compileNext_follows (name : Option VarName) (follows : body.Follows usage)
    (separate : ∀ holder ∈ usage.closeCounting.locals, holder.Separate) :
    Ends (compileNext name) body (fun _ final => final.Follows usage.closeCounting) (fun _ _ => True) := by
  obtain ⟨records, loops⟩ := follows
  rw [compileNext, ends_bind, ends_closeLoop]
  cases isLoops : body.loops with
  | nil => trivial
  | cons loop rest =>
      cases loop with
      | conditional top done => trivial
      | counting =>
          rw [isLoops] at loops
          obtain ⟨entry, entries, stands, others, isEntries⟩ := List.forall₂_cons_right_iff.mp loops
          cases entry with
          | none => exact stands.elim
          | some entry =>
              obtain ⟨control, loop⟩ := entry
              simp only [Usage.closeCounting, isEntries] at separate ⊢
              have closed := closeCounting_follows records stands others separate
              cases name with
              | none => exact closed
              | some found =>
                  dsimp only [List.head?_cons]
                  split
                  · exact closed
                  · trivial

theorem compileNamedNexts_follows (names : List VarName) (follows : body.Follows usage)
    (separate : ∀ holder ∈ (usage.closeAll names.length).locals, holder.Separate) :
    Ends (compileNamedNexts names) body (fun _ final => final.Follows (usage.closeAll names.length))
      (fun _ _ => True) := by
  induction names generalizing usage body with
  | nil => exact follows
  | cons first rest ih =>
      have kept := (Usage.closeAll_extends rest.length usage.closeCounting).locals.subset
      refine (compileNext_follows (some first) follows fun holder member =>
        separate holder (kept member)).bind ?_
      exact fun _ middle follows' => ih follows' separate

def Tracks (stmts : List Stmt) (action : BodyM Unit) : Prop :=
  ∀ (usage : Usage) (body : Body), usage.Numbered → body.Follows usage →
    (∀ holder ∈ (usage.noteAll stmts).locals, holder.Separate) →
    Ends action body (fun _ final => final.Follows (usage.noteAll stmts)) (fun _ _ => True)

theorem compileNexts_tracks (controls : List VarName) : Tracks [.next controls] (compileNexts controls) := by
  intro usage body _ follows separate
  unfold compileNexts
  cases controls with
  | nil => exact compileNext_follows none follows separate
  | cons first rest =>
      have some : max 1 (first :: rest).length = (first :: rest).length :=
        Nat.max_eq_right (Nat.succ_le_succ (Nat.zero_le _))
      change ∀ holder ∈ (usage.closeAll (max 1 (first :: rest).length)).locals, _ at separate
      change Ends (compileNamedNexts (first :: rest)) body
        (fun _ final => final.Follows (usage.closeAll (max 1 (first :: rest).length))) _
      rw [some] at separate ⊢
      exact compileNamedNexts_follows (first :: rest) follows separate

theorem new_of_numbered (numbered : usage.Numbered) (control : VarName) (first last : Expr)
    (step : Option Expr) :
    .limit usage.count ∉ (((usage.touchAll first.touches).touchAll [.store (.scalar control)]).touchAll
        last.touches).locals ∧
      .step usage.count ∉ (((((usage.touchAll first.touches).touchAll [.store (.scalar control)]).touchAll
        last.touches).touchAll [.store (.limit usage.count)]).touchAll
        (step.elim [] Expr.touches)).locals := by
  have assigned : Touch.Unnumbered [.store (.scalar control)] := by
    simp [Touch.Unnumbered, Touch.holder, Local.loop?]
  have front : Touch.Unnumbered (first.touches ++ [Touch.store (.scalar control)] ++ last.touches) :=
    (first.touches_unnumbered.append assigned).append last.touches_unnumbered
  simp only [← Usage.touchAll_append]
  constructor
  · exact numbered.new rfl (front.apart rfl)
  · refine numbered.new rfl (List.forall_mem_append.mpr ⟨List.forall_mem_append.mpr ⟨front.apart rfl, ?_⟩, ?_⟩)
    · simp [Touch.holder]
    · exact (Touch.step_unnumbered step).apart rfl

theorem startLoop_follows (follows : body.Follows usage) (isNumber : control.kind = .number)
    (holdsCounter : usage.Holds (.scalar control) counter) (holdsLimit : usage.Holds (.limit loop) limit)
    (holdsStep : usage.Holds (.step loop) step) (count : Nat) :
    Ends (do
      let test ← (freshLabel "for_test" : BodyM Label)
      let top ← (freshLabel "for_body" : BodyM Label)
      let done ← (freshLabel "for_exit" : BodyM Label)
      Draft.goto test
      place top
      openLoop (.counting control counter limit step test top done)) body
      (fun _ final => final.Follows { usage.openLoop (some (control, loop)) with count }) (fun _ _ => True) := by
  have stands (test top done : Label) :
      Loop.Stands usage (some (control, loop)) (.counting control counter limit step test top done) :=
    ⟨isNumber, holdsCounter, holdsLimit, holdsStep⟩
  refine follows.bind (.freshLabel _) (by simp) fun test _ follows => ?_
  refine follows.bind (.freshLabel _) (by simp) fun top _ follows => ?_
  refine follows.bind (.freshLabel _) (by simp) fun done _ follows => ?_
  refine follows.bind (.emit rfl) (by simp) fun _ _ follows => ?_
  refine follows.bind (.place top) (by simp) fun _ middle follows => ?_
  rw [ends_openLoop]
  exact .reloop follows.records List.prefix_rfl (.cons (stands test top done) follows.loops) count middle

theorem compileFor_tracks (control : VarName) (first last : Expr) (step : Option Expr) :
    Tracks [.forLoop control first last step] (compileFor control first last step) := by
  intro usage body numbered follows separate
  have known : ∀ touch ∈ Touch.opening control first last step usage.count, touch.holder.Separate :=
    fun touch member => separate _ (Usage.mem_of_touch member)
  simp only [Touch.opening, List.forall_mem_append, List.forall_mem_singleton] at known
  obtain ⟨⟨⟨⟨inFirst, inControl⟩, inLast⟩, _⟩, inStep, _⟩ := known
  -- The limit and the step have no names. They are new because no earlier loop has this number.
  obtain ⟨newLimit, newStep⟩ := new_of_numbered numbered control first last step
  have whole : usage.touchAll (Touch.opening control first last step usage.count) =
      (((((usage.touchAll first.touches).touchAll [.store (.scalar control)]).touchAll last.touches).touchAll
        [.store (.limit usage.count)]).touchAll (step.elim [] Expr.touches)).touchAll
        [.store (.step usage.count)] := by
    simp only [Touch.opening, Usage.touchAll_append]
  change Ends _ body (fun _ final => final.Follows
    { (usage.touchAll (Touch.opening control first last step usage.count)).openLoop
        (some (control, usage.count)) with count := usage.count + 1 }) _
  rw [whole]
  unfold compileFor
  dsimp only
  split
  · rename_i isNumber
    have isInitial : (Local.scalar control).initial = .number := by
      rw [Local.initial, isNumber]
      rfl
    refine follows.bind ((first.compileNumber_codes _).touches _) inFirst fun _ entered follows₁ => ?_
    refine follows₁.storing isInitial (follows₁.records.slotOf rfl inControl) ?_
    intro counter counted follows₂ holdsCounter
    refine follows₂.bind ((last.compileNumber_codes _).touches _) inLast fun _ bounded follows₃ => ?_
    refine follows₃.storing rfl (follows₃.records.temporary rfl newLimit) ?_
    intro limit limited follows₄ holdsLimit
    refine follows₄.bind ((compileStep_codes step _).touches _) inStep fun _ advanced follows₅ => ?_
    refine follows₅.storing rfl (follows₅.records.temporary rfl newStep) ?_
    intro size stepped follows₆ holdsStep
    have keepsLimit := (holdsLimit.touchAll (step.elim [] Expr.touches)).touchAll [.store (.step usage.count)]
    have keepsCounter := (((holdsCounter.touchAll last.touches).touchAll [.store (.limit usage.count)]).touchAll
      (step.elim [] Expr.touches)).touchAll [.store (.step usage.count)]
    exact startLoop_follows follows₆ isNumber keepsCounter keepsLimit holdsStep _
  · trivial

theorem compileWhile_tracks (condition : Expr) : Tracks [.whileLoop condition] (compileWhile condition) := by
  intro usage body _ follows separate
  have known : ∀ touch ∈ condition.touches, touch.holder.Separate :=
    fun touch member => separate _ (Usage.mem_of_touch member)
  refine follows.bind (.freshLabel _) (by simp) fun top _ follows => ?_
  refine follows.bind (.freshLabel _) (by simp) fun done _ follows => ?_
  refine follows.bind (.place top) (by simp) fun _ _ follows => ?_
  refine follows.bind (compileCondition_touches _ condition done) known fun _ middle follows => ?_
  have stands : Loop.Stands (usage.touchAll condition.touches) none (.conditional top done) := trivial
  rw [ends_openLoop]
  exact .reloop follows.records List.prefix_rfl (.cons stands follows.loops) _ middle

theorem compileWend_tracks : Tracks [.wend] compileWend := by
  intro usage body _ follows _
  rw [compileWend, ends_bind, ends_closeLoop]
  cases isLoops : body.loops with
  | nil => trivial
  | cons loop rest =>
      cases loop with
      | counting => trivial
      | conditional top done =>
          have loops := follows.loops
          rw [isLoops] at loops
          obtain ⟨entry, entries, _, others, isEntries⟩ := List.forall₂_cons_right_iff.mp loops
          have left := Body.Follows.reloop follows.records List.prefix_rfl others usage.count body
          have closed : usage.noteAll [.wend] = { usage with loops := entries } := by
            change { usage with loops := usage.loops.tail } = _
            rw [isEntries]
            rfl
          rw [closed]
          have jumped : Touches [] [] (do
              Draft.goto top
              place done : BodyM Unit) := (Touches.emit rfl).after fun _ => .place done
          exact jumped _ _ left (by simp) (by simp)

theorem Tracks.of_touches {stmt : Stmt} {touches : List Touch} {action : BodyM Unit}
    (touched : Touches [] touches action)
    (notes : ∀ usage : Usage, usage.noteAll [stmt] = usage.touchAll touches) : Tracks [stmt] action := by
  intro usage body _ follows separate
  rw [notes] at separate ⊢
  exact touched usage body follows (by simp) fun touch member => separate _ (Usage.mem_of_touch member)

theorem Tracks.bind {front back : List Stmt} {first second : BodyM Unit} (tracks : Tracks front first)
    (tracks' : Tracks back second) : Tracks (front ++ back) (first >>= fun _ => second) := by
  intro usage body numbered follows separate
  rw [Usage.noteAll_append] at separate ⊢
  have kept := ((usage.noteAll front).noteAll_extends back).locals.subset
  refine (tracks usage body numbered follows fun holder member => separate holder (kept member)).bind ?_
  exact fun _ middle follows' => tracks' _ middle (numbered.noteAll front) follows' separate

theorem Tracks.after {α : Type} {stmts : List Stmt} {first : BodyM α} {next : α → BodyM Unit}
    (quiet : Touches [] [] first) (tracks : ∀ value, Tracks stmts (next value)) :
    Tracks stmts (first >>= next) := by
  intro usage body numbered follows separate
  refine follows.bind quiet (by simp) fun value middle follows' => ?_
  exact tracks value usage middle numbered follows' separate

theorem Tracks.before {stmts : List Stmt} {first second : BodyM Unit} (tracks : Tracks stmts first)
    (quiet : Touches [] [] second) : Tracks stmts (first >>= fun _ => second) := by
  intro usage body numbered follows separate
  refine (tracks usage body numbered follows separate).bind fun _ middle follows' => ?_
  exact quiet _ middle follows' (by simp) (by simp)

variable {surroundings : Surroundings}

mutual

theorem compile_tracks (stmt : Stmt) : Tracks [stmt] (compile surroundings stmt) := by
  have quiet {stmt : Stmt} {action : BodyM Unit} (touched : Touches [] [] action)
      (notes : ∀ usage : Usage, usage.noteAll [stmt] = usage) : Tracks [stmt] action :=
    .of_touches touched notes
  cases stmt with
  | conditional condition thenBody elseBody =>
      have ended (done otherwise : Label) : Tracks elseBody (do
          if elseBody.isEmpty then pure () else do
            enterElse done otherwise
            compileAll surroundings elseBody
          place done) := by
        cases elseBody with
        | nil =>
            have nothing : Tracks [] (pure ()) := fun _ _ _ follows _ => follows
            exact nothing.before (.place done)
        | cons first rest =>
            exact .after (enterElse_touches done otherwise) fun _ =>
              (compileAll_tracks (first :: rest)).before (.place done)
      intro usage body numbered follows separate
      rw [Usage.noteAll_conditional, ← Usage.noteAll_append] at separate
      rw [compile_conditional, Usage.noteAll_conditional, ← Usage.noteAll_append]
      have kept := ((usage.touchAll condition.touches).noteAll_extends (thenBody ++ elseBody)).locals.subset
      refine follows.bind (enterThen_touches condition elseBody)
        (fun touch member => separate _ (kept (Usage.mem_of_touch member))) ?_
      rintro ⟨done, otherwise⟩ entered follows'
      exact (compileAll_tracks thenBody).bind (ended done otherwise) _ entered
        (numbered.unnumbered condition.touches_unnumbered) follows' separate
  | assign target value => exact .of_touches ((compileAssign_codes target value).touches _) fun _ => rfl
  | dim arrays => exact .of_touches ((compileDims_codes arrays).touches _) fun _ => rfl
  | print items => exact .of_touches ((compilePrint_codes items).touches _) fun _ => rfl
  | input prompt targets => exact .of_touches ((compileAsks_codes _ targets).touches _) fun _ => rfl
  | read targets => exact .of_touches ((compileReads_codes targets).touches _) fun _ => rfl
  | onGoto selector targets => exact .of_touches (compileOnGoto_touches _ selector targets) fun _ => rfl
  | onGosub selector targets => exact .of_touches (compileOnGosub_touches _ selector targets) fun _ => rfl
  | forLoop control first last step => exact compileFor_tracks control first last step
  | next controls => exact compileNexts_tracks controls
  | whileLoop condition => exact compileWhile_tracks condition
  | wend => exact compileWend_tracks
  | line number => exact quiet (.passive (compileLine_passive _ number)) fun _ => rfl
  | goto target => exact quiet (compileGoto_touches _ target) fun _ => rfl
  | gosub target => exact quiet (compileGosub_touches _ target) fun _ => rfl
  | returnFromSub => exact quiet compileReturn_touches fun _ => rfl
  | restore start => exact quiet ((compileRestore_codes _ start).touches _) fun _ => rfl
  | data items => exact quiet (.pure ()) fun _ => rfl
  | remark text => exact quiet (.pure ()) fun _ => rfl
  | finish => exact quiet (.emit rfl) fun _ => rfl
  | stop => exact quiet (.emit rfl) fun _ => rfl

theorem compileAll_tracks (stmts : List Stmt) : Tracks stmts (compileAll surroundings stmts) := by
  cases stmts with
  | nil => exact fun _ _ _ follows _ => follows
  | cons first rest =>
      rw [compileAll]
      exact (compile_tracks first).bind (compileAll_tracks rest)

end

end Stmt

end BasicCompiler
