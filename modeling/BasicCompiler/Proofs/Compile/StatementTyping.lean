import BasicCompiler.Proofs.Compile.ExpressionTyping

/-!
Statements start and end with an empty stack, which gets as high as they tell. Code that control does
not get to is typed as if it were entered with an empty stack.
-/

namespace BasicCompiler

open ValueType Draft Body

variable {draft : Draft} {label : Label}

def Loop.Fits (slots : Nat) : Loop → Prop
  | counting _ counter limit step test body done =>
    (counter < slots ∧ limit < slots ∧ step < slots) ∧
      MainMethod.stackOf test = some [] ∧ MainMethod.stackOf body = some [] ∧
      MainMethod.stackOf done = some []
  | conditional top done => MainMethod.stackOf top = some [] ∧ MainMethod.stackOf done = some []

theorem Loop.Fits.mono {slots more : Nat} {loop : Loop} (fits : loop.Fits slots)
    (grown : slots ≤ more) : loop.Fits more := by
  cases loop with
  | counting =>
      obtain ⟨⟨isCounter, isLimit, isStep⟩, labels⟩ := fits
      exact ⟨⟨Nat.lt_of_lt_of_le isCounter grown, Nat.lt_of_lt_of_le isLimit grown,
        Nat.lt_of_lt_of_le isStep grown⟩, labels⟩
  | conditional => exact fits

structure Body.Ready (before : List Item) (entry : Option StackType) (peak : Nat) (body : Body) :
    Prop where
  stands : body.draft.At (MainMethod.region true before entry) (some []) peak
  loops : ∀ loop ∈ body.loops, loop.Fits body.draft.scope.nextSlot
  returns : ∀ label ∈ body.returns.targets.toList, MainMethod.stackOf label = some []

section

variable {gaps : Bool} {before : List Item} {entry : Option StackType} {peak height height' : Nat}

def Runs (before : List Item) (entry : Option StackType) (action : BodyM Unit) (height : Nat) : Prop :=
  ∀ (body : Body) (peak : Nat), body.Ready before entry peak →
    Ends action body
      (fun _ final => final.Ready before entry (max peak height) ∧
        body.draft.scope.nextSlot ≤ final.draft.scope.nextSlot)
      (fun _ _ => True)

theorem Body.Ready.keep {body final : Body} {peak' : Nat} (ready : body.Ready before entry peak)
    (keeps : body.Keeps final)
    (stands : final.draft.At (MainMethod.region true before entry) (some []) peak') :
    final.Ready before entry peak' where
  stands := stands
  loops := by
    rw [keeps.loops]
    exact fun loop isOpen => (ready.loops loop isOpen).mono keeps.slots
  returns := by
    rw [keeps.returns]
    exact ready.returns

theorem Body.Ready.returned {body final : Body} {peak' : Nat} {label : Label}
    (ready : body.Ready before entry peak) (after : MainMethod.stackOf label = some [])
    (stands : final.draft.At (MainMethod.region true before entry) (some []) peak')
    (more : body.draft.scope.nextSlot ≤ final.draft.scope.nextSlot) (loops : final.loops = body.loops)
    (returns : final.returns.targets = body.returns.targets.push label) :
    final.Ready before entry peak' := by
  refine ⟨stands, ?_, ?_⟩
  · rw [loops]
    exact fun loop isOpen => (ready.loops loop isOpen).mono more
  · rw [returns, Array.toList_push, List.forall_mem_append, List.forall_mem_singleton]
    exact ⟨ready.returns, after⟩

namespace Runs

theorem nothing : Runs before entry (pure ()) 0 :=
  fun _ _ ⟨stands, loops, returns⟩ =>
    ⟨⟨stands.congr (Nat.max_zero _).symm, loops, returns⟩, Nat.le_refl _⟩

theorem bind {first next : BodyM Unit} (runs : Runs before entry first height)
    (runs' : Runs before entry next height') :
    Runs before entry (do first; next) (max height height') := by
  intro body peak ready
  rw [ends_bind]
  refine (runs body peak ready).imp ?_
  rintro _ middle ⟨ready', more⟩
  refine (runs' middle _ ready').imp ?_
  rintro _ final ⟨ready'', more'⟩
  rw [Nat.max_assoc] at ready''
  exact ⟨ready'', Nat.le_trans more more'⟩

end Runs

theorem Moves.runs {action : BodyM Unit} (moves : Moves true before entry action [] [] height) :
    Runs before entry action height := by
  intro body peak ready
  refine (moves body peak ready.stands).imp ?_
  rintro _ final ⟨stands, keeps⟩
  exact ⟨ready.keep keeps stands, keeps.slots⟩

theorem Draft.At.revive (stands : draft.At (MainMethod.region true before entry) none peak) :
    draft.At (MainMethod.region true before entry) (some []) peak :=
  (stands.extend (List.append_nil _).symm rfl rfl (.dead rfl .nil)).congr (Nat.max_zero _)

theorem ArrayShape.set_signature (shape : ArrayShape) :
    Descriptor.Signature (Helper.set shape).spec.descriptor (shape.kind.type :: shape.subscripted)
      [] := by
  cases shape <;> decide

theorem ArrayShape.dim_signature (shape : ArrayShape) :
    Descriptor.Signature (Helper.dim shape).spec.descriptor shape.subscripted [reference] := by
  cases shape <;> decide

theorem Expr.compileNumber_moves {stack : StackType} (place : Place) (expr : Expr) :
    Moves gaps before entry (expr.compileNumber place) stack (float :: stack)
      (stack.height + expr.height) := by
  refine .expect fun isNumber => ?_
  have moves : Moves gaps before entry expr.compile stack (expr.kind.type :: stack) _ :=
    expr.compile_moves stack
  rwa [isNumber] at moves

namespace Stmt

variable {stack : StackType}

theorem store_moves (target : Variable) {pushValue : BodyM Unit} {value : Nat}
    (pushes : ∀ stack, Moves gaps before entry pushValue stack (target.kind.type :: stack)
      (stack.height + value)) :
    Moves gaps before entry (store target pushValue) stack stack (stack.height + target.height value) := by
  intro body peak stands
  cases target with
  | scalar name =>
      refine (pushes stack).follow stands fun middle stands' keeps => ?_
      have named := stands'.slotOf name.spelling (initialOf name.kind)
      have within := (stands'.sound.slotOf name.spelling (initialOf name.kind)).2
      have kindIs : (Variable.scalar name).kind = name.kind := rfl
      have low := stands.low
      have enough : max (max peak (stack.height + value)) stack.height = max peak (stack.height + value) := by
        omega
      rw [kindIs] at named
      rw [ends_bind, ends_lift, scalarSlot, drafts_slotOf, Variable.height]
      generalize name.kind = kind at named within ⊢
      cases kind with
      | number =>
          exact ⟨(named.access Opcode.fstore _ [float] [] (by decide) within.1).congr enough,
            keeps.trans (.draft within.2)⟩
      | text =>
          exact ⟨(named.access Opcode.astore _ [reference] [] (by decide) within.1).congr enough,
            keeps.trans (.draft within.2)⟩
  | element name subscripts =>
      rw [store, ends_bind]
      refine (Expr.pushArray_ends name subscripts.length stands).imp ?_
      rintro shape middle ⟨isShape, stands', keeps⟩
      obtain ⟨sameKind, sameCount⟩ := ArrayShape.kind_and_dimensions isShape
      have signature := shape.set_signature
      rw [ArrayShape.subscripted, sameKind, sameCount] at signature
      refine (Expr.compileNumbers_moves _ subscripts _).follow stands' fun _ stands'' keeps' => ?_
      refine (pushes _).follow stands'' fun final stored keeps'' => ?_
      have same : (Variable.element name subscripts).kind.type ::
          (List.replicate subscripts.length float ++ reference :: stack) =
          name.kind.type :: (List.replicate subscripts.length float ++ [reference]) ++ stack := by
        simp [Variable.kind, Variable.name]
      rw [same] at stored
      have some := ArrayShape.count_pos isShape
      have lasts := Expr.heightThen_eq value subscripts
      have deep := Expr.length_le_heightThen subscripts
      refine ⟨(stored.call (.set shape) _ [] signature).congr ?_,
        ((keeps.trans keeps').trans keeps'').trans (.draft (Nat.le_refl _))⟩
      simp only [Variable.height, List.nil_append, StackType.height_append, StackType.height_floats,
        StackType.height_reference]
      omega

theorem compileAssign_moves (target : Variable) (value : Expr) :
    Moves gaps before entry (compileAssign target value) [] [] (target.height value.height) := by
  refine .expect fun sameKind => .congr (store_moves target fun stack => ?_) (congrArg _ (Nat.zero_add _))
  rw [← sameKind]
  exact value.compile_moves stack

theorem compileDim_moves (array : ArrayBounds) :
    Moves gaps before entry (compileDim array) stack stack (stack.height + array.height) := by
  intro body peak stands
  rw [compileDim, ends_bind]
  refine (arrayShape_ends array.name array.bounds.length body).mono ?_ (fun _ _ _ => trivial)
  rintro shape _ ⟨isShape, _, rfl⟩
  obtain ⟨sameKind, sameCount⟩ := ArrayShape.kind_and_dimensions isShape
  have named := stands.slotOf s!"{array.name.spelling}()" .null
  have within := (stands.sound.slotOf s!"{array.name.spelling}()" .null).2
  have loaded := named.access Opcode.aload _ [] [reference] (by decide) within.1
  have signature := shape.dim_signature
  rw [ArrayShape.subscripted, sameCount] at signature
  rw [ends_bind, ends_lift, arraySlot, drafts_slotOf, ends_bind, Draft.aload, ends_lift, drafts_emit]
  refine (Expr.compileNumbers_moves _ array.bounds _).follow loaded fun middle bounded keeps => ?_
  rw [← List.append_assoc] at bounded
  have allocated := bounded.call (.dim shape) _ [reference] signature
  have stored := allocated.access Opcode.astore _ [reference] [] (by decide)
    (Nat.lt_of_lt_of_le within.1 keeps.slots)
  refine ⟨stored.congr ?_, Nat.le_trans within.2 keeps.slots, keeps.loops, keeps.returns,
    keeps.usesReturn⟩
  simp only [ArrayBounds.height, List.nil_append, List.cons_append, StackType.height_reference]
  omega

theorem compileDims_moves (arrays : List ArrayBounds) :
    Moves gaps before entry (compileDims arrays) [] [] ((arrays.map ArrayBounds.height).foldr max 0) := by
  induction arrays with
  | nil => exact .nothing
  | cons first rest ih =>
      exact ((compileDim_moves first).congr (congrArg _ (Nat.zero_add _))).bind ih

theorem compilePrintItem_moves (item : PrintItem) :
    Moves gaps before entry (compilePrintItem item) [] [] item.height := by
  cases item with
  | expr value =>
      have signature : Descriptor.Signature (printer value.kind).spec.descriptor [value.kind.type] [] := by
        cases value.kind <;> decide
      exact .congr ((value.compile_moves []).bind
        (.call (printer value.kind) [value.kind.type] [] signature)) (by simp [PrintItem.height])
  | comma => exact .call .printComma [] [] (by decide)
  | semicolon => exact .nothing
  | tab column =>
      exact .congr ((column.compileNumber_moves .tab).bind (.call .printTab [float] [] (by decide)))
        (by simp [PrintItem.height])
  | spc count =>
      exact .congr ((count.compileNumber_moves .spc).bind (.call .printSpc [float] [] (by decide)))
        (by simp [PrintItem.height])

theorem compilePrintItems_moves (items : List PrintItem) :
    Moves gaps before entry (compilePrintItems items) [] [] ((items.map PrintItem.height).foldr max 0) := by
  induction items with
  | nil => exact .nothing
  | cons first rest ih => exact (compilePrintItem_moves first).bind ih

theorem compilePrint_moves (items : List PrintItem) :
    Moves gaps before entry (compilePrint items) [] [] ((items.map PrintItem.height).foldr max 0) := by
  have ended : Moves gaps before entry
      (if PrintItem.suppressesNewline items then pure () else liftM (Draft.call .printNewline)) [] [] 0 := by
    cases PrintItem.suppressesNewline items with
    | true => exact .nothing
    | false => exact .call .printNewline [] [] (by decide)
  exact ((compilePrintItems_moves items).bind ended).congr (by rw [Nat.max_zero])

theorem compileAsk_moves (prompt : String) (target : Variable) :
    Moves gaps before entry (compileAsk prompt target) [] [] (target.height 1) := by
  have signature : Descriptor.Signature (asker target.kind).spec.descriptor [reference]
      [target.kind.type] := by
    cases target.kind <;> decide
  refine .congr (store_moves target fun stack => ?_) (congrArg _ (Nat.zero_add _))
  have prompted : Moves gaps before entry (liftM (pushText prompt)) stack (reference :: stack) _ :=
    .draft fun _ _ stands => ⟨stands.pushText prompt, Nat.le_refl _⟩
  exact .congr (prompted.bind (.call (asker target.kind) [reference] [target.kind.type] signature))
    (by simp)

theorem compileAsks_moves (prompt : String) (targets : List Variable) :
    Moves gaps before entry (compileAsks prompt targets) [] []
      ((targets.map (Variable.height 1)).foldr max 0) := by
  induction targets generalizing prompt with
  | nil => exact .nothing
  | cons first rest ih => exact (compileAsk_moves prompt first).bind (ih furtherPrompt)

theorem compileReads_moves (targets : List Variable) :
    Moves gaps before entry (compileReads targets) [] [] ((targets.map (Variable.height 1)).foldr max 0) := by
  induction targets with
  | nil => exact .nothing
  | cons first rest ih =>
      have signature : Descriptor.Signature (dataReader first.kind).spec.descriptor []
          [first.kind.type] := by
        cases first.kind <;> decide
      refine Moves.bind (.congr (store_moves first fun stack => ?_) (congrArg _ (Nat.zero_add _))) ih
      exact .congr (.call (dataReader first.kind) [] [first.kind.type] signature) (by simp)

theorem compileRestore_moves (surroundings : Surroundings) (start : Option LineNumber) :
    Moves gaps before entry (compileRestore surroundings start) [] [] 1 := by
  have moved (index : Nat) : Moves gaps before entry (do
      pushInt (Int32.ofNat index)
      Draft.call .restore) [] [] 1 := by
    have pushed : Moves gaps before entry (liftM (pushInt (Int32.ofNat index))) [] [int] 1 :=
      .draft fun _ _ stands => ⟨stands.pushInt _, Nat.le_refl _⟩
    exact pushed.bind (.call .restore [int] [] (by decide))
  intro body peak stands
  unfold compileRestore
  cases start with
  | none => exact moved 0 body peak stands
  | some number =>
      simp only [ends_bind, ends_requireLabel]
      split
      · exact moved _ body peak stands
      · trivial

theorem goto_at (stands : draft.At (MainMethod.region true before entry) (some []) peak)
    (isLabel : MainMethod.stackOf label = some []) :
    (draft.add (.insn (.branch Opcode.goto label))).At (MainMethod.region true before entry) (some []) peak :=
  (stands.goto label isLabel).revive

theorem goto_moves (isLabel : MainMethod.stackOf label = some []) :
    Moves true before entry (liftM (Draft.goto label)) [] [] 0 :=
  .draft fun _ _ stands => ⟨(goto_at stands isLabel).congr (Nat.max_zero _).symm, Nat.le_refl _⟩

theorem place_moves (isLabel : MainMethod.stackOf label = some []) :
    Moves gaps before entry (liftM (place label)) [] [] 0 :=
  .draft fun _ _ stands => ⟨(stands.label label isLabel).congr (Nat.max_zero _).symm, Nat.le_refl _⟩

theorem compileGoto_moves (lines : LineSet) (line : LineNumber) :
    Moves true before entry (compileGoto lines line) [] [] 0 := by
  intro body peak stands
  rw [compileGoto, ends_bind, ends_requireLabel]
  split
  · exact goto_moves (MainMethod.stackOf_line line) body peak stands
  · trivial

theorem enterSub_at (site : Nat) {target : Label}
    (stands : draft.At (MainMethod.region true before entry) (some []) peak)
    (isLabel : MainMethod.stackOf target = some []) :
    Drafts (enterSub site target) draft fun _ final =>
      final.At (MainMethod.region true before entry) none (max peak 1) ∧ final.scope = draft.scope := by
  have called := (stands.pushInt (Int32.ofNat site)).call .gosubPush [int] [] (by decide)
  exact ⟨(called.goto target isLabel).congr (by simp), rfl⟩

theorem compileGosub_runs (lines : LineSet) (line : LineNumber) :
    Runs before entry (compileGosub lines line) 1 := by
  intro body peak ready
  rw [compileGosub, ends_bind, ends_requireLabel]
  split
  · have after := MainMethod.stackOf_numbered "gosub_return" body.draft.scope.nextLabel (by decide)
    simp only [ends_bind, ends_lift, drafts_freshLabel, ends_addReturn, drafts_place]
    refine (enterSub_at _ (ready.stands.freshLabel "gosub_return")
      (MainMethod.stackOf_line line)).mono ?_
    rintro _ final ⟨entered, sameScope⟩
    have sameSlots : final.scope.nextSlot = body.draft.scope.nextSlot := by rw [sameScope]; rfl
    have more := Nat.le_of_eq sameSlots.symm
    exact ⟨ready.returned after ((entered.deadLabel _ rfl after).congr (by simp)) more rfl rfl, more⟩
  · trivial

theorem compileReturn_runs : Runs before entry compileReturn 0 := by
  intro body peak ready
  simp only [compileReturn, ends_bind, ends_markReturn, ends_lift, drafts_addItem]
  exact ⟨⟨.congr (goto_at (ready.stands.request .gosubPop) rfl) (Nat.max_zero _).symm, ready.loops,
    ready.returns⟩, Nat.le_refl _⟩

theorem compileSelector_moves (selector : Expr) :
    Moves gaps before entry (compileSelector selector) [] [int] selector.height := by
  have positive := selector.height_pos
  refine .congr ((selector.compileNumber_moves .selector).bind
    (.call .onSelector [float] [int] (by decide))) ?_
  simp only [List.cons_append, List.nil_append, StackType.height_int, StackType.height_nil]
  omega

theorem switch_at (targets : List Label) (default : Label)
    (stands : draft.At (MainMethod.region true before entry) (some [int]) peak) (nonempty : targets ≠ [])
    (agrees : ∀ label ∈ default :: targets, MainMethod.stackOf label = some []) :
    (draft.add (.insn (.tableSwitch 1 targets default))).At (MainMethod.region true before entry) none
      peak := by
  refine (stands.tableSwitch 1 targets default ⟨nonempty, fun few => ?_⟩ agrees).congr (Nat.max_zero _)
  have one : (1 : Int32).toInt = 1 := by decide
  omega

theorem stackOf_lines (numbers : List LineNumber) :
    ∀ label ∈ numbers.map LineSet.labelOf, MainMethod.stackOf label = some [] :=
  List.forall_mem_map.mpr fun line _ => MainMethod.stackOf_line line

theorem compileOnGoto_runs (lines : LineSet) (selector : Expr) (numbers : List LineNumber) :
    Runs before entry (compileOnGoto lines selector numbers) selector.height := by
  refine Moves.runs fun body peak stands => ?_
  rw [compileOnGoto, ends_bind, ends_requireLabels]
  split
  · refine (compileSelector_moves selector).follow stands fun middle selected keeps => ?_
    split
    · exact ⟨selected.pop.congr (Nat.max_zero _), keeps.trans (.draft (Nat.le_refl _))⟩
    · rename_i nonempty
      have next := MainMethod.stackOf_numbered "on_next" middle.draft.scope.nextLabel (by decide)
      have switched := switch_at (numbers.map LineSet.labelOf) _ (selected.freshLabel "on_next")
        (by simpa using nonempty) (List.forall_mem_cons.mpr ⟨next, stackOf_lines numbers⟩)
      exact ⟨(switched.deadLabel _ rfl next).congr (Nat.max_zero _), keeps.trans (.draft (Nat.le_refl _))⟩
  · trivial

theorem enterSubs_at (site : Nat) (stubs targets : List Label)
    (stands : draft.At (MainMethod.region true before entry) none peak) (high : 1 ≤ peak)
    (areStubs : ∀ label ∈ stubs, MainMethod.stackOf label = some [])
    (areTargets : ∀ label ∈ targets, MainMethod.stackOf label = some []) :
    Drafts (enterSubs site stubs targets) draft fun _ final =>
      final.At (MainMethod.region true before entry) none peak ∧ final.scope = draft.scope := by
  induction stubs generalizing draft targets with
  | nil => exact ⟨stands, rfl⟩
  | cons stub stubs ih =>
      cases targets with
      | nil => exact ⟨stands, rfl⟩
      | cons target targets =>
          simp only [List.forall_mem_cons] at areStubs areTargets
          rw [enterSubs, drafts_bind, drafts_place, drafts_bind]
          refine (enterSub_at site (stands.deadLabel stub rfl areStubs.1) areTargets.1).mono ?_
          rintro _ middle ⟨entered, sameScope⟩
          have same : max (max peak 0) 1 = peak := by omega
          refine (ih targets (entered.congr same) areStubs.2 areTargets.2).mono ?_
          rintro _ final ⟨entered', sameScope'⟩
          exact ⟨entered', sameScope'.trans sameScope⟩

theorem compileOnGosub_runs (lines : LineSet) (selector : Expr) (numbers : List LineNumber) :
    Runs before entry (compileOnGosub lines selector numbers) selector.height := by
  intro body peak ready
  rw [compileOnGosub, ends_bind, ends_requireLabels]
  split
  · refine (compileSelector_moves selector).follow ready.stands fun middle selected keeps => ?_
    split
    · exact ⟨ready.keep (keeps.trans (.draft (Nat.le_refl _))) (selected.pop.congr (Nat.max_zero _)),
        keeps.slots⟩
    · rename_i nonempty
      have after := MainMethod.stackOf_numbered "gosub_return" middle.draft.scope.nextLabel (by decide)
      have stubs : ∀ label ∈ (List.range' (middle.draft.scope.nextLabel + 1)
          (numbers.map LineSet.labelOf).length).map (Label.numbered "on_gosub"),
          MainMethod.stackOf label = some [] :=
        List.forall_mem_map.mpr fun number _ => MainMethod.stackOf_numbered _ _ (by decide)
      simp only [ends_bind, ends_lift, drafts_freshLabel, ends_addReturn, drafts_freshLabels,
        drafts_emit, drafts_place]
      have labelled := (selected.freshLabel "gosub_return").relabel
        (middle.draft.scope.nextLabel + 1 + (numbers.map LineSet.labelOf).length)
      have switched := switch_at _ _ labelled (by simpa using nonempty)
        (List.forall_mem_cons.mpr ⟨after, stubs⟩)
      refine (enterSubs_at _ _ _ switched (by simpa using selected.low) stubs
        (stackOf_lines numbers)).mono ?_
      rintro _ final ⟨entered, sameScope⟩
      have more : body.draft.scope.nextSlot ≤ final.scope.nextSlot := by
        rw [sameScope]
        exact keeps.slots
      exact ⟨ready.returned after ((entered.deadLabel _ rfl after).congr (Nat.max_zero _)) more keeps.loops
        (by rw [keeps.returns]), more⟩
  · trivial

theorem fload_at (slot : Nat) (stands : draft.At (MainMethod.region true before entry) (some stack) peak)
    (within : slot < draft.scope.nextSlot) :
    (draft.add (.insn (.access Opcode.fload slot))).At (MainMethod.region true before entry)
      (some (float :: stack)) (max peak (stack.height + 1)) :=
  .congr (stands.access Opcode.fload slot [] [float] (by decide) within) (by simp)

theorem compare_at (comparison jump : Opcode) (label : Label)
    (stands : draft.At (MainMethod.region true before entry) (some [float, float]) peak)
    (compares : comparison.shape = .plain 0 ∧ comparison.continues = true ∧ comparison.Replaces [float, float] [int])
    (jumps : jump.shape = .branch ∧ jump.continues = true ∧ jump.Replaces [int] [])
    (isLabel : MainMethod.stackOf label = some []) :
    ((draft.add (.insn (.op comparison))).add (.insn (.branch jump label))).At
      (MainMethod.region true before entry) (some []) peak := by
  have low := stands.low
  refine .congr ((stands.op comparison [float, float] [int] compares).branch jump label [int] jumps
    isLabel) ?_
  simp only [List.append_nil, StackType.height_float, StackType.height_int, StackType.height_nil] at low ⊢
  omega

theorem compileCondition_moves (place : Place) (condition : Expr) {whenFalse : Label}
    (isLabel : MainMethod.stackOf whenFalse = some []) :
    Moves true before entry (compileCondition place condition whenFalse) [] [] (max condition.height 2) := by
  intro body peak stands
  refine (condition.compileNumber_moves place).follow stands fun middle computed keeps => ?_
  have zero := computed.op Opcode.fconst0 [] [float] (by decide)
  refine ⟨.congr (compare_at Opcode.fcmpl Opcode.ifeq whenFalse zero (by decide) (by decide) isLabel) ?_,
    keeps.trans (.draft (Nat.le_refl _))⟩
  simp [Nat.max_assoc]

theorem compileStep_moves (step : Option Expr) (place : Place) :
    Moves gaps before entry (compileStep step place) [] [float] (step.elim 1 Expr.height) := by
  cases step with
  | some step => exact (step.compileNumber_moves place).congr (congrArg _ (Nat.zero_add _))
  | none => exact .op Opcode.fconst1 [] [float] (by decide)

theorem keep_ends {compute : BodyM Unit} {slotOf : DraftM Nat} {next : Nat → BodyM Unit} {body : Body}
    {success : Unit → Body → Prop} (moves : Moves true before entry compute [] [float] height)
    (ready : body.Ready before entry peak)
    (handsOut : ∀ draft : Draft,
      draft.At (MainMethod.region true before entry) (some [float]) (max peak height) →
      Drafts slotOf draft fun slot final =>
        final.At (MainMethod.region true before entry) (some [float]) (max peak height) ∧
          slot < final.scope.nextSlot ∧ draft.scope.nextSlot ≤ final.scope.nextSlot)
    (rest : ∀ (slot : Nat) (final : Body), final.Ready before entry (max peak height) →
      slot < final.draft.scope.nextSlot → body.draft.scope.nextSlot ≤ final.draft.scope.nextSlot →
      Ends (next slot) final success (fun _ _ => True)) :
    Ends (do
      compute
      let slot ← slotOf
      fstore slot
      next slot) body success (fun _ _ => True) := by
  refine moves.follow ready.stands fun middle computed keeps => ?_
  rw [ends_bind, ends_lift]
  refine (handsOut middle.draft computed).mono ?_
  rintro slot draft ⟨stands, within, more⟩
  have stored := stands.access Opcode.fstore slot [float] [] (by decide) within
  rw [ends_bind, Draft.fstore, ends_lift, drafts_emit]
  exact rest slot _ (ready.keep (keeps.trans (.draft more)) (stored.congr (Nat.max_zero _))) within
    (Nat.le_trans keeps.slots more)

theorem temporary_at (stands : draft.At (MainMethod.region true before entry) (some stack) peak) :
    Drafts (temporary .number) draft fun slot final =>
      final.At (MainMethod.region true before entry) (some stack) peak ∧ slot < final.scope.nextSlot ∧
        draft.scope.nextSlot ≤ final.scope.nextSlot :=
  ⟨stands.temporary .number, Nat.lt_succ_self _, Nat.le_succ _⟩

theorem scalarSlot_at (name : VarName)
    (stands : draft.At (MainMethod.region true before entry) (some stack) peak) :
    Drafts (scalarSlot name) draft fun slot final =>
      final.At (MainMethod.region true before entry) (some stack) peak ∧ slot < final.scope.nextSlot ∧
        draft.scope.nextSlot ≤ final.scope.nextSlot :=
  ⟨stands.slotOf _ _, (stands.sound.slotOf name.spelling (initialOf name.kind)).2⟩

theorem compileFor_runs (control : VarName) (first last : Expr) (step : Option Expr) :
    Runs before entry (compileFor control first last step)
      (max first.height (max last.height (step.elim 1 Expr.height))) := by
  intro body peak ready
  unfold compileFor
  dsimp only
  split
  · refine keep_ends (first.compileNumber_moves _) ready (fun _ => scalarSlot_at control) ?_
    intro counter started ready' isCounter more
    refine keep_ends (last.compileNumber_moves _) ready' (fun _ => temporary_at) ?_
    intro limit limited ready'' isLimit grown
    refine keep_ends (compileStep_moves step _) ready'' (fun _ => temporary_at) ?_
    intro step final ⟨stands, loops, returns⟩ isStep grown'
    have test := MainMethod.stackOf_numbered "for_test" final.draft.scope.nextLabel (by decide)
    have start := MainMethod.stackOf_numbered "for_body" (final.draft.scope.nextLabel + 1) (by decide)
    have done := MainMethod.stackOf_numbered "for_exit" (final.draft.scope.nextLabel + 2) (by decide)
    have labelled := ((stands.freshLabel "for_test").freshLabel "for_body").freshLabel "for_exit"
    simp only [ends_bind, ends_lift, drafts_freshLabel, Draft.goto, Draft.branch, drafts_emit,
      drafts_place, ends_openLoop]
    refine ⟨⟨.congr ((goto_at labelled test).label _ start) ?_, ?_, returns⟩,
      Nat.le_trans more (Nat.le_trans grown grown')⟩
    · simp [Nat.max_assoc]
    · refine List.forall_mem_cons.mpr ⟨⟨⟨?_, ?_, isStep⟩, test, start, done⟩, loops⟩
      · exact Nat.lt_of_lt_of_le isCounter (Nat.le_trans grown grown')
      · exact Nat.lt_of_lt_of_le isLimit grown'
  · trivial

theorem closeCounting_at {counter limit step : Nat} {test body done : Label}
    (stands : draft.At (MainMethod.region true before entry) (some []) peak)
    (within : counter < draft.scope.nextSlot ∧ limit < draft.scope.nextSlot ∧ step < draft.scope.nextSlot)
    (agrees : MainMethod.stackOf test = some [] ∧ MainMethod.stackOf body = some [] ∧
      MainMethod.stackOf done = some []) :
    Drafts (closeCounting counter limit step test body done) draft fun _ final =>
      final.At (MainMethod.region true before entry) (some []) (max peak 2) ∧
        draft.scope.nextSlot ≤ final.scope.nextSlot := by
  obtain ⟨isCounter, isLimit, isStep⟩ := within
  obtain ⟨isTest, isBody, isDone⟩ := agrees
  have downwards := MainMethod.stackOf_numbered "for_downwards" draft.scope.nextLabel (by decide)
  have sum := (fload_at step (fload_at counter stands isCounter) isStep).op Opcode.fadd
    [float, float] [float] (by decide)
  have advanced := sum.access Opcode.fstore counter [float] [] (by decide) isCounter
  have tested := (advanced.freshLabel "for_downwards").label test isTest
  have zero := (fload_at step tested isStep).op Opcode.fconst0 [] [float] (by decide)
  have signed := compare_at Opcode.fcmpl Opcode.iflt _ zero (by decide) (by decide) downwards
  have upwards := compare_at Opcode.fcmpg Opcode.ifle body
    (fload_at limit (fload_at counter signed isCounter) isLimit) (by decide) (by decide) isBody
  have turned := (upwards.goto done isDone).deadLabel _ rfl downwards
  have ended := compare_at Opcode.fcmpl Opcode.ifge body
    (fload_at limit (fload_at counter turned isCounter) isLimit) (by decide) (by decide) isBody
  simp only [closeCounting, drafts_bind, drafts_freshLabel, Draft.fload, Draft.fstore, Draft.op,
    Draft.branch, Draft.goto, drafts_emit, drafts_place]
  refine ⟨(ended.label done isDone).congr ?_, Nat.le_refl _⟩
  simp only [List.cons_append, List.nil_append, StackType.height_float, StackType.height_nil]
  omega

theorem compileNext_runs (name : Option VarName) : Runs before entry (compileNext name) 2 := by
  intro body peak ready
  rw [compileNext, ends_bind, ends_closeLoop]
  cases isOpen : body.loops with
  | nil => trivial
  | cons loop rest =>
      cases loop with
      | conditional top done => trivial
      | counting control counter limit step test start done =>
          obtain ⟨within, agrees⟩ :=
            ready.loops (.counting control counter limit step test start done) (by simp [isOpen])
          have closes : Ends (liftM (closeCounting counter limit step test start done) : BodyM Unit)
              { body with loops := rest }
              (fun _ final => final.Ready before entry (max peak 2) ∧
                body.draft.scope.nextSlot ≤ final.draft.scope.nextSlot)
              (fun _ _ => True) := by
            rw [ends_lift]
            refine (closeCounting_at ready.stands within agrees).mono ?_
            rintro _ final ⟨stands, more⟩
            refine ⟨⟨stands, fun other isOther => (ready.loops other ?_).mono more, ready.returns⟩, more⟩
            rw [isOpen]
            exact List.mem_cons_of_mem _ isOther
          cases name with
          | none => exact closes
          | some found =>
              dsimp only [List.head?_cons, List.tail_cons]
              split
              · exact closes
              · trivial

theorem compileNexts_runs (controls : List VarName) : Runs before entry (compileNexts controls) 2 := by
  unfold compileNexts
  split
  · exact compileNext_runs none
  · rename_i nonempty
    cases controls with
    | nil => exact absurd rfl nonempty
    | cons first rest =>
        clear nonempty
        induction rest generalizing first with
        | nil => exact (compileNext_runs (some first)).bind .nothing
        | cons second rest ih => exact (compileNext_runs (some first)).bind (ih second)

theorem compileWhile_runs (condition : Expr) :
    Runs before entry (compileWhile condition) (max condition.height 2) := by
  intro body peak ready
  have top := MainMethod.stackOf_numbered "while_top" body.draft.scope.nextLabel (by decide)
  have done := MainMethod.stackOf_numbered "while_exit" (body.draft.scope.nextLabel + 1) (by decide)
  have placed := ((ready.stands.freshLabel "while_top").freshLabel "while_exit").label _ top
  unfold compileWhile
  simp only [ends_bind, ends_lift, drafts_freshLabel, drafts_place, ends_openLoop]
  refine (compileCondition_moves .whileCondition condition done _ _ placed).imp ?_
  rintro _ final ⟨stands, keeps⟩
  refine ⟨⟨stands, ?_, by rw [keeps.returns]; exact ready.returns⟩, keeps.slots⟩
  rw [keeps.loops]
  exact List.forall_mem_cons.mpr ⟨⟨top, done⟩, fun loop isOpen =>
    (ready.loops loop isOpen).mono keeps.slots⟩

theorem compileWend_runs : Runs before entry compileWend 0 := by
  intro body peak ready
  rw [compileWend, ends_bind, ends_closeLoop]
  cases isOpen : body.loops with
  | nil => trivial
  | cons loop rest =>
      cases loop with
      | counting => trivial
      | conditional top done =>
          have agrees := ready.loops (.conditional top done) (by simp [isOpen])
          have closed := (goto_at ready.stands agrees.1).label done agrees.2
          refine ⟨⟨closed.congr (Nat.max_zero _).symm, ?_, ready.returns⟩, Nat.le_refl _⟩
          intro other isOther
          refine ready.loops other ?_
          rw [isOpen]
          exact List.mem_cons_of_mem _ isOther

theorem compileLine_moves (lineNumbers : Bool) (number : LineNumber) :
    Moves gaps before entry (liftM (compileLine lineNumbers number)) [] [] 0 := by
  refine .draft fun draft peak stands => ?_
  have marked := (stands.label _ (MainMethod.stackOf_line number)).congr (Nat.max_zero _).symm
  cases lineNumbers with
  | true => exact ⟨marked.sourceLine number, Nat.le_refl _⟩
  | false => exact ⟨marked, Nat.le_refl _⟩

end Stmt

end

end BasicCompiler
