import BasicCompiler.Compile.Class
import BasicCompiler.Proofs.Compile.Rules
import BasicCompiler.Proofs.Method.Uses

/-!
The code around the statements of a main method, as the items that it adds. What holds of a whole main
method is read off these items and off what holds of its statements.
-/

namespace BasicCompiler

open Draft Body

namespace Draft

variable (draft : Draft)

def addAll (items : List Item) : Draft := items.foldl add draft

@[simp] theorem addAll_items (items : List Item) :
    (draft.addAll items).items.toList = draft.items.toList ++ items := by
  induction items generalizing draft with
  | nil => exact (List.append_nil _).symm
  | cons first rest ih => exact (ih (draft.add first)).trans (by simp)

@[simp] theorem addAll_scope (items : List Item) : (draft.addAll items).scope = draft.scope := by
  induction items generalizing draft with
  | nil => rfl
  | cons first rest ih => exact ih (draft.add first)

@[simp] theorem addAll_handlers (items : List Item) :
    (draft.addAll items).handlers = draft.handlers := by
  induction items generalizing draft with
  | nil => rfl
  | cons first rest ih => exact ih (draft.add first)

theorem drafts_emitAll (insns : List Insn) (post : Unit → Draft → Prop) :
    Drafts (emitAll insns) draft post ↔ post () (draft.addAll (insns.map Item.insn)) := by
  induction insns generalizing draft with
  | nil => exact Iff.rfl
  | cons first rest ih => exact ih (draft.add (.insn first))

theorem drafts_emitInitializers (post : Unit → Draft → Prop) :
    Drafts emitInitializers draft post ↔
      post () (draft.addAll (draft.scope.initializers.map Item.insn)) :=
  drafts_emitAll draft draft.scope.initializers post

end Draft

theorem ends_usesLibrary (body : Body) (success : Bool → Body → Prop)
    (failure : CompileError → Body → Prop) :
    Ends usesLibrary body success failure ↔
      success (!(Item.helpers body.draft.items.toList).isEmpty) body := by
  have needs (item : Item) : requestsHelper item = item.helper?.isSome := by
    cases item with
    | insn insn => cases insn <;> rfl
    | label | sourceLine | request => rfl
  have same : body.draft.items.any requestsHelper = !(Item.helpers body.draft.items.toList).isEmpty := by
    rw [← Array.any_toList, Bool.eq_iff_iff, List.any_eq_true, Bool.not_eq_true', ← Bool.not_eq_true,
      List.isEmpty_iff, Item.helpers, List.filterMap_eq_nil_iff]
    simp [needs, Option.isSome_iff_ne_none]
  rw [← same]
  exact Iff.rfl

namespace MainMethod

def faultRow : Handler :=
  ⟨MainLabel.body, MainLabel.bodyEnd, MainLabel.handler, some FlowCode.faultClass⟩

def flushItems : List Item :=
  [.insn (.field Opcode.getstatic ⟨"java/lang/System", "out", "Ljava/io/PrintStream;"⟩),
    .insn (.invoke Opcode.invokevirtual ⟨printStreamClass, "flush", "()V"⟩)]

/-- The code that leaves a main method, where `helpers` are those that are used before it. -/
def exitItems (helpers : List Helper) : List Item :=
  .label MainLabel.exit ::
    ((if helpers.isEmpty then [] else flushItems) ++ [.insn (.op Opcode.vreturn)])

/-- The code that jumps to return points, and what follows it for numbers without a return point. -/
def dispatchItems (targets : List Label) (unknown : Label) : List Item :=
  [.label MainLabel.returnDispatch, .insn (.call .gosubPop)] ++
    ((if targets.isEmpty then [.insn (.op Opcode.pop)]
      else [.insn (.tableSwitch 0 targets unknown), .label unknown]) ++
    [.insn (.pushText Fault.returnWithoutGosub.message), .insn (.call .fault),
      .insn (.op Opcode.athrow)])

def dispatchOf (body : Body) (unknown : Label) : List Item :=
  if body.usesReturn || !body.returns.isEmpty then dispatchItems body.returns.targets.toList unknown
  else []

def unknownOf (body : Body) : Label := Label.numbered "return_unknown" body.draft.scope.nextLabel

/-- The helpers that are used by the statements of a main method or by the dispatch of its returns. -/
def helpersOf (body : Body) : List Helper :=
  Item.helpers (body.draft.items.toList ++ dispatchOf body (unknownOf body))

def reportItems (helpers : List Helper) : List Item :=
  if helpers.isEmpty then []
  else [.label MainLabel.handler, .insn (.call .reportFault)] ++ (flushItems ++ [.insn (.op Opcode.vreturn)])

def openingItems (scope : Scope) : List Item :=
  .label MainLabel.init ::
    (scope.initializers.map Item.insn ++ [.insn (.branch Opcode.goto MainLabel.body)])

/-- The code between the statements and the first values of the slots. -/
def closingItems (through : Body) : List Item :=
  exitItems (Item.helpers through.draft.items.toList) ++ (dispatchOf through (unknownOf through) ++
    .label MainLabel.bodyEnd :: reportItems (helpersOf through))

/-- A main method after the code that follows its statements. -/
structure Closed (through body : Body) : Prop where
  returns : body.returns = through.returns
  usesReturn : body.usesReturn = through.usesReturn
  scope : ∃ nextLabel, body.draft.scope = { through.draft.scope with nextLabel }
  handlers : body.draft.handlers =
    if (helpersOf through).isEmpty then through.draft.handlers else through.draft.handlers.push faultRow
  items : body.draft.items.toList = through.draft.items.toList ++
    (closingItems through ++ openingItems through.draft.scope)

theorem ends_compileExit (body : Body) (success : Unit → Body → Prop)
    (failure : CompileError → Body → Prop) :
    Ends compileExit body success failure ↔ success () { body with
      draft := body.draft.addAll (exitItems (Item.helpers body.draft.items.toList)) } := by
  rw [compileExit, ends_bind, ends_lift, drafts_place, ends_bind, ends_usesLibrary, add_items,
    Item.helpers_append, exitItems]
  change Ends (if (!(Item.helpers body.draft.items.toList ++ []).isEmpty) = true then _ else _) _ _ _ ↔ _
  rw [List.append_nil]
  cases (Item.helpers body.draft.items.toList).isEmpty <;> exact Iff.rfl

theorem compileDispatch_ends (body : Body) :
    Ends compileDispatch body
      (fun _ final => ∃ nextLabel, final = { body with
        draft := { body.draft with scope.nextLabel := nextLabel }.addAll
          (dispatchOf body (unknownOf body)) })
      (fun _ _ => False) := by
  rw [compileDispatch, ends_bind, ends_getBody]
  unfold dispatchOf
  split
  · rw [ends_lift]
    unfold dispatchReturns dispatchItems
    simp only [drafts_bind, drafts_place, Draft.call, drafts_emit]
    split
    · exact ⟨body.draft.scope.nextLabel, rfl⟩
    · exact ⟨body.draft.scope.nextLabel + 1, rfl⟩
  · exact ⟨body.draft.scope.nextLabel, rfl⟩

theorem ends_compileReport (body : Body) (success : Unit → Body → Prop)
    (failure : CompileError → Body → Prop) :
    Ends compileReport body success failure ↔ success () { body with
      draft := { body.draft.addAll (reportItems (Item.helpers body.draft.items.toList)) with
        handlers := if (Item.helpers body.draft.items.toList).isEmpty then body.draft.handlers
          else body.draft.handlers.push faultRow } } := by
  rw [compileReport, ends_bind, ends_usesLibrary, reportItems]
  cases (Item.helpers body.draft.items.toList).isEmpty <;> exact Iff.rfl

theorem closing_ends (through : Body) :
    Ends (do
      compileExit
      compileDispatch
      place MainLabel.bodyEnd
      compileReport
      place MainLabel.init
      emitInitializers
      goto MainLabel.body) through (fun _ body => Closed through body) (fun _ _ => False) := by
  have silent : Item.helpers (exitItems (Item.helpers through.draft.items.toList)) = [] := by
    unfold exitItems
    split <;> rfl
  rw [ends_bind, ends_compileExit]
  refine (compileDispatch_ends _).bind ?_
  rintro _ _ ⟨nextLabel, rfl⟩
  have dispatch (draft : Draft) (same : draft.scope = through.draft.scope) :
      dispatchOf { through with draft } (unknownOf { through with draft }) =
        dispatchOf through (unknownOf through) := by
    simp only [dispatchOf, unknownOf, same]
  rw [dispatch _ (addAll_scope _ _), ends_bind, ends_lift, drafts_place, ends_bind, ends_compileReport,
    ends_bind, ends_lift, drafts_place, ends_bind, ends_lift, drafts_emitInitializers, Draft.goto,
    Draft.branch, ends_lift, drafts_emit]
  have placed : Item.helpers [.label MainLabel.bodyEnd] = [] := rfl
  refine ⟨rfl, rfl, ⟨nextLabel, by simp⟩, ?_, ?_⟩
  · simp [Item.helpers_append, silent, placed, helpersOf]
  · simp [Item.helpers_append, silent, placed, closingItems, helpersOf, openingItems, Scope.initializers]

def opened : Body where
  draft := ((Draft.empty descriptor).add (.insn (.branch Opcode.goto MainLabel.init))).add
    (.label MainLabel.body)
  loops := []
  returns := .empty
  usesReturn := false
  dimensions := ∅

/-- A main method is refused with one of its statements or with a loop that is not closed, and else its
statements are followed by the rest of its code. -/
theorem compile_ends {surroundings : Surroundings} {program : Program} {stated : Body → Prop}
    {success : Body → Prop} {failure : CompileError → Body → Prop}
    (statements : Ends (Stmt.compileAll surroundings program) opened (fun _ through => stated through)
      failure)
    (unclosed : ∀ through error, stated through → through.loops ≠ [] →
      (∀ cause, error ≠ .assembly cause) → failure error through)
    (closed : ∀ through body, stated through →
      (Stmt.compileAll surroundings program).run opened = (.ok (), through) → through.loops = [] →
      Closed through body → success body) :
    Ends (compile surroundings program) (Body.empty descriptor) (fun _ body => success body) failure := by
  unfold compile
  rw [ends_bind, Draft.goto, Draft.branch, ends_lift, drafts_emit, ends_bind, ends_lift, drafts_place,
    ends_bind]
  refine statements.outcome.imp ?_
  rintro _ through ⟨isStated, ran⟩
  rw [ends_bind, ends_checkLoopsClosed]
  split
  · rename_i none
    exact (closing_ends through).mono (fun _ body => closed through body isStated ran none)
      (fun _ _ impossible => impossible.elim)
  · rename_i some
    exact unclosed through _ isStated (by simp [some]) nofun
  · rename_i some
    exact unclosed through _ isStated (by simp [some]) nofun

end MainMethod

end BasicCompiler
