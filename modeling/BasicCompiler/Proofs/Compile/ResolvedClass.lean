import Mathlib.Data.List.Nodup
import BasicCompiler.Proofs.Compile.ClassLayout
import BasicCompiler.Proofs.Compile.StatementLabels

/-!
Every label that the methods of a class refer to is defined once: those of the main method whatever its
statements are, those of the class initializer whatever its data items are, and those of every helper.
-/

namespace BasicCompiler

open Draft Body

theorem LineSet.labelOf_inj {line line' : LineNumber} (same : labelOf line = labelOf line') :
    line = line' := by
  have numbered : Label.numbered "line" line.toNat = Label.numbered "line" line'.toNat := same
  exact UInt32.toNat_inj.mp (Label.numbered_inj numbered).2

theorem Balances.emitAll {code : List Insn} (plain : ∀ insn ∈ code, insn.labels = []) :
    Balances (Draft.emitAll code) := by
  induction code with
  | nil => exact .pure ()
  | cons first rest ih =>
      obtain ⟨isPlain, plain⟩ := List.forall_mem_cons.mp plain
      exact (Balances.emit isPlain).bind fun _ => ih plain

theorem Draft.emitInitializers_balances : Balances emitInitializers := by
  intro owed spare known draft tallied
  refine Balances.emitAll ?_ owed spare known draft tallied
  intro insn member
  obtain ⟨⟨slot, initial⟩, _, isCode⟩ := List.mem_flatMap.mp member
  cases initial <;> simp only [Scope.initializer, List.mem_cons, List.not_mem_nil, or_false] at isCode <;>
    rcases isCode with rfl | rfl <;> rfl

theorem Draft.flushOutput_balances : Balances flushOutput :=
  (Balances.emit rfl).bind fun _ => .emit rfl

theorem Draft.raise_balances (fault : Fault) : Balances (raise fault) :=
  (Balances.emit rfl).bind fun _ => (Balances.emit rfl).bind fun _ => .emit rfl

namespace MainMethod

def fixedLabels : List Label :=
  [MainLabel.body, MainLabel.exit, MainLabel.bodyEnd, MainLabel.init, MainLabel.returnDispatch,
    MainLabel.handler]

theorem fixedLabels_ne {label : Label} (member : label ∈ fixedLabels) (stem : String) (number : Nat) :
    label ≠ Label.numbered stem number := by
  refine Label.fixed_ne ?_ stem number
  revert label
  decide

/-- The labels that a main method owes before anything is drafted, which are those of its lines and
those of the parts that it always has. -/
def owedLabels (numbers : List LineNumber) : List Label :=
  MainLabel.body :: MainLabel.exit :: MainLabel.bodyEnd :: MainLabel.init :: numbers.map LineSet.labelOf

theorem empty_tallied {numbers : List LineNumber} (distinct : numbers.Nodup) :
    (Draft.empty descriptor).Tallied (owedLabels numbers)
      [MainLabel.returnDispatch, MainLabel.handler] (owedLabels numbers) := by
  have all : (owedLabels numbers ++ [MainLabel.returnDispatch, MainLabel.handler]).Perm
      (fixedLabels ++ numbers.map LineSet.labelOf) := by
    simp only [owedLabels, List.cons_append]
    exact .cons _ (.cons _ (.cons _ (.cons _ List.perm_append_comm)))
  have lines : (numbers.map LineSet.labelOf).Nodup :=
    List.Pairwise.map _ (fun _ _ different same => different (LineSet.labelOf_inj same)) distinct
  have apart : ∀ label ∈ fixedLabels, ∀ other ∈ numbers.map LineSet.labelOf, label ≠ other := by
    intro label isFixed other isLine
    obtain ⟨line, _, rfl⟩ := List.mem_map.mp isLine
    exact fixedLabels_ne isFixed "line" line.toNat
  refine ⟨?_, ?_, ?_⟩
  · exact all.nodup_iff.mpr (List.nodup_append.mpr ⟨by decide, lines, apart⟩)
  · intro label member
    rcases List.mem_append.mp (all.mem_iff.mp member) with isFixed | isLine
    · exact fun stem number _ _ => fixedLabels_ne isFixed stem number
    · obtain ⟨line, _, rfl⟩ := List.mem_map.mp isLine
      exact Label.labelOf_below line _
  · exact fun label member => member

variable {owed spare known : List Label} {body : Body}

theorem compileExit_tallied (tallied : body.Tallied (MainLabel.exit :: owed) spare known) :
    Ends compileExit body
      (fun _ final => final.Tallied owed spare known ∧ final.loops = body.loops) Stopped := by
  have placed := (Draft.Tallied.perm tallied List.perm_middle (.refl _)).label MainLabel.exit
  rw [compileExit, ends_bind, ends_lift, drafts_place, ends_bind, ends_usesLibrary]
  split
  · rw [ends_bind, ends_lift]
    refine (flushOutput_balances _ _ _ _ placed).mono fun _ flushed tallied => ⟨?_, rfl⟩
    exact tallied.insn (.op Opcode.vreturn) (by simp [Insn.labels])
  · exact ⟨placed.insn (.op Opcode.vreturn) (by simp [Insn.labels]), rfl⟩

theorem dispatchReturns_tallied {draft : Draft} (targets : List Label)
    (tallied : draft.Tallied (MainLabel.returnDispatch :: owed) spare known)
    (targetsKnown : ∀ target ∈ targets, target ∈ known) :
    Drafts (dispatchReturns targets) draft fun _ final => final.Tallied owed spare known := by
  have popped := (tallied.label _).insn (.call .gosubPop) (by simp [Insn.labels])
  rw [dispatchReturns, drafts_bind, drafts_place, drafts_bind, Draft.call, drafts_emit]
  split
  · rw [drafts_bind, Draft.op, drafts_emit]
    exact raise_balances _ _ _ _ _ (popped.insn _ (by simp [Insn.labels]))
  · rw [drafts_bind]
    refine (popped.freshLabel "return_unknown" (by decide)).mono fun unknown draft labelled => ?_
    have switched := labelled.insn (.tableSwitch 0 targets unknown)
      (by simpa [Insn.labels] using fun label member => .inr (targetsKnown label member))
    rw [drafts_bind, drafts_emit, drafts_bind, drafts_place]
    exact raise_balances _ _ _ _ _ ((switched.label unknown).forget fun _ => List.mem_cons_of_mem _)

theorem compileDispatch_tallied (tallied : body.Tallied owed spare known) (closed : body.loops = []) :
    Ends compileDispatch body (fun _ final => ∃ others,
      final.draft.Tallied owed (others ++ spare) known) Stopped := by
  obtain ⟨draft, loops, returns, usesReturn, dimensions⟩ := body
  obtain rfl : loops = [] := closed
  have targetsKnown : ∀ target ∈ returns.targets.toList,
      target ∈ Body.known ⟨draft, [], returns, usesReturn, dimensions⟩ ++ known := by
    simp +contextual [Body.known]
  rw [compileDispatch, ends_bind, ends_getBody]
  dsimp only
  cases usesReturn with
  | true =>
      rw [if_pos (Bool.true_or _), ends_lift]
      refine (dispatchReturns_tallied _ tallied targetsKnown).mono fun _ final tallied => ⟨[], ?_⟩
      exact tallied.forget fun _ => List.mem_append_right _
  | false =>
      split
      · have claimed := Draft.Tallied.claim tallied
        rw [ends_lift]
        refine (dispatchReturns_tallied _ claimed fun target member =>
          List.mem_cons_of_mem _ (targetsKnown target member)).mono fun _ final tallied => ⟨[], ?_⟩
        exact tallied.forget fun _ isKnown => List.mem_cons_of_mem _ (List.mem_append_right _ isKnown)
      · exact ⟨[MainLabel.returnDispatch], Draft.Tallied.forget tallied fun _ => List.mem_append_right _⟩

theorem compileReport_tallied
    (tallied : body.draft.Tallied owed (MainLabel.handler :: spare) known)
    (isKnown : MainLabel.body ∈ known ∧ MainLabel.bodyEnd ∈ known) :
    Ends compileReport body (fun _ final => ∃ others, final.draft.Tallied owed others known)
      Stopped := by
  rw [compileReport, ends_bind, ends_usesLibrary]
  split
  · have called := (tallied.claim.label _).insn (.call .reportFault) (by simp [Insn.labels])
    rw [ends_lift, reportFaults, drafts_bind, drafts_place, drafts_bind, Draft.call, drafts_emit,
      drafts_bind]
    refine (flushOutput_balances _ _ _ _ called).mono fun _ flushed tallied => ⟨spare, ?_⟩
    have caught := (tallied.insn (.op Opcode.vreturn) (by simp [Insn.labels])).handler
      ⟨MainLabel.body, MainLabel.bodyEnd, MainLabel.handler, some FlowCode.faultClass⟩
      (by simp [Handler.labels, isKnown])
    exact caught.forget fun _ => List.mem_cons_of_mem _
  · exact ⟨_, tallied⟩

theorem compile_resolved (surroundings : Surroundings) (program : Program)
    (distinct : (Stmt.markers program).Nodup)
    (holds : surroundings.lines.Holds (Stmt.markers program)) :
    Ends (compile surroundings program) (Body.empty descriptor)
      (fun _ final => final.draft.Resolved) Stopped := by
  have jumped := (empty_tallied distinct).insn (.branch Opcode.goto MainLabel.init)
    (by simp [Insn.labels, owedLabels])
  have moved : ([MainLabel.exit, MainLabel.bodyEnd, MainLabel.init] ++
      (Stmt.markers program).map LineSet.labelOf).Perm _ := List.perm_append_comm
  have placed : opened.Tallied ((Stmt.markers program).map LineSet.labelOf ++
      [MainLabel.exit, MainLabel.bodyEnd, MainLabel.init]) [MainLabel.handler]
      (owedLabels (Stmt.markers program)) :=
    (jumped.label _).perm moved (.refl _)
  have reached : surroundings.lines.Reached (owedLabels (Stmt.markers program)) := by
    refine ⟨by simp [owedLabels], fun number isLine => ?_⟩
    have isMarked := (holds number).mp isLine
    simp [owedLabels, List.mem_map_of_mem isMarked]
  unfold compile
  rw [ends_bind, ends_lift, Draft.goto, Draft.branch, drafts_emit, ends_bind, ends_lift, drafts_place]
  refine (Stmt.compileAll_settles surroundings program _ [MainLabel.handler] _ opened reached placed).bind
    fun _ through tallied => ?_
  rw [ends_bind, ends_checkLoopsClosed]
  split
  · rename_i closed
    refine (compileExit_tallied tallied).bind ?_
    rintro _ exited ⟨tallied, sameLoops⟩
    refine (compileDispatch_tallied tallied (sameLoops.trans closed)).bind ?_
    rintro _ dispatched ⟨others, tallied⟩
    have ended := (tallied.label _).perm (.refl _) List.perm_append_comm
    rw [ends_bind, ends_lift, drafts_place]
    refine (compileReport_tallied ended (by simp [owedLabels])).bind ?_
    rintro _ reported ⟨others, tallied⟩
    rw [ends_bind, ends_lift, drafts_place, ends_bind, ends_lift]
    refine (emitInitializers_balances _ _ _ _ (tallied.label _)).mono fun _ final tallied => ?_
    exact (tallied.insn (.branch Opcode.goto MainLabel.body)
      (by simp [Insn.labels, owedLabels])).resolved
  · exact ⟨tallied.nodup, by simp⟩
  · exact ⟨tallied.nodup, by simp⟩

end MainMethod

namespace CellCode

theorem joinChunks_balances (texts : List String) : Balances (joinChunks texts) := by
  induction texts with
  | nil => exact .pure ()
  | cons first rest ih =>
      exact (Balances.emit rfl).bind fun _ => (Balances.emit rfl).bind fun _ => ih

theorem pushLongText_balances (text : String) : Balances (pushLongText text) := by
  unfold pushLongText
  split
  · exact .pure ()
  · exact (Balances.emit rfl).bind fun _ => joinChunks_balances _

theorem pushDataIndex_balances (data : DataTable) : Balances (pushDataIndex data) := by
  iterate 5 refine (Balances.temporary _).bind fun _ => ?_
  intro owed spare known draft tallied
  rw [drafts_bind]
  refine (tallied.freshLabel "index_next" (by decide)).mono fun next draft tallied => ?_
  rw [drafts_bind]
  refine (tallied.freshLabel "index_done" (by decide)).mono fun done draft tallied => ?_
  rw [drafts_bind]
  refine (pushLongText_balances _ _ _ _ _ tallied).mono fun _ draft tallied => ?_
  simp only [toCharacters, invokeVirtual, Draft.astore, Draft.aload, Draft.istore, Draft.iload, Draft.op,
    Draft.newArray, Draft.pushInt, Draft.branch, Draft.increment, Draft.goto, drafts_bind, drafts_emit,
    drafts_place]
  suffices finished : Draft.Tallied owed spare (done :: next :: known) _ from
    finished.forget (by simp +contextual)
  -- From the last instruction back to the first, past the two labels.
  refine .insn _ (.label _ ?_) (by simp [Insn.labels])
  repeat refine Draft.Tallied.insn _ ?_ (by simp [Insn.labels])
  refine .label _ ?_
  repeat refine Draft.Tallied.insn _ ?_ (by simp [Insn.labels])
  exact tallied.perm (.swap _ _ _) (.refl _)

/-- What holds of unlabelled instructions and of the two long constants, and of one action after another
where it holds of both, holds of the code that prepares cells. -/
theorem prepareAll_rule {holds : DraftM Unit → Prop} {data : DataTable} (nothing : holds (pure ()))
    (bind : ∀ {first next : DraftM Unit}, holds first → holds next → holds (first >>= fun _ => next))
    (emit : ∀ {insn : Insn}, insn.labels = [] → holds (Draft.emit insn))
    (text : holds (pushLongText data.joined)) (index : holds (pushDataIndex data)) (cells : List Cell) :
    holds (prepareAll data cells) := by
  have console : holds pushConsole := by
    iterate 4 refine bind (emit rfl) ?_
    exact emit rfl
  induction cells with
  | nil => exact nothing
  | cons cell rest ih =>
      refine bind ?_ ih
      cases cell with
      | cursorColumn | lastRandom | dataCursor | gosubDepth => exact nothing
      | dataIndex => exact bind index (emit rfl)
      | dataChars => exact bind text (bind (emit rfl) (emit rfl))
      | gosubStack => exact bind (emit rfl) (bind (emit rfl) (emit rfl))
      | console => exact bind console (emit rfl)

end CellCode

theorem ClassInitializer.draft_resolved (data : DataTable) (cells : List Cell) :
    (draft data cells).Resolved := by
  have nothing : (Draft.empty descriptor).Tallied [] [] [] :=
    ⟨.nil, by simp [Draft.definitions, Draft.empty, Item.definitions],
      by simp [Draft.references, Draft.empty, Item.references]⟩
  have prepared : Balances (CellCode.prepareAll data cells) :=
    CellCode.prepareAll_rule (.pure ()) (fun first next => first.bind fun _ => next) .emit
      (CellCode.pushLongText_balances _) (CellCode.pushDataIndex_balances data) cells
  have drafted : Balances (code data cells) := prepared.bind fun _ => .emit rfl
  exact Draft.Tallied.resolved (drafted [] [] [] _ nothing)

instance (draft : Draft) : Decidable draft.Resolved :=
  decidable_of_iff (draft.definitions.Nodup ∧ ∀ label ∈ draft.references, label ∈ draft.definitions)
    ⟨fun ⟨distinct, defined⟩ => ⟨distinct, defined⟩, fun ⟨distinct, defined⟩ => ⟨distinct, defined⟩⟩

theorem Helper.draft_resolved (helper : Helper) : helper.draft.Resolved := by
  have all : ∀ helper ∈ Helper.all, helper.draft.Resolved := by decide +kernel
  exact all helper (mem_all helper)

def CompileError.BlamesLabel (error : CompileError) : Prop :=
  ∃ method label, error = .assembly (.unresolvedLabel method label) ∨
    error = .assembly (.duplicateLabel method label)

theorem Draft.Resolved.not_blamed {draft : Draft} (resolved : draft.Resolved) {method : String}
    {error : CompileError} (refused : draft.Refused method error) : ¬ error.BlamesLabel := by
  rintro ⟨method', label, blamed⟩
  rcases refused with ⟨_, rfl⟩ | ⟨_, rfl, _⟩ | ⟨_, rfl, _⟩ | ⟨_, _, repeated⟩ |
    ⟨missing, refers, _, undefined⟩
  · simp at blamed
  · simp at blamed
  · simp at blamed
  · exact repeated resolved.distinct
  · exact undefined (resolved.defined missing refers)

namespace Program

/-- A method that is drafted for a program: its main method if no statement is refused, the class
initializer for the cells that are used, or a helper. -/
inductive HasDraft (options : Options) (program : Program) : Draft → Prop where
  | main {lines : LineSet} {body : Body} : LineSet.scan program = .ok lines →
      (MainMethod.compile ⟨lines, DataTable.scan program, options.lineNumbers⟩ program).run
        (Body.empty MainMethod.descriptor) = (.ok (), body) →
      HasDraft options program body.draft
  | initializer (cells : List Cell) :
      HasDraft options program (ClassInitializer.draft (DataTable.scan program) cells)
  | helper (helper : Helper) : HasDraft options program helper.draft

theorem main_resolved (options : Options) {program : Program} {lines : LineSet}
    (scanned : LineSet.scan program = .ok lines) :
    Ends (MainMethod.compile ⟨lines, DataTable.scan program, options.lineNumbers⟩ program)
      (Body.empty MainMethod.descriptor) (fun _ final => final.draft.Resolved) Stopped := by
  have marked := LineSet.scan_holds program
  rw [scanned] at marked
  exact MainMethod.compile_resolved _ program marked.1 marked.2

theorem HasDraft.resolved {options : Options} {program : Program} {draft : Draft}
    (drafted : HasDraft options program draft) : draft.Resolved := by
  cases drafted with
  | main scanned compiled => exact (main_resolved options scanned).of_run compiled
  | initializer cells => exact ClassInitializer.draft_resolved _ cells
  | helper helper => exact helper.draft_resolved

theorem Fails.not_blamed {options : Options} {program : Program} {error : CompileError}
    (fails : Fails options program error) : ¬ error.BlamesLabel := by
  cases fails with
  | lines refused =>
      have marked := LineSet.scan_holds program
      rw [refused] at marked
      obtain ⟨⟨line, rfl⟩, _⟩ := marked
      rintro ⟨_, _, blamed⟩
      simp at blamed
  | statement scanned refused =>
      have ended := main_resolved options scanned
      rw [Ends, refused] at ended
      rintro ⟨_, _, blamed⟩
      exact blamed.elim (ended.2 _) (ended.2 _)
  | front scanned refused unassembled =>
      have ended := main_resolved options scanned
      rw [Ends, refused] at ended
      rcases unassembled with ⟨_, rfl⟩ | ⟨_, _, repeated⟩
      · rintro ⟨_, _, blamed⟩
        simp at blamed
      · exact absurd ended.1 repeated
  | main scanned compiled refused => exact (HasDraft.main scanned compiled).resolved.not_blamed refused
  | initializer refused => exact (ClassInitializer.draft_resolved _ _).not_blamed refused
  | helper refused => exact (Helper.draft_resolved _).not_blamed refused
  | limit isLimit =>
      rintro ⟨_, _, blamed⟩
      subst isLimit
      simp at blamed

/-- No program is refused for a label. Whatever mixture of lines, conditionals, loops and subroutines
it contains, each label that a method refers to is defined exactly once when the method is finished. -/
theorem compile_resolves_labels (options : Options) (program : Program) :
    (∀ method label,
      compile options program ≠ .error (.assembly (.unresolvedLabel method label)) ∧
      compile options program ≠ .error (.assembly (.duplicateLabel method label))) ∧
    ∀ draft, HasDraft options program draft →
      ∀ label ∈ draft.references, draft.definitions.count label = 1 := by
  refine ⟨fun method label => ⟨fun failed => ?_, fun failed => ?_⟩, fun draft drafted label refers => ?_⟩
  · exact (fails_of_compile failed).not_blamed ⟨method, label, .inl rfl⟩
  · exact (fails_of_compile failed).not_blamed ⟨method, label, .inr rfl⟩
  · obtain ⟨distinct, defined⟩ := drafted.resolved
    exact List.count_eq_one_of_mem distinct (defined label refers)

end Program

end BasicCompiler
