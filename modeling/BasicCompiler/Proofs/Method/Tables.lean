import BasicCompiler.Proofs.Method.Journal

/-!
The tables of a finished method. The rows are made before the length of the code is checked, from
positions that are cut to sixteen bits. No position passes the end of the code, so where the code is short
enough nothing has been cut.
-/

namespace BasicCompiler

variable {emission : Emission} {session : Session} {entries : List Entry} {known : List (Nat × UInt32)}

namespace Emission

/-- The line that an item marks, at the position that the code has reached. -/
def marksOf (emission : Emission) : Item → List (Nat × UInt32)
  | .sourceLine line => [(emission.emitter.position, line)]
  | .insn _ | .label _ | .request _ => []

def marks (emission : Emission) : List Item → List (Nat × UInt32)
  | [] => []
  | first :: rest =>
    emission.marksOf first ++
      match (emitItem first).run emission with
      | (.ok _, next) => next.marks rest
      | (.error _, _) => []

/-- The lines marked so far do not go back in the code and lie within it. -/
structure Marked (marks : List (Nat × UInt32)) (emission : Emission) : Prop where
  lines : emission.emitter.lines.toList = marks
  ordered : marks.Pairwise fun first second => first.1 ≤ second.1
  within : ∀ mark ∈ marks, mark.1 ≤ emission.emitter.position

theorem Marked.extend {final : Emission} (marked : emission.Marked known)
    (lines : final.emitter.lines = emission.emitter.lines)
    (further : emission.emitter.position ≤ final.emitter.position) : final.Marked known where
  lines := by rw [lines, marked.lines]
  ordered := marked.ordered
  within mark member := Nat.le_trans (marked.within mark member) further

theorem emitItem_marked (marked : emission.Marked known) (item : Item) :
    ((emitItem item).run emission).2.Marked (known ++ emission.marksOf item) := by
  cases item with
  | sourceLine line =>
      refine ⟨?_, List.pairwise_append.mpr ⟨marked.ordered, List.pairwise_singleton .., ?_⟩, ?_⟩
      · exact Array.toList_push.trans (congrArg (· ++ _) marked.lines)
      · rintro mark member _ last
        cases List.mem_singleton.mp last
        exact marked.within mark member
      · intro mark member
        rcases List.mem_append.mp member with earlier | last
        · exact marked.within mark earlier
        · cases List.mem_singleton.mp last
          exact Nat.le_refl _
  | insn insn =>
      rw [marksOf, List.append_nil, emitItem]
      refine Ends.reached ?_
      rw [emit, ends_bind, ends_get, ends_bind, ends_onBuild]
      refine (ends_any _ _).mono (fun fragment _ _ => ?_) (fun _ _ _ => marked.extend rfl (Nat.le_refl _))
      rw [ends_modify]
      have size := congrArg List.length
        (Buffer.append_appends emission.emitter.buffer fragment).bytes
      rw [Array.length_toList, List.length_append, Array.length_toList] at size
      exact marked.extend rfl (Nat.le.intro size.symm)
  | label label =>
      rw [marksOf, List.append_nil, emitItem]
      refine ((define_ends label emission).mono ?_ ?_).reached
      · rintro _ _ ⟨_, _, rfl⟩
        exact marked.extend rfl (Nat.le_refl _)
      · rintro _ _ ⟨_, _, rfl⟩
        exact marked.extend rfl (Nat.le_refl _)
  | request helper =>
      rw [marksOf, List.append_nil]
      exact marked.extend rfl (Nat.le_refl _)

theorem emitItems_marked (marked : emission.Marked known) (items : List Item) :
    ((emitItems items).run emission).2.Marked (known ++ emission.marks items) := by
  induction items generalizing known emission with
  | nil =>
      rw [Emission.marks, List.append_nil]
      exact marked
  | cons first rest ih =>
      have step := emitItem_marked marked first
      rw [Emission.marks, ← List.append_assoc]
      change (ExceptT.bindCont (fun _ => emitItems rest) ((emitItem first).run emission).1
        ((emitItem first).run emission).2).2.Marked _
      generalize (emitItem first).run emission = outcome at step ⊢
      rcases outcome with ⟨error | value, middle⟩
      · rw [List.append_nil]
        exact step
      · exact ih step

end Emission

/-- The rows of handlers hold the positions of their labels, as far as sixteen bits can. -/
theorem Emitter.rows_placed (emitter : Emitter) (handlers : List Handler) (build : Build) :
    Ends (handlers.mapM emitter.handlerRow) build
      (fun rows _ => List.Forall₂ (fun handler row =>
        (∀ label ∈ handler.labels, emitter.buffer.labels.contains label = true) ∧
          ∃ catchType, row = emitter.rowOf handler catchType) handlers rows)
      (fun _ _ => True) := by
  refine (ends_mapM (fun _ _ => True) (fun _ => trivial) (fun _ _ => trivial) (fun holds _ => holds)
    handlers build ?_).imp (fun _ _ placed => placed.2)
  intro handler _ state _
  rcases emitter.handlerRow_cases handler with ⟨defined, row⟩ | ⟨label, _, _, row⟩
  · rw [row, ends_bind]
    exact (ends_any _ _).imp (fun index _ _ => ⟨trivial, defined, index, rfl⟩)
  · rw [row, ends_bind]
    exact (ends_any _ _).imp (fun _ _ _ => trivial)

namespace Session

def marks (session : Session) (action : DraftM Unit) : List (Nat × UInt32) :=
  session.emission.marks (action.run ⟨session.scope, #[], session.handlers⟩).2.items.toList

/-- The lines that calls mark, each with the position at its call. -/
def lineMarks (session : Session) : List (DraftM Unit) → List (Nat × UInt32)
  | [] => []
  | first :: rest => session.marks first ++ (session.call first).lineMarks rest

theorem calls_mark (marked : session.emission.Marked known) (calls : List (DraftM Unit)) :
    (calls.foldl call session).emission.Marked (known ++ session.lineMarks calls) := by
  induction calls generalizing known session with
  | nil =>
      rw [lineMarks, List.append_nil]
      exact marked
  | cons first rest ih =>
      rw [lineMarks, ← List.append_assoc]
      refine ih ?_
      rw [call_emission]
      exact Emission.emitItems_marked marked _

/-- A row of the table of handlers is at the positions that its labels have in the code. -/
def Covers (entries : List Entry) (handler : Handler) (row : HandlerRow) : Prop :=
  Entry.position? entries handler.start = some row.start.toNat ∧
    Entry.position? entries handler.stop = some row.stop.toNat ∧
    Entry.position? entries handler.handler = some row.handler.toNat

theorem finish_tabled (logs : session.emission.Logs entries) (marked : session.emission.Marked known) :
    Ends (session.emission.emitter.finish session.handlers.toList session.scope.nextSlot)
      session.emission.build
      (fun unit _ => List.Forall₂ (Covers entries) session.handlers.toList unit.handlers ∧
        unit.lines.map (fun row => (row.start.toNat, row.line.toNat)) =
          known.map (fun mark => (mark.1, min mark.2.toNat 65535)))
      (fun _ _ => True) := by
  obtain ⟨limit, labels, fragments, written, recorded⟩ := logs
  unfold Emitter.finish
  rw [ends_bind]
  refine (session.emission.emitter.rows_placed _ _).imp ?_
  intro rows tabled placed
  rw [ends_bind, Build.ends_traced]
  refine (written.finish tabled.events).mono ?_ (fun _ _ _ => trivial)
  rintro code events ⟨_, small, _⟩
  rw [ends_bind, Build.report, ends_modify, ends_pure]
  rw [limit, Buffer.maxCodeLength] at small
  have fits {position : Nat} (within : position ≤ session.emission.emitter.position) :
      (UInt16.ofNat position).toNat = position := by
    have short : position ≤ 65535 := Nat.le_trans within small
    rw [UInt16.toNat_ofNat']
    omega
  constructor
  · refine placed.imp ?_
    rintro handler _ ⟨defined, catchType, rfl⟩
    have found (label : Label) (member : label ∈ handler.labels) :
        Entry.position? entries label = some (UInt16.ofNat
          (Buffer.targetOf session.emission.emitter.buffer.labels label)).toNat := by
      have known := defined label member
      rw [Std.HashMap.contains_eq_isSome_getElem?, labels, Option.isSome_iff_exists] at known
      obtain ⟨place, isPlace⟩ := known
      have within : place ≤ session.emission.emitter.position := by
        rw [Emitter.position, written.position]
        exact recorded.label_le (Entry.mem_of_position? isPlace)
      rw [Buffer.targetOf, labels, isPlace, Option.getD_some, fits within]
    exact ⟨found _ (by simp [Handler.labels]), found _ (by simp [Handler.labels]),
      found _ (by simp [Handler.labels])⟩
  · dsimp only
    rw [marked.lines, List.map_map]
    refine List.map_congr_left fun mark member => ?_
    have line : min mark.2.toNat 65535 < 65536 := by omega
    simp only [Function.comp, Emitter.lineRow, fits (marked.within mark member), UInt16.toNat_ofNat']
    rw [Nat.mod_eq_of_lt line]

/-- Whatever calls a method was made by, its tables lost nothing when positions were cut to sixteen bits:
the handlers are where their labels are, and the lines are the marked ones, in order, each at the position
where it was marked. -/
theorem finish_tables {build final : Build} {header : MethodHeader} {calls : List (DraftM Unit)}
    {unit : MethodUnit}
    (finished : (calls.foldl call (start build header)).finish = (.ok unit, final)) :
    List.Forall₂ (Covers ((start build header).journal calls))
        (calls.foldl call (start build header)).handlers.toList unit.handlers ∧
      unit.lines.map (fun row => (row.start.toNat, row.line.toNat)) =
        ((start build header).lineMarks calls).map (fun mark => (mark.1, min mark.2.toNat 65535)) ∧
      unit.lines.Pairwise fun first second => first.start ≤ second.start := by
  have begun : (start build header).emission.Logs [] := Emission.new_logs build header
  have logs := calls_log begun calls
  have unmarked : (start build header).emission.Marked [] := ⟨rfl, .nil, by simp⟩
  have marked := calls_mark unmarked calls
  rw [List.nil_append] at logs marked
  obtain ⟨covers, lines⟩ := (finish_tabled logs marked).of_run finished
  refine ⟨covers, lines, ?_⟩
  have ordered : (unit.lines.map fun row => (row.start.toNat, row.line.toNat)).Pairwise
      fun first second => first.1 ≤ second.1 := by
    rw [lines]
    exact List.pairwise_map.mpr marked.ordered
  exact (List.pairwise_map.mp ordered).imp fun before => UInt16.le_iff_toNat_le.mpr before

def guardCalls : List (DraftM Unit) :=
  loopCalls ++ [Draft.addHandler ⟨"loop", "loop", "loop", none⟩, Draft.addItem (.sourceLine 70000)]

def guardUnit : MethodUnit := { loopUnit with handlers := [⟨0, 0, 0, 0⟩], lines := [⟨9, 65535⟩] }

theorem guard_finishes :
    ∃ final, (guardCalls.foldl call (start Build.empty loopHeader)).finish = (.ok guardUnit, final) := by
  have known : loopLabels["loop"]? = some 0 := by simp [loopLabels]
  refine ⟨⟨ConstantPool.empty.push (.integer 70000), .empty, #[.labelDefined "run" "loop" 0,
    .fieldResolved "run" "loop" 7 (-6), .methodFinished "run" "()V" 9 0]⟩, ?_⟩
  rw [guardCalls, List.foldl_append, loop_closes]
  change (Emitter.finish ⟨loopHeader, ⟨"run", _, _, loopLabels, _⟩, _⟩ [⟨"loop", "loop", "loop", none⟩] 0).run
    _ = _
  apply Ends.run_eq
  rw [Emitter.finish, ends_bind, List.mapM_cons, List.mapM_nil]
  simp only [Emitter.handlerRow, Emitter.labelPosition, Buffer.labelPosition?, known, pure_bind, ends_pure]
  rw [ends_bind, Build.ends_traced]
  change Ends (Buffer.resolve "run" loopLabels _ _ >>= _) _ _ _
  unfold Buffer.resolve
  simp only [known]
  exact ⟨rfl, rfl⟩

theorem guard_tables :
    let session := start Build.empty loopHeader
    (∃ final, (guardCalls.foldl call session).finish = (.ok guardUnit, final)) ∧
      List.Forall₂ (Covers (session.journal guardCalls)) (guardCalls.foldl call session).handlers.toList
        guardUnit.handlers ∧
      guardUnit.lines.map (fun row => (row.start.toNat, row.line.toNat)) =
        (session.lineMarks guardCalls).map (fun mark => (mark.1, min mark.2.toNat 65535)) := by
  obtain ⟨final, finished⟩ := guard_finishes
  obtain ⟨covers, lines, _⟩ := finish_tables finished
  exact ⟨⟨final, finished⟩, covers, lines⟩

end Session

end BasicCompiler
