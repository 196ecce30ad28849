import BasicCompiler.Method.Session
import BasicCompiler.Proofs.Method.Layout

/-!
What the calls of a session leave in the code. A journal notes the place of every instruction and of
every label at the moment it is written, and the finished code decodes to exactly the instructions of
the journal. Nothing is asked of the pool that the session starts with, and calls that fail may stand
between the others.
-/

namespace BasicCompiler

open Instruction

variable {entries : List Entry} {emission : Emission} {session : Session} {insn : Insn}

namespace Insn

def index? (owner : String) (pool : ConstantPool) (insn : Insn) : Option UInt16 :=
  (insn.constantIndex? owner).bind fun action => (action.run pool).1.toOption

/-- What an instruction is linked to decodes to the instructions that stand for it. -/
theorem link_shows (owner : String) (insn : Insn) (build : Build) :
    Ends (insn.link owner) build
      (fun fragment _ => fragment.Shows insn (insn.index? owner build.pool)) (fun _ _ => True) := by
  rw [link_eq, ends_bind]
  refine (insn.announce_silent build).mono ?_ (fun _ _ never => never.elim)
  rintro _ middle same
  rw [← same, index?]
  cases refers : insn.constantIndex? owner with
  | none => exact fragment_shows (by rw [refers]; rfl)
  | some action =>
      rw [ends_bind, Build.ends_interned, Option.bind_some]
      unfold Ends
      generalize action.run middle.pool = outcome
      rcases outcome with ⟨error | index, pool⟩
      · trivial
      · exact fragment_shows (by rw [refers]; rfl)

end Insn

inductive Entry where
  | instruction (position : Nat) (insn : Insn) (index : Option UInt16)
  | label (position : Nat) (label : Label)

namespace Entry

def place? (name : Label) : Entry → Option Nat
  | instruction _ _ _ => none
  | label position found => if found = name then some position else none

def position? (entries : List Entry) (name : Label) : Option Nat :=
  (entries.filterMap (place? name)).getLast?

def instructions (target : Label → Nat) : Entry → List Instruction
  | instruction position insn index => insn.instructions target position index
  | label _ _ => []

def target (entries : List Entry) (name : Label) : Nat := (position? entries name).getD 0

theorem position?_append_instruction (entries : List Entry) (position : Nat) (insn : Insn)
    (index : Option UInt16) (name : Label) :
    position? (entries ++ [Entry.instruction position insn index]) name = position? entries name := by
  simp [position?, place?]

theorem position?_append_label (entries : List Entry) (position : Nat) (label name : Label) :
    position? (entries ++ [Entry.label position label]) name =
      if label = name then some position else position? entries name := by
  by_cases same : label = name <;> simp [position?, place?, same]

theorem mem_of_position? {name : Label} {position : Nat} (found : position? entries name = some position) :
    .label position name ∈ entries := by
  obtain ⟨entry, member, isPlace⟩ := List.mem_filterMap.mp (List.mem_of_getLast? found)
  cases entry with
  | instruction _ _ _ => cases isPlace
  | label _ label =>
      simp only [place?] at isPlace
      split at isPlace
      · rename_i same
        cases isPlace
        rw [← same]
        exact member
      · cases isPlace

end Entry

inductive Recorded : Nat → List Entry → List Fragment → Prop
  | nil {position : Nat} : Recorded position [] []
  | instruction {position : Nat} {insn : Insn} {index : Option UInt16} {fragment : Fragment}
      {entries : List Entry} {fragments : List Fragment} :
      fragment.Shows insn index →
      Recorded (position + fragment.size position) entries fragments →
      Recorded position (.instruction position insn index :: entries) (fragment :: fragments)
  | label {position : Nat} {label : Label} {entries : List Entry} {fragments : List Fragment} :
      Recorded position entries fragments →
      Recorded position (.label position label :: entries) fragments

namespace Recorded

variable {position : Nat} {entries entries' : List Entry} {fragments fragments' : List Fragment}

theorem append (recorded : Recorded position entries fragments)
    (recorded' : Recorded (Fragment.stop position fragments) entries' fragments') :
    Recorded position (entries ++ entries') (fragments ++ fragments') := by
  induction recorded with
  | nil => exact recorded'
  | instruction shows _ ih => exact .instruction shows (ih recorded')
  | label _ ih => exact .label (ih recorded')

theorem label_le (recorded : Recorded position entries fragments) {place : Nat} {label : Label}
    (member : .label place label ∈ entries) : place ≤ Fragment.stop position fragments := by
  induction recorded with
  | nil => cases member
  | instruction _ _ ih =>
      rcases List.mem_cons.mp member with here | later
      · cases here
      · exact ih later
  | label _ ih =>
      rcases List.mem_cons.mp member with here | later
      · cases here
        exact Fragment.le_stop _ _
      · exact ih later

theorem names_label (recorded : Recorded position entries fragments) {place : Nat} {index : Option UInt16}
    (member : .instruction place insn index ∈ entries) {label : Label} (named : label ∈ insn.labels) :
    label ∈ fragments.flatMap Fragment.labels := by
  induction recorded with
  | nil => cases member
  | instruction shows _ ih =>
      rw [List.flatMap_cons, List.mem_append]
      rcases List.mem_cons.mp member with here | later
      · cases here
        rw [shows.labels]
        exact .inl named
      · exact .inr (ih later)
  | label _ ih =>
      rcases List.mem_cons.mp member with here | later
      · cases here
      · exact ih later

theorem decodes {labels : Std.HashMap Label Nat} {code : Array UInt8}
    (recorded : Recorded position entries fragments)
    (shaped : ∀ place insn index, .instruction place insn index ∈ entries → insn.Shaped)
    (stored : Fragment.Stored labels code position fragments) :
    Decodes code position (entries.flatMap (Entry.instructions (Buffer.targetOf labels)))
      (Fragment.stop position fragments) := by
  induction recorded with
  | nil => rfl
  | @instruction position insn index fragment entries fragments shows _ ih =>
      obtain ⟨reaches, written, stored⟩ := stored.cons
      have first := shows.decodes (shaped position insn index (List.mem_cons_self ..)) _ _ _ reaches
        written
      rw [← Fragment.raw_length] at first
      exact first.append (ih (fun place other index member =>
        shaped place other index (List.mem_cons_of_mem _ member)) stored)
  | label _ ih =>
      exact ih (fun place insn index member =>
        shaped place insn index (List.mem_cons_of_mem _ member)) stored

end Recorded

namespace Emission

/-- What an item leaves in the code. An instruction that cannot be linked leaves nothing, and a label
that is defined before moves. -/
def recordItem (emission : Emission) : Item → List Entry
  | .insn insn =>
    match (emit insn).run emission with
    | (.ok _, _) =>
      let index := insn.index? emission.emitter.header.owner emission.build.pool
      [.instruction emission.emitter.position insn index]
    | (.error _, _) => []
  | .label label => [.label emission.emitter.position label]
  | .sourceLine _ | .request _ => []

def record (emission : Emission) : List Item → List Entry
  | [] => []
  | first :: rest =>
    emission.recordItem first ++
      match (emitItem first).run emission with
      | (.ok _, next) => next.record rest
      | (.error _, _) => []

theorem mem_record {items : List Item} {position : Nat} {index : Option UInt16}
    (member : .instruction position insn index ∈ emission.record items) :
    .insn insn ∈ items := by
  induction items generalizing emission with
  | nil => cases member
  | cons first rest ih =>
      rw [record, List.mem_append] at member
      rcases member with here | later
      · cases first with
        | insn found =>
            simp only [recordItem] at here
            split at here
            · cases List.mem_singleton.mp here
              exact List.mem_cons_self ..
            · cases here
        | label label => cases List.mem_singleton.mp here
        | sourceLine | request => cases here
      · split at later
        · exact List.mem_cons_of_mem _ (ih later)
        · cases later

/-- The code of a method is what the entries say, and its labels are where they say. -/
structure Logs (entries : List Entry) (emission : Emission) : Prop where
  limit : emission.emitter.buffer.limit = Buffer.maxCodeLength
  labels : ∀ label, emission.emitter.buffer.labels[label]? = Entry.position? entries label
  written : ∃ fragments, emission.emitter.buffer.Written fragments ∧ Recorded 0 entries fragments

theorem new_logs (build : Build) (header : MethodHeader) : Logs [] ⟨build, Emitter.new header⟩ where
  limit := rfl
  labels := by simp [Emitter.new, Buffer.empty, Entry.position?]
  written := ⟨[], ⟨rfl, rfl⟩, .nil⟩

theorem emit_logs (logs : emission.Logs entries) (insn : Insn) :
    Ends (emit insn) emission
      (fun _ final => final.Logs (entries ++ [Entry.instruction emission.emitter.position insn
        (insn.index? emission.emitter.header.owner emission.build.pool)]))
      (fun _ final => final.Logs entries) := by
  obtain ⟨limit, labels, fragments, written, recorded⟩ := logs
  unfold emit
  rw [ends_bind, ends_get, ends_bind, ends_onBuild]
  refine (Insn.link_shows emission.emitter.header.owner insn emission.build).mono ?_ ?_
  · intro fragment build shows
    rw [ends_modify]
    have appends := Buffer.append_appends emission.emitter.buffer fragment
    refine ⟨appends.limit.trans limit, ?_, fragments ++ [fragment], written.append fragment, ?_⟩
    · intro label
      rw [Entry.position?_append_instruction, ← labels]
      change (emission.emitter.buffer.append fragment).labels[label]? = _
      rw [appends.labels]
    · refine recorded.append ?_
      rw [Emitter.position, written.position]
      exact .instruction shows .nil
  · intro error build _
    exact ⟨limit, labels, fragments, written, recorded⟩

theorem define_logs (logs : emission.Logs entries) (label : Label) :
    ((define label).run emission).2.Logs
      (entries ++ [Entry.label emission.emitter.position label]) := by
  obtain ⟨limit, labels, fragments, written, recorded⟩ := logs
  have moved (final : Build) : Logs (entries ++ [Entry.label emission.emitter.position label])
      ⟨final, { emission.emitter with buffer := (emission.emitter.buffer.define label).2 }⟩ := by
    refine ⟨limit, ?_, fragments, ⟨written.bytes, written.patches⟩, ?_⟩
    · intro name
      rw [Entry.position?_append_label, ← labels]
      simp only [Buffer.define, Std.HashMap.getElem?_insert, beq_iff_eq]
      rfl
    · have here : Recorded (Fragment.stop 0 fragments) [.label emission.emitter.position label] [] := by
        rw [Emitter.position, written.position]
        exact .label .nil
      simpa using recorded.append here
  refine ((define_ends label emission).mono ?_ ?_).reached
  · rintro _ _ ⟨_, _, rfl⟩
    exact moved _
  · rintro _ _ ⟨_, _, rfl⟩
    exact moved _

theorem emitItem_logs (logs : emission.Logs entries) (item : Item) :
    ((emitItem item).run emission).2.Logs (entries ++ emission.recordItem item) := by
  cases item with
  | insn insn =>
      have ends := emit_logs logs insn
      unfold Ends at ends
      change ((emit insn).run emission).2.Logs _
      rcases outcome : (emit insn).run emission with ⟨error | value, final⟩
      · simp only [outcome] at ends
        simpa only [recordItem, outcome, List.append_nil] using ends
      · simp only [outcome] at ends
        simpa only [recordItem, outcome] using ends
  | label label => exact define_logs logs label
  | sourceLine line =>
      obtain ⟨limit, labels, written⟩ := logs
      rw [recordItem, List.append_nil]
      exact ⟨limit, labels, written⟩
  | request helper =>
      obtain ⟨limit, labels, written⟩ := logs
      rw [recordItem, List.append_nil]
      exact ⟨limit, labels, written⟩

theorem emitItems_logs (logs : emission.Logs entries) (items : List Item) :
    ((emitItems items).run emission).2.Logs (entries ++ emission.record items) := by
  induction items generalizing entries emission with
  | nil =>
      rw [record, List.append_nil]
      exact logs
  | cons first rest ih =>
      have step := emitItem_logs logs first
      rw [record, ← List.append_assoc]
      change (ExceptT.bindCont (fun _ => emitItems rest) ((emitItem first).run emission).1
        ((emitItem first).run emission).2).2.Logs _
      generalize (emitItem first).run emission = outcome at step ⊢
      rcases outcome with ⟨error | value, middle⟩
      · rw [List.append_nil]
        exact step
      · exact ih step

end Emission

namespace Session

def call (session : Session) (action : DraftM Unit) : Session := ((step action).run session).2

def record (session : Session) (action : DraftM Unit) : List Entry :=
  session.emission.record (action.run ⟨session.scope, #[], session.handlers⟩).2.items.toList

def journal (session : Session) : List (DraftM Unit) → List Entry
  | [] => []
  | first :: rest => session.record first ++ (session.call first).journal rest

theorem call_emission (session : Session) (action : DraftM Unit) :
    (session.call action).emission =
      ((Emission.emitItems (action.run ⟨session.scope, #[], session.handlers⟩).2.items.toList).run
        session.emission).2 := by
  let drafted := action.run ⟨session.scope, #[], session.handlers⟩
  change (match (Emission.emitItems drafted.2.items.toList).run session.emission with
    | (.ok _, emission) => (.ok drafted.1, ⟨drafted.2.scope, drafted.2.handlers, emission⟩)
    | (.error error, emission) =>
      (.error error, ⟨drafted.2.scope, drafted.2.handlers, emission⟩) :
    Except CompileError Unit × Session).2.emission = _
  generalize (Emission.emitItems drafted.2.items.toList).run session.emission = outcome
  rcases outcome with ⟨error | value, final⟩ <;> rfl

theorem call_logs (logs : session.emission.Logs entries) (action : DraftM Unit) :
    (session.call action).emission.Logs (entries ++ session.record action) := by
  rw [call_emission]
  exact Emission.emitItems_logs logs _

theorem calls_log (logs : session.emission.Logs entries) (calls : List (DraftM Unit)) :
    (calls.foldl call session).emission.Logs (entries ++ session.journal calls) := by
  induction calls generalizing entries session with
  | nil =>
      rw [journal, List.append_nil]
      exact logs
  | cons first rest ih =>
      rw [journal, ← List.append_assoc]
      exact ih (call_logs logs first)

theorem finish_ends (logs : session.emission.Logs entries)
    (shaped : ∀ position insn index, .instruction position insn index ∈ entries → insn.Shaped) :
    Ends (session.emission.emitter.finish session.handlers.toList session.scope.nextSlot)
      session.emission.build
      (fun unit _ =>
        decode unit.code = .ok (entries.flatMap (Entry.instructions (Entry.target entries))) ∧
        ∀ position insn index, .instruction position insn index ∈ entries →
          ∀ label ∈ insn.labels, ∃ place, .label place label ∈ entries)
      (fun _ _ => True) := by
  obtain ⟨limit, labels, fragments, written, recorded⟩ := logs
  unfold Emitter.finish
  rw [ends_bind]
  refine (ends_any _ _).imp ?_
  intro rows tabled _
  rw [ends_bind, Build.ends_traced]
  refine (written.finish tabled.events).mono ?_ (fun _ _ _ => trivial)
  rintro code events ⟨codeIs, small, filled⟩
  rw [ends_bind, Build.report, ends_modify, ends_pure]
  have target : Buffer.targetOf session.emission.emitter.buffer.labels = Entry.target entries := by
    funext label
    rw [Buffer.targetOf, labels, Entry.target]
  have targets (bound : Fragment.stop 0 fragments ≤ 65535) (label : Label) :
      Entry.target entries label ≤ 65535 := by
    cases found : Entry.position? entries label with
    | none => simp [Entry.target, found]
    | some place =>
        have inside := recorded.label_le (Entry.mem_of_position? found)
        simp only [Entry.target, found, Option.getD_some]
        omega
  obtain ⟨size, stored⟩ := written.stored limit (by rwa [target]) codeIs small filled
  have decodes := recorded.decodes shaped stored
  rw [target, ← size] at decodes
  refine ⟨decodes.decode, ?_⟩
  intro position insn index member label named
  have patched := recorded.names_label member named
  rw [← Fragment.spread_labels 0, List.mem_map] at patched
  obtain ⟨patch, isPatch, rfl⟩ := patched
  obtain ⟨_, known, _⟩ := filled patch isPatch
  rw [Std.HashMap.contains_eq_isSome_getElem?, labels, Option.isSome_iff_exists] at known
  obtain ⟨place, found⟩ := known
  exact ⟨place, Entry.mem_of_position? found⟩

/-- The code of a finished method decodes to what the calls wrote, each instruction at the position
where it was written, with its branches at the labels that they name. -/
theorem finish_decodes {build final : Build} {header : MethodHeader} {calls : List (DraftM Unit)}
    {unit : MethodUnit}
    (finished : (calls.foldl call (start build header)).finish = (.ok unit, final))
    (shaped : ∀ position insn index,
      .instruction position insn index ∈ (start build header).journal calls → insn.Shaped) :
    let entries := (start build header).journal calls
    decode unit.code = .ok (entries.flatMap (Entry.instructions (Entry.target entries))) ∧
      ∀ position insn index, .instruction position insn index ∈ entries →
        (insn.instructions (Entry.target entries) position index).length = insn.parts ∧
          ∀ label ∈ insn.labels, ∃ place, .label place label ∈ entries := by
  intro entries
  have begun : (start build header).emission.Logs [] := Emission.new_logs build header
  have logs := calls_log begun calls
  rw [List.nil_append] at logs
  obtain ⟨decoded, defined⟩ := (finish_ends logs shaped).of_run finished
  refine ⟨decoded, ?_⟩
  intro position insn index member
  exact ⟨insn.instructions_length _ position index, defined position insn index member⟩

theorem call_addItem (session : Session) (item : Item) :
    session.call (Draft.addItem item) =
      ⟨session.scope, session.handlers, ((Emission.emitItem item).run session.emission).2⟩ := by
  change (match ExceptT.bindCont (fun _ => Emission.emitItems [])
      ((Emission.emitItem item).run session.emission).1
      ((Emission.emitItem item).run session.emission).2 with
    | (.ok _, emission) => (.ok (), ⟨session.scope, session.handlers, emission⟩)
    | (.error error, emission) => (.error error, ⟨session.scope, session.handlers, emission⟩) :
    Except CompileError Unit × Session).2 = _
  generalize (Emission.emitItem item).run session.emission = outcome
  rcases outcome with ⟨error | value, final⟩ <;> rfl

theorem mem_journal {calls : List (DraftM Unit)} {position : Nat} {index : Option UInt16}
    (member : .instruction position insn index ∈ session.journal calls) :
    ∃ action ∈ calls, ∃ scope handlers,
      .insn insn ∈ (action.run ⟨scope, #[], handlers⟩).2.items.toList := by
  induction calls generalizing session with
  | nil => cases member
  | cons first rest ih =>
      rcases List.mem_append.mp member with here | later
      · exact ⟨first, List.mem_cons_self .., session.scope, session.handlers,
          Emission.mem_record here⟩
      · obtain ⟨action, isCall, drafted⟩ := ih later
        exact ⟨action, List.mem_cons_of_mem _ isCall, drafted⟩

def loopCalls : List (DraftM Unit) :=
  [Draft.place "loop", Draft.pushInt 70000, Draft.istore 300, Draft.goto "loop"]

def loopHeader : MethodHeader := ⟨"Loop", "run", "()V", Access.staticBit, 1⟩

def loopLabels : Std.HashMap Label Nat := (∅ : Std.HashMap Label Nat).insert "loop" 0

def loopWith (pool : ConstantPool) (bytes : Array UInt8) (patches : Array Patch) : Session where
  scope := Scope.ofDescriptor "()V"
  handlers := #[]
  emission := ⟨⟨pool, .empty, #[.labelDefined "run" "loop" 0]⟩,
    ⟨loopHeader, ⟨"run", bytes, Buffer.maxCodeLength, loopLabels, patches⟩, #[]⟩⟩

theorem loop_places :
    (start Build.empty loopHeader).call (Draft.place "loop") = loopWith .empty #[] #[] := by
  rw [Draft.place, call_addItem]
  simp [loopWith, loopLabels, start, Emission.emitItem, Emission.define, Buffer.define, Emitter.new,
    Buffer.empty, ExceptT.run, Build.empty, loopHeader, Buffer.position]

theorem loop_loads :
    (loopWith .empty #[] #[]).call (Draft.pushInt 70000) =
      loopWith (ConstantPool.empty.push (.integer 70000)) #[0x12, 0x01] #[] := by
  have interned : (ConstantPool.integer 70000).run ConstantPool.empty =
      (.ok 1, ConstantPool.empty.push (.integer 70000)) := by
    rw [ConstantPool.integer, ConstantPool.intern_run]
    simp [ConstantPool.empty, ConstantPool.obstacle?, ConstantPool.maxIndex, Constant.width]
  have emitted : (Emission.emit (.pushInt 70000)).run (loopWith .empty #[] #[]).emission =
      (.ok (), (loopWith (ConstantPool.empty.push (.integer 70000)) #[0x12, 0x01] #[]).emission) := by
    apply Ends.run_eq
    rw [Emission.emit, ends_bind, ends_get, ends_bind, Emission.ends_onBuild, Insn.link, ends_bind]
    change Ends (do return Insn.loadConstant (← Build.interned (ConstantPool.integer 70000))) _ _ _
    rw [ends_bind, Build.ends_interned]
    unfold Ends
    rw [loopWith, interned]
    exact ⟨rfl, rfl⟩
  rw [Draft.pushInt, Draft.emit, call_addItem, Emission.emitItem, emitted]
  rfl

theorem loop_closes :
    loopCalls.foldl call (start Build.empty loopHeader) =
      loopWith (ConstantPool.empty.push (.integer 70000))
        #[0x12, 0x01, 0xC4, 0x36, 0x01, 0x2C, 0xA7, 0, 0] #[⟨7, some 6, .short, "loop"⟩] := by
  simp only [loopCalls, List.foldl, loop_places, loop_loads]
  rfl

def loopUnit : MethodUnit where
  header := loopHeader
  maxLocals := 0
  code := #[0x12, 0x01, 0xC4, 0x36, 0x01, 0x2C, 0xA7, 0xFF, 0xFA]
  handlers := []
  lines := []

theorem loop_finishes :
    ∃ final, (loopCalls.foldl call (start Build.empty loopHeader)).finish =
      (.ok loopUnit, final) := by
  have known : loopLabels["loop"]? = some 0 := by simp [loopLabels]
  refine ⟨⟨ConstantPool.empty.push (.integer 70000), .empty, #[.labelDefined "run" "loop" 0,
    .fieldResolved "run" "loop" 7 (-6), .methodFinished "run" "()V" 9 0]⟩, ?_⟩
  rw [loop_closes]
  change (Emitter.finish _ [] 0).run _ = _
  apply Ends.run_eq
  rw [Emitter.finish, ends_bind, List.mapM_nil, ends_pure, ends_bind, Build.ends_traced]
  change Ends (Buffer.resolve "run" loopLabels _ _ >>= _) _ _ _
  unfold Buffer.resolve
  simp only [known]
  exact ⟨rfl, rfl⟩

theorem loop_shaped (position : Nat) (insn : Insn) (index : Option UInt16)
    (member : .instruction position insn index ∈ (start Build.empty loopHeader).journal loopCalls) :
    insn.Shaped := by
  obtain ⟨action, isCall, scope, handlers, drafted⟩ := mem_journal member
  simp only [loopCalls, List.mem_cons, List.not_mem_nil, or_false] at isCall
  rcases isCall with rfl | rfl | rfl | rfl
  · cases List.mem_singleton.mp drafted
  · cases List.mem_singleton.mp drafted
    trivial
  · cases List.mem_singleton.mp drafted
    exact show Opcode.istore.accessesSlot = true by decide
  · cases List.mem_singleton.mp drafted
    exact show Opcode.goto.shape = .branch by decide

theorem loop_decodes :
    let entries := (start Build.empty loopHeader).journal loopCalls
    (∃ final, (loopCalls.foldl call (start Build.empty loopHeader)).finish =
      (.ok loopUnit, final)) ∧
    decode loopUnit.code = .ok (entries.flatMap (Entry.instructions (Entry.target entries))) := by
  obtain ⟨final, finished⟩ := loop_finishes
  exact ⟨⟨final, finished⟩, (finish_decodes finished loop_shaped).1⟩

end Session

end BasicCompiler
