import BasicCompiler.Proofs.Method.Emit

/-!
The layout of a finished method: which instructions the items of its draft became, and where its labels
and exception handlers stand.
-/

namespace BasicCompiler

open Instruction

variable {build : Build} {label : Label} {pool extended : ConstantPool} {target : Label → Nat}
  {header : MethodHeader}

/-- The instructions that items became between two positions of the code of a method. -/
inductive Laid (pool : ConstantPool) (owner : String) (target : Label → Nat) (code : Array UInt8) :
    Nat → List Item → List Instruction → Nat → Prop where
  | nil {position : Nat} : Laid pool owner target code position [] [] position
  | insn {position middle stop : Nat} {insn : Insn} {items : List Item}
      {instructions rest : List Instruction} :
      insn.Decoded pool owner target code position instructions →
      Decodes code position instructions middle →
      Laid pool owner target code middle items rest stop →
      Laid pool owner target code position (.insn insn :: items) (instructions ++ rest) stop
  | label {position stop : Nat} {label : Label} {items : List Item} {rest : List Instruction} :
      target label = position →
      Laid pool owner target code position items rest stop →
      Laid pool owner target code position (.label label :: items) rest stop
  | sourceLine {position stop : Nat} {line : UInt32} {items : List Item} {rest : List Instruction} :
      Laid pool owner target code position items rest stop →
      Laid pool owner target code position (.sourceLine line :: items) rest stop
  | request {position stop : Nat} {helper : Helper} {items : List Item} {rest : List Instruction} :
      Laid pool owner target code position items rest stop →
      Laid pool owner target code position (.request helper :: items) rest stop

namespace Laid

variable {pool extended : ConstantPool} {owner : String} {target : Label → Nat} {code : Array UInt8}
  {position stop : Nat} {items items' : List Item} {instructions : List Instruction}

theorem mono (grown : pool.Extends extended)
    (laid : Laid pool owner target code position items instructions stop) :
    Laid extended owner target code position items instructions stop := by
  induction laid with
  | nil => exact .nil
  | insn decoded decodes _ ih => exact .insn (decoded.mono grown) decodes ih
  | label here _ ih => exact .label here ih
  | sourceLine _ ih => exact .sourceLine ih
  | request _ ih => exact .request ih

theorem decodes (laid : Laid pool owner target code position items instructions stop) :
    Decodes code position instructions stop := by
  induction laid with
  | nil => rfl
  | insn _ decodes _ ih => exact decodes.append ih
  | label _ _ ih => exact ih
  | sourceLine _ ih => exact ih
  | request _ ih => exact ih

theorem le (laid : Laid pool owner target code position items instructions stop) : position ≤ stop :=
  Nat.le_trans (Nat.le_add_right _ _) laid.decodes.length_le

theorem target_le (laid : Laid pool owner target code position items instructions stop)
    (defined : label ∈ Item.definitions items) : target label ≤ stop := by
  induction laid with
  | nil => cases defined
  | insn _ _ _ ih => exact ih defined
  | label here later ih =>
      rcases List.mem_cons.mp defined with rfl | other
      · rw [here]
        exact later.le
      · exact ih other
  | sourceLine _ ih => exact ih defined
  | request _ ih => exact ih defined

theorem target_starts (laid : Laid pool owner target code position items instructions stop)
    (defined : label ∈ Item.definitions items) :
    (∃ instruction ∈ instructions, instruction.position = target label) ∨ target label = stop := by
  induction laid with
  | nil => cases defined
  | insn _ _ _ ih =>
      refine (ih defined).imp ?_ id
      rintro ⟨instruction, member, here⟩
      exact ⟨instruction, List.mem_append_right _ member, here⟩
  | label here later ih =>
      rcases List.mem_cons.mp defined with rfl | other
      · rw [here]
        exact later.decodes.starts
      · exact ih other
  | sourceLine _ ih => exact ih defined
  | request _ ih => exact ih defined

theorem append {middle : Nat} {instructions' : List Instruction}
    (laid : Laid pool owner target code position items instructions middle)
    (laid' : Laid pool owner target code middle items' instructions' stop) :
    Laid pool owner target code position (items ++ items') (instructions ++ instructions') stop := by
  induction laid with
  | nil => exact laid'
  | insn decoded decodes _ ih =>
      rw [List.append_assoc]
      exact .insn decoded decodes (ih laid')
  | label here _ ih => exact .label here (ih laid')
  | sourceLine _ ih => exact .sourceLine (ih laid')
  | request _ ih => exact .request (ih laid')

theorem split (laid : Laid pool owner target code position (items ++ items') instructions stop) :
    ∃ first second middle, instructions = first ++ second ∧
      Laid pool owner target code position items first middle ∧
      Laid pool owner target code middle items' second stop := by
  induction items generalizing position instructions with
  | nil => exact ⟨[], instructions, position, rfl, .nil, laid⟩
  | cons item rest ih =>
      cases laid with
      | insn decoded decodes later =>
          obtain ⟨first, second, middle, rfl, before, after⟩ := ih later
          exact ⟨_, second, middle, (List.append_assoc ..).symm, .insn decoded decodes before, after⟩
      | label here later =>
          obtain ⟨first, second, middle, rfl, before, after⟩ := ih later
          exact ⟨first, second, middle, rfl, .label here before, after⟩
      | sourceLine later =>
          obtain ⟨first, second, middle, rfl, before, after⟩ := ih later
          exact ⟨first, second, middle, rfl, .sourceLine before, after⟩
      | request later =>
          obtain ⟨first, second, middle, rfl, before, after⟩ := ih later
          exact ⟨first, second, middle, rfl, .request before, after⟩

theorem origin (laid : Laid pool owner target code position items instructions stop)
    {instruction : Instruction} (member : instruction ∈ instructions) :
    ∃ front insn back first point parts next, items = front ++ Item.insn insn :: back ∧
      Laid pool owner target code position front first point ∧
      insn.Decoded pool owner target code point parts ∧
      Instruction.Decodes code point parts next ∧ instruction ∈ parts := by
  induction laid with
  | nil => cases member
  | insn decoded decodes _ ih =>
      rcases List.mem_append.mp member with here | later
      · exact ⟨[], _, _, [], _, _, _, rfl, .nil, decoded, decodes, here⟩
      · obtain ⟨front, insn, back, first, point, parts, next, rfl, laid, found⟩ := ih later
        exact ⟨_ :: front, insn, back, _, point, parts, next, rfl, .insn decoded decodes laid, found⟩
  | label here _ ih =>
      obtain ⟨front, insn, back, first, point, parts, next, rfl, laid, found⟩ := ih member
      exact ⟨_ :: front, insn, back, _, point, parts, next, rfl, .label here laid, found⟩
  | sourceLine _ ih =>
      obtain ⟨front, insn, back, first, point, parts, next, rfl, laid, found⟩ := ih member
      exact ⟨_ :: front, insn, back, _, point, parts, next, rfl, .sourceLine laid, found⟩
  | request _ ih =>
      obtain ⟨front, insn, back, first, point, parts, next, rfl, laid, found⟩ := ih member
      exact ⟨_ :: front, insn, back, _, point, parts, next, rfl, .request laid, found⟩

theorem outcome (laid : Laid pool owner target code position items instructions stop) {insn : Insn}
    (member : .insn insn ∈ items) :
    ∃ point parts, insn.Decoded pool owner target code point parts ∧ parts ⊆ instructions := by
  obtain ⟨front, back, rfl⟩ := List.append_of_mem member
  obtain ⟨first, second, middle, rfl, _, later⟩ := laid.split
  cases later with
  | @insn _ _ _ _ _ parts rest decoded _ _ =>
      exact ⟨middle, parts, decoded, fun _ isPart =>
        List.mem_append_right _ (List.mem_append_left _ isPart)⟩

/-- The code determines where its items stand. -/
theorem unique {stop' : Nat} {instructions' : List Instruction}
    (laid : Laid pool owner target code position items instructions stop)
    (laid' : Laid pool owner target code position items instructions' stop') :
    instructions = instructions' ∧ stop = stop' := by
  induction laid generalizing instructions' stop' with
  | nil =>
      cases laid'
      exact ⟨rfl, rfl⟩
  | insn decoded decodes _ ih =>
      cases laid' with
      | insn decoded' decodes' later' =>
          obtain ⟨rfl, rfl⟩ := decodes.unique decodes' (decoded.length_eq.trans decoded'.length_eq.symm)
          obtain ⟨rfl, rfl⟩ := ih later'
          exact ⟨rfl, rfl⟩
  | label _ _ ih =>
      cases laid' with
      | label _ later' => exact ih later'
  | sourceLine _ ih =>
      cases laid' with
      | sourceLine later' => exact ih later'
  | request _ ih =>
      cases laid' with
      | request later' => exact ih later'

end Laid

namespace Placed

variable {pool : ConstantPool} {owner : String} {labels : Std.HashMap Label Nat}
  {position : Nat} {items : List Item} {fragments : List Fragment}

theorem target_le (placed : Placed pool owner labels position items fragments)
    (member : label ∈ Item.definitions items) :
    Buffer.targetOf labels label ≤ Fragment.stop position fragments := by
  induction placed with
  | nil => cases member
  | insn _ _ ih => exact ih member
  | label here later ih =>
      rcases List.mem_cons.mp member with rfl | later'
      · rw [Buffer.targetOf, here]
        exact Fragment.le_stop _ _
      · exact ih later'
  | sourceLine _ ih => exact ih member
  | request _ ih => exact ih member

end Placed

/-- Fragments that the code holds from a position on, with their jumps resolved. -/
structure Fragment.Stored (labels : Std.HashMap Label Nat) (code : Array UInt8) (position : Nat)
    (fragments : List Fragment) : Prop where
  written : Holds code position (spread (render (Buffer.targetOf labels)) position fragments)
  filled : ∀ patch ∈ spread patches position fragments, ∃ content, Buffer.Filled labels patch content
  bound : stop position fragments ≤ 65535
  targets : ∀ label, Buffer.targetOf labels label ≤ 65535

namespace Fragment.Stored

variable {labels : Std.HashMap Label Nat} {code : Array UInt8} {position : Nat}

theorem cons {fragment : Fragment} {fragments : List Fragment}
    (stored : Stored labels code position (fragment :: fragments)) :
    fragment.InRange (Buffer.targetOf labels) position ∧
      Holds code position (fragment.render (Buffer.targetOf labels) position) ∧
      Stored labels code (position + fragment.size position) fragments := by
  obtain ⟨written, filled, bound, targets⟩ := stored
  rw [spread, holds_append, ← raw_length] at written
  have near : position + fragment.size position ≤ 65535 := Nat.le_trans (le_stop _ _) bound
  refine ⟨?_, written.1, written.2, fun patch member => filled patch (List.mem_append_right _ member),
    bound, targets⟩
  cases fragment with
  | bytes content => trivial
  | branch opcode label =>
      obtain ⟨content, field⟩ := filled _ (List.mem_append_left _ (List.mem_singleton.mpr rfl))
      exact field.short.1
  | tableSwitch low targets' default =>
      rw [size, raw_length (Buffer.targetOf labels), render, List.length_cons, switchBytes_length,
        List.length_map] at near
      exact ⟨by omega, by omega, fun label _ => targets label⟩

theorem split {front back : List Fragment} (stored : Stored labels code position (front ++ back)) :
    Stored labels code position front ∧ Stored labels code (stop position front) back := by
  obtain ⟨written, filled, bound, targets⟩ := stored
  rw [spread_append] at written filled
  rw [stop_append] at bound
  have length := spread_stop (fun position fragment =>
    (raw_length (Buffer.targetOf labels) position fragment).symm) position front
  obtain ⟨first, second⟩ := (holds_append _ _ _ _).mp written
  rw [length] at second
  exact ⟨⟨first, fun patch member => filled patch (List.mem_append_left _ member),
    Nat.le_trans (le_stop _ _) bound, targets⟩,
    second, fun patch member => filled patch (List.mem_append_right _ member), bound, targets⟩

end Fragment.Stored

theorem Buffer.Written.stored {buffer : Buffer} {fragments : List Fragment} {code : Array UInt8}
    (written : buffer.Written fragments) (limit : buffer.limit = maxCodeLength)
    (targets : Fragment.stop 0 fragments ≤ 65535 → ∀ label, targetOf buffer.labels label ≤ 65535)
    (codeIs : code.toList = Fragment.spread (Fragment.render (targetOf buffer.labels)) 0 fragments)
    (small : buffer.position ≤ buffer.limit)
    (filled : ∀ patch ∈ Fragment.spread Fragment.patches 0 fragments,
      ∃ content, Filled buffer.labels patch content) :
    code.size = Fragment.stop 0 fragments ∧ Fragment.Stored buffer.labels code 0 fragments := by
  have size : code.size = Fragment.stop 0 fragments := by
    rw [← Fragment.spread_stop fun _ _ => (Fragment.raw_length _ _ _).symm, ← codeIs]
    simp
  have bound : Fragment.stop 0 fragments ≤ 65535 := by
    rw [← written.position, ← show maxCodeLength = 65535 from rfl, ← limit]
    exact small
  exact ⟨size, codeIs ▸ holds_toList code, filled, bound, targets bound⟩

namespace Placed

variable {pool : ConstantPool} {owner : String} {labels : Std.HashMap Label Nat}
  {position : Nat} {items items' : List Item} {fragments : List Fragment} {code : Array UInt8}

theorem split (placed : Placed pool owner labels position (items ++ items') fragments) :
    ∃ first second, fragments = first ++ second ∧ Placed pool owner labels position items first ∧
      Placed pool owner labels (Fragment.stop position first) items' second := by
  induction items generalizing position fragments with
  | nil => exact ⟨[], fragments, rfl, .nil, placed⟩
  | cons item rest ih =>
      cases placed with
      | insn denotes later =>
          obtain ⟨first, second, rfl, before, after⟩ := ih later
          exact ⟨_ :: first, second, rfl, .insn denotes before, after⟩
      | label here later =>
          obtain ⟨first, second, rfl, before, after⟩ := ih later
          exact ⟨first, second, rfl, .label here before, after⟩
      | sourceLine later =>
          obtain ⟨first, second, rfl, before, after⟩ := ih later
          exact ⟨first, second, rfl, .sourceLine before, after⟩
      | request later =>
          obtain ⟨first, second, rfl, before, after⟩ := ih later
          exact ⟨first, second, rfl, .request before, after⟩

theorem laid (placed : Placed pool owner labels position items fragments)
    (shaped : ∀ insn, .insn insn ∈ items → insn.Shaped)
    (stored : Fragment.Stored labels code position fragments) :
    ∃ instructions, Laid pool owner (Buffer.targetOf labels) code position items instructions
      (Fragment.stop position fragments) := by
  induction placed with
  | nil => exact ⟨[], .nil⟩
  | insn denotes _ ih =>
      obtain ⟨reaches, written, stored⟩ := stored.cons
      obtain ⟨first, decoded, decodes⟩ := denotes.decodes (shaped _ (List.mem_cons_self ..)) _ _ _
        reaches written
      rw [← Fragment.raw_length] at decodes
      obtain ⟨rest, laidRest⟩ := ih (fun other member => shaped other (List.mem_cons_of_mem _ member))
        stored
      exact ⟨first ++ rest, .insn decoded decodes laidRest⟩
  | label here _ ih =>
      obtain ⟨rest, laidRest⟩ := ih (fun other member => shaped other (List.mem_cons_of_mem _ member))
        stored
      exact ⟨rest, .label (by rw [Buffer.targetOf, here]; rfl) laidRest⟩
  | sourceLine _ ih =>
      obtain ⟨rest, laidRest⟩ := ih (fun other member => shaped other (List.mem_cons_of_mem _ member))
        stored
      exact ⟨rest, .sourceLine laidRest⟩
  | request _ ih =>
      obtain ⟨rest, laidRest⟩ := ih (fun other member => shaped other (List.mem_cons_of_mem _ member))
        stored
      exact ⟨rest, .request laidRest⟩

theorem stands {front back : List Item} {insn : Insn}
    (placed : Placed pool owner labels position (front ++ .insn insn :: back) fragments)
    (shaped : ∀ insn, .insn insn ∈ front → insn.Shaped)
    (stored : Fragment.Stored labels code position fragments) :
    ∃ first point fragment, Laid pool owner (Buffer.targetOf labels) code position front first point ∧
      Fragment.Denotes pool owner insn fragment ∧
      Holds code point (fragment.render (Buffer.targetOf labels) point) := by
  obtain ⟨_, _, rfl, before, after⟩ := placed.split
  obtain ⟨stored, storedAfter⟩ := stored.split
  obtain ⟨first, laid⟩ := before.laid shaped stored
  cases after with
  | insn denotes _ => exact ⟨first, _, _, laid, denotes, storedAfter.cons.2.1⟩

end Placed

structure HandlerRow.Stands (pool : ConstantPool) (target : Label → Nat) (handler : Handler)
    (row : HandlerRow) : Prop where
  startsAt : row.start = UInt16.ofNat (target handler.start)
  stopsAt : row.stop = UInt16.ofNat (target handler.stop)
  entersAt : row.handler = UInt16.ofNat (target handler.handler)
  catches : ∀ name, handler.className = some name → pool.classNameAt row.catchType = .ok name

namespace Emitter

def Untabled (emitter : Emitter) (handlers : List Handler) (error : CompileError) : Prop :=
  (∃ cause, error = .classFile cause) ∨ ∃ handler ∈ handlers, ∃ label ∈ handler.labels,
    error = .assembly (.unresolvedLabel emitter.header.name label) ∧
      emitter.buffer.labels.contains label = false

theorem labelPosition_cases (emitter : Emitter) (label : Label) :
    emitter.buffer.labels.contains label = true ∧
        emitter.labelPosition label = pure (UInt16.ofNat (Buffer.targetOf emitter.buffer.labels label)) ∨
      emitter.buffer.labels.contains label = false ∧
        emitter.labelPosition label = throw (.assembly (.unresolvedLabel emitter.header.name label)) := by
  unfold labelPosition Buffer.labelPosition? Buffer.targetOf
  rw [Std.HashMap.contains_eq_isSome_getElem?]
  cases emitter.buffer.labels[label]? with
  | none => exact .inr ⟨rfl, rfl⟩
  | some position => exact .inl ⟨rfl, rfl⟩

def catchIndex (handler : Handler) : BuildM UInt16 :=
  match handler.className with
  | some name => Build.interned (ConstantPool.classRef name)
  | none => pure 0

def rowOf (emitter : Emitter) (handler : Handler) (catchType : UInt16) : HandlerRow where
  start := UInt16.ofNat (Buffer.targetOf emitter.buffer.labels handler.start)
  stop := UInt16.ofNat (Buffer.targetOf emitter.buffer.labels handler.stop)
  handler := UInt16.ofNat (Buffer.targetOf emitter.buffer.labels handler.handler)
  catchType := catchType

/-- Once the type that a handler catches has an index, the rest depends on the labels alone. -/
theorem handlerRow_cases (emitter : Emitter) (handler : Handler) :
    (∀ label ∈ handler.labels, emitter.buffer.labels.contains label = true) ∧
        emitter.handlerRow handler = (do return emitter.rowOf handler (← catchIndex handler)) ∨
      ∃ label ∈ handler.labels, emitter.buffer.labels.contains label = false ∧
        emitter.handlerRow handler = (do
          let _ ← catchIndex handler
          throw (.assembly (.unresolvedLabel emitter.header.name label))) := by
  have caught : emitter.handlerRow handler = (do
      let catchType ← catchIndex handler
      let start ← emitter.labelPosition handler.start
      let stop ← emitter.labelPosition handler.stop
      let position ← emitter.labelPosition handler.handler
      return (⟨start, stop, position, catchType⟩ : HandlerRow)) := by
    unfold handlerRow catchIndex
    cases handler.className <;> rfl
  rw [caught]
  rcases emitter.labelPosition_cases handler.start with ⟨start, isStart⟩ | ⟨none, isNone⟩
  · rcases emitter.labelPosition_cases handler.stop with ⟨stop, isStop⟩ | ⟨none, isNone⟩
    · rcases emitter.labelPosition_cases handler.handler with ⟨entry, isEntry⟩ | ⟨none, isNone⟩
      · rw [isStart, isStop, isEntry]
        exact .inl ⟨by simpa [Handler.labels] using ⟨start, stop, entry⟩, rfl⟩
      · rw [isStart, isStop, isNone]
        exact .inr ⟨_, by simp [Handler.labels], none, rfl⟩
    · rw [isStart, isNone]
      exact .inr ⟨_, by simp [Handler.labels], none, rfl⟩
  · rw [isNone]
    exact .inr ⟨_, by simp [Handler.labels], none, rfl⟩

theorem catchIndex_adds (handler : Handler) :
    Build.Adds (catchIndex handler) fun index pool =>
      ∀ name, handler.className = some name → pool.classNameAt index = .ok name := by
  unfold catchIndex
  cases handler.className with
  | none => exact .pure (by simp)
  | some name =>
      refine fun build => (Build.interned_adds (ConstantPool.classRef_adds name) build).imp ?_
      rintro index final ⟨grown, named⟩
      refine ⟨grown, fun indexed other same => ?_⟩
      cases same
      exact named indexed

theorem handlerRow_ends (emitter : Emitter) (handler : Handler) (indexed : build.pool.Indexed) :
    Ends (emitter.handlerRow handler) build
      (fun row final => build.pool.Extends final.pool ∧
        (∀ label ∈ handler.labels, emitter.buffer.labels.contains label = true) ∧
        row.Stands final.pool (Buffer.targetOf emitter.buffer.labels) handler)
      (fun error _ => emitter.Untabled [handler] error) := by
  have caught := catchIndex_adds handler build
  rcases emitter.handlerRow_cases handler with ⟨defined, row⟩ | ⟨label, member, undefined, row⟩
  · rw [row, ends_bind]
    refine caught.mono ?_ (fun _ _ failed => .inl failed.2)
    rintro index final ⟨grown, named⟩
    exact ⟨grown, defined, rfl, rfl, rfl, named indexed⟩
  · rw [row, ends_bind]
    refine caught.mono ?_ (fun _ _ failed => .inl failed.2)
    exact fun _ _ _ => .inr ⟨handler, by simp, label, member, rfl, undefined⟩

theorem rows_ends (emitter : Emitter) (handlers : List Handler) (indexed : build.pool.Indexed) :
    Ends (handlers.mapM emitter.handlerRow) build
      (fun rows final => build.pool.Extends final.pool ∧ List.Forall₂ (fun handler row =>
        (∀ label ∈ handler.labels, emitter.buffer.labels.contains label = true) ∧
        row.Stands final.pool (Buffer.targetOf emitter.buffer.labels) handler) handlers rows)
      (fun error _ => emitter.Untabled handlers error) := by
  refine ends_mapM (fun first second => first.pool.Extends second.pool) (fun _ => .refl _)
    (fun before after => before.trans after) ?_ handlers build ?_
  · rintro handler row first second ⟨defined, starts, stops, enters, catches⟩ grown
    exact ⟨defined, starts, stops, enters, fun name isName => grown.classNameAt (catches name isName)⟩
  · intro handler member state grown
    refine (emitter.handlerRow_ends handler (grown.indexed indexed)).mono (fun _ _ tabled => tabled) ?_
    rintro error _ (limited | ⟨_, isHandler, missing⟩)
    · exact .inl limited
    · cases List.mem_singleton.mp isHandler
      exact .inr ⟨handler, member, missing⟩

end Emitter

theorem Build.ends_traced {α : Type} (action : TraceM α) (build : Build)
    (success : α → Build → Prop) (failure : CompileError → Build → Prop) :
    Ends (traced action) build success failure ↔
      Ends action build.events (fun value events => success value { build with events })
        (fun error events => failure (.assembly error) { build with events }) := by
  obtain ⟨pool, library, events⟩ := build
  unfold Ends traced
  simp only [ExceptT.run]
  generalize action events = outcome
  rcases outcome with ⟨result | result, final⟩ <;> rfl

structure MethodUnit.Realizes (pool : ConstantPool) (draft : Draft) (header : MethodHeader)
    (target : Label → Nat) (instructions : List Instruction) (unit : MethodUnit) : Prop where
  headed : unit.header = header
  locals : unit.maxLocals = UInt16.ofNat draft.scope.nextSlot
  size : unit.code.size ≤ 65535
  laid : Laid pool header.owner target unit.code 0 draft.items.toList instructions unit.code.size
  jumps : ∀ label ∈ Item.references draft.items.toList, label ∈ Item.definitions draft.items.toList
  handlers : List.Forall₂ (fun handler row =>
    (∀ label ∈ handler.labels, label ∈ Item.definitions draft.items.toList) ∧
      row.Stands pool target handler) draft.handlers.toList unit.handlers
  told : ∀ {front back insn}, draft.items.toList = front ++ .insn insn :: back →
    ∃ first point, Laid pool header.owner target unit.code 0 front first point ∧
      insn.Told pool unit.code point

/-- A finished method that holds the operands of its draft as well which decoding passes over. -/
structure MethodUnit.Spells (pool : ConstantPool) (draft : Draft) (header : MethodHeader)
    (target : Label → Nat) (instructions : List Instruction) (unit : MethodUnit) : Prop extends
    MethodUnit.Realizes pool draft header target instructions unit where
  immediate : ∀ {front back insn}, draft.items.toList = front ++ .insn insn :: back →
    ∃ first point, Laid pool header.owner target unit.code 0 front first point ∧
      insn.Immediate unit.code point

theorem HandlerRow.Stands.mono {handler : Handler} {row : HandlerRow}
    (stands : row.Stands pool target handler) (grown : pool.Extends extended) :
    row.Stands extended target handler :=
  ⟨stands.startsAt, stands.stopsAt, stands.entersAt, fun name isName =>
    grown.classNameAt (stands.catches name isName)⟩

theorem MethodUnit.Realizes.mono {draft : Draft} {instructions : List Instruction} {unit : MethodUnit}
    (realizes : unit.Realizes pool draft header target instructions) (grown : pool.Extends extended) :
    unit.Realizes extended draft header target instructions where
  headed := realizes.headed
  locals := realizes.locals
  size := realizes.size
  laid := realizes.laid.mono grown
  jumps := realizes.jumps
  handlers := realizes.handlers.imp fun _ _ ⟨defined, stands⟩ => ⟨defined, stands.mono grown⟩
  told := by
    intro front back insn items
    obtain ⟨first, point, laid, told⟩ := realizes.told items
    exact ⟨first, point, laid.mono grown, told.mono grown⟩

theorem MethodUnit.Spells.mono {draft : Draft} {instructions : List Instruction} {unit : MethodUnit}
    (spells : unit.Spells pool draft header target instructions) (grown : pool.Extends extended) :
    unit.Spells extended draft header target instructions where
  toRealizes := spells.toRealizes.mono grown
  immediate := by
    intro front back insn items
    obtain ⟨first, point, laid, immediate⟩ := spells.immediate items
    exact ⟨first, point, laid.mono grown, immediate⟩

namespace Draft

def references (draft : Draft) : List Label :=
  Item.references draft.items.toList ++ draft.handlers.toList.flatMap Handler.labels

/-- How a draft can be refused: by a limit of the pool or of its length, by a label that is defined
twice or by one that is not defined. -/
def Refused (draft : Draft) (method : String) (error : CompileError) : Prop :=
  (∃ cause, error = .classFile cause) ∨
  (∃ size, error = .assembly (.methodTooLarge method size) ∧
    65535 < Item.total Insn.room draft.items.toList) ∨
  (∃ label, error = .assembly (.branchOutOfRange method label) ∧
    32767 < Item.total Insn.room draft.items.toList) ∨
  (∃ label, error = .assembly (.duplicateLabel method label) ∧
    ¬ (Item.definitions draft.items.toList).Nodup) ∨
  (∃ label ∈ draft.references, error = .assembly (.unresolvedLabel method label) ∧
    label ∉ Item.definitions draft.items.toList)

theorem ends_assemble (draft : Draft) (header : MethodHeader) (build : Build)
    (success : Emitter → Build → Prop) (failure : CompileError → Build → Prop) :
    Ends (draft.assemble header) build success failure ↔
      Ends (Emission.emitItems draft.items.toList) ⟨build, Emitter.new header⟩
        (fun _ emission => success emission.emitter emission.build)
        (fun error emission => failure error emission.build) := by
  unfold Ends assemble
  simp only [ExceptT.run]
  generalize Emission.emitItems draft.items.toList ⟨build, Emitter.new header⟩ = outcome
  rcases outcome with ⟨result | result, emission⟩ <;> rfl

theorem assemble_ends (draft : Draft) (header : MethodHeader) (indexed : build.pool.Indexed) :
    Ends (draft.assemble header) build
      (fun emitter final => build.pool.Extends final.pool ∧
        Emission.Lays header draft.items.toList ⟨final, emitter⟩)
      (fun error _ => Emission.Refused header.name draft.items.toList error) := by
  rw [ends_assemble]
  exact Emission.emitItems_lays (Emission.new_lays indexed header) draft.items.toList

theorem finishing_ends (draft : Draft) {emitter : Emitter}
    (lays : Emission.Lays header draft.items.toList ⟨build, emitter⟩)
    (shaped : ∀ insn, .insn insn ∈ draft.items.toList → insn.Shaped) :
    Ends (emitter.finish draft.handlers.toList draft.scope.nextSlot) build
      (fun unit final => build.pool.Extends final.pool ∧
        ∃ target instructions, unit.Spells final.pool draft header target instructions)
      (fun error _ => draft.Refused header.name error) := by
  obtain ⟨headed, method, limit, indexed, ⟨fragments, written, placed⟩, defined⟩ := lays
  dsimp only at headed method limit indexed written placed defined
  have undefined (label : Label) (missing : emitter.buffer.labels.contains label = false) :
      label ∉ Item.definitions draft.items.toList := by
    rw [← defined label, missing]
    exact Bool.false_ne_true
  unfold Emitter.finish
  rw [ends_bind]
  refine (emitter.rows_ends draft.handlers.toList indexed).mono ?_ ?_
  · rintro rows tabled ⟨grown, stands⟩
    rw [ends_bind, Build.ends_traced]
    refine (written.finish tabled.events).mono ?_ ?_
    · rintro code events ⟨codeIs, small, filled⟩
      rw [ends_bind, Build.report, ends_modify, ends_pure]
      have targets (bound : Fragment.stop 0 fragments ≤ 65535) (label : Label) :
          Buffer.targetOf emitter.buffer.labels label ≤ 65535 := by
        by_cases known : emitter.buffer.labels.contains label = true
        · exact Nat.le_trans (placed.target_le ((defined label).mp known)) bound
        · simp [Buffer.targetOf, Std.HashMap.getElem?_eq_none (by simpa using known)]
      obtain ⟨size, stored⟩ := written.stored limit targets codeIs small filled
      obtain ⟨instructions, laid⟩ := placed.laid shaped stored
      have bound := stored.bound
      rw [← size] at laid bound
      have fragmentAt {front back : List Item} {insn : Insn}
          (items : draft.items.toList = front ++ .insn insn :: back) :=
        (items ▸ placed).stands (fun other member => shaped other (items ▸ List.mem_append_left _ member))
          stored
      refine ⟨grown, _, instructions,
        ⟨headed, rfl, bound, laid.mono grown, ?_, ?_, fun items => ?_⟩, fun items => ?_⟩
      · intro label member
        rw [← placed.labels_eq, ← Fragment.spread_labels 0, List.mem_map] at member
        obtain ⟨patch, isPatch, rfl⟩ := member
        obtain ⟨_, known, _⟩ := filled patch isPatch
        exact (defined _).mp known
      · refine stands.imp ?_
        rintro handler row ⟨known, isRow⟩
        exact ⟨fun label member => (defined label).mp (known label member), isRow⟩
      · obtain ⟨first, point, _, laid, denotes, here⟩ := fragmentAt items
        exact ⟨first, point, laid.mono grown, (denotes.told _ _ _ here).mono grown⟩
      · obtain ⟨first, point, _, laid, denotes, here⟩ := fragmentAt items
        exact ⟨first, point, laid.mono grown, denotes.immediate _ _ _ here⟩
    · have within := placed.stop_le
      rintro error _ (⟨size, tooLarge, large⟩ |
        ⟨patch, member, ⟨isUnresolved, missing⟩ | ⟨outOfRange, known, far⟩⟩)
      · rw [limit, written.position, Buffer.maxCodeLength] at large
        exact .inr (.inl ⟨size, by rw [tooLarge, method], by omega⟩)
      · refine .inr (.inr (.inr (.inr ⟨patch.label, ?_, by rw [isUnresolved, method],
          undefined _ missing⟩)))
        refine List.mem_append_left _ ?_
        rw [← placed.labels_eq, ← Fragment.spread_labels 0]
        exact List.mem_map_of_mem member
      · obtain ⟨base, isBase, _, inside⟩ := Fragment.spread_base member
        have target := placed.target_le ((defined _).mp known)
        have distance := far base isBase
        exact .inr (.inr (.inl ⟨patch.label, by rw [outOfRange, method], by omega⟩))
  · rintro error _ (limited | ⟨handler, isHandler, label, isLabel, isUnresolved, missing⟩)
    · exact .inl limited
    · refine .inr (.inr (.inr (.inr ⟨label, ?_, by rw [isUnresolved, headed], undefined _ missing⟩)))
      exact List.mem_append_right _ (List.mem_flatMap.mpr ⟨handler, isHandler, isLabel⟩)

theorem finish_ends (draft : Draft) (header : MethodHeader) (indexed : build.pool.Indexed)
    (shaped : ∀ insn, .insn insn ∈ draft.items.toList → insn.Shaped) :
    Ends (draft.finish header) build
      (fun unit final => build.pool.Extends final.pool ∧
        ∃ target instructions, unit.Spells final.pool draft header target instructions)
      (fun error _ => draft.Refused header.name error) := by
  unfold Draft.finish
  rw [ends_bind]
  refine (draft.assemble_ends header indexed).mono ?_ ?_
  · rintro emitter middle ⟨grown, lays⟩
    refine (finishing_ends draft lays shaped).imp ?_
    rintro unit final ⟨later, realized⟩
    exact ⟨grown.trans later, realized⟩
  · rintro error _ (limited | repeated)
    · exact .inl limited
    · exact .inr (.inr (.inr (.inl repeated)))

end Draft

end BasicCompiler
