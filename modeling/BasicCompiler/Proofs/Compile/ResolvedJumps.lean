import BasicCompiler.Proofs.Compile.LinkedClass
import BasicCompiler.Proofs.Compile.Occurrences
import BasicCompiler.Proofs.Compile.WellFormedClass

/-!
Where the jumps of a program lead. The code of every statement that jumps to lines or calls subroutines
is found in the decoded main method, between the positions where the statement starts and stops.
-/

namespace BasicCompiler

open Instruction

variable {site : Nat} {instruction : Instruction} {numbers : List LineNumber} {number : LineNumber}

/-- The decoded code of a method of the class `owner`, with the positions of its labels. -/
structure FinishedCode where
  pool : ConstantPool
  owner : String
  target : Label → Nat
  bytes : Array UInt8
  instructions : List Instruction

structure SubroutineEntry where
  push : Instruction
  call : Instruction
  jump : Instruction

def SubroutineEntry.parts (entry : SubroutineEntry) : List Instruction :=
  [entry.push, entry.call, entry.jump]

namespace FinishedCode

def lineAt (code : FinishedCode) (line : LineNumber) : Nat := code.target (LineSet.labelOf line)

def Lays (code : FinishedCode) (start : Nat) (items : List Item) (parts : List Instruction)
    (stop : Nat) : Prop :=
  Laid code.pool code.owner code.target code.bytes start items parts stop

/-- The instructions of a statement that was compiled from one state of a method to another, and the
positions between which they stand. -/
def Spans (code : FinishedCode) (before after : Body) (start : Nat) (parts : List Instruction)
    (stop : Nat) : Prop :=
  ∃ front back, code.instructions = front ++ parts ++ back ∧
    code.Lays 0 before.draft.items.toList front start ∧
    code.Lays 0 after.draft.items.toList (front ++ parts) stop

def JumpsTo (position : Nat) (instruction : Instruction) : Prop :=
  instruction.opcode = Opcode.goto ∧ instruction.targets = [position]

def Calls (code : FinishedCode) (helper : Helper) (instruction : Instruction) : Prop :=
  instruction.opcode = Opcode.invokestatic ∧
    instruction.RefersTo code.pool (Insn.helperRef code.owner helper)

def Pushes (code : FinishedCode) (value : Int) (instruction : Instruction) : Prop :=
  instruction.pushed? code.pool code.bytes = some value

def PushesText (code : FinishedCode) (text : String) (instruction : Instruction) : Prop :=
  (instruction.opcode = Opcode.ldc ∨ instruction.opcode = Opcode.ldcW) ∧
    ∃ index content, instruction.poolIndex = some index ∧
      code.pool.lookup index = .ok (.string content) ∧ code.pool.textAt content = .ok text

structure Selects (code : FinishedCode) (low : Int) (positions : List Nat) (default : Nat)
    (instruction : Instruction) : Prop where
  opcode : instruction.opcode = Opcode.tableswitch
  low : instruction.lowKey code.bytes = .ok low
  targets : instruction.targets = positions ++ [default]

structure Enters (code : FinishedCode) (site : Nat) (line : LineNumber) (entry : SubroutineEntry) :
    Prop where
  push : code.Pushes site entry.push
  call : code.Calls .gosubPush entry.call
  jump : JumpsTo (code.lineAt line) entry.jump

/-- The items became the instructions between two positions, and these hold what the items say. -/
structure Shows (code : FinishedCode) (start : Nat) (items : List Item) (parts : List Instruction)
    (stop : Nat) : Prop where
  lays : code.Lays start items parts stop
  told : ∀ {front insn back}, items = front ++ .insn insn :: back →
    ∃ first point, code.Lays start front first point ∧ insn.Told code.pool code.bytes point

variable {code : FinishedCode}

namespace Shows

variable {start stop : Nat} {items items' : List Item} {parts : List Instruction}

theorem split (shown : code.Shows start (items ++ items') parts stop) :
    ∃ first second middle, parts = first ++ second ∧ code.Shows start items first middle ∧
      code.Shows middle items' second stop := by
  obtain ⟨first, second, middle, rfl, lays, lays'⟩ := Laid.split shown.lays
  refine ⟨first, second, middle, rfl, ⟨lays, ?_⟩, ⟨lays', ?_⟩⟩
  · rintro front insn back rfl
    exact shown.told (List.append_assoc front (.insn insn :: back) items')
  · rintro front insn back rfl
    obtain ⟨whole, point, laysWhole, told⟩ := shown.told (List.append_assoc items front _).symm
    obtain ⟨first', second', middle', _, laysFirst, laysSecond⟩ := Laid.split laysWhole
    obtain ⟨_, rfl⟩ := lays.unique laysFirst
    exact ⟨second', point, laysSecond, told⟩

theorem label {label : Label} (shown : code.Shows start (.label label :: items) parts stop) :
    code.target label = start ∧ code.Shows start items parts stop := by
  have parted : code.Shows start ([Item.label label] ++ items) parts stop := shown
  obtain ⟨first, second, middle, rfl, here, later⟩ := parted.split
  cases here.lays with
  | label isTarget nothing =>
      cases nothing
      exact ⟨isTarget, later⟩

theorem nil (shown : code.Shows start [] parts stop) : parts = [] ∧ start = stop := by
  cases shown.lays
  exact ⟨rfl, rfl⟩

theorem notes {line : UInt32} (shown : code.Shows start items parts stop)
    (areNotes : ∀ item ∈ items, item = .sourceLine line) : parts = [] ∧ start = stop := by
  have lays := shown.lays
  clear shown
  induction items with
  | nil =>
      cases lays
      exact ⟨rfl, rfl⟩
  | cons note items ih =>
      obtain ⟨rfl, others⟩ := List.forall_mem_cons.mp areNotes
      cases lays with
      | sourceLine lays => exact ih others lays

theorem insn {insn : Insn} (shown : code.Shows start (.insn insn :: items) parts stop)
    (single : insn.parts = 1) :
    ∃ instruction later middle, parts = instruction :: later ∧ instruction.position = start ∧
      insn.Decoded code.pool code.owner code.target code.bytes start [instruction] ∧
      decodeAt code.bytes start = .ok instruction ∧
      insn.Told code.pool code.bytes start ∧ code.Shows middle items later stop := by
  have parted : code.Shows start ([Item.insn insn] ++ items) parts stop := shown
  obtain ⟨first, second, middle, rfl, here, later⟩ := parted.split
  obtain ⟨none, point, lays, told⟩ := here.told (List.nil_append _).symm
  cases lays
  cases here.lays with
  | insn decoded decodes nothing =>
      cases nothing
      obtain ⟨instruction, rfl⟩ := List.length_eq_one_iff.mp (decoded.length_eq.trans single)
      exact ⟨instruction, second, middle, rfl, decodeAt_position decodes.1, decoded, decodes.1, told, later⟩

theorem jump {label : Label}
    (shown : code.Shows start (.insn (.branch Opcode.goto label) :: items) parts stop) :
    ∃ later, parts = ⟨start, Opcode.goto, 2, [code.target label], none, none⟩ :: later ∧
      code.Shows (start + 3) items later stop := by
  have parted : code.Shows start ([Item.insn (.branch Opcode.goto label)] ++ items) parts stop := shown
  obtain ⟨first, second, middle, rfl, here, later⟩ := parted.split
  cases here.lays with
  | insn decoded decodes nothing =>
      cases nothing
      cases decoded
      obtain ⟨_, isMiddle⟩ := decodes
      cases isMiddle
      exact ⟨second, rfl, later⟩

theorem call {helper : Helper} (shown : code.Shows start (.insn (.call helper) :: items) parts stop) :
    ∃ call later middle, parts = call :: later ∧ code.Calls helper call ∧
      code.Shows middle items later stop := by
  obtain ⟨call, later, middle, rfl, _, decoded, _, _, rest⟩ := shown.insn rfl
  obtain ⟨index, found, isCall⟩ := decoded.refers rfl
  obtain ⟨rfl, _⟩ := List.cons.inj isCall
  exact ⟨_, later, middle, rfl, ⟨rfl, index, rfl, found⟩, rest⟩

theorem switch {low : Int32} {labels : List Label} {default : Label}
    (shown : code.Shows start (.insn (.tableSwitch low labels default) :: items) parts stop) :
    ∃ switch later middle, parts = switch :: later ∧
      code.Selects low.toInt (labels.map code.target) (code.target default) switch ∧
      4 * labels.length ≤ code.bytes.size ∧ code.Shows middle items later stop := by
  obtain ⟨switch, later, middle, rfl, _, decoded, decodes, told, rest⟩ := shown.insn rfl
  have low := told switch decodes
  have bound := decodeAt_bound decodes
  obtain ⟨rfl, _⟩ := List.cons.inj decoded
  refine ⟨_, later, middle, rfl, ⟨rfl, low, rfl⟩, ?_, rest⟩
  simp only [Instruction.length] at bound
  omega

theorem entry {line : LineNumber} (small : site < 2147483648)
    (shown : code.Shows start (Stmt.entryItems site (LineSet.labelOf line) ++ items) parts stop) :
    ∃ entry later middle, parts = entry.parts ++ later ∧ entry.push.position = start ∧
      code.Enters site line entry ∧ code.Shows middle items later stop := by
  obtain ⟨push, later, middle, rfl, position, _, decodes, told, pushed⟩ := shown.insn rfl
  obtain ⟨call, later, middle, rfl, isCall, called⟩ := pushed.call
  obtain ⟨later, rfl, rest⟩ := called.jump
  have number : (Int32.ofNat site).toInt = site := Int32.toInt_ofNat_of_lt small
  have pushes : code.Pushes site push := number ▸ told push decodes
  exact ⟨⟨push, call, _⟩, later, _, rfl, position, ⟨pushes, isCall, rfl, rfl⟩, rest⟩

theorem stubs (small : site < 2147483648) {stubs : List Label} (length : stubs.length = numbers.length)
    (shown : code.Shows start (Stmt.stubItems site stubs (numbers.map LineSet.labelOf) ++ items) parts stop) :
    ∃ entries later middle, parts = entries.flatMap SubroutineEntry.parts ++ later ∧
      stubs.map code.target = entries.map (fun entry => entry.push.position) ∧
      List.Forall₂ (code.Enters site) numbers entries ∧ code.Shows middle items later stop := by
  induction numbers generalizing stubs start parts with
  | nil =>
      obtain rfl := List.length_eq_zero_iff.mp length
      exact ⟨[], parts, start, rfl, rfl, .nil, shown⟩
  | cons line numbers ih =>
      obtain ⟨stub, stubs, rfl⟩ := List.exists_cons_of_length_eq_add_one length
      rw [List.map_cons, Stmt.stubItems, List.cons_append, List.append_assoc] at shown
      obtain ⟨isStub, entered⟩ := shown.label
      obtain ⟨entry, later, middle, rfl, position, enters, rest⟩ := entered.entry small
      obtain ⟨entries, later, middle, rfl, positions, all, rest⟩ := ih (Nat.succ.inj length) rest
      refine ⟨entry :: entries, later, middle, ?_, ?_, .cons enters all, rest⟩
      · rw [List.flatMap_cons, List.append_assoc]
      · rw [List.map_cons, List.map_cons, isStub, position, positions]

theorem raise {fault : Fault} (shown : code.Shows start (.insn (.pushText fault.message) ::
      .insn (.call .fault) :: .insn (.op Opcode.athrow) :: items) parts stop) :
    ∃ push call throw later, parts = push :: call :: throw :: later ∧ push.position = start ∧
      code.PushesText fault.message push ∧ code.Calls .fault call ∧ throw.opcode = Opcode.athrow := by
  obtain ⟨push, later, middle, rfl, position, decoded, _, _, pushed⟩ := shown.insn rfl
  obtain ⟨call, later, middle, rfl, isCall, called⟩ := pushed.call
  obtain ⟨throw, later, middle, rfl, _, thrown, _⟩ := called.insn rfl
  obtain ⟨rfl, _⟩ := List.cons.inj thrown
  obtain ⟨index, _, found, ⟨content, rfl, isText⟩, isPush | isPush⟩ := decoded
  all_goals
    obtain ⟨rfl, _⟩ := List.cons.inj isPush
    exact ⟨_, call, _, later, rfl, rfl, ⟨by simp, index, content, rfl, found, isText⟩, isCall, rfl⟩

end Shows

end FinishedCode

namespace Insn

variable {pool : ConstantPool} {owner : String} {target : Label → Nat} {bytes : Array UInt8}
  {position : Nat} {insn : Insn} {instructions : List Instruction} {instruction : Instruction}

theorem Decoded.switch_of_opcode (decoded : insn.Decoded pool owner target bytes position instructions)
    (shaped : insn.Shaped) (isPart : instruction ∈ instructions)
    (isSwitch : instruction.opcode = Opcode.tableswitch) :
    ∃ low labels default, insn = .tableSwitch low labels default := by
  have single {part : Instruction} (parts : instructions = [part]) :
      part.opcode = Opcode.tableswitch := by
    rw [parts, List.mem_singleton] at isPart
    exact isPart ▸ isSwitch
  have other {part : Instruction} (parts : instructions = [part])
      (differs : part.opcode ≠ Opcode.tableswitch) :
      ∃ low labels default, insn = .tableSwitch low labels default := absurd (single parts) differs
  cases insn with
  | tableSwitch low labels default => exact ⟨low, labels, default, rfl⟩
  | op | branch =>
      cases single decoded
      exact absurd shaped (by simp only [Shaped]; decide)
  | access =>
      obtain ⟨_, form⟩ := decoded
      cases single form
      exact absurd shaped (by simp only [Shaped]; decide)
  | field | invoke =>
      obtain ⟨_, _, form⟩ := decoded
      cases single form
      exact absurd shaped (by simp only [Shaped]; decide)
  | newArray => exact other decoded (by dsimp only; decide)
  | increment =>
      obtain ⟨_, form⟩ := decoded
      exact other form (by dsimp only; decide)
  | newRefArray | call | getCell | putCell =>
      obtain ⟨_, _, form⟩ := decoded
      exact other form (by dsimp only; decide)
  | newMultiArray =>
      obtain ⟨_, _, _, form⟩ := decoded
      exact other form (by dsimp only; decide)
  | newDup =>
      obtain ⟨_, _, rfl⟩ := decoded
      simp only [List.mem_cons, List.not_mem_nil, or_false] at isPart
      rcases isPart with rfl | rfl <;> exact absurd isSwitch (by dsimp only; decide)
  | pushText =>
      obtain ⟨_, _, _, _, form | form⟩ := decoded <;> exact other form (by dsimp only; decide)
  | pushFloat =>
      rcases decoded with ⟨_, form⟩ | ⟨_, form⟩ | ⟨_, form⟩ | ⟨_, _, _, _, form | form⟩
      all_goals exact other form (by dsimp only; decide)
  | pushInt =>
      rcases decoded with ⟨small, bound, form⟩ | form | form | ⟨_, _, _, _, form | form⟩
      · have number := congrArg UInt8.toNat (single form)
        simp only [UInt8.toNat_ofNat', Opcode.tableswitch, UInt8.reduceToNat] at number
        omega
      all_goals exact other form (by dsimp only; decide)

def Internal : Insn → Prop
  | field opcode _ | invoke opcode _ => opcode ≠ Opcode.invokestatic
  | _ => True

theorem Internal.eq_call {helper : Helper} (internal : insn.Internal)
    (isReference : insn.reference? owner = some (Opcode.invokestatic, helperRef owner helper)) :
    insn = .call helper := by
  cases insn with
  | call other =>
      have same : helperRef owner other = helperRef owner helper := congrArg Prod.snd (Option.some.inj isReference)
      rw [Helper.name_inj (congrArg MemberRef.name same)]
  | field | invoke => exact absurd (congrArg Prod.fst (Option.some.inj isReference)) internal
  | getCell | putCell =>
      exact absurd (congrArg Prod.fst (Option.some.inj isReference)) (by dsimp only; decide)
  | op | branch | tableSwitch | newArray | access | increment | pushFloat | pushInt | pushText
  | newDup | newRefArray | newMultiArray => cases isReference

end Insn

theorem Item.Plain.internal {insn : Insn} (plain : Item.Plain (.insn insn)) : insn.Internal := by
  cases insn with
  | field | invoke => exact plain.elim
  | _ => trivial

theorem Item.Ordinary.internal {insn : Insn} {usesReturn : Bool}
    (ordinary : Item.Ordinary usesReturn (.insn insn)) : insn.Internal := by
  cases insn with
  | field | invoke => exact ordinary.elim
  | _ => trivial

theorem Item.Closing.internal {insn : Insn} (closing : Item.Closing (.insn insn)) : insn.Internal := by
  cases insn with
  | field | invoke => exact closing.2
  | _ => trivial

namespace FinishedCode

variable {code : FinishedCode}

theorem Lays.no_entry {start stop : Nat} {items : List Item} {parts : List Instruction}
    (lays : code.Lays start items parts stop) (plain : ∀ item ∈ items, item.Plain) :
    ∀ instruction ∈ parts, ¬ code.Calls .gosubPush instruction := by
  rintro instruction isPart ⟨isStatic, refers⟩
  obtain ⟨front, insn, back, _, _, parts, _, rfl, _, decoded, _, isPart⟩ := Laid.origin lays isPart
  have isPlain := plain (.insn insn) (by simp)
  have isReference := decoded.reference isPart refers
  rw [isStatic] at isReference
  cases isPlain.internal.eq_call isReference
  exact isPlain rfl

theorem Enters.eq_call {line : LineNumber} {entry : SubroutineEntry} (enters : code.Enters site line entry)
    (isPart : instruction ∈ entry.parts) (calls : code.Calls .gosubPush instruction) :
    instruction = entry.call := by
  simp only [SubroutineEntry.parts, List.mem_cons, List.not_mem_nil, or_false] at isPart
  rcases isPart with rfl | rfl | rfl
  · have pushes := enters.push
    simp [Pushes, pushed?, calls.1, Opcode.invokestatic, Opcode.bipush, Opcode.sipush, Opcode.ldc,
      Opcode.ldcW] at pushes
  · rfl
  · exact absurd (calls.1.symm.trans enters.jump.1) (by decide)

theorem Spans.mem {before after : Body} {start stop point : Nat} {parts first : List Instruction}
    (spans : code.Spans before after start parts stop) {insn : Insn} (single : insn.parts = 1)
    {prior later : List Item}
    (items : after.draft.items.toList = before.draft.items.toList ++ prior ++ .insn insn :: later)
    (lays : code.Lays 0 (before.draft.items.toList ++ prior) first point)
    (decodes : decodeAt code.bytes point = .ok instruction) : instruction ∈ parts := by
  obtain ⟨front, _, _, laysBefore, laysAfter⟩ := spans
  rw [items] at laysAfter
  obtain ⟨earlier, others, _, isWhole, laysEarlier, laysOthers⟩ := Laid.split laysAfter
  obtain ⟨rfl, rfl⟩ := lays.unique laysEarlier
  obtain ⟨_, between, _, rfl, laysFront, _⟩ := Laid.split laysEarlier
  obtain ⟨rfl, rfl⟩ := laysBefore.unique laysFront
  rw [List.append_assoc, List.append_cancel_left_eq] at isWhole
  cases laysOthers with
  | insn decoded decodes' _ =>
      obtain ⟨found, rfl⟩ := List.length_eq_one_iff.mp (decoded.length_eq.trans single)
      cases decodes'.1.symm.trans decodes
      rw [isWhole]
      simp

end FinishedCode

namespace MainMethod

/-- Where the jumps of the statements of a program lead. `returns` are the positions to which
subroutines return. -/
structure Jumps (surroundings : Surroundings) (program : Program) (code : FinishedCode)
    (returns : List Nat) : Prop where
  /-- Every statement has been compiled, after as many calls as stand in front of it. -/
  occurs : ∀ {front stmt back}, Stmt.inlinedAll program = front ++ stmt :: back → ∃ before after,
    Stmt.Occurs surroundings stmt (front.countP Stmt.isCall) before after program 0 opened
  /-- The lines that statements name are marked. -/
  known : ∀ stmt ∈ Stmt.inlinedAll program, ∀ number ∈ stmt.targets,
    .line number ∈ Stmt.inlinedAll program
  line : ∀ {number site before after},
    Stmt.Occurs surroundings (.line number) site before after program 0 opened →
    code.Spans before after (code.lineAt number) [] (code.lineAt number)
  goto : ∀ {number site before after},
    Stmt.Occurs surroundings (.goto number) site before after program 0 opened →
    ∃ start jump stop, code.Spans before after start [jump] stop ∧
      FinishedCode.JumpsTo (code.lineAt number) jump
  onGoto : ∀ {selector numbers site before after}, numbers ≠ [] →
    Stmt.Occurs surroundings (.onGoto selector numbers) site before after program 0 opened →
    ∃ start choice switch stop, code.Spans before after start (choice ++ [switch]) stop ∧
      code.Selects 1 (numbers.map code.lineAt) stop switch
  gosub : ∀ {number site before after},
    Stmt.Occurs surroundings (.gosub number) site before after program 0 opened →
    ∃ start entry stop, code.Spans before after start entry.parts stop ∧
      code.Enters site number entry ∧ returns[site]? = some stop
  onGosub : ∀ {selector numbers site before after}, numbers ≠ [] →
    Stmt.Occurs surroundings (.onGosub selector numbers) site before after program 0 opened →
    ∃ start choice switch entries stop,
      code.Spans before after start (choice ++ switch :: entries.flatMap SubroutineEntry.parts) stop ∧
      code.Selects 1 (entries.map fun entry => entry.push.position) stop switch ∧
      List.Forall₂ (code.Enters site) numbers entries ∧ returns[site]? = some stop
  /-- Calls are recorded in the code of statements that call subroutines, and nowhere else. -/
  entered : ∀ instruction ∈ code.instructions, code.Calls .gosubPush instruction →
    ∃ stmt site before after start parts stop,
      Stmt.Occurs surroundings stmt site before after program 0 opened ∧
      code.Spans before after start parts stop ∧
      ∃ line ∈ stmt.targets, ∃ entry, code.Enters site line entry ∧ entry.parts <:+: parts ∧
        instruction = entry.call
  counted : returns.length = (Stmt.calls program).length
  /-- One jump table leads to the return points, and to a fault for all other numbers. -/
  dispatch : returns ≠ [] → ∃ front switch push call throw back,
    code.instructions = front ++ switch :: push :: call :: throw :: back ∧
    code.Selects 0 returns push.position switch ∧
    code.PushesText Fault.returnWithoutGosub.message push ∧ code.Calls .fault call ∧
    throw.opcode = Opcode.athrow ∧
    ∀ other ∈ code.instructions, other.opcode = Opcode.tableswitch → other.lowKey code.bytes = .ok 0 →
      other = switch

namespace Contents

variable {surroundings : Surroundings} {program : Program} {through body : Body}
  {exit rest : List Item} {unknown : Label}

theorem callAt (contents : Contents surroundings program through body exit rest unknown) {place : Nat}
    (entry : body.draft.items.toList[place]? = some (.insn (.call .gosubPush))) :
    Stmt.CallAt surroundings place program 0 opened := by
  have stated : through.draft.items.toList[place]? = some (.insn (.call .gosubPush)) := by
    rw [contents.closes.items, List.append_assoc, List.append_assoc] at entry
    rcases Nat.lt_or_ge place through.draft.items.toList.length with inside | beyond
    · rwa [List.getElem?_append_left inside] at entry
    · rw [List.getElem?_append_right beyond] at entry
      have member := List.mem_of_getElem? entry
      rw [List.mem_append, List.mem_append] at member
      rcases member with exits | dispatches | ends
      · exact absurd rfl (contents.closes.exit _ exits).1
      · rcases dispatch_cases dispatches with closing | isTable
        · exact absurd rfl closing
        · cases isTable
      · exact absurd rfl (contents.closes.rest _ ends)
  rcases (Stmt.compileAll_precedes contents.ran).at_cases stated with early | beyond
  · have member := List.mem_of_getElem? early
    simp [opened, Draft.empty] at member
  · exact Stmt.callAt_of_entry program 0 contents.ran beyond stated

theorem dispatch_items
    (contents : Contents surroundings program through body exit rest unknown)
    (some : through.returns.targets.toList ≠ []) :
    let table := Item.insn (.tableSwitch 0 through.returns.targets.toList unknown)
    ∃ front back, body.draft.items.toList = front ++ table :: .label unknown ::
        .insn (.pushText Fault.returnWithoutGosub.message) :: .insn (.call .fault) ::
        .insn (.op Opcode.athrow) :: back ∧
      table ∉ front ∧ table ∉ back := by
  have quiet {items : List Item} (closing : ∀ item ∈ items, item.Closing) :
      Item.insn (.tableSwitch 0 through.returns.targets.toList unknown) ∉ items :=
    fun member => closing _ member
  have stated : Item.insn (.tableSwitch 0 through.returns.targets.toList unknown) ∉
      through.draft.items.toList :=
    fun member => absurd (contents.statements _ member) (by simp only [Item.Ordinary, Item.Plain]; decide)
  have dispatch : dispatchOf through unknown = dispatchItems through.returns.targets.toList unknown :=
    if_pos (by simpa [ReturnTable.isEmpty] using Or.inr some)
  refine ⟨through.draft.items.toList ++ (exit ++ [.label MainLabel.returnDispatch, .insn (.call .gosubPop)]),
    rest, ?_, ?_, quiet contents.closes.rest⟩
  · rw [contents.closes.items, dispatch, dispatchItems, if_neg (by simpa using some)]
    simp
  · have exits := quiet fun item member => (contents.closes.exit item member).1
    simp [stated, exits]

end Contents

structure Finished (surroundings : Surroundings) (program : Program) (through body : Body)
    (exit rest : List Item) (unknown : Label) (code : FinishedCode) : Prop where
  contents : Contents surroundings program through body exit rest unknown
  shaped : ∀ insn, .insn insn ∈ body.draft.items.toList → insn.Shaped
  shown : code.Shows 0 body.draft.items.toList code.instructions code.bytes.size
  short : code.bytes.size ≤ 65535

namespace Finished

variable {surroundings : Surroundings} {program : Program} {through body : Body}
  {exit rest : List Item} {unknown : Label} {code : FinishedCode} {before after : Body}

section Statements

variable (finished : Finished surroundings program through body exit rest unknown code)
include finished

theorem compiled {stmt : Stmt} (occurs : Stmt.Occurs surroundings stmt site before after program 0 opened) :
    (Stmt.compile surroundings stmt).run before = (.ok (), after) ∧ before.returns.size = site ∧
      after.Precedes through :=
  occurs.compiled finished.contents.ran rfl

theorem spans (precedes : after.Precedes through) {added : List Item}
    (items : after.draft.items.toList = before.draft.items.toList ++ added) :
    ∃ start parts stop, code.Shows start added parts stop ∧ code.Spans before after start parts stop := by
  obtain ⟨later, split⟩ := precedes.draft.items
  have shown := finished.shown
  rw [finished.contents.closes.items, ← split, items] at shown
  simp only [List.append_assoc] at shown
  obtain ⟨front, others, start, isWhole, lays, shown⟩ := shown.split
  obtain ⟨parts, back, stop, rfl, shown, _⟩ := shown.split
  refine ⟨start, parts, stop, shown, front, back, ?_, lays.lays, ?_⟩
  · rw [isWhole, List.append_assoc]
  · rw [items]
    exact Laid.append lays.lays shown.lays

theorem line (occurs : Stmt.Occurs surroundings (.line number) site before after program 0 opened) :
    code.Spans before after (code.lineAt number) [] (code.lineAt number) := by
  obtain ⟨ran, _, precedes⟩ := finished.compiled occurs
  obtain ⟨notes, items, areNotes⟩ := Stmt.line_items ran
  obtain ⟨start, parts, stop, shown, spans⟩ := finished.spans precedes items
  obtain ⟨rfl, shown⟩ := shown.label
  obtain ⟨rfl, rfl⟩ := shown.notes areNotes
  exact spans

theorem goto (occurs : Stmt.Occurs surroundings (.goto number) site before after program 0 opened) :
    ∃ start jump stop, code.Spans before after start [jump] stop ∧
      FinishedCode.JumpsTo (code.lineAt number) jump := by
  obtain ⟨ran, _, precedes⟩ := finished.compiled occurs
  obtain ⟨start, parts, stop, shown, spans⟩ := finished.spans precedes (Stmt.goto_items ran)
  obtain ⟨later, rfl, rest⟩ := shown.jump
  obtain ⟨rfl, rfl⟩ := rest.nil
  exact ⟨start, _, _, spans, rfl, rfl⟩

theorem onGoto {selector : Expr} (some : numbers ≠ [])
    (occurs : Stmt.Occurs surroundings (.onGoto selector numbers) site before after program 0 opened) :
    ∃ start choice switch stop, code.Spans before after start (choice ++ [switch]) stop ∧
      code.Selects 1 (numbers.map code.lineAt) stop switch := by
  obtain ⟨ran, _, precedes⟩ := finished.compiled occurs
  obtain ⟨choice, next, items⟩ := Stmt.onGoto_items some ran
  obtain ⟨start, parts, stop, shown, spans⟩ := finished.spans precedes items
  obtain ⟨chosen, later, middle, rfl, _, shown⟩ := shown.split
  obtain ⟨switch, later, middle, rfl, selects, _, shown⟩ := shown.switch
  obtain ⟨isNext, shown⟩ := shown.label
  obtain ⟨rfl, rfl⟩ := shown.nil
  rw [isNext, List.map_map] at selects
  exact ⟨start, chosen, switch, middle, spans, selects⟩

theorem switch_origin (member : instruction ∈ code.instructions)
    (isSwitch : instruction.opcode = Opcode.tableswitch) (isLow : instruction.lowKey code.bytes = .ok 0) :
    ∃ front back first point, body.draft.items.toList =
        front ++ Item.insn (.tableSwitch 0 through.returns.targets.toList unknown) :: back ∧
      code.Lays 0 front first point ∧ decodeAt code.bytes point = .ok instruction := by
  obtain ⟨front, insn, back, first, point, parts, _, items, lays, decoded, decodes, isPart⟩ :=
    Laid.origin finished.shown.lays member
  obtain ⟨_, _, lays', told⟩ := finished.shown.told items
  obtain ⟨_, rfl⟩ := lays.unique lays'
  have isItem : .insn insn ∈ body.draft.items.toList := by simp [items]
  obtain ⟨low, labels, default, rfl⟩ :=
    decoded.switch_of_opcode (finished.shaped insn isItem) isPart isSwitch
  obtain rfl : parts = [_] := decoded
  obtain rfl := List.mem_singleton.mp isPart
  have isZero := Except.ok.inj ((told _ decodes.1).symm.trans isLow)
  rcases finished.contents.cases_of_mem isItem with isOne | closing | isTable
  · obtain rfl : low = 1 := isOne
    exact absurd isZero (by decide)
  · exact closing.elim
  · rw [isTable, finished.contents.closes.returns] at items
    exact ⟨front, back, first, point, items, lays, decodes.1⟩

theorem dispatched (some : through.returns.targets.toList ≠ []) :
    ∃ front switch push call throw back,
      code.instructions = front ++ switch :: push :: call :: throw :: back ∧
      code.Selects 0 (through.returns.targets.toList.map code.target) push.position switch ∧
      4 * through.returns.size ≤ code.bytes.size ∧
      code.PushesText Fault.returnWithoutGosub.message push ∧ code.Calls .fault call ∧
      throw.opcode = Opcode.athrow ∧
      ∀ other ∈ code.instructions, other.opcode = Opcode.tableswitch →
        other.lowKey code.bytes = .ok 0 → other = switch := by
  obtain ⟨front, back, items, notBefore, notAfter⟩ := finished.contents.dispatch_items some
  have shown := finished.shown
  rw [items] at shown
  obtain ⟨first, later, start, isWhole, shownFront, shown⟩ := shown.split
  obtain ⟨_, _, _, isFirst, _, _, decodes, _⟩ := shown.insn rfl
  obtain ⟨switch, later', middle, rfl, selects, bound, shown'⟩ := shown.switch
  obtain ⟨rfl, _⟩ := List.cons.inj isFirst
  obtain ⟨isUnknown, shown'⟩ := shown'.label
  obtain ⟨push, call, throw, last, rfl, position, pushes, calls, throws⟩ := shown'.raise
  rw [isUnknown, ← position] at selects
  refine ⟨first, switch, push, call, throw, last, isWhole, selects, bound, pushes, calls, throws, ?_⟩
  intro other isOther isSwitch isLow
  obtain ⟨front', back', _, _, items', lays, decodes'⟩ := finished.switch_origin isOther isSwitch isLow
  rw [items, List.append_cons_inj_of_notMem notBefore (by simp [notAfter])] at items'
  obtain ⟨rfl, _⟩ := items'
  obtain ⟨_, rfl⟩ := lays.unique shownFront.lays
  exact Except.ok.inj (decodes'.symm.trans decodes)

theorem returned {back : Label}
    (isBack : after.returns.targets.toList = before.returns.targets.toList ++ [back])
    (counted : before.returns.size = site) (precedes : after.Precedes through) :
    (through.returns.targets.toList.map code.target)[site]? = some (code.target back) ∧
      site < 2147483648 := by
  obtain ⟨later, split⟩ := precedes.returns
  rw [isBack] at split
  have length : before.returns.targets.toList.length = site := counted
  have sizes := congrArg List.length split
  have some : through.returns.targets.toList ≠ [] := by simp [← split]
  obtain ⟨_, _, _, _, _, _, _, _, bound, _⟩ := finished.dispatched some
  have short := finished.short
  constructor
  · simp [← split, ← length]
  · simp only [List.length_append, List.length_singleton, Array.length_toList] at sizes length
    simp only [ReturnTable.size] at bound
    omega

theorem gosub (occurs : Stmt.Occurs surroundings (.gosub number) site before after program 0 opened) :
    ∃ start entry stop, code.Spans before after start entry.parts stop ∧ code.Enters site number entry ∧
      (through.returns.targets.toList.map code.target)[site]? = some stop := by
  obtain ⟨ran, counted, precedes⟩ := finished.compiled occurs
  obtain ⟨back, isBack, items⟩ := Stmt.gosub_items ran
  obtain ⟨returns, small⟩ := finished.returned isBack counted precedes
  obtain ⟨start, parts, stop, shown, spans⟩ := finished.spans precedes items
  rw [counted] at shown
  obtain ⟨entry, later, middle, rfl, _, enters, shown⟩ := shown.entry small
  obtain ⟨isStop, shown⟩ := shown.label
  obtain ⟨rfl, rfl⟩ := shown.nil
  rw [List.append_nil] at spans
  exact ⟨start, entry, middle, spans, enters, isStop ▸ returns⟩

theorem onGosub {selector : Expr} (some : numbers ≠ [])
    (occurs : Stmt.Occurs surroundings (.onGosub selector numbers) site before after program 0 opened) :
    ∃ start choice switch entries stop,
      code.Spans before after start (choice ++ switch :: entries.flatMap SubroutineEntry.parts) stop ∧
      (∀ instruction ∈ choice, ¬ code.Calls .gosubPush instruction) ∧
      code.Selects 1 (entries.map fun entry => entry.push.position) stop switch ∧
      List.Forall₂ (code.Enters site) numbers entries ∧
      (through.returns.targets.toList.map code.target)[site]? = .some stop := by
  obtain ⟨ran, counted, precedes⟩ := finished.compiled occurs
  obtain ⟨choice, stubs, back, plain, length, isBack, items⟩ := Stmt.onGosub_items some ran
  obtain ⟨returns, small⟩ := finished.returned isBack counted precedes
  obtain ⟨start, parts, stop, shown, spans⟩ := finished.spans precedes items
  rw [counted] at shown
  obtain ⟨chosen, later, middle, rfl, shownChoice, shown⟩ := shown.split
  obtain ⟨switch, later, middle, rfl, selects, _, shown⟩ := shown.switch
  obtain ⟨entries, later, middle, rfl, positions, enters, shown⟩ := shown.stubs small length
  obtain ⟨isStop, shown⟩ := shown.label
  obtain ⟨rfl, rfl⟩ := shown.nil
  rw [positions, isStop] at selects
  rw [List.append_nil] at spans
  exact ⟨start, chosen, switch, entries, middle, spans, shownChoice.lays.no_entry plain, selects, enters,
    isStop ▸ returns⟩

theorem entry_origin (member : instruction ∈ code.instructions) (calls : code.Calls .gosubPush instruction) :
    ∃ stmt site before after prior later first point, stmt.isCall = true ∧
      Stmt.Occurs surroundings stmt site before after program 0 opened ∧
      after.draft.items.toList =
        before.draft.items.toList ++ prior ++ Item.insn (.call .gosubPush) :: later ∧
      code.Lays 0 (before.draft.items.toList ++ prior) first point ∧
      decodeAt code.bytes point = .ok instruction := by
  obtain ⟨front, insn, back, first, point, parts, _, items, lays, decoded, decodes, isPart⟩ :=
    Laid.origin finished.shown.lays member
  have contents := finished.contents
  have isItem : .insn insn ∈ body.draft.items.toList := by simp [items]
  have internal : insn.Internal := by
    rcases contents.cases_of_mem isItem with ordinary | closing | isTable
    · exact ordinary.internal
    · exact closing.internal
    · cases isTable
      trivial
  have isReference := decoded.reference isPart calls.2
  rw [calls.1] at isReference
  obtain rfl := internal.eq_call isReference
  obtain ⟨_, _, rfl⟩ := decoded.refers rfl
  obtain rfl := List.mem_singleton.mp isPart
  have entry : body.draft.items.toList[front.length]? = some (.insn (.call .gosubPush)) := by simp [items]
  obtain ⟨stmt, site, before, after, isCall, occurs, starts, stops⟩ := contents.callAt entry
  obtain ⟨ran, _, precedes⟩ := finished.compiled occurs
  have within := precedes.draft.items.trans contents.precedes
  have earlier := ((Stmt.compile_advances stmt).precedes ran).draft.items.trans within
  have upTo : front <+: body.draft.items.toList := ⟨_, items.symm⟩
  have including : front ++ [.insn (.call .gosubPush)] <+: body.draft.items.toList :=
    ⟨back, by simp [items]⟩
  obtain ⟨prior, rfl⟩ := List.prefix_of_prefix_length_le earlier upTo starts
  obtain ⟨later, split⟩ := List.prefix_of_prefix_length_le including within (by
    rw [List.length_append]
    exact stops)
  refine ⟨stmt, site, before, after, prior, later, first, point, isCall, occurs, ?_, lays, decodes.1⟩
  simpa using split.symm

theorem entered (member : instruction ∈ code.instructions) (calls : code.Calls .gosubPush instruction) :
    ∃ stmt site before after start parts stop,
      Stmt.Occurs surroundings stmt site before after program 0 opened ∧
      code.Spans before after start parts stop ∧
      ∃ line ∈ stmt.targets, ∃ entry, code.Enters site line entry ∧ entry.parts <:+: parts ∧
        instruction = entry.call := by
  obtain ⟨stmt, site, before, after, prior, later, first, point, isCall, occurs, items, lays, decodes⟩ :=
    finished.entry_origin member calls
  cases stmt with
  | gosub number =>
      obtain ⟨start, entry, stop, spans, enters, _⟩ := finished.gosub occurs
      have isPart := spans.mem rfl items lays decodes
      exact ⟨_, site, before, after, start, _, stop, occurs, spans, number, List.mem_singleton.mpr rfl, entry,
        enters, List.infix_rfl, enters.eq_call isPart calls⟩
  | onGosub selector numbers =>
      have some : numbers ≠ [] := by simpa [Stmt.isCall] using isCall
      obtain ⟨start, choice, switch, entries, stop, spans, silent, selects, allEnter, _⟩ :=
        finished.onGosub some occurs
      have isPart := spans.mem rfl items lays decodes
      rcases List.mem_append.mp isPart with chooses | selecting
      · exact absurd calls (silent instruction chooses)
      · rcases List.mem_cons.mp selecting with rfl | entering
        · exact absurd (calls.1.symm.trans selects.opcode) (by decide)
        · obtain ⟨entry, isEntry, within⟩ := List.mem_flatMap.mp entering
          obtain ⟨line, isLine, enters⟩ := exists_of_forall₂ allEnter isEntry
          obtain ⟨front, back, rfl⟩ := List.append_of_mem isEntry
          refine ⟨_, site, before, after, start, _, stop, occurs, spans, line, isLine, entry, enters, ?_,
            enters.eq_call within calls⟩
          exact ⟨choice ++ switch :: front.flatMap SubroutineEntry.parts,
            back.flatMap SubroutineEntry.parts, by simp⟩
  | _ => cases isCall

theorem jumps (known : ∀ stmt ∈ Stmt.inlinedAll program, ∀ line ∈ stmt.targets,
      line ∈ Stmt.markers program) :
    Jumps surroundings program code (through.returns.targets.toList.map code.target) where
  occurs := by
    intro front stmt back split
    have occurs := Stmt.occurs_of_split program split 0 finished.contents.ran
    rwa [Nat.zero_add] at occurs
  known := by
    intro stmt isStmt number isTarget
    obtain ⟨marker, isMarker, marks⟩ := List.mem_filterMap.mp (known stmt isStmt number isTarget)
    cases marker with
    | line number' =>
        cases marks
        exact isMarker
    | _ => cases marks
  line := finished.line
  goto := finished.goto
  onGoto := finished.onGoto
  gosub := finished.gosub
  onGosub := by
    intro selector numbers site before after some occurs
    obtain ⟨start, choice, switch, entries, stop, spans, _, rest⟩ := finished.onGosub some occurs
    exact ⟨start, choice, switch, entries, stop, spans, rest⟩
  entered _ := finished.entered
  counted := by
    rw [List.length_map, Array.length_toList, ← finished.contents.returns_size,
      finished.contents.closes.returns]
    rfl
  dispatch := by
    intro some
    obtain ⟨front, switch, push, call, throw, back, isWhole, selects, _, rest⟩ :=
      finished.dispatched (by simpa using some)
    exact ⟨front, switch, push, call, throw, back, isWhole, selects, rest⟩

end Statements

end Finished

end MainMethod

namespace Program

/-- In the main method of a compiled class every jump leads to where the program says: to the lines that
statements name, and back to the statement after a call. -/
theorem compile_resolves_jumps (options : Options) (program : Program) (file : ClassFile)
    (compiled : compile options program = .ok file) :
    ∃ lines main others code target instructions returns, LineSet.scan program = .ok lines ∧
      file.methods = main :: others ∧ file.pool.textAt main.nameIndex = .ok "main" ∧
      main.code = some code ∧ decode code.bytes = .ok instructions ∧
      MainMethod.Jumps ⟨lines, DataTable.scan program, options.lineNumbers⟩ program
        ⟨file.pool, options.className, target, code.bytes, instructions⟩ returns := by
  obtain ⟨lines, body, built⟩ := built_of_compile compiled
  obtain ⟨through, exit, rest, unknown, contents⟩ := built.contents
  obtain ⟨pieces, last, drafted⟩ := built.drafted
  obtain ⟨library, assembled⟩ := built.assembled
  obtain ⟨main, others, isMain, _, methods⟩ := List.forall₂_cons_left_iff.mp assembled.methods
  have named := MethodInfo.Completes.named isMain
  obtain ⟨unit, ⟨⟨target, instructions, realizes⟩, _⟩, carries⟩ := isMain
  obtain ⟨code, isCode, _, _, bytes, _⟩ := carries.code
  have finished : MainMethod.Finished ⟨lines, DataTable.scan program, options.lineNumbers⟩ program
      through body exit rest unknown ⟨file.pool, options.className, target, unit.code, instructions⟩ :=
    ⟨contents, drafted.shaped, ⟨realizes.laid, realizes.told⟩, realizes.size⟩
  rw [← bytes] at finished
  refine ⟨lines, main, others, code, target, instructions, _, built.scanned, methods, named.1, isCode, ?_,
    finished.jumps built.valid.knownTargets⟩
  rw [bytes]
  exact realizes.decode

theorem menu_resolves_jumps :
    ∃ file, compile { lineNumbers := true } menu = .ok file ∧
      ∃ lines main others code target instructions returns, LineSet.scan menu = .ok lines ∧
        file.methods = main :: others ∧ file.pool.textAt main.nameIndex = .ok "main" ∧
        main.code = some code ∧ decode code.bytes = .ok instructions ∧
        MainMethod.Jumps ⟨lines, DataTable.scan menu, true⟩ menu
          ⟨file.pool, "Main", target, code.bytes, instructions⟩ returns := by
  obtain ⟨file, compiled⟩ := menu_compiles true
  exact ⟨file, compiled, compile_resolves_jumps { lineNumbers := true } menu file compiled⟩

end Program

end BasicCompiler
