import BasicCompiler.Proofs.Method.Discipline

/-!
Runs of a method. A run of the code gets to positions with stacks, and passes code without gaps from its
start to its end.
-/

namespace BasicCompiler

open Instruction ValueType

/-- A run of a method gets to a position with a stack. Where a handler is in charge, any instruction may
raise an exception. -/
inductive CodeAttribute.Reached (pool : ConstantPool) (code : CodeAttribute)
    (instructions : List Instruction) : Nat → StackType → Prop where
  | start : Reached pool code instructions 0 []
  | jump {instruction : Instruction} {stack after : StackType} {position : Nat} :
      Reached pool code instructions instruction.position stack → instruction ∈ instructions →
      instruction.execute pool code.bytes stack = some after → position ∈ instruction.targets →
      Reached pool code instructions position after
  | next {instruction : Instruction} {stack after : StackType} :
      Reached pool code instructions instruction.position stack → instruction ∈ instructions →
      instruction.execute pool code.bytes stack = some after → instruction.opcode.continues = true →
      Reached pool code instructions (instruction.position + instruction.length) after
  | raised {position : Nat} {stack : StackType} {row : HandlerRow} :
      Reached pool code instructions position stack → row ∈ code.handlers →
      row.start.toNat ≤ position → position < row.stop.toNat →
      Reached pool code instructions row.handler.toNat [reference]

/-- Every instruction that is found with a stack leads on to what it leaves, wherever control goes next. -/
def CodeAttribute.Transfers (pool : ConstantPool) (code : CodeAttribute) (instructions : List Instruction)
    (found : Nat → StackType → Prop) : Prop :=
  ∀ instruction ∈ instructions, ∀ stack after, found instruction.position stack →
    instruction.execute pool code.bytes stack = some after →
    (∀ position ∈ instruction.targets, found position after) ∧
    (instruction.opcode.continues = true → found (instruction.position + instruction.length) after)

variable {pool : ConstantPool} {code : CodeAttribute} {instructions : List Instruction}

namespace CodeAttribute

theorem reached_transfers : code.Transfers pool instructions (code.Reached pool instructions) :=
  fun _ isPart _ _ reached executes => ⟨fun _ => .jump reached isPart executes, .next reached isPart executes⟩

namespace Disciplined

variable {stackAt : Nat → StackType} (disciplined : code.Disciplined pool instructions stackAt)
include disciplined

theorem transfers (origin : Nat) : code.Transfers pool instructions fun position stack =>
    (Starts instructions position ∨ position = origin) ∧ stackAt position = stack := by
  rintro instruction isPart _ after ⟨_, rfl⟩ executes
  obtain ⟨_, executes', jumps, goesOn⟩ := disciplined.steps instruction isPart
  cases executes.symm.trans executes'
  exact ⟨fun position isTarget => (jumps position isTarget).imp_left .inl, fun continues =>
    (goesOn continues).imp_left .inl⟩

/-- A run gets to instructions, and finds the stacks that are assigned to them. -/
theorem reached {position : Nat} {stack : StackType}
    (reached : code.Reached pool instructions position stack) :
    Starts instructions position ∧ stackAt position = stack := by
  have found : (Starts instructions position ∨ position = 0) ∧ stackAt position = stack := by
    induction reached with
    | start => exact disciplined.enters.imp_left .inl
    | jump _ isPart executes isTarget ih => exact (disciplined.transfers 0 _ isPart _ _ ih executes).1 _ isTarget
    | next _ isPart executes goesOn ih => exact (disciplined.transfers 0 _ isPart _ _ ih executes).2 goesOn
    | raised _ isRow _ _ _ => exact (disciplined.handlers _ isRow).imp_left .inl
  refine found.imp_left fun starts => starts.elim id ?_
  rintro rfl
  exact disciplined.enters.1

end Disciplined

end CodeAttribute

variable {owner : String} {target : Label → Nat} {items : List Item} {parts : List Instruction}
  {start point : Nat} {stack : StackType} {found : Nat → StackType → Prop}

theorem Insn.Decoded.passed {insn : Insn} {after : StackType}
    (decoded : insn.Decoded pool owner target code.bytes start parts)
    (decodes : Decodes code.bytes start parts point) (shaped : insn.Shaped)
    (all : ∀ part ∈ parts, part ∈ instructions) (transfers : code.Transfers pool instructions found)
    (here : found start stack) (executes : insn.execute stack = some after)
    (goesOn : insn.continues = true) : found point after := by
  by_cases double : ∃ className, insn = newDup className
  · obtain ⟨className, rfl⟩ := double
    obtain ⟨index, _, rfl⟩ := decoded
    obtain ⟨_, _, rfl⟩ := decodes
    cases executes
    rw [List.forall_mem_cons, List.forall_mem_singleton] at all
    have created := (transfers _ all.1 stack (reference :: stack) here rfl).2 rfl
    exact (transfers _ all.2 (reference :: stack) (reference :: reference :: stack) created rfl).2 rfl
  · obtain ⟨instruction, rfl, rfl, follows⟩ :=
      decoded.follows shaped fun className same => double ⟨className, same⟩
    obtain ⟨_, rfl⟩ := decodes
    exact (transfers _ (all _ (by simp)) _ _ here (follows.executes executes)).2
      (follows.continues.trans goesOn)

/-- Where code without gaps ends, control gets to from its start or not at all. -/
theorem Climbs.gapless {frame : Frame} {flow stop : Option StackType} {height : Nat}
    (climbs : Climbs frame flow items stop height) (gapless : frame.gaps = false) (isNone : flow = none) :
    stop = none := by
  induction climbs with
  | nil => exact isNone
  | insn | label | choice => cases isNone
  | sourceLine _ ih | request _ ih | unused _ _ ih => exact ih isNone
  | dead gaps => cases gapless.symm.trans gaps

theorem Laid.goes {label : Label}
    (laid : Laid pool owner target code.bytes start [.insn (.branch Opcode.goto label)] parts point)
    (all : ∀ part ∈ parts, part ∈ instructions) (transfers : code.Transfers pool instructions found)
    (here : found start stack) : found (target label) stack := by
  have goes : Opcode.goto.Replaces [] [] := by decide
  cases laid with
  | insn decoded decodes later =>
      obtain rfl := decoded
      exact (transfers _ (all _ (List.mem_cons_self ..)) _ _ here (goes.execute stack)).1 _
        (List.mem_singleton.mpr rfl)

/-- What is found at the start of code without gaps leads on to what the code leaves at its end, and gets
as high as the code tells. -/
theorem Climbs.passed {frame : Frame} {flow stop : Option StackType} {height : Nat}
    (climbs : Climbs frame flow items stop height) (gapless : frame.gaps = false)
    (laid : Laid pool owner target code.bytes start items parts point)
    (all : ∀ part ∈ parts, part ∈ instructions) (transfers : code.Transfers pool instructions found)
    (entered : flow = some stack) (here : found start stack) {after : StackType}
    (ends : stop = some after) :
    found point after ∧ ∀ limit, (∀ position stack, found position stack → stack.height ≤ limit) →
      height ≤ limit := by
  induction climbs generalizing start parts stack with
  | nil =>
      cases laid
      cases entered.symm.trans ends
      exact ⟨here, fun _ _ => Nat.zero_le _⟩
  | @insn insn _ _ _ _ _ accepts executes _ later ih =>
      cases entered
      cases goesOn : insn.continues with
      | false =>
          cases (later.gapless gapless (by simp [goesOn])).symm.trans ends
      | true =>
          cases laid with
          | insn decoded decodes laid =>
              obtain ⟨here', all⟩ := List.forall_mem_append.mp all
              have next := decoded.passed decodes accepts.shaped here' transfers here executes goesOn
              obtain ⟨last, low⟩ := ih laid all (if_pos goesOn) next ends
              refine ⟨last, fun limit bound => ?_⟩
              exact Nat.max_le.mpr ⟨Nat.max_le.mpr ⟨bound _ _ here, bound _ _ next⟩, low limit bound⟩
  | label _ _ ih =>
      cases laid with
      | label _ laid => exact ih laid all entered here ends
  | sourceLine _ ih =>
      cases laid with
      | sourceLine laid => exact ih laid all entered here ends
  | request _ ih =>
      cases laid with
      | request laid => exact ih laid all entered here ends
  | dead | unused => cases entered
  | choice shape continues executes _ _ _ ih =>
      cases entered
      have zeroes : Opcode.fconst0.Replaces [] [float] := by decide
      cases laid with
      | insn decodedBranch decodesBranch laid =>
      cases laid with
      | insn decodedZero decodesZero laid =>
      cases laid with
      | @insn _ _ _ _ _ goto _ decodedGoto decodesGoto laid =>
      cases laid with
      | label _ laid =>
      cases laid with
      | insn _ _ laid =>
      cases laid with
      | label doneHere laid =>
          simp only [List.forall_mem_append] at all
          obtain ⟨isBranch, isZero, isGoto, _, all⟩ := all
          have tested := decodedBranch.passed decodesBranch shape isBranch transfers here executes continues
          have zeroed := decodedZero.passed decodesZero (show Opcode.fconst0.shape = .plain 0 by decide)
            isZero transfers tested (zeroes.execute _) rfl
          have gone := Laid.goes (.insn decodedGoto decodesGoto .nil) (by simpa using isGoto) transfers zeroed
          rw [doneHere] at gone
          obtain ⟨last, low⟩ := ih laid all rfl gone ends
          refine ⟨last, fun limit bound => Nat.max_le.mpr ⟨?_, low limit bound⟩⟩
          exact StackType.height_int _ ▸ bound _ _ here

/-- Code without gaps that pushes a value leads from one instruction to another. -/
theorem Climbs.pushed {frame : Frame} {type : ValueType} {height : Nat} {stackAt : Nat → StackType}
    (climbs : Climbs frame (some (stackAt start)) items (some (type :: stackAt start)) height)
    (gapless : frame.gaps = false) (laid : Laid pool owner target code.bytes start items parts point)
    (all : ∀ part ∈ parts, part ∈ instructions) (disciplined : code.Disciplined pool instructions stackAt) :
    Starts instructions start ∧ Starts instructions point ∧ stackAt point = type :: stackAt start := by
  obtain ⟨starts, pushed⟩ :=
    (climbs.passed gapless laid all (disciplined.transfers start) rfl ⟨.inr rfl, rfl⟩ rfl).1
  have other : point ≠ start := by
    rintro rfl
    exact List.cons_ne_self _ _ pushed.symm
  obtain ⟨first, isFirst, here⟩ := laid.decodes.starts.resolve_right other.symm
  exact ⟨⟨first, all first isFirst, here⟩, starts.resolve_right other, pushed⟩

theorem Laid.labelled {label : Label} (laid : Laid pool owner target code.bytes start [.label label] parts point) :
    target label = start ∧ point = start := by
  cases laid with
  | label here nothing =>
      cases nothing
      exact ⟨here, rfl⟩

end BasicCompiler
