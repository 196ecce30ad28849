import BasicCompiler.Proofs.Bytecode.StackEffect
import BasicCompiler.Proofs.Method.Layout

/-!
Stack types of drafted code. Items are typed one after the other, from the types on the stack before an
item to those after it, and the labels of a method have types of their own. Code that is typed stays
typed when it is assembled: every decoded instruction finds the operands it needs, and all ways to it
agree on the stack.
-/

namespace BasicCompiler

open Instruction ValueType

variable {pool : ConstantPool} {code : Array UInt8} {position stop : Nat} {stack : StackType}
  {target : Label → Nat} {instructions : List Instruction} {insn : Insn} {index : UInt16} {owner : String}
  {type : ValueType} {opcode : Opcode} {member : MemberRef} {exit : Option StackType}

namespace Insn

def execute : Insn → StackType → Option StackType
  | op opcode, stack => opcode.execute stack
  | branch opcode _, stack => opcode.execute stack
  | tableSwitch _ _ _, stack => Opcode.tableswitch.execute stack
  | pushFloat _, stack => some (float :: stack)
  | pushInt _, stack => some (int :: stack)
  | pushText _, stack => some (reference :: stack)
  | access opcode _, stack => opcode.execute stack
  | increment _ _, stack => Opcode.iinc.execute stack
  | field opcode member, stack => do
    let types ← Descriptor.fieldTypes member.descriptor
    if opcode = Opcode.getstatic then stack.replace [] types else stack.replace types []
  | invoke opcode member, stack =>
    Descriptor.invoke? (if opcode = Opcode.invokestatic then [] else [reference]) member.descriptor
      stack
  | newDup _, stack => some (reference :: reference :: stack)
  | newArray _, stack => Opcode.newarray.execute stack
  | newRefArray _, stack => stack.replace [int] [reference]
  | newMultiArray _ dimensions, stack =>
    stack.replace (List.replicate dimensions.toNat int) [reference]
  | call helper, stack => Descriptor.invoke? [] helper.spec.descriptor stack
  | getCell cell, stack => do stack.replace [] (← Descriptor.fieldTypes cell.descriptor)
  | putCell cell, stack => do stack.replace (← Descriptor.fieldTypes cell.descriptor) []

def continues : Insn → Bool
  | op opcode => opcode.continues
  | branch opcode _ => opcode.continues
  | tableSwitch _ _ _ => false
  | access opcode _ => opcode.continues
  | _ => true

def slot? : Insn → Option Nat
  | access _ slot => some slot
  | increment slot _ => some slot
  | _ => none

/-- A decoded instruction does to the stack what a symbolic one does, and control goes on in the same
ways. -/
structure Follows (pool : ConstantPool) (code : Array UInt8) (target : Label → Nat) (insn : Insn)
    (instruction : Instruction) : Prop where
  executes : ∀ {stack after}, insn.execute stack = some after →
    instruction.execute pool code stack = some after
  jumps : ∀ position ∈ instruction.targets, ∃ label ∈ insn.labels, position = target label
  continues : instruction.opcode.continues = insn.continues

theorem Loads.follows {holds : Constant → Prop} (loads : Loads pool position holds instructions)
    (typed : ∀ entry, holds entry → constantType? entry = some type)
    (pushes : ∀ stack, insn.execute stack = some (type :: stack)) (goesOn : insn.continues = true) :
    ∃ instruction, instructions = [instruction] ∧ instruction.position = position ∧
      insn.Follows pool code target instruction := by
  obtain ⟨index, entry, found, accepted, rfl | rfl⟩ := loads
  all_goals
    refine ⟨_, rfl, rfl, ?_, by simp, ?_⟩
    · intro stack after executes
      rw [← executes, pushes]
      simp [Instruction.execute, found, typed entry accepted, Except.toOption, Opcode.ldcW]
    · rw [goesOn]
      dsimp only
      decide

theorem Refers.follows {names : UInt16 → Prop} (refers : Refers position opcode names instructions)
    (executes : ∀ index, names index → ∀ {stack after}, insn.execute stack = some after →
      Instruction.execute pool code { position, opcode, tail := 2, poolIndex := some index } stack =
        some after)
    (continues : opcode.continues = insn.continues) :
    ∃ instruction, instructions = [instruction] ∧ instruction.position = position ∧
      insn.Follows pool code target instruction := by
  obtain ⟨index, named, rfl⟩ := refers
  exact ⟨_, rfl, rfl, executes index named, by simp, continues⟩

theorem descriptorAt?_of_memberAt {name descriptor : String}
    (found : pool.memberAt index = .ok (owner, name, descriptor)) :
    descriptorAt? pool index = some descriptor := by
  simp [descriptorAt?, found]

theorem getstatic_executes (found : member.IsFieldAt pool index) :
    Instruction.execute pool code
        { position, opcode := Opcode.getstatic, tail := 2, poolIndex := some index } stack =
      (do stack.replace [] (← Descriptor.fieldTypes member.descriptor)) := by
  simp [Instruction.execute, descriptorAt?_of_memberAt found.2, Opcode.ldc, Opcode.ldcW,
    Opcode.getstatic]

theorem putstatic_executes (found : member.IsFieldAt pool index) :
    Instruction.execute pool code
        { position, opcode := Opcode.putstatic, tail := 2, poolIndex := some index } stack =
      (do stack.replace (← Descriptor.fieldTypes member.descriptor) []) := by
  simp [Instruction.execute, descriptorAt?_of_memberAt found.2, Opcode.ldc, Opcode.ldcW,
    Opcode.getstatic, Opcode.putstatic]

theorem invoke_executes
    (invokes : opcode = Opcode.invokevirtual ∨ opcode = Opcode.invokespecial ∨ opcode = Opcode.invokestatic)
    (found : member.IsMethodAt pool index) :
    Instruction.execute pool code { position, opcode, tail := 2, poolIndex := some index } stack =
      Descriptor.invoke? (if opcode = Opcode.invokestatic then [] else [reference])
        member.descriptor stack := by
  have named := descriptorAt?_of_memberAt found.2
  rcases invokes with rfl | rfl | rfl <;>
    simp [Instruction.execute, named, Opcode.ldc, Opcode.ldcW, Opcode.getstatic, Opcode.putstatic,
      Opcode.invokestatic, Opcode.invokevirtual, Opcode.invokespecial]

theorem plainPush {tail : Nat} (replaces : opcode.Replaces [] [type])
    (form : instructions = [{ position, opcode, tail }]) (goesOn : opcode.continues = true)
    (pushes : ∀ stack, insn.execute stack = some (type :: stack)) (continues : insn.continues = true) :
    ∃ instruction, instructions = [instruction] ∧ instruction.position = position ∧
      insn.Follows pool code target instruction := by
  refine ⟨_, form, rfl, ?_, by simp, goesOn.trans continues.symm⟩
  intro stack after executes
  rw [← executes, pushes]
  exact replaces.execute stack

theorem Decoded.follows (shaped : insn.Shaped) (single : ∀ className, insn ≠ newDup className)
    (decoded : insn.Decoded pool owner target code position instructions) :
    ∃ instruction, instructions = [instruction] ∧ instruction.position = position ∧
      insn.Follows pool code target instruction := by
  cases insn with
  | op opcode => exact ⟨_, decoded, rfl, fun executes => executes, by simp, rfl⟩
  | branch opcode label =>
      exact ⟨_, decoded, rfl, fun executes => executes, by simp [Insn.labels], rfl⟩
  | tableSwitch low labels default =>
      refine ⟨_, decoded, rfl, fun executes => executes, ?_, rfl⟩
      intro position member
      simp only [List.mem_append, List.mem_map, List.mem_singleton] at member
      rcases member with ⟨label, isLabel, rfl⟩ | rfl
      · exact ⟨label, by simp [Insn.labels, isLabel], rfl⟩
      · exact ⟨default, by simp [Insn.labels], rfl⟩
  | pushFloat value =>
      rcases decoded with ⟨_, form⟩ | ⟨_, form⟩ | ⟨_, form⟩ | loads
      · exact plainPush (by decide) form rfl (fun _ => rfl) rfl
      · exact plainPush (by decide) form rfl (fun _ => rfl) rfl
      · exact plainPush (by decide) form rfl (fun _ => rfl) rfl
      · exact loads.follows (fun entry same => by rw [← same]; rfl) (fun _ => rfl) rfl
  | pushInt value =>
      rcases decoded with ⟨small, bound, form⟩ | form | form | loads
      · have cases : small = 0 ∨ small = 1 ∨ small = 2 ∨ small = 3 ∨ small = 4 ∨ small = 5 ∨
            small = 6 := by omega
        rcases cases with rfl | rfl | rfl | rfl | rfl | rfl | rfl <;>
          exact plainPush (by decide) form rfl (fun _ => rfl) rfl
      · exact plainPush (by decide) form rfl (fun _ => rfl) rfl
      · exact plainPush (by decide) form rfl (fun _ => rfl) rfl
      · exact loads.follows (fun entry same => by rw [← same]; rfl) (fun _ => rfl) rfl
  | pushText text =>
      refine Loads.follows decoded ?_ (fun _ => rfl) rfl
      rintro entry ⟨content, rfl, _⟩
      rfl
  | access opcode slot =>
      obtain ⟨tail, form⟩ := decoded
      exact ⟨_, form, rfl, fun executes => executes, by simp, rfl⟩
  | increment slot amount =>
      obtain ⟨tail, form⟩ := decoded
      exact ⟨_, form, rfl, fun executes => executes, by simp, rfl⟩
  | field opcode member =>
      rcases shaped with rfl | rfl
      · refine Refers.follows decoded (fun index found stack after executes => ?_) rfl
        rw [getstatic_executes found, ← executes]
        simp [Insn.execute]
      · refine Refers.follows decoded (fun index found stack after executes => ?_) rfl
        rw [putstatic_executes found, ← executes]
        simp [Insn.execute, Opcode.putstatic, Opcode.getstatic]
  | invoke opcode member =>
      refine Refers.follows decoded (fun index found stack after executes => ?_) ?_
      · rw [invoke_executes shaped found, ← executes]
        rfl
      · rcases shaped with rfl | rfl | rfl <;> rfl
  | newDup className => exact absurd rfl (single className)
  | newArray elementType =>
      exact ⟨_, decoded, rfl, fun executes => executes, by simp, rfl⟩
  | newRefArray className =>
      refine Refers.follows decoded (fun index found stack after executes => ?_) rfl
      rw [← executes]
      simp [Instruction.execute, Insn.execute, Opcode.ldc, Opcode.ldcW, Opcode.getstatic,
        Opcode.putstatic, Opcode.invokestatic, Opcode.invokevirtual, Opcode.invokespecial, Opcode.new,
        Opcode.anewarray]
  | newMultiArray descriptor dimensions =>
      obtain ⟨last, index, _, form⟩ := decoded
      refine ⟨_, form, rfl, fun {stack after} executes => ?_, by simp, rfl⟩
      rw [← executes]
      simp [Instruction.execute, Insn.execute, last, Opcode.ldc, Opcode.ldcW, Opcode.getstatic,
        Opcode.putstatic, Opcode.invokestatic, Opcode.invokevirtual, Opcode.invokespecial, Opcode.new,
        Opcode.anewarray, Opcode.multianewarray]
  | call helper =>
      refine Refers.follows decoded (fun index found stack after executes => ?_) rfl
      rw [invoke_executes (.inr (.inr rfl)) found, ← executes]
      rfl
  | getCell cell =>
      refine Refers.follows decoded (fun index found stack after executes => ?_) rfl
      rw [getstatic_executes found, ← executes]
      rfl
  | putCell cell =>
      refine Refers.follows decoded (fun index found stack after executes => ?_) rfl
      rw [putstatic_executes found, ← executes]
      rfl

end Insn

namespace StackType

@[simp] theorem height_nil : height [] = 0 := rfl

@[simp] theorem height_append (first second : StackType) :
    height (first ++ second) = height first + height second := by
  simp [height]

theorem height_cons (single : type ≠ double) (stack : StackType) :
    height (type :: stack) = height stack + 1 := by
  simp only [height, List.map_cons, List.sum_cons, if_neg single]
  omega

@[simp] theorem height_int (stack : StackType) : height (int :: stack) = height stack + 1 :=
  height_cons (by decide) stack

@[simp] theorem height_float (stack : StackType) : height (float :: stack) = height stack + 1 :=
  height_cons (by decide) stack

@[simp] theorem height_reference (stack : StackType) :
    height (reference :: stack) = height stack + 1 :=
  height_cons (by decide) stack

end StackType

/-- What the code of a method may use: a number of local slots, a stack height if there is a bound, and
the types of the labels that may be used everywhere. Code with gaps may go on where control does not get
to from the code before. -/
structure Frame where
  slots : Nat
  limit : Option Nat
  stackOf : Label → Option StackType
  gaps : Bool

namespace Frame

structure Accepts (frame : Frame) (insn : Insn) : Prop where
  shaped : insn.Shaped
  within : ∀ slot, insn.slot? = some slot → slot < frame.slots

end Frame

/-- The types on the stack before and after items, and the greatest height of the stack before and after
their instructions. Where control does not get there is no stack, and code behind a gap may start with
any stack. -/
inductive Climbs (frame : Frame) : Option StackType → List Item → Option StackType → Nat → Prop where
  | nil {flow : Option StackType} : Climbs frame flow [] flow 0
  | insn {insn : Insn} {items : List Item} {stack after : StackType} {stop : Option StackType}
      {height : Nat} :
      frame.Accepts insn → insn.execute stack = some after →
      (∀ label ∈ insn.labels, frame.stackOf label = some after) →
      Climbs frame (if insn.continues then some after else none) items stop height →
      Climbs frame (some stack) (.insn insn :: items) stop
        (max (max stack.height after.height) height)
  | label {label : Label} {items : List Item} {stack : StackType} {stop : Option StackType}
      {height : Nat} :
      frame.stackOf label = some stack → Climbs frame (some stack) items stop height →
      Climbs frame (some stack) (.label label :: items) stop height
  | sourceLine {line : UInt32} {items : List Item} {flow stop : Option StackType} {height : Nat} :
      Climbs frame flow items stop height → Climbs frame flow (.sourceLine line :: items) stop height
  | request {helper : Helper} {items : List Item} {flow stop : Option StackType} {height : Nat} :
      Climbs frame flow items stop height → Climbs frame flow (.request helper :: items) stop height
  | dead {items : List Item} {stack : StackType} {stop : Option StackType} {height : Nat} :
      frame.gaps = true → Climbs frame (some stack) items stop height →
      Climbs frame none items stop height
  /-- A label that control gets to in no way. -/
  | unused {label : Label} {items : List Item} {stop : Option StackType} {height : Nat} :
      frame.stackOf label = none → Climbs frame none items stop height →
      Climbs frame none (.label label :: items) stop height
  /-- A choice between two numbers, whose labels are used nowhere else. -/
  | choice {opcode : Opcode} {holds done : Label} {value : Single} {items : List Item}
      {stack : StackType} {stop : Option StackType} {height : Nat} :
      opcode.shape = .branch → opcode.continues = true →
      opcode.execute (int :: stack) = some stack →
      frame.stackOf holds = none → frame.stackOf done = none →
      Climbs frame (some (float :: stack)) items stop height →
      Climbs frame (some (int :: stack))
        (.insn (.branch opcode holds) :: .insn (.op Opcode.fconst0) ::
          .insn (.branch Opcode.goto done) :: .label holds :: .insn (.pushFloat value) ::
          .label done :: items) stop (max (stack.height + 1) height)

/-- The height of the stack where control gets to. -/
def flowHeight (flow : Option StackType) : Nat := flow.elim 0 StackType.height

namespace Climbs

variable {frame : Frame} {flow middle stop : Option StackType} {items items' : List Item}
  {height height' : Nat}

theorem congr (climbs : Climbs frame flow items stop height) (same : height = height') :
    Climbs frame flow items stop height' := same ▸ climbs

theorem append (climbs : Climbs frame flow items middle height)
    (climbs' : Climbs frame middle items' stop height') :
    Climbs frame flow (items ++ items') stop (max height height') := by
  induction climbs with
  | nil => exact climbs'.congr (Nat.zero_max _).symm
  | insn accepts executes agrees _ ih =>
      exact (insn accepts executes agrees (ih climbs')).congr (Nat.max_assoc ..).symm
  | label agrees _ ih => exact .label agrees (ih climbs')
  | sourceLine _ ih => exact .sourceLine (ih climbs')
  | request _ ih => exact .request (ih climbs')
  | dead gaps _ ih => exact .dead gaps (ih climbs')
  | unused apart _ ih => exact .unused apart (ih climbs')
  | choice shape continues executes holdsApart doneApart _ ih =>
      exact (choice shape continues executes holdsApart doneApart (ih climbs')).congr
        (Nat.max_assoc ..).symm

theorem grow {slots : Nat} {limit : Option Nat} (climbs : Climbs frame flow items stop height)
    (more : frame.slots ≤ slots) : Climbs { frame with slots, limit } flow items stop height := by
  induction climbs with
  | nil => exact .nil
  | insn accepts executes agrees _ ih =>
      refine .insn ⟨accepts.shaped, fun slot isSlot => ?_⟩ executes agrees ih
      exact Nat.lt_of_lt_of_le (accepts.within slot isSlot) more
  | label agrees _ ih => exact .label agrees ih
  | sourceLine _ ih => exact .sourceLine ih
  | request _ ih => exact .request ih
  | dead gaps _ ih => exact .dead gaps ih
  | unused apart _ ih => exact .unused apart ih
  | choice shape continues executes holdsApart doneApart _ ih =>
      exact .choice shape continues executes holdsApart doneApart ih

theorem flowHeight_le (climbs : Climbs frame flow items stop height) :
    flowHeight flow ≤ max height (flowHeight stop) := by
  induction climbs with
  | nil => exact Nat.le_max_right ..
  | insn | choice =>
      simp only [flowHeight, Option.elim, StackType.height_int]
      omega
  | label _ _ ih | sourceLine _ ih | request _ ih => exact ih
  | dead | unused => exact Nat.zero_le _

theorem part (climbs : Climbs frame flow items stop height) (member : .insn insn ∈ items) :
    frame.Accepts insn ∧ ∃ stack after, insn.execute stack = some after := by
  induction climbs with
  | nil => cases member
  | insn accepts executes _ _ ih =>
      rcases List.mem_cons.mp member with same | later
      · cases same
        exact ⟨accepts, _, _, executes⟩
      · exact ih later
  | label _ _ ih | sourceLine _ ih | request _ ih | unused _ _ ih =>
      exact ih ((List.mem_cons.mp member).resolve_left (by simp))
  | dead _ _ ih => exact ih member
  | choice shape _ executes _ _ _ ih =>
      simp only [List.mem_cons, Item.insn.injEq, reduceCtorEq, false_or] at member
      rcases member with rfl | rfl | rfl | rfl | later
      · exact ⟨⟨shape, by simp [Insn.slot?]⟩, _, _, executes⟩
      · exact ⟨⟨show Opcode.fconst0.shape = .plain 0 by decide, by simp [Insn.slot?]⟩, [], [float], by decide⟩
      · exact ⟨⟨show Opcode.goto.shape = .branch by decide, by simp [Insn.slot?]⟩, [], [],
          show Opcode.goto.execute [] = some [] by decide⟩
      · exact ⟨⟨trivial, by simp [Insn.slot?]⟩, [], [float], rfl⟩
      · exact ih later

end Climbs

/-- Items whose stack is never higher than their frame admits. -/
def Typed (frame : Frame) (flow : Option StackType) (items : List Item) (stop : Option StackType) : Prop :=
  ∃ height, Climbs frame flow items stop height ∧ ∀ limit, frame.limit = some limit → height ≤ limit

theorem Typed.part {frame : Frame} {flow stop : Option StackType} {items : List Item}
    (typed : Typed frame flow items stop) (member : .insn insn ∈ items) :
    frame.Accepts insn ∧ ∃ stack after, insn.execute stack = some after := by
  obtain ⟨height, climbs, _⟩ := typed
  exact climbs.part member

/-- Control reaches a position with a stack: there an instruction is marked with the stack, or the code
ends there. -/
def Reaches (marks : List (Nat × StackType)) (exit : Option StackType) (stop position : Nat)
    (stack : StackType) : Prop :=
  (position, stack) ∈ marks ∨ (position = stop ∧ exit = some stack)

theorem Reaches.after {marks : List (Nat × StackType)} (reaches : Reaches marks exit stop position stack)
    (first : List (Nat × StackType)) : Reaches (first ++ marks) exit stop position stack :=
  reaches.imp (List.mem_append_right first) id

/-- The stack is no higher than a limit, neither before nor after an instruction. -/
def Instruction.Low (pool : ConstantPool) (code : Array UInt8) (limit : Nat) (instruction : Instruction)
    (stack : StackType) : Prop :=
  stack.height ≤ limit ∧ ∀ after, instruction.execute pool code stack = some after → after.height ≤ limit

/-- Decoded instructions that are marked with the stacks before them, as the items they come from. -/
structure Marked (pool : ConstantPool) (code : Array UInt8) (target : Label → Nat) (frame : Frame)
    (exit : Option StackType) (stop : Nat) (entry : Option StackType) (start : Nat)
    (items : List Item) (instructions : List Instruction) (marks : List (Nat × StackType))
    (height : Nat) : Prop where
  positions : marks.map Prod.fst = instructions.map Instruction.position
  enters : ∀ stack, entry = some stack → Reaches marks exit stop start stack
  steps : ∀ instruction ∈ instructions, ∃ stack after,
    (instruction.position, stack) ∈ marks ∧ instruction.execute pool code stack = some after ∧
    (∀ position ∈ instruction.targets, Reaches marks exit stop position after ∨
      ∃ label ∈ Item.references items, position = target label ∧ frame.stackOf label = some after) ∧
    (instruction.opcode.continues = true →
      Reaches marks exit stop (instruction.position + instruction.length) after)
  labels : ∀ label ∈ Item.definitions items, ∀ stack, frame.stackOf label = some stack →
    Reaches marks exit stop (target label) stack
  heights : ∀ limit, height ≤ limit ↔
    List.Forall₂ (fun instruction mark => instruction.Low pool code limit mark.2) instructions marks

namespace Marked

variable {pool : ConstantPool} {code : Array UInt8} {target : Label → Nat} {frame : Frame}
  {exit entry : Option StackType} {stop start : Nat} {items : List Item}
  {instructions : List Instruction} {marks : List (Nat × StackType)} {height height' : Nat}

theorem congr (same : height = height')
    (marked : Marked pool code target frame exit stop entry start items instructions marks height) :
    Marked pool code target frame exit stop entry start items instructions marks height' :=
  same ▸ marked

theorem prepend (instruction : Instruction) (items' : List Item) (stack : StackType)
    {after : StackType}
    (marked : Marked pool code target frame exit stop entry (instruction.position + instruction.length)
      items instructions marks height)
    (defines : Item.definitions items' = Item.definitions items)
    (refers : ∀ label ∈ Item.references items, label ∈ Item.references items')
    (executes : instruction.execute pool code stack = some after)
    (jumps : ∀ position ∈ instruction.targets, Reaches marks exit stop position after ∨
      ∃ label ∈ Item.references items', position = target label ∧ frame.stackOf label = some after)
    (continues : instruction.opcode.continues = true → entry = some after) :
    Marked pool code target frame exit stop (some stack) instruction.position items'
      (instruction :: instructions) ((instruction.position, stack) :: marks)
      (max (max stack.height after.height) height) where
  positions := by simp [marked.positions]
  enters := by
    rintro _ ⟨⟩
    exact .inl (List.mem_cons_self ..)
  steps := by
    intro other member
    rcases List.mem_cons.mp member with rfl | later
    · refine ⟨stack, after, List.mem_cons_self .., executes, ?_, ?_⟩
      · exact fun position isTarget => (jumps position isTarget).imp (Reaches.after · [_]) id
      · exact fun goesOn => (marked.enters after (continues goesOn)).after [_]
    · obtain ⟨stack', after', marks', executes', jumps', continues'⟩ := marked.steps other later
      refine ⟨stack', after', List.mem_cons_of_mem _ marks', executes', ?_, ?_⟩
      · intro position isTarget
        refine (jumps' position isTarget).imp (Reaches.after · [_]) ?_
        rintro ⟨label, isLabel, positioned, typed⟩
        exact ⟨label, refers label isLabel, positioned, typed⟩
      · exact fun goesOn => (continues' goesOn).after [_]
  labels := by
    intro label member stack' typed
    rw [defines] at member
    exact (marked.labels label member stack' typed).after [_]
  heights := by
    intro limit
    have here : instruction.Low pool code limit stack ↔ max stack.height after.height ≤ limit := by
      rw [Nat.max_le]
      simp [Low, executes]
    rw [List.forall₂_cons, here, ← marked.heights, ← Nat.max_le]

theorem define {label : Label}
    (marked : Marked pool code target frame exit stop (some stack) start items instructions marks height)
    (here : target label = start) (typed : ∀ found, frame.stackOf label = some found → found = stack) :
    Marked pool code target frame exit stop (some stack) start (.label label :: items) instructions
      marks height where
  positions := marked.positions
  enters := marked.enters
  steps := marked.steps
  labels := by
    intro other member found isFound
    rcases List.mem_cons.mp member with rfl | later
    · rw [here, typed found isFound]
      exact marked.enters stack rfl
    · exact marked.labels other later found isFound
  heights := marked.heights

end Marked

theorem Insn.Decoded.prepend {frame : Frame} {entry : Option StackType} {middle : Nat} {items : List Item}
    {first : List Instruction} {marks : List (Nat × StackType)} {after : StackType} {height : Nat}
    (decoded : insn.Decoded pool owner target code position first)
    (decodes : Decodes code position first middle) (shaped : insn.Shaped)
    (marked : Marked pool code target frame exit stop entry middle items instructions marks height)
    (executes : insn.execute stack = some after)
    (jumps : ∀ label ∈ insn.labels, Reaches marks exit stop (target label) after ∨
      frame.stackOf label = some after)
    (continues : insn.continues = true → entry = some after) :
    ∃ marks', Marked pool code target frame exit stop (some stack) position (.insn insn :: items)
      (first ++ instructions) (marks' ++ marks) (max (max stack.height after.height) height) ∧
      (position, stack) ∈ marks' := by
  by_cases double : ∃ className, insn = newDup className
  · obtain ⟨className, rfl⟩ := double
    obtain ⟨index, _, rfl⟩ := decoded
    obtain ⟨_, _, rfl⟩ := decodes
    cases executes
    let dup : Instruction := { position := position + 3, opcode := Opcode.dup, tail := 0 }
    let new : Instruction := { position, opcode := Opcode.new, tail := 2, poolIndex := some index }
    have duplicated := marked.prepend dup items (reference :: stack) rfl
      (fun _ member => member) (by rfl) (by simp [dup]) continues
    have allocated := duplicated.prepend new (.insn (.newDup className) :: items) stack rfl
      (fun _ member => member) (by rfl) (by simp [new]) (fun _ => rfl)
    refine ⟨[(position, stack), (position + 3, reference :: stack)], allocated.congr ?_,
      List.mem_cons_self ..⟩
    simp only [StackType.height_reference]
    omega
  · obtain ⟨instruction, rfl, rfl, follows⟩ :=
      decoded.follows shaped fun className same => double ⟨className, same⟩
    obtain ⟨_, rfl⟩ := decodes
    refine ⟨[(instruction.position, stack)], ?_, List.mem_singleton.mpr rfl⟩
    refine marked.prepend instruction _ stack rfl ?_ (follows.executes executes) ?_ ?_
    · exact fun label member => List.mem_append_right insn.labels member
    · intro position isTarget
      obtain ⟨label, isLabel, rfl⟩ := follows.jumps position isTarget
      refine (jumps label isLabel).imp id fun typed => ⟨label, ?_, rfl, typed⟩
      exact List.mem_append_left _ isLabel
    · rw [follows.continues]
      exact continues

namespace Climbs

variable {frame : Frame} {entry middle exit : Option StackType} {items items' : List Item}
  {height height' : Nat} {pool : ConstantPool} {owner : String} {target : Label → Nat}
  {code : Array UInt8} {start point stop : Nat} {instructions instructions' : List Instruction}

/-- Typed items are decoded to instructions that can be marked with their stacks, in front of others
that are marked. -/
theorem marked_onto (climbs : Climbs frame entry items middle height) {marks' : List (Nat × StackType)}
    (laid : Laid pool owner target code start items instructions point)
    (onto : Marked pool code target frame exit stop middle point items' instructions' marks' height') :
    ∃ marks, Marked pool code target frame exit stop entry start (items ++ items')
      (instructions ++ instructions') (marks ++ marks') (max height height') := by
  induction climbs generalizing start instructions with
  | nil =>
      cases laid
      exact ⟨[], onto.congr (Nat.zero_max _).symm⟩
  | insn accepts executes agrees _ ih =>
      cases laid with
      | insn decoded decodes later =>
          obtain ⟨marks, marked⟩ := ih later onto
          obtain ⟨first, whole, _⟩ := decoded.prepend decodes accepts.shaped marked executes
            (fun label member => .inr (agrees label member)) (fun goesOn => if_pos goesOn)
          rw [← List.append_assoc, ← List.append_assoc, ← Nat.max_assoc] at whole
          exact ⟨first ++ marks, whole⟩
  | label agrees _ ih =>
      cases laid with
      | label here later =>
          obtain ⟨marks, marked⟩ := ih later onto
          refine ⟨marks, marked.define here fun found isFound => ?_⟩
          exact Option.some.inj (isFound.symm.trans agrees)
  | sourceLine _ ih =>
      cases laid with
      | sourceLine later =>
          obtain ⟨marks, positions, enters, steps, labels, heights⟩ := ih later onto
          exact ⟨marks, positions, enters, steps, labels, heights⟩
  | request _ ih =>
      cases laid with
      | request later =>
          obtain ⟨marks, positions, enters, steps, labels, heights⟩ := ih later onto
          exact ⟨marks, positions, enters, steps, labels, heights⟩
  | dead _ _ ih =>
      obtain ⟨marks, positions, _, steps, labels, heights⟩ := ih laid onto
      exact ⟨marks, positions, by simp, steps, labels, heights⟩
  | unused apart _ ih =>
      cases laid with
      | label here later =>
          obtain ⟨marks, positions, enters, steps, labels, heights⟩ := ih later onto
          refine ⟨marks, positions, enters, steps, fun label member stack isStack => ?_, heights⟩
          rcases List.mem_cons.mp member with rfl | other
          · cases apart.symm.trans isStack
          · exact labels label other stack isStack
  | choice shape continues executes holdsApart doneApart _ ih =>
      cases laid with
      | insn decodedBranch decodesBranch laid =>
      cases laid with
      | insn decodedZero decodesZero laid =>
      cases laid with
      | insn decodedGoto decodesGoto laid =>
      cases laid with
      | label holdsHere laid =>
      cases laid with
      | insn decodedValue decodesValue laid =>
      cases laid with
      | label doneHere laid =>
          obtain ⟨marks, marked⟩ := ih laid onto
          have reached := marked.enters _ rfl
          have joined := marked.define doneHere (by simp [doneApart])
          obtain ⟨valueMarks, valued, valueMark⟩ := decodedValue.prepend decodesValue trivial joined
            rfl (by simp [Insn.labels]) (fun _ => rfl)
          have chosen := valued.define holdsHere (by simp [holdsApart])
          have chosenAt := chosen.enters _ rfl
          have goes : Opcode.goto.Replaces [] [] := by decide
          have zeroes : Opcode.fconst0.Replaces [] [float] := by decide
          obtain ⟨gotoMarks, gone, _⟩ := decodedGoto.prepend decodesGoto
            (show Opcode.goto.shape = .branch by decide) chosen (goes.execute _) (by
              rintro label member
              cases List.mem_singleton.mp member
              rw [doneHere]
              exact .inl (reached.after valueMarks)) (by simp [Insn.continues, Opcode.continues])
          obtain ⟨zeroMarks, pushed, _⟩ := decodedZero.prepend decodesZero
            (show Opcode.fconst0.shape = .plain 0 by decide) gone
            (zeroes.execute _) (by simp [Insn.labels]) (fun _ => rfl)
          obtain ⟨branchMarks, whole, _⟩ := decodedBranch.prepend decodesBranch shape pushed
            executes (by
              rintro label member
              cases List.mem_singleton.mp member
              rw [holdsHere]
              exact .inl ((chosenAt.after gotoMarks).after zeroMarks)) (fun _ => rfl)
          refine ⟨branchMarks ++ zeroMarks ++ gotoMarks ++ valueMarks ++ marks, ?_⟩
          simp only [← List.append_assoc] at whole ⊢
          refine whole.congr ?_
          simp only [StackType.height_append, StackType.height_int, StackType.height_float,
            StackType.height_nil]
          omega

theorem marked (climbs : Climbs frame entry items exit height)
    (laid : Laid pool owner target code start items instructions stop) :
    ∃ marks, Marked pool code target frame exit stop entry start items instructions marks height := by
  have nothing : Marked pool code target frame exit stop exit stop [] [] [] 0 :=
    ⟨rfl, fun stack isStack => .inr ⟨rfl, isStack⟩, by simp, fun label member => (by cases member),
      by simp⟩
  obtain ⟨marks, marked⟩ := climbs.marked_onto laid nothing
  rw [List.append_nil, List.append_nil, List.append_nil, Nat.max_zero] at marked
  exact ⟨marks, marked⟩

end Climbs

/-- Pieces of code that start and end with the same stack, and the greatest height in any of them. -/
inductive ClimbsEach (frame : Frame) (flow : Option StackType) : List (List Item) → Nat → Prop where
  | nil : ClimbsEach frame flow [] 0
  | cons {piece : List Item} {pieces : List (List Item)} {height height' : Nat} :
      Climbs frame flow piece flow height → ClimbsEach frame flow pieces height' →
      ClimbsEach frame flow (piece :: pieces) (max height height')

namespace ClimbsEach

variable {frame : Frame} {flow : Option StackType} {pieces pieces' : List (List Item)}
  {height height' : Nat}

theorem append (climbs : ClimbsEach frame flow pieces height)
    (climbs' : ClimbsEach frame flow pieces' height') :
    ClimbsEach frame flow (pieces ++ pieces') (max height height') := by
  induction climbs with
  | nil => rwa [Nat.zero_max]
  | cons first _ ih =>
      rw [Nat.max_assoc]
      exact .cons first ih

theorem grow {slots : Nat} (more : frame.slots ≤ slots) (climbs : ClimbsEach frame flow pieces height) :
    ClimbsEach { frame with slots } flow pieces height := by
  induction climbs with
  | nil => exact .nil
  | cons first _ ih => exact .cons (first.grow more) ih

theorem flatten (climbs : ClimbsEach frame flow pieces height) :
    Climbs frame flow pieces.flatten flow height := by
  induction climbs with
  | nil => exact .nil
  | cons first _ ih => exact first.append ih

/-- The boundaries between pieces are reached with the stack that the pieces start with. -/
theorem marked {last : List Item} (climbs : ClimbsEach frame (some stack) pieces height)
    (ends : Climbs frame (some stack) last exit height') {start : Nat}
    (laid : Laid pool owner target code start (pieces.flatten ++ last) instructions stop) :
    ∃ marks, Marked pool code target frame exit stop (some stack) start (pieces.flatten ++ last)
        instructions marks (max height height') ∧
      ∀ front back, pieces = front ++ back → ∃ first point,
        Laid pool owner target code start front.flatten first point ∧
        Reaches marks exit stop point stack := by
  induction climbs generalizing start instructions with
  | nil =>
      obtain ⟨marks, marked⟩ := ends.marked laid
      refine ⟨marks, marked.congr (Nat.zero_max _).symm, ?_⟩
      rintro front back isNil
      obtain ⟨rfl, rfl⟩ := List.append_eq_nil_iff.mp isNil.symm
      exact ⟨[], start, .nil, marked.enters stack rfl⟩
  | cons here _ ih =>
      rw [List.flatten_cons, List.append_assoc] at laid
      obtain ⟨before, after, point, rfl, laidPiece, laidRest⟩ := laid.split
      obtain ⟨marks', marked', places⟩ := ih laidRest
      obtain ⟨marks, marked⟩ := here.marked_onto laidPiece marked'
      rw [← List.append_assoc, ← Nat.max_assoc] at marked
      refine ⟨marks ++ marks', marked, ?_⟩
      rintro front back isFront
      cases front with
      | nil => exact ⟨[], start, .nil, marked.enters stack rfl⟩
      | cons piece' front =>
          obtain ⟨rfl, restIs⟩ := List.cons.inj isFront
          obtain ⟨first, position, laidFront, reaches⟩ := places front back restIs
          exact ⟨before ++ first, position, laidPiece.append laidFront, reaches.after marks⟩

end ClimbsEach

instance (insn : Insn) : Decidable insn.Shaped :=
  match insn with
  | .op opcode => inferInstanceAs (Decidable (opcode.shape = .plain 0))
  | .branch opcode _ => inferInstanceAs (Decidable (opcode.shape = .branch))
  | .tableSwitch low targets _ => inferInstanceAs (Decidable
      (targets ≠ [] ∧ (targets.length < 16384 → low.toInt + targets.length ≤ 2147483648)))
  | .access opcode _ => inferInstanceAs (Decidable (opcode.accessesSlot = true))
  | .field opcode _ =>
    inferInstanceAs (Decidable (opcode = Opcode.getstatic ∨ opcode = Opcode.putstatic))
  | .invoke opcode _ => inferInstanceAs (Decidable (opcode = Opcode.invokevirtual ∨
      opcode = Opcode.invokespecial ∨ opcode = Opcode.invokestatic))
  | .increment _ _ | .pushFloat _ | .pushInt _ | .pushText _ | .newDup _ | .newArray _
  | .newRefArray _ | .newMultiArray _ _ | .call _ | .getCell _ | .putCell _ =>
    inferInstanceAs (Decidable True)

def Item.slot? : Item → Option Nat
  | .insn insn => insn.slot?
  | _ => none

namespace Frame

def admits (frame : Frame) (stack : StackType) : Bool :=
  frame.limit.all (stack.height ≤ ·)

theorem admits_sound {frame : Frame} {stack : StackType} (checked : frame.admits stack = true) :
    ∀ limit, frame.limit = some limit → stack.height ≤ limit := by
  intro limit isLimit
  simpa [admits, isLimit] using checked

/-- Types items one after the other. Whether the slots exist is not checked. -/
def check (frame : Frame) : Option StackType → List Item → Option (Option StackType)
  | flow, [] => some flow
  | none, .insn _ :: _ => none
  | some stack, .insn insn :: items =>
    match insn.execute stack with
    | some after =>
      if decide insn.Shaped && frame.admits stack && frame.admits after &&
          insn.labels.all (frame.stackOf · == some after) then
        check frame (if insn.continues then some after else none) items
      else none
    | none => none
  | flow, .label label :: items =>
    match frame.stackOf label with
    | some stack =>
      if flow.all (· == stack) then check frame (some stack) items else none
    | none => none
  | flow, .sourceLine _ :: items => check frame flow items
  | flow, .request _ :: items => check frame flow items

theorem check_sound {frame : Frame} {flow stop : Option StackType} {items : List Item}
    (gaps : ∀ label, .label label ∈ items → frame.gaps = true)
    (checked : frame.check flow items = some stop)
    (within : ∀ item ∈ items, ∀ slot, item.slot? = some slot → slot < frame.slots) :
    Typed frame flow items stop := by
  have later {item : Item} {rest : List Item}
      (gaps : ∀ label, .label label ∈ item :: rest → frame.gaps = true) :
      ∀ label, .label label ∈ rest → frame.gaps = true :=
    fun label member => gaps label (List.mem_cons_of_mem _ member)
  fun_induction check frame flow items with
  | case1 flow =>
      cases checked
      exact ⟨0, .nil, fun _ _ => Nat.zero_le _⟩
  | case2 => cases checked
  | case3 stack insn items after executes passed ih =>
      simp only [Bool.and_eq_true, List.all_eq_true, beq_iff_eq, decide_eq_true_eq] at passed
      obtain ⟨⟨⟨shaped, before⟩, after⟩, agrees⟩ := passed
      obtain ⟨here, within⟩ := List.forall_mem_cons.mp within
      obtain ⟨height, climbs, enough⟩ := ih (later gaps) checked within
      exact ⟨_, .insn ⟨shaped, here⟩ executes agrees climbs, fun limit isLimit => Nat.max_le.mpr
        ⟨Nat.max_le.mpr ⟨admits_sound before limit isLimit, admits_sound after limit isLimit⟩,
          enough limit isLimit⟩⟩
  | case4 => cases checked
  | case5 => cases checked
  | case6 flow label items stack isStack passed ih =>
      obtain ⟨height, climbs, enough⟩ := ih (later gaps) checked (List.forall_mem_cons.mp within).2
      cases flow with
      | none => exact ⟨height, .dead (gaps label (List.mem_cons_self ..)) (.label isStack climbs), enough⟩
      | some found =>
          have same : found = stack := by simpa using passed
          exact ⟨height, same ▸ .label isStack climbs, enough⟩
  | case7 => cases checked
  | case8 => cases checked
  | case9 flow line items ih =>
      exact (ih (later gaps) checked (List.forall_mem_cons.mp within).2).imp fun _ => .imp .sourceLine id
  | case10 flow helper items ih =>
      exact (ih (later gaps) checked (List.forall_mem_cons.mp within).2).imp fun _ => .imp .request id

end Frame

end BasicCompiler
