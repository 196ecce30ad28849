import BasicCompiler.Proofs.Method.WellFormed

/-!
Code whose instructions find the operands that they take on the stack, on every path that control can
take to them.
-/

namespace BasicCompiler

open Instruction ValueType

/-- An assignment of stacks to the instructions of a method agrees with what the instructions do. -/
structure CodeAttribute.Disciplined (pool : ConstantPool) (code : CodeAttribute)
    (instructions : List Instruction) (stackAt : Nat → StackType) : Prop where
  decoded : decode code.bytes = .ok instructions
  enters : Starts instructions 0 ∧ stackAt 0 = []
  /-- Every instruction finds its operands, and what it leaves is found wherever control goes next. -/
  steps : ∀ instruction ∈ instructions, ∃ after,
    instruction.execute pool code.bytes (stackAt instruction.position) = some after ∧
    (∀ position ∈ instruction.targets, Starts instructions position ∧ stackAt position = after) ∧
    (instruction.opcode.continues = true →
      Starts instructions (instruction.position + instruction.length) ∧
        stackAt (instruction.position + instruction.length) = after)
  /-- A handler finds the exception alone. -/
  handlers : ∀ row ∈ code.handlers,
    Starts instructions row.handler.toNat ∧ stackAt row.handler.toNat = [reference]

/-- The stack is never higher than the method declares, neither before nor after an instruction. -/
def CodeAttribute.Bounded (pool : ConstantPool) (code : CodeAttribute)
    (instructions : List Instruction) (stackAt : Nat → StackType) : Prop :=
  ∀ instruction ∈ instructions,
    (stackAt instruction.position).height ≤ code.maxStack.toNat ∧
    ∀ after, instruction.execute pool code.bytes (stackAt instruction.position) = some after →
      after.height ≤ code.maxStack.toNat

namespace Marked

def stackAt (marks : List (Nat × StackType)) (position : Nat) : StackType :=
  (List.lookup position marks).getD []

theorem stackAt_of_mem {marks : List (Nat × StackType)} (distinct : (marks.map Prod.fst).Nodup)
    {position : Nat} {stack : StackType} (marked : (position, stack) ∈ marks) :
    stackAt marks position = stack := by
  induction marks with
  | nil => cases marked
  | cons first rest ih =>
      obtain ⟨unmarked, others⟩ := List.nodup_cons.mp distinct
      rcases List.mem_cons.mp marked with rfl | later
      · simp [stackAt]
      · have apart : (position == first.1) = false := by
          rw [beq_eq_false_iff_ne]
          rintro rfl
          exact unmarked (List.mem_map.mpr ⟨_, later, rfl⟩)
        rw [← ih others later, stackAt, List.lookup_cons, apart]
        rfl

variable {pool : ConstantPool} {code : Array UInt8} {target : Label → Nat} {frame : Frame}
  {items : List Item} {instructions : List Instruction} {marks : List (Nat × StackType)}
  {stop height : Nat}

theorem reached
    (marked : Marked pool code target frame none stop (some []) 0 items instructions marks height)
    (decodes : Decodes code 0 instructions stop) {position : Nat} {stack : StackType}
    (reaches : Reaches marks none stop position stack) :
    Starts instructions position ∧ stackAt marks position = stack := by
  refine ⟨MethodUnit.Realizes.starts marked.positions rfl reaches, ?_⟩
  rcases reaches with mark | ⟨_, impossible⟩
  · refine stackAt_of_mem ?_ mark
    rw [marked.positions]
    exact decodes.positions_nodup
  · cases impossible

theorem marks_eq
    (marked : Marked pool code target frame none stop (some []) 0 items instructions marks height)
    (decodes : Decodes code 0 instructions stop) :
    instructions.map (fun instruction => (instruction.position, stackAt marks instruction.position)) =
      marks := by
  have here (mark : Nat × StackType) (member : mark ∈ marks) :
      (mark.1, stackAt marks mark.1) = id mark := by
    rw [(marked.reached decodes (.inl member)).2]
    rfl
  calc instructions.map (fun instruction => (instruction.position, stackAt marks instruction.position))
      = (instructions.map position).map fun place => (place, stackAt marks place) := by
        rw [List.map_map]
        rfl
    _ = marks.map fun mark => (mark.1, stackAt marks mark.1) := by
        rw [← marked.positions, List.map_map]
        rfl
    _ = marks := (List.map_congr_left here).trans (List.map_id marks)

end Marked

namespace MethodUnit.Realizes

variable {pool : ConstantPool} {draft : Draft} {header : MethodHeader} {target : Label → Nat}
  {instructions : List Instruction} {unit : MethodUnit} {frame : Frame}
  {marks : List (Nat × StackType)} {height : Nat} {code : CodeAttribute}

theorem disciplined (realizes : unit.Realizes pool draft header target instructions)
    (certified : draft.Certified frame)
    (marked : Marked pool unit.code target frame none unit.code.size (some []) 0 draft.items.toList
      instructions marks height)
    (bytes : code.bytes = unit.code) (rows : code.handlers = unit.handlers) :
    code.Disciplined pool instructions (Marked.stackAt marks) := by
  have reached {position : Nat} {stack : StackType}
      (reaches : Reaches marks none unit.code.size position stack) :=
    marked.reached realizes.laid.decodes reaches
  constructor
  · rw [bytes]
    exact realizes.decode
  · exact reached (marked.enters [] rfl)
  · intro instruction member
    obtain ⟨stack, after, mark, executes, jumps, continues⟩ := marked.steps instruction member
    rw [(reached (.inl mark)).2, bytes]
    refine ⟨after, executes, fun position isTarget => ?_, fun goesOn => reached (continues goesOn)⟩
    rcases jumps position isTarget with reaches | ⟨label, isReferred, rfl, typed⟩
    · exact reached reaches
    · exact reached (marked.labels label (realizes.jumps label isReferred) after typed)
  · intro row isRow
    rw [rows] at isRow
    obtain ⟨handler, isHandler, defined, stands⟩ := realizes.handler_of_row isRow
    obtain ⟨_, _, _, handlerTyped⟩ := certified.handled handler isHandler
    have isDefined := defined handler.handler (by simp [Handler.labels])
    have bound := realizes.laid.target_le isDefined
    have size := realizes.size
    have handlerAt : row.handler.toNat = target handler.handler := by
      rw [stands.entersAt, UInt16.toNat_ofNat']
      omega
    rw [handlerAt]
    exact reached (marked.labels _ isDefined _ handlerTyped)

theorem bounded_iff (realizes : unit.Realizes pool draft header target instructions)
    (marked : Marked pool unit.code target frame none unit.code.size (some []) 0 draft.items.toList
      instructions marks height)
    (bytes : code.bytes = unit.code) :
    code.Bounded pool instructions (Marked.stackAt marks) ↔ height ≤ code.maxStack.toNat := by
  calc code.Bounded pool instructions (Marked.stackAt marks)
      ↔ ∀ instruction ∈ instructions, instruction.Low pool unit.code code.maxStack.toNat
          (Marked.stackAt marks instruction.position) := by
        rw [← bytes]
        rfl
    _ ↔ List.Forall₂ (fun instruction mark => instruction.Low pool unit.code code.maxStack.toNat mark.2)
          instructions marks := by
        conv_rhs => rw [← marked.marks_eq realizes.laid.decodes]
        rw [List.forall₂_map_right_iff, List.forall₂_same]
    _ ↔ height ≤ code.maxStack.toNat := (marked.heights _).symm

end MethodUnit.Realizes

end BasicCompiler
