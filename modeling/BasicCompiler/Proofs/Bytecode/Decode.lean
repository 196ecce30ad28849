import BasicCompiler.Bytecode.Instruction
import BasicCompiler.Proofs.Bytes.BigEndian

/-!
Decoding of code whose bytes are known: each shape of operands reads back, and a sequence of
instructions that decode one after the other is what the whole code decodes to.
-/

namespace BasicCompiler.Instruction

open BigEndian

variable {code : Array UInt8} {position start stop : Nat} {opcode : Opcode}
  {instructions : List Instruction} {instruction : Instruction}

def Holds (code : Array UInt8) : Nat → List UInt8 → Prop
  | _, [] => True
  | position, byte :: rest => code[position]? = some byte ∧ Holds code (position + 1) rest

theorem holds_append (code : Array UInt8) (position : Nat) (first second : List UInt8) :
    Holds code position (first ++ second) ↔
      Holds code position first ∧ Holds code (position + first.length) second := by
  induction first generalizing position with
  | nil => simp [Holds]
  | cons byte rest ih =>
      simp only [List.cons_append, Holds, ih, List.length_cons]
      rw [show position + 1 + rest.length = position + (rest.length + 1) by omega]
      exact and_assoc.symm

theorem holds_drop (code : Array UInt8) (position : Nat) :
    Holds code position (code.toList.drop position) := by
  generalize bytesEq : code.toList.drop position = bytes
  induction bytes generalizing position with
  | nil => trivial
  | cons byte rest ih =>
      have bound : position < code.toList.length := by
        have := congrArg List.length bytesEq
        simp only [List.length_drop, List.length_cons] at this
        omega
      rw [List.drop_eq_getElem_cons bound, List.cons.injEq] at bytesEq
      refine ⟨?_, ih (position + 1) bytesEq.2⟩
      rw [← bytesEq.1, ← Array.getElem?_toList, List.getElem?_eq_getElem bound]

theorem holds_toList (code : Array UInt8) : Holds code 0 code.toList :=
  holds_drop code 0

theorem Holds.bound {bytes : List UInt8} (holds : Holds code position bytes) (some : bytes ≠ []) :
    position + bytes.length ≤ code.size := by
  induction bytes generalizing position with
  | nil => exact absurd rfl some
  | cons byte rest ih =>
      have here : position < code.size := (Array.getElem?_eq_some_iff.mp holds.1).1
      cases rest with
      | nil => exact here
      | cons next rest =>
          have later := ih holds.2 (by simp)
          simp only [List.length_cons] at later ⊢
          omega

theorem byteAt_eq {byte : UInt8} (found : code[position]? = some byte) : byteAt code position = .ok byte := by
  simp [byteAt, found]

theorem word16At_eq {word : UInt16} (holds : Holds code position (encode16 word)) :
    word16At code position = .ok word := by
  obtain ⟨first, second, _⟩ := holds
  simp only [word16At, byteAt_eq first, byteAt_eq second, bind, Except.bind, pure, Except.pure,
    decode16_encode16]

theorem int16At_eq {offset : Int} (holds : Holds code position (encode16 (Int16.ofInt offset).toUInt16))
    (lower : -32768 ≤ offset) (upper : offset ≤ 32767) : int16At code position = .ok offset := by
  simp only [int16At, word16At_eq holds, bind, Except.bind, pure, Except.pure,
    Int16.toInt16_toUInt16]
  rw [Int16.toInt_ofInt_of_le (by omega) (by omega)]

theorem int32At_eq {value : Int32} (holds : Holds code position (encode32 value.toUInt32)) :
    int32At code position = .ok value.toInt := by
  obtain ⟨first, second, third, fourth, _⟩ := holds
  simp only [int32At, byteAt_eq first, byteAt_eq second, byteAt_eq third, byteAt_eq fourth, bind,
    Except.bind, pure, Except.pure, decode32_encode32, Int32.toInt32_toUInt32]

theorem branchTarget_eq (position target : Nat) :
    branchTarget position ((target : Int) - position) = .ok target := by
  have whole : (position : Int) + (target - position) = target := by omega
  simp only [branchTarget, whole]
  rw [if_neg (by omega), Int.toNat_natCast]

def distance (position target : Nat) : Int32 :=
  Int32.ofInt ((target : Int) - position)

theorem distance_toInt {target : Nat} (positionBound : position ≤ 65535) (targetBound : target ≤ 65535) :
    (distance position target).toInt = target - position := by
  rw [distance, Int32.toInt_ofInt_of_le (by omega) (by omega)]

theorem switchTargets_eq {field : Nat} {targets : List Nat} (done : List Nat)
    (positionBound : position ≤ 65535) (targetBound : ∀ target ∈ targets, target ≤ 65535)
    (holds : Holds code field (targets.flatMap fun target => encode32 (distance position target).toUInt32)) :
    switchTargets code position 4 targets.length field done = .ok (done.reverse ++ targets) := by
  induction targets generalizing field done with
  | nil => simp [switchTargets]
  | cons target rest ih =>
      simp only [List.flatMap_cons, holds_append] at holds
      have first := int32At_eq holds.1
      rw [distance_toInt positionBound (targetBound target (by simp))] at first
      have later := ih (target :: done) (fun other member => targetBound other (by simp [member]))
        holds.2
      simp only [List.length_cons, switchTargets, first, branchTarget_eq, bind, Except.bind]
      simpa [encode32] using later

def Decodes (code : Array UInt8) : Nat → List Instruction → Nat → Prop
  | start, [], stop => start = stop
  | start, instruction :: rest, stop =>
    decodeAt code start = .ok instruction ∧ Decodes code (start + instruction.length) rest stop

theorem Decodes.append {middle : Nat} {first second : List Instruction}
    (before : Decodes code start first middle) (after : Decodes code middle second stop) :
    Decodes code start (first ++ second) stop := by
  induction first generalizing start with
  | nil =>
      cases before
      exact after
  | cons instruction rest ih => exact ⟨before.1, ih before.2⟩

theorem Decodes.length_le (decodes : Decodes code start instructions stop) :
    start + instructions.length ≤ stop := by
  induction instructions generalizing start with
  | nil => exact Nat.le_of_eq decodes
  | cons instruction rest ih =>
      have later := ih decodes.2
      simp only [List.length_cons, Instruction.length] at later ⊢
      omega

theorem decodeAt_bound (decoded : decodeAt code position = .ok instruction) :
    position + instruction.length ≤ code.size := by
  unfold decodeAt at decoded
  cases opcodeEq : byteAt code position with
  | error error => simp [opcodeEq, bind, Except.bind] at decoded
  | ok opcode =>
      cases operandsEq : decodeOperands code position opcode with
      | error error => simp [opcodeEq, operandsEq, bind, Except.bind] at decoded
      | ok found =>
          simp only [opcodeEq, operandsEq, bind, Except.bind] at decoded
          split at decoded
          · cases decoded
          · cases decoded
            omega

theorem bind_eq_ok {ε α β : Type} {first : Except ε α} {next : α → Except ε β} {value : β} :
    (first >>= next) = .ok value ↔ ∃ middle, first = .ok middle ∧ next middle = .ok value := by
  cases first <;> simp [bind, Except.bind]

theorem decodeWidened_position (decoded : decodeWidened code position = .ok instruction) :
    instruction.position = position := by
  simp only [decodeWidened, bind_eq_ok] at decoded
  obtain ⟨_, _, _, _, chosen⟩ := decoded
  split at chosen
  · cases chosen
    rfl
  · split at chosen
    · cases chosen
      rfl
    · cases chosen

theorem decodeTableSwitch_position (decoded : decodeTableSwitch code position opcode = .ok instruction) :
    instruction.position = position := by
  simp only [decodeTableSwitch, bind_eq_ok] at decoded
  obtain ⟨_, _, _, _, _, _, chosen⟩ := decoded
  split at chosen
  · cases chosen
  · simp only [bind_eq_ok] at chosen
    obtain ⟨_, _, _, _, ⟨⟩⟩ := chosen
    rfl

theorem decodeLookupSwitch_position (decoded : decodeLookupSwitch code position opcode = .ok instruction) :
    instruction.position = position := by
  simp only [decodeLookupSwitch, bind_eq_ok] at decoded
  obtain ⟨_, _, _, _, chosen⟩ := decoded
  split at chosen
  · cases chosen
  · simp only [bind_eq_ok] at chosen
    obtain ⟨_, _, _, _, ⟨⟩⟩ := chosen
    rfl

theorem decodeAt_position (decoded : decodeAt code position = .ok instruction) :
    instruction.position = position := by
  simp only [decodeAt, bind_eq_ok] at decoded
  obtain ⟨opcode, _, found, operands, checked⟩ := decoded
  split at checked
  · cases checked
  cases checked
  unfold decodeOperands at operands
  split at operands
  case h_7 => exact decodeWidened_position operands
  case h_8 => exact decodeTableSwitch_position operands
  case h_9 => exact decodeLookupSwitch_position operands
  case h_1 => cases operands; rfl
  case h_10 => cases operands
  case h_5 | h_6 =>
      simp only [bind_eq_ok] at operands
      obtain ⟨_, _, _, _, ⟨⟩⟩ := operands
      rfl
  all_goals
    simp only [bind_eq_ok] at operands
    obtain ⟨_, _, ⟨⟩⟩ := operands
    rfl

theorem Decodes.position_bounds (decodes : Decodes code start instructions stop) :
    ∀ instruction ∈ instructions, start ≤ instruction.position ∧ instruction.position < stop := by
  induction instructions generalizing start with
  | nil => simp
  | cons first rest ih =>
      have here := decodeAt_position decodes.1
      have later := decodes.2.length_le
      have more : start < start + first.length := by
        simp only [Instruction.length]
        omega
      rintro instruction member
      rcases List.mem_cons.mp member with rfl | isLater
      · omega
      · have bounds := ih decodes.2 instruction isLater
        omega

theorem Decodes.positions_nodup (decodes : Decodes code start instructions stop) :
    (instructions.map Instruction.position).Nodup := by
  induction instructions generalizing start with
  | nil => exact List.nodup_nil
  | cons first rest ih =>
      have here := decodeAt_position decodes.1
      refine List.nodup_cons.mpr ⟨fun repeated => ?_, ih decodes.2⟩
      obtain ⟨other, isOther, same⟩ := List.mem_map.mp repeated
      have bounds := decodes.2.position_bounds other isOther
      simp only [Instruction.length] at bounds
      omega

theorem Decodes.unique {stop' : Nat} {instructions' : List Instruction}
    (decodes : Decodes code start instructions stop) (decodes' : Decodes code start instructions' stop')
    (length : instructions.length = instructions'.length) :
    instructions = instructions' ∧ stop = stop' := by
  induction instructions generalizing start instructions' with
  | nil =>
      cases List.length_eq_zero_iff.mp length.symm
      exact ⟨rfl, decodes.symm.trans decodes'⟩
  | cons first rest ih =>
      cases instructions' with
      | nil => cases length
      | cons first' rest' =>
          cases decodes.1.symm.trans decodes'.1
          obtain ⟨rfl, rfl⟩ := ih decodes.2 decodes'.2 (Nat.succ.inj length)
          exact ⟨rfl, rfl⟩

theorem Decodes.starts (decodes : Decodes code start instructions stop) :
    (∃ instruction ∈ instructions, instruction.position = start) ∨ start = stop := by
  cases instructions with
  | nil => exact .inr decodes
  | cons first rest => exact .inl ⟨first, List.mem_cons_self .., decodeAt_position decodes.1⟩

theorem Decodes.decodeFrom (decodes : Decodes code start instructions stop) (done : List Instruction) :
    decodeFrom code start done = decodeFrom code stop (instructions.reverse ++ done) := by
  induction instructions generalizing start done with
  | nil =>
      cases decodes
      rfl
  | cons instruction rest ih =>
      have bound := decodeAt_bound decodes.1
      rw [Instruction.decodeFrom, if_pos (by simp only [length] at bound; omega), decodes.1]
      simp only
      rw [ih decodes.2]
      simp

theorem Decodes.decode (decodes : Decodes code 0 instructions code.size) :
    decode code = .ok instructions := by
  rw [Instruction.decode, decodes.decodeFrom, Instruction.decodeFrom, if_neg (by omega)]
  simp

theorem decodeAt_eq {operands : List UInt8} (holds : Holds code position (opcode :: operands))
    (decoded : decodeOperands code position opcode = .ok instruction)
    (tail : instruction.tail = operands.length) : decodeAt code position = .ok instruction := by
  have bound := holds.bound (by simp)
  simp only [List.length_cons] at bound
  simp only [decodeAt, byteAt_eq holds.1, decoded, bind, Except.bind, length, tail]
  rw [if_neg (by omega)]
  rfl

theorem decodeAt_plain {operands : List UInt8} (shape : opcode.shape = .plain operands.length)
    (holds : Holds code position (opcode :: operands)) :
    decodeAt code position = .ok { position, opcode, tail := operands.length } :=
  decodeAt_eq holds (by simp only [decodeOperands, shape]; rfl) rfl

theorem decodeAt_poolByte {index : UInt8} (shape : opcode.shape = .poolByte)
    (holds : Holds code position [opcode, index]) :
    decodeAt code position =
      .ok { position, opcode, tail := 1, poolIndex := some index.toUInt16 } := by
  refine decodeAt_eq holds ?_ rfl
  simp only [decodeOperands, shape, byteAt_eq holds.2.1]
  rfl

theorem decodeAt_poolWord {index : UInt16} (more : List UInt8)
    (shape : opcode.shape = .poolWord more.length)
    (holds : Holds code position (opcode :: encode16 index ++ more)) :
    decodeAt code position =
      .ok { position, opcode, tail := 2 + more.length, poolIndex := some index } := by
  refine decodeAt_eq holds ?_ (by simp [encode16]; omega)
  have word := word16At_eq ((holds_append _ _ _ _).mp holds.2).1
  simp only [decodeOperands, shape, word]
  rfl

theorem decodeAt_slotByte {slot : UInt8} (more : List UInt8) (shape : opcode.shape = .slotByte more.length)
    (holds : Holds code position (opcode :: slot :: more)) :
    decodeAt code position =
      .ok { position, opcode, tail := 1 + more.length, slot := some slot.toUInt16 } := by
  refine decodeAt_eq holds ?_ (by simp; omega)
  simp only [decodeOperands, shape, byteAt_eq holds.2.1]
  rfl

theorem decodeAt_branch {target : Nat} (shape : opcode.shape = .branch)
    (lower : -32768 ≤ (target : Int) - position) (upper : (target : Int) - position ≤ 32767)
    (holds : Holds code position (opcode :: encode16 (Int16.ofInt ((target : Int) - position)).toUInt16)) :
    decodeAt code position = .ok { position, opcode, tail := 2, targets := [target] } := by
  refine decodeAt_eq holds ?_ rfl
  simp only [decodeOperands, shape, int16At_eq holds.2 lower upper, branchTarget_eq, bind,
    Except.bind]
  rfl

theorem decodeAt_widened {slot : UInt16} (accesses : opcode.accessesSlot = true)
    (holds : Holds code position (Opcode.wide :: opcode :: encode16 slot)) :
    decodeAt code position = .ok { position, opcode, tail := 3, slot := some slot } := by
  have notIncrement : opcode ≠ Opcode.iinc := by
    rintro rfl
    simp [Opcode.accessesSlot, Opcode.iinc] at accesses
  refine decodeAt_eq holds ?_ rfl
  have wideShape : Opcode.wide.shape = .widened := by decide
  simp only [decodeOperands, wideShape, decodeWidened, byteAt_eq holds.2.1, word16At_eq holds.2.2,
    bind, Except.bind, notIncrement, if_false, accesses, if_true]
  rfl

theorem decodeAt_widenedIncrement {slot amount : UInt16}
    (holds : Holds code position (Opcode.wide :: Opcode.iinc :: encode16 slot ++ encode16 amount)) :
    decodeAt code position =
      .ok { position, opcode := Opcode.iinc, tail := 5, slot := some slot } := by
  refine decodeAt_eq holds ?_ rfl
  have wideShape : Opcode.wide.shape = .widened := by decide
  have word := word16At_eq ((holds_append _ _ _ _).mp holds.2.2).1
  simp only [decodeOperands, wideShape, decodeWidened, byteAt_eq holds.2.1, word, bind,
    Except.bind, if_true]
  rfl

def switchBytes (position : Nat) (default : Nat) (low high : Int32) (targets : List Nat) :
    List UInt8 :=
  List.replicate (switchPadding position) 0 ++
    (encode32 (distance position default).toUInt32 ++
      (encode32 low.toUInt32 ++ (encode32 high.toUInt32 ++
        targets.flatMap fun target => encode32 (distance position target).toUInt32)))

theorem switchBytes_length (position default : Nat) (low high : Int32) (targets : List Nat) :
    (switchBytes position default low high targets).length =
      switchPadding position + 12 + 4 * targets.length := by
  have fields : (targets.flatMap fun target =>
      encode32 (distance position target).toUInt32).length = 4 * targets.length := by
    induction targets with
    | nil => rfl
    | cons target rest ih =>
        simp only [List.flatMap_cons, List.length_append, ih, List.length_cons]
        simp only [encode32, List.length_cons, List.length_nil]
        omega
  simp only [switchBytes, List.length_append, List.length_replicate, fields]
  simp only [encode32, List.length_cons, List.length_nil]
  omega

theorem decodeAt_tableSwitch {default : Nat} {low high : Int32} {targets : List Nat}
    (positionBound : position ≤ 65535) (defaultBound : default ≤ 65535)
    (targetBound : ∀ target ∈ targets, target ≤ 65535) (some : targets ≠ [])
    (keys : high.toInt = low.toInt + targets.length - 1)
    (holds : Holds code position (Opcode.tableswitch :: switchBytes position default low high targets)) :
    decodeAt code position =
      .ok { position, opcode := Opcode.tableswitch,
            tail := switchPadding position + 12 + 4 * targets.length,
            targets := targets ++ [default] } := by
  refine decodeAt_eq holds ?_ (switchBytes_length _ _ _ _ _).symm
  have fields := holds.2
  simp only [switchBytes, holds_append, List.length_replicate] at fields
  obtain ⟨_, defaultField, lowField, highField, targetFields⟩ := fields
  have length32 (value : UInt32) : (encode32 value).length = 4 := rfl
  simp only [length32] at lowField highField targetFields
  have defaultRead := int32At_eq defaultField
  have lowRead := int32At_eq lowField
  have highRead := int32At_eq highField
  rw [distance_toInt positionBound defaultBound] at defaultRead
  have positive : 0 < targets.length := List.length_pos_iff.mpr some
  have count : (high.toInt - low.toInt + 1).toNat = targets.length := by omega
  have targetsRead := switchTargets_eq [] positionBound targetBound targetFields
  have tableShape : Opcode.tableswitch.shape = .tableSwitch := by decide
  have ordered : ¬ high.toInt < low.toInt := by omega
  simp only [decodeOperands, tableShape, decodeTableSwitch, defaultRead, lowRead, highRead, bind,
    Except.bind, ordered, if_false, count, targetsRead, branchTarget_eq]
  rfl

end BasicCompiler.Instruction
