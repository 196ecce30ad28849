import BasicCompiler.Proofs.Bytecode.Decode

/-!
Decoding of code that is not known to be well formed. What is decoded at a position depends on the
bytes of that instruction alone, so the instructions divide the code, and the part before any of them
decodes to those that stand there. Where decoding fails, the error says what is wrong with the code.
-/

namespace BasicCompiler.Instruction

variable {instructions : List Instruction} {opcode : Opcode}

variable {α β : Type} {code other : Array UInt8} {position start stop : Nat} {instruction : Instruction}

def Agree (code other : Array UInt8) (start stop : Nat) : Prop :=
  ∀ place, start ≤ place → place < stop → other[place]? = code[place]?

namespace Agree

variable {place : Nat}

theorem mono (agree : Agree code other start stop) {start' stop' : Nat} (lower : start ≤ start')
    (upper : stop' ≤ stop) : Agree code other start' stop' :=
  fun place above below => agree place (Nat.le_trans lower above) (Nat.lt_of_lt_of_le below upper)

theorem byteAt (agree : Agree code other start stop) (lower : start ≤ place) (upper : place < stop) :
    byteAt other place = byteAt code place := by
  simp only [Instruction.byteAt, agree place lower upper]

theorem word16At (agree : Agree code other start stop) (lower : start ≤ place) (upper : place + 2 ≤ stop) :
    word16At other place = word16At code place := by
  simp only [Instruction.word16At]
  rw [agree.byteAt lower (by omega), agree.byteAt (by omega) (by omega)]

theorem int16At (agree : Agree code other start stop) (lower : start ≤ place) (upper : place + 2 ≤ stop) :
    int16At other place = int16At code place := by
  simp only [Instruction.int16At]
  rw [agree.word16At lower upper]

theorem int32At (agree : Agree code other start stop) (lower : start ≤ place) (upper : place + 4 ≤ stop) :
    int32At other place = int32At code place := by
  simp only [Instruction.int32At]
  rw [agree.byteAt lower (by omega), agree.byteAt (by omega) (by omega),
    agree.byteAt (by omega) (by omega), agree.byteAt (by omega) (by omega)]

theorem switchTargets (agree : Agree code other start stop) {stride count field : Nat} (done : List Nat)
    (lower : start ≤ field) (upper : ∀ index < count, field + stride * index + 4 ≤ stop) :
    switchTargets other position stride count field done =
      switchTargets code position stride count field done := by
  induction count generalizing field done with
  | zero => rfl
  | succ count ih =>
      have first := upper 0 (by omega)
      rw [Nat.mul_zero, Nat.add_zero] at first
      have laterUpper : ∀ index < count, field + stride + stride * index + 4 ≤ stop := by
        intro index below
        have next := upper (index + 1) (by omega)
        rw [Nat.mul_add] at next
        omega
      have later (target : Nat) := ih (target :: done) (Nat.le_add_right_of_le lower) laterUpper
      simp only [Instruction.switchTargets, agree.int32At lower first, later]

end Agree

theorem byteAt_eq_ok {place : Nat} {byte : UInt8} :
    byteAt code place = .ok byte ↔ code[place]? = some byte := by
  unfold byteAt
  split <;> simp_all

theorem decodeWidened_agree (decoded : decodeWidened code position = .ok instruction)
    (agree : Agree code other position (position + instruction.length)) :
    decodeWidened other position = .ok instruction := by
  simp only [decodeWidened, bind_eq_ok] at decoded ⊢
  obtain ⟨opcode, isOpcode, slot, isSlot, chosen⟩ := decoded
  have long : 4 ≤ instruction.length := by
    split at chosen
    · cases chosen
      exact Nat.le_add_left 4 2
    · split at chosen <;> cases chosen
      exact Nat.le_refl 4
  refine ⟨opcode, ?_, slot, ?_, chosen⟩
  · rw [agree.byteAt (by omega) (by omega), isOpcode]
  · rw [agree.word16At (by omega) (by omega), isSlot]

theorem decodeTableSwitch_agree (decoded : decodeTableSwitch code position opcode = .ok instruction)
    (agree : Agree code other position (position + instruction.length)) :
    decodeTableSwitch other position opcode = .ok instruction := by
  simp only [decodeTableSwitch, bind_eq_ok] at decoded ⊢
  obtain ⟨default, isDefault, low, isLow, high, isHigh, chosen⟩ := decoded
  split at chosen
  · cases chosen
  rename_i ordered
  simp only [bind_eq_ok] at chosen
  obtain ⟨targets, areTargets, last, isLast, ⟨⟩⟩ := chosen
  simp only [length] at agree
  refine ⟨default, ?_, low, ?_, high, ?_, ?_⟩
  · rw [agree.int32At (by omega) (by omega), isDefault]
  · rw [agree.int32At (by omega) (by omega), isLow]
  · rw [agree.int32At (by omega) (by omega), isHigh]
  · rw [if_neg ordered]
    simp only [bind_eq_ok]
    refine ⟨targets, ?_, last, isLast, rfl⟩
    rw [agree.switchTargets [] (by omega) fun index below => by omega, areTargets]

theorem decodeLookupSwitch_agree (decoded : decodeLookupSwitch code position opcode = .ok instruction)
    (agree : Agree code other position (position + instruction.length)) :
    decodeLookupSwitch other position opcode = .ok instruction := by
  simp only [decodeLookupSwitch, bind_eq_ok] at decoded ⊢
  obtain ⟨default, isDefault, pairs, arePairs, chosen⟩ := decoded
  split at chosen
  · cases chosen
  rename_i counted
  simp only [bind_eq_ok] at chosen
  obtain ⟨targets, areTargets, last, isLast, ⟨⟩⟩ := chosen
  simp only [length] at agree
  refine ⟨default, ?_, pairs, ?_, ?_⟩
  · rw [agree.int32At (by omega) (by omega), isDefault]
  · rw [agree.int32At (by omega) (by omega), arePairs]
  · rw [if_neg counted]
    simp only [bind_eq_ok]
    refine ⟨targets, ?_, last, isLast, rfl⟩
    rw [agree.switchTargets [] (by omega) fun index below => by omega, areTargets]

theorem decodeOperands_agree (decoded : decodeOperands code position opcode = .ok instruction)
    (agree : Agree code other position (position + instruction.length)) :
    decodeOperands other position opcode = .ok instruction := by
  unfold decodeOperands at decoded ⊢
  split at decoded
  · exact decoded
  · obtain ⟨index, isIndex, ⟨⟩⟩ := bind_eq_ok.mp decoded
    exact bind_eq_ok.mpr ⟨index, by rw [agree.byteAt (by omega) (by simp only [length]; omega), isIndex], rfl⟩
  · obtain ⟨index, isIndex, ⟨⟩⟩ := bind_eq_ok.mp decoded
    exact bind_eq_ok.mpr ⟨index, by rw [agree.word16At (by omega) (by simp only [length]; omega), isIndex], rfl⟩
  · obtain ⟨slot, isSlot, ⟨⟩⟩ := bind_eq_ok.mp decoded
    exact bind_eq_ok.mpr ⟨slot, by rw [agree.byteAt (by omega) (by simp only [length]; omega), isSlot], rfl⟩
  · obtain ⟨offset, isOffset, rest⟩ := bind_eq_ok.mp decoded
    obtain ⟨target, isTarget, ⟨⟩⟩ := bind_eq_ok.mp rest
    exact bind_eq_ok.mpr ⟨offset, by rw [agree.int16At (by omega) (by simp only [length]; omega), isOffset],
      bind_eq_ok.mpr ⟨target, isTarget, rfl⟩⟩
  · obtain ⟨offset, isOffset, rest⟩ := bind_eq_ok.mp decoded
    obtain ⟨target, isTarget, ⟨⟩⟩ := bind_eq_ok.mp rest
    exact bind_eq_ok.mpr ⟨offset, by rw [agree.int32At (by omega) (by simp only [length]; omega), isOffset],
      bind_eq_ok.mpr ⟨target, isTarget, rfl⟩⟩
  · exact decodeWidened_agree decoded agree
  · exact decodeTableSwitch_agree decoded agree
  · exact decodeLookupSwitch_agree decoded agree
  · cases decoded

theorem decodeAt_agree (decoded : decodeAt code position = .ok instruction)
    (agree : Agree code other position (position + instruction.length)) :
    decodeAt other position = .ok instruction := by
  have bound := decodeAt_bound decoded
  simp only [decodeAt, bind_eq_ok] at decoded ⊢
  obtain ⟨opcode, isOpcode, found, operands, checked⟩ := decoded
  split at checked
  · cases checked
  cases checked
  simp only [length] at agree bound
  refine ⟨opcode, ?_, instruction, decodeOperands_agree operands agree, ?_⟩
  · rw [agree.byteAt (Nat.le_refl _) (by omega), isOpcode]
  -- The last byte of the instruction is there, so it does not reach past the end of the other code.
  · have last : position + instruction.tail < code.size := by omega
    have same := agree (position + instruction.tail) (by omega) (by omega)
    rw [Array.getElem?_eq_getElem last, Array.getElem?_eq_some_iff] at same
    obtain ⟨inside, _⟩ := same
    rw [if_neg (by simp only [length]; omega)]
    rfl

theorem Decodes.agree (decodes : Decodes code start instructions stop) (agree : Agree code other start stop) :
    Decodes other start instructions stop := by
  induction instructions generalizing start with
  | nil => exact decodes
  | cons first rest ih =>
      have later := decodes.2.length_le
      refine ⟨decodeAt_agree decodes.1 (agree.mono (Nat.le_refl _) (by omega)), ih decodes.2 ?_⟩
      exact agree.mono (Nat.le_add_right _ _) (Nat.le_refl _)

theorem Decodes.decode_take (decodes : Decodes code 0 instructions stop) (inside : stop ≤ code.size) :
    Instruction.decode (code.take stop) = .ok instructions := by
  have size : (code.take stop).size = stop := by
    rw [Array.take_eq_extract, Array.size_extract_of_le inside, Nat.sub_zero]
  have agree : Agree code (code.take stop) 0 stop := by
    intro place _ below
    rw [Array.take_eq_extract, Array.getElem?_extract, if_pos (by omega), Nat.zero_add]
  refine Decodes.decode ?_
  rw [size]
  exact decodes.agree agree

/-- A boundary between instructions divides them. -/
theorem Decodes.split (decodes : Decodes code start instructions stop) {boundary : Nat}
    (isBoundary : boundary ∈ instructions.map Instruction.position ∨ boundary = stop) :
    ∃ before after, instructions = before ++ after ∧ Decodes code start before boundary ∧
      Decodes code boundary after stop := by
  induction instructions generalizing start with
  | nil =>
      rcases isBoundary with ⟨⟨⟩⟩ | rfl
      exact ⟨[], [], rfl, decodes, rfl⟩
  | cons first rest ih =>
      have here := decodeAt_position decodes.1
      by_cases isStart : boundary = start
      · subst isStart
        exact ⟨[], first :: rest, rfl, rfl, decodes⟩
      have later : boundary ∈ rest.map Instruction.position ∨ boundary = stop := by
        refine isBoundary.imp_left fun member => ?_
        rw [List.map_cons, List.mem_cons, here] at member
        exact member.resolve_left isStart
      obtain ⟨before, after, rfl, decodesBefore, decodesAfter⟩ := ih decodes.2 later
      exact ⟨first :: before, after, rfl, ⟨decodes.1, decodesBefore⟩, decodesAfter⟩

theorem Decodes.filter_before {before after : List Instruction} {boundary : Nat}
    (decodesBefore : Decodes code start before boundary) (decodesAfter : Decodes code boundary after stop) :
    (before ++ after).filter (·.position < boundary) = before := by
  have all : before.filter (·.position < boundary) = before := by
    refine List.filter_eq_self.mpr fun instruction member => ?_
    exact decide_eq_true (decodesBefore.position_bounds instruction member).2
  have none : after.filter (·.position < boundary) = [] := by
    refine List.filter_eq_nil_iff.mpr fun instruction member => ?_
    have bound := (decodesAfter.position_bounds instruction member).1
    simpa using bound
  rw [List.filter_append, all, none, List.append_nil]

/-- Decoding goes on from instruction to instruction, up to the end of the code or to a position where
nothing can be decoded. -/
theorem decodeFrom_cases (inside : start ≤ code.size) (done : List Instruction) :
    ∃ instructions stop, Decodes code start instructions stop ∧
      (stop = code.size ∧ decodeFrom code start done = .ok (done.reverse ++ instructions) ∨
        stop < code.size ∧ ∃ error, decodeAt code stop = .error error ∧
          decodeFrom code start done = .error error) := by
  fun_induction decodeFrom code start done with
  | case1 position done more instruction decoded ih =>
      obtain ⟨instructions, stop, decodes, outcome⟩ := ih (decodeAt_bound decoded)
      refine ⟨instruction :: instructions, stop, ⟨decoded, decodes⟩, ?_⟩
      simpa using outcome
  | case2 position done more error failed =>
      exact ⟨[], position, rfl, .inr ⟨more, error, failed, rfl⟩⟩
  | case3 position done notMore =>
      exact ⟨[], position, rfl, .inl ⟨by omega, by simp⟩⟩

/-- What an error says of code in which the instruction at a position cannot be decoded: that a byte of
the code is no opcode, that a byte is needed behind the end, or that the instruction has no such length or
target. -/
def Reports (code : Array UInt8) (position : Nat) : ClassFileError → Prop
  | .invalidOpcode place opcode => code[place]? = some opcode
  | .truncatedInstruction place => code.size ≤ place ∨ place = position
  | _ => False

def FailsBy (code : Array UInt8) (position : Nat) (outcome : Except ClassFileError α) : Prop :=
  ∀ error, outcome = .error error → Reports code position error

namespace FailsBy

theorem ok (value : α) : FailsBy code position (Except.ok value) := by
  intro error failed
  cases failed

theorem bind {first : Except ClassFileError α} {next : α → Except ClassFileError β}
    (fails : FailsBy code position first)
    (failsNext : ∀ value, first = .ok value → FailsBy code position (next value)) :
    FailsBy code position (first >>= next) := by
  cases first with
  | error error =>
      rintro _ ⟨⟩
      exact fails error rfl
  | ok value => exact failsNext value rfl

theorem refused {next : α → Except ClassFileError β} :
    FailsBy code position (throw (.truncatedInstruction position) >>= next) := by
  rintro _ ⟨⟩
  exact .inr rfl

theorem byteAt (place : Nat) : FailsBy code position (byteAt code place) := by
  unfold Instruction.byteAt
  split
  · exact ok _
  · rename_i missing
    rintro _ ⟨⟩
    exact .inl (Array.getElem?_eq_none_iff.mp missing)

theorem word16At (place : Nat) : FailsBy code position (word16At code place) :=
  (byteAt _).bind fun _ _ => (byteAt _).bind fun _ _ => ok _

theorem int16At (place : Nat) : FailsBy code position (int16At code place) :=
  (word16At _).bind fun _ _ => ok _

theorem int32At (place : Nat) : FailsBy code position (int32At code place) :=
  (byteAt _).bind fun _ _ => (byteAt _).bind fun _ _ => (byteAt _).bind fun _ _ =>
    (byteAt _).bind fun _ _ => ok _

theorem branchTarget (offset : Int) : FailsBy code position (branchTarget position offset) := by
  unfold Instruction.branchTarget
  split
  · rintro _ ⟨⟩
    exact .inr rfl
  · exact ok _

theorem switchTargets (stride count field : Nat) (done : List Nat) :
    FailsBy code position (switchTargets code position stride count field done) := by
  induction count generalizing field done with
  | zero => exact ok _
  | succ count ih => exact (int32At _).bind fun _ _ => (branchTarget _).bind fun _ _ => ih _ _

theorem decodeWidened : FailsBy code position (decodeWidened code position) := by
  refine (byteAt _).bind fun widened isWidened => (word16At _).bind fun slot _ => ?_
  split
  · exact ok _
  split
  · exact ok _
  · rintro _ ⟨⟩
    exact byteAt_eq_ok.mp isWidened

theorem decodeTableSwitch (opcode : Opcode) : FailsBy code position (decodeTableSwitch code position opcode) := by
  refine (int32At _).bind fun default _ => (int32At _).bind fun low _ => (int32At _).bind fun high _ => ?_
  dsimp only
  split
  · exact refused
  · exact (switchTargets _ _ _ _).bind fun _ _ => (branchTarget _).bind fun _ _ => ok _

theorem decodeLookupSwitch (opcode : Opcode) :
    FailsBy code position (decodeLookupSwitch code position opcode) := by
  refine (int32At _).bind fun default _ => (int32At _).bind fun pairs _ => ?_
  dsimp only
  split
  · exact refused
  · exact (switchTargets _ _ _ _).bind fun _ _ => (branchTarget _).bind fun _ _ => ok _

theorem decodeOperands (isOpcode : code[position]? = some opcode) :
    FailsBy code position (decodeOperands code position opcode) := by
  unfold Instruction.decodeOperands
  split
  · exact ok _
  · exact (byteAt _).bind fun _ _ => ok _
  · exact (word16At _).bind fun _ _ => ok _
  · exact (byteAt _).bind fun _ _ => ok _
  · exact (int16At _).bind fun _ _ => (branchTarget _).bind fun _ _ => ok _
  · exact (int32At _).bind fun _ _ => (branchTarget _).bind fun _ _ => ok _
  · exact decodeWidened
  · exact decodeTableSwitch opcode
  · exact decodeLookupSwitch opcode
  · rintro _ ⟨⟩
    exact isOpcode

theorem decodeAt (position : Nat) : FailsBy code position (decodeAt code position) := by
  refine (byteAt _).bind fun opcode isOpcode => ?_
  refine (decodeOperands (byteAt_eq_ok.mp isOpcode)).bind fun instruction _ => ?_
  dsimp only
  split
  · exact refused
  · exact ok _

end FailsBy

/-- Instructions that follow each other from one position to another without a gap. -/
def Contiguous : Nat → List Instruction → Nat → Prop
  | start, [], stop => start = stop
  | start, first :: rest, stop =>
    first.position = start ∧ 1 ≤ first.length ∧ Contiguous (start + first.length) rest stop

theorem Decodes.contiguous (decodes : Decodes code start instructions stop) :
    Contiguous start instructions stop := by
  induction instructions generalizing start with
  | nil => exact decodes
  | cons first rest ih => exact ⟨decodeAt_position decodes.1, Nat.le_add_left _ _, ih decodes.2⟩

theorem Decodes.decodeAt_of_mem (decodes : Decodes code start instructions stop)
    (member : instruction ∈ instructions) :
    decodeAt code instruction.position = .ok instruction := by
  induction instructions generalizing start with
  | nil => cases member
  | cons first rest ih =>
      rcases List.mem_cons.mp member with rfl | later
      · rw [decodeAt_position decodes.1]
        exact decodes.1
      · exact ih decodes.2 later

/-- Code decodes to instructions that divide it. Each of them depends on its own bytes alone, and the
code before a boundary decodes to the instructions that stand there. Otherwise the code decodes up to an
instruction inside of it, and the error reports what is wrong there. -/
theorem decode_partitions (code : Array UInt8) :
    (∃ instructions, decode code = .ok instructions ∧ Contiguous 0 instructions code.size ∧
      (∀ instruction ∈ instructions, ∀ other,
        Agree code other instruction.position (instruction.position + instruction.length) →
          decodeAt other instruction.position = .ok instruction) ∧
      ∀ boundary, boundary ∈ instructions.map Instruction.position ∨ boundary = code.size →
        decode (code.take boundary) = .ok (instructions.filter (·.position < boundary))) ∨
    ∃ error instructions position, decode code = .error error ∧ position < code.size ∧
      decode (code.take position) = .ok instructions ∧ decodeAt code position = .error error ∧
      Reports code position error := by
  obtain ⟨instructions, stop, decodes, ⟨rfl, decoded⟩ | ⟨inside, error, failed, decoded⟩⟩ :=
    decodeFrom_cases (Nat.zero_le code.size) []
  · refine .inl ⟨instructions, decoded, decodes.contiguous, ?_, ?_⟩
    · intro instruction member other agree
      exact decodeAt_agree (decodes.decodeAt_of_mem member) agree
    · intro boundary isBoundary
      obtain ⟨before, after, rfl, decodesBefore, decodesAfter⟩ := decodes.split isBoundary
      have bound := decodesAfter.length_le
      rw [decodesBefore.filter_before decodesAfter]
      exact decodesBefore.decode_take (by omega)
  · exact .inr ⟨error, instructions, stop, decoded, inside, decodes.decode_take (Nat.le_of_lt inside), failed,
      FailsBy.decodeAt stop error failed⟩

end BasicCompiler.Instruction
