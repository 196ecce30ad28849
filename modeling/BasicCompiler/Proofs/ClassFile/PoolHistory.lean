import BasicCompiler.Proofs.ClassFile.RoundTrip

/-!
What holds of a constant pool after any operations on it. All of them come down to adding entries that
the pool does not have yet, so an invariant is shown for one such addition and carried along the
history. The last part compares a pool with the one that is read from its written form.
-/

namespace BasicCompiler

variable {pool : ConstantPool} {entry : Constant}

inductive Constant.Wide : Constant → Prop
  | long (value : Int64) : Wide (.long value)
  | double (bits : UInt64) : Wide (.double bits)

theorem Constant.wide_iff (entry : Constant) : entry.Wide ↔ entry.width = 2 := by
  constructor
  · intro wide
    cases wide <;> rfl
  · intro width
    cases entry with
    | long value => exact .long value
    | double bits => exact .double bits
    | _ => simp [Constant.width] at width

namespace ConstantPool

def Lacks (pool : ConstantPool) (entry : Constant) : Prop :=
  ∀ index, pool.lookup index ≠ .ok entry

/-- The slots can be counted, each wide entry and nothing else is followed by an empty slot, and the
index knows every entry at the one place where it stands. -/
structure Regular (pool : ConstantPool) : Prop where
  size : pool.size ≤ 65534
  counted : pool.count.toNat = pool.size + 1
  gaps : ∀ position, pool.slots[position]? = some none ↔
    ∃ before entry, position = before + 1 ∧ pool.slots[before]? = some (some entry) ∧ entry.Wide
  indexed : ∀ entry index, pool.index[entry]? = some index ↔ pool.lookup index = .ok entry
  distinct : ∀ first second entry, pool.lookup first = .ok entry → pool.lookup second = .ok entry →
    first = second

theorem Regular.lacks_iff (regular : pool.Regular) (entry : Constant) :
    pool.Lacks entry ↔ pool.index[entry]? = none := by
  constructor
  · intro lacks
    cases known : pool.index[entry]? with
    | none => rfl
    | some index => exact absurd ((regular.indexed entry index).mp known) (lacks index)
  · intro unknown index found
    rw [(regular.indexed entry index).mpr found] at unknown
    cases unknown

theorem slotsOf_getElem? (entry : Constant) (offset : Nat) :
    (slotsOf entry)[offset]? =
      if offset = 0 then some (some entry)
      else if offset = 1 ∧ entry.width = 2 then some none else none := by
  unfold slotsOf
  by_cases wide : entry.width = 2
  · rw [if_pos wide]
    match offset with
    | 0 => rfl
    | 1 => simp [wide]
    | more + 2 => simp
  · rw [if_neg wide]
    match offset with
    | 0 => rfl
    | more + 1 => simp [wide]

theorem push_getElem? (pool : ConstantPool) (entry : Constant) (position : Nat) :
    (pool.push entry).slots[position]? =
      if position < pool.slots.size then pool.slots[position]?
      else (slotsOf entry)[position - pool.slots.size]? := by
  simp only [push, Array.getElem?_append]

theorem push_lookup_iff (room : pool.slots.size + entry.width ≤ maxIndex) (index : UInt16)
    (found : Constant) :
    (pool.push entry).lookup index = .ok found ↔
      pool.lookup index = .ok found ∨
        index = UInt16.ofNat (pool.slots.size + 1) ∧ found = entry := by
  constructor
  · intro present
    obtain ⟨position, indexEq, slot⟩ := (lookup_eq_ok_iff _ _ _).mp present
    rw [push_getElem?] at slot
    by_cases old : position < pool.slots.size
    · rw [if_pos old] at slot
      exact .inl ((lookup_eq_ok_iff _ _ _).mpr ⟨position, indexEq, slot⟩)
    · rw [if_neg old, slotsOf_getElem?] at slot
      by_cases first : position - pool.slots.size = 0
      · rw [if_pos first] at slot
        have last : position = pool.slots.size := by omega
        refine .inr ⟨?_, (Option.some.inj (Option.some.inj slot)).symm⟩
        rw [← last, ← indexEq, UInt16.ofNat_toNat]
      · rw [if_neg first] at slot
        split at slot <;> cases slot
  · rintro (present | ⟨rfl, rfl⟩)
    · exact push_kept pool entry present
    · exact push_lookup pool found room

theorem Regular.push_gaps (regular : pool.Regular) (entry : Constant) (position : Nat) :
    (pool.push entry).slots[position]? = some none ↔
      ∃ before wide, position = before + 1 ∧ (pool.push entry).slots[before]? = some (some wide) ∧
        wide.Wide := by
  by_cases old : position < pool.slots.size
  · rw [push_getElem?, if_pos old, regular.gaps]
    constructor
    · rintro ⟨before, wide, rfl, slot, isWide⟩
      exact ⟨before, wide, rfl, by rw [push_getElem?, if_pos (by omega), slot], isWide⟩
    · rintro ⟨before, wide, rfl, slot, isWide⟩
      rw [push_getElem?, if_pos (by omega)] at slot
      exact ⟨before, wide, rfl, slot, isWide⟩
  · rw [push_getElem?, if_neg old, slotsOf_getElem?]
    constructor
    · intro slot
      split at slot
      · cases slot
      · split at slot
        · rename_i second
          refine ⟨pool.slots.size, entry, by omega, ?_, (Constant.wide_iff entry).mpr second.2⟩
          rw [push_getElem?, if_neg (by omega), slotsOf_getElem?, if_pos (by omega)]
        · cases slot
    · rintro ⟨before, wide, rfl, slot, isWide⟩
      rw [push_getElem?] at slot
      by_cases earlier : before < pool.slots.size
      -- A wide entry cannot be the last one of the old slots: an empty slot would follow it.
      · rw [if_pos earlier] at slot
        have gap := (regular.gaps (before + 1)).mpr ⟨before, wide, rfl, slot, isWide⟩
        obtain ⟨inside, _⟩ := Array.getElem?_eq_some_iff.mp gap
        exact absurd inside old
      · rw [if_neg earlier, slotsOf_getElem?] at slot
        split at slot
        · rename_i here
          cases slot
          rw [if_neg (by omega), if_pos ⟨by omega, (Constant.wide_iff entry).mp isWide⟩]
        · split at slot <;> cases slot

theorem Regular.push_indexed (regular : pool.Regular) (lacks : pool.Lacks entry)
    (room : pool.slots.size + entry.width ≤ maxIndex) (other : Constant) (index : UInt16) :
    (pool.push entry).index[other]? = some index ↔ (pool.push entry).lookup index = .ok other := by
  have unknown : entry ∉ pool.index := by
    rw [Std.HashMap.mem_iff_isSome_getElem?, (regular.lacks_iff entry).mp lacks]
    simp
  rw [push_lookup_iff room, ← regular.indexed]
  simp only [push, Std.HashMap.getElem?_insertIfNew, unknown, not_false_eq_true, and_true, beq_iff_eq]
  by_cases same : entry = other
  · subst same
    have absent := (regular.lacks_iff entry).mp lacks
    simp only [if_true, absent, Option.some.injEq, and_true]
    constructor
    · intro isNext
      exact .inr isNext.symm
    · rintro (impossible | isNext)
      · cases impossible
      · exact isNext.symm
  · rw [if_neg same]
    constructor
    · exact .inl
    · rintro (found | ⟨_, isEntry⟩)
      · exact found
      · exact absurd isEntry.symm same

theorem Regular.push (regular : pool.Regular) (lacks : pool.Lacks entry)
    (room : pool.slots.size + entry.width ≤ maxIndex) :
    (pool.push entry).Regular := by
  have size : (pool.push entry).size ≤ 65534 := by
    simp only [ConstantPool.size, ConstantPool.push, Array.size_append, slotsOf_size]
    exact room
  have indexed := regular.push_indexed lacks room
  refine ⟨size, ?_, regular.push_gaps entry, indexed, ?_⟩
  · rw [count, UInt16.toNat_ofNat']
    omega
  · intro first second found atFirst atSecond
    rw [← indexed] at atFirst atSecond
    exact Option.some.inj (atFirst.symm.trans atSecond)

theorem empty_regular : empty.Regular := by
  have nowhere (index : UInt16) (entry : Constant) : empty.lookup index ≠ .ok entry := by
    intro found
    obtain ⟨position, _, slot⟩ := (lookup_eq_ok_iff _ _ _).mp found
    simp [empty] at slot
  refine ⟨by decide, by decide, ?_, ?_, ?_⟩
  · intro position
    simp [empty]
  · intro entry index
    constructor
    · intro found
      simp [empty] at found
    · intro found
      exact absurd found (nowhere index entry)
  · intro first second entry found
    exact absurd found (nowhere first entry)

/-- The pools that grow out of a pool by entries that are new and that nothing keeps out. -/
inductive Grows (pool : ConstantPool) : ConstantPool → Prop
  | refl : pool.Grows pool
  | push {grown : ConstantPool} {entry : Constant} : pool.Grows grown → grown.index[entry]? = none →
      obstacle? grown.slots.size entry = none → pool.Grows (grown.push entry)

theorem Grows.trans {first second third : ConstantPool} (grows : first.Grows second)
    (more : second.Grows third) : first.Grows third := by
  induction more with
  | refl => exact grows
  | push _ unknown free ih => exact ih.push unknown free

theorem Grows.regular {grown : ConstantPool} (grows : pool.Grows grown) (regular : pool.Regular) :
    grown.Regular := by
  induction grows with
  | refl => exact regular
  | push _ unknown free ih => exact ih.push ((ih.lacks_iff _).mpr unknown) (obstacle?_eq_none free)

def Growing {α : Type} (action : PoolM α) : Prop :=
  ∀ pool, Ends action pool (fun _ final => pool.Grows final) (fun _ final => pool.Grows final)

theorem Growing.bind {α β : Type} {first : PoolM α} {next : α → PoolM β} (grows : Growing first)
    (growsNext : ∀ value, Growing (next value)) : Growing (first >>= next) := by
  intro pool
  refine (grows pool).bind ?_
  intro value middle reached
  exact (growsNext value middle).mono (fun _ _ more => reached.trans more)
    (fun _ _ more => reached.trans more)

theorem intern_growing (entry : Constant) : Growing (intern entry) := by
  intro pool
  unfold Ends
  rw [intern_run]
  cases unknown : pool.index[entry]? with
  | some index => exact .refl
  | none =>
      cases free : obstacle? pool.slots.size entry with
      | some error => exact .refl
      | none => exact .push .refl unknown free

/-- A property that interning has, and that a sequence of computations takes from its parts, is one of
every operation. -/
theorem Operation.rule {holds : PoolM UInt16 → Prop} (interns : ∀ entry, holds (intern entry))
    (binds : ∀ {first : PoolM UInt16} {next : UInt16 → PoolM UInt16}, holds first →
      (∀ index, holds (next index)) → holds (first >>= next)) (operation : Operation) :
    holds operation.action := by
  have named (name : String) : holds (ConstantPool.classRef name) :=
    binds (interns _) fun _ => interns _
  have both (name descriptor : String) : holds (ConstantPool.nameAndType name descriptor) :=
    binds (interns _) fun _ => binds (interns _) fun _ => interns _
  cases operation with
  | single entry => exact interns entry
  | classRef name => exact named name
  | string text => exact binds (interns _) fun _ => interns _
  | nameAndType name descriptor => exact both name descriptor
  | fieldRef owner name descriptor | methodRef owner name descriptor =>
      exact binds (named owner) fun _ => binds (both name descriptor) fun _ => interns _

theorem Operation.growing (operation : Operation) : Growing operation.action :=
  operation.rule intern_growing fun first next => first.bind next

theorem step_grows (pool : ConstantPool) (operation : Operation) :
    pool.Grows (pool.step operation) := (operation.growing pool).reached

theorem foldl_step_grows (operations : List Operation) (pool : ConstantPool) :
    pool.Grows (operations.foldl step pool) := by
  induction operations generalizing pool with
  | nil => exact .refl
  | cons first rest ih => exact (step_grows pool first).trans (ih _)

theorem after_regular (operations : List Operation) : (after operations).Regular :=
  (foldl_step_grows operations empty).regular empty_regular

/-- What interning an entry comes to. A pool that has the entry answers with its index, and one that
cannot take it stays as it is. -/
structure Interns (pool : ConstantPool) (entry : Constant) : Prop where
  known : ∀ index, pool.lookup index = .ok entry → (intern entry).run pool = (.ok index, pool)
  outcome : (∃ index final, (intern entry).run pool = (.ok index, final) ∧
      final.lookup index = .ok entry) ∨
    (∃ length, (intern entry).run pool = (.error (.textTooLong length), pool)) ∨
    (intern entry).run pool = (.error .poolOverflow, pool)
  tooLong : ∀ length, (intern entry).run pool = (.error (.textTooLong length), pool) ↔
    pool.Lacks entry ∧ ∃ text, entry = .utf8 text ∧ (ModifiedUtf8.encode text).length = length ∧
      65535 < length
  overflow : (intern entry).run pool = (.error .poolOverflow, pool) ↔
    pool.Lacks entry ∧ (∀ text, entry = .utf8 text → (ModifiedUtf8.encode text).length ≤ 65535) ∧
      65534 < pool.size + entry.width

theorem intern_error_iff (pool : ConstantPool) (entry : Constant) (error : ClassFileError) :
    (intern entry).run pool = (.error error, pool) ↔
      pool.index[entry]? = none ∧ obstacle? pool.slots.size entry = some error := by
  rw [intern_run]
  cases pool.index[entry]? with
  | some index =>
      constructor
      · intro ran
        cases ran
      · intro unknown
        cases unknown.1
  | none =>
      cases obstacle? pool.slots.size entry with
      | some other =>
          constructor
          · intro ran
            cases ran
            exact ⟨rfl, rfl⟩
          · rintro ⟨_, same⟩
            cases same
            rfl
      | none =>
          constructor
          · intro ran
            cases ran
          · intro blocked
            cases blocked.2

theorem Regular.interns (regular : pool.Regular) (entry : Constant) :
    pool.Interns entry := by
  have known (index : UInt16) (found : pool.lookup index = .ok entry) :
      (intern entry).run pool = (.ok index, pool) := by
    rw [intern_run, (regular.indexed entry index).mpr found]
  refine ⟨known, ?_, ?_, ?_⟩
  · cases unknown : pool.index[entry]? with
    | some index =>
        have found := (regular.indexed entry index).mp unknown
        exact .inl ⟨index, pool, known index found, found⟩
    | none =>
        cases blocked : obstacle? pool.slots.size entry with
        | some error =>
            have failed := (intern_error_iff pool entry error).mpr ⟨unknown, blocked⟩
            rcases (obstacle?_eq_some_iff _ _ _).mp blocked with ⟨_, _, _, rfl⟩ | ⟨_, _, rfl⟩
            · exact .inr (.inl ⟨_, failed⟩)
            · exact .inr (.inr failed)
        | none =>
            refine .inl ⟨UInt16.ofNat (pool.slots.size + 1), pool.push entry, ?_,
              push_lookup pool entry (obstacle?_eq_none blocked)⟩
            rw [intern_run, unknown, blocked]
  · intro length
    rw [intern_error_iff, obstacle?_eq_some_iff, regular.lacks_iff]
    refine and_congr_right fun _ => ⟨?_, ?_⟩
    · rintro (⟨text, isText, long, same⟩ | ⟨_, _, impossible⟩)
      · cases same
        exact ⟨text, isText, rfl, Nat.lt_of_not_le long⟩
      · cases impossible
    · rintro ⟨text, isText, rfl, long⟩
      exact .inl ⟨text, isText, Nat.not_le.mpr long, rfl⟩
  · rw [intern_error_iff, obstacle?_eq_some_iff, regular.lacks_iff]
    refine and_congr_right fun _ => ⟨?_, ?_⟩
    · rintro (⟨_, _, _, impossible⟩ | ⟨brief, full, _⟩)
      · cases impossible
      · exact ⟨brief, full⟩
    · rintro ⟨brief, full⟩
      exact .inr ⟨brief, full, rfl⟩

/-- Whatever operations a pool has been through, it is regular, no later operation moves what an index
names, and interning answers with the entry or leaves the pool alone. -/
theorem after_lawful (operations later : List Operation) :
    (after operations).Regular ∧
      (∀ index entry, (after operations).lookup index = .ok entry →
        (after (operations ++ later)).lookup index = .ok entry) ∧
      ∀ entry, (after operations).Interns entry := by
  have regular := after_regular operations
  refine ⟨regular, ?_, regular.interns⟩
  intro index entry found
  rw [after, List.foldl_append]
  exact (foldl_step_extends later _).kept found

/-! What a pool can be asked, and how it answers. -/

inductive Request where
  | perform (operation : Operation)
  | lookup (index : UInt16)
  | textAt (index : UInt16)
  | classNameAt (index : UInt16)
  | memberAt (index : UInt16)
  | count
  | encode

inductive Answer where
  | index (result : Except ClassFileError UInt16)
  | entry (result : Except ClassFileError Constant)
  | text (result : Except ClassFileError String)
  | member (result : Except ClassFileError (String × String × String))
  | count (slots : UInt16)
  | bytes (written : List UInt8)

def respond : Request → StateM ConstantPool Answer
  | .perform operation => do
    let result ← operation.action.run
    return .index result
  | .lookup index => return .entry ((← get).lookup index)
  | .textAt index => return .text ((← get).textAt index)
  | .classNameAt index => return .text ((← get).classNameAt index)
  | .memberAt index => return .member ((← get).memberAt index)
  | .count => return .count (← get).count
  | .encode => return .bytes (← get).encode

def answers (pool : ConstantPool) (requests : List Request) : List Answer :=
  ((requests.mapM respond).run pool).1

/-- Whatever operations a pool has been through, its written form is read without what follows it, and
no further requests tell the pool that was read from the one that was written. -/
theorem read_encode_answers (operations : List Operation) (rest : List UInt8) :
    ∃ reloaded, read.run ((after operations).encode ++ rest) = .ok (reloaded, rest) ∧
      ∀ requests, reloaded.answers requests = (after operations).answers requests := by
  have reads := read_reads (after_sound operations)
  exact ⟨after operations, reads rest, fun _ => rfl⟩

end ConstantPool

end BasicCompiler
