import BasicCompiler.ClassFile.Pool
import BasicCompiler.Proofs.Computation

/-!
Interning only adds to a constant pool: an index that has been handed out goes on naming the entry
that it was handed out for.
-/

namespace BasicCompiler.ConstantPool

variable {index : UInt16} {pool extended : ConstantPool} {α : Type}

def Brief (text : String) : Prop := (ModifiedUtf8.encode text).length ≤ maxTextLength

/-- The pool is what is left of an empty one after the entries have been added in order. -/
structure Lists (pool : ConstantPool) (entries : List Constant) : Prop where
  pushed : pool = entries.foldl push empty
  brief : ∀ {text}, .utf8 text ∈ entries → Brief text

/-- What the index knows stands where it says. -/
def Indexed (pool : ConstantPool) : Prop :=
  ∀ entry index, pool.index[entry]? = some index → pool.lookup index = .ok entry

/-- The index of a pool agrees with its slots, there is room to count them, and they are filled by
entries that can be written. -/
structure Sound (pool : ConstantPool) : Prop where
  size : pool.slots.size ≤ maxIndex
  indexed : pool.Indexed
  entered : ∃ entries, pool.Lists entries

structure Extends (pool extended : ConstantPool) : Prop where
  sound : pool.Sound → extended.Sound
  indexed : pool.Indexed → extended.Indexed
  kept : ∀ {index entry}, pool.lookup index = .ok entry → extended.lookup index = .ok entry

theorem Extends.refl (pool : ConstantPool) : pool.Extends pool := ⟨id, id, id⟩

theorem Extends.trans {first second third : ConstantPool} (before : first.Extends second)
    (after : second.Extends third) : first.Extends third :=
  ⟨after.sound ∘ before.sound, after.indexed ∘ before.indexed, fun found => after.kept (before.kept found)⟩

theorem lookup_eq_ok_iff (pool : ConstantPool) (index : UInt16) (entry : Constant) :
    pool.lookup index = .ok entry ↔
      ∃ position, index.toNat = position + 1 ∧ pool.slots[position]? = some (some entry) := by
  unfold lookup
  cases positionEq : index.toNat with
  | zero => simp
  | succ position =>
      cases slotEq : pool.slots[position]? with
      | none => simp [slotEq]
      | some slot => cases slot <;> simp [slotEq]

theorem slotsOf_head (entry : Constant) : (slotsOf entry)[0]? = some (some entry) := by
  unfold slotsOf
  split <;> rfl

theorem slotsOf_size (entry : Constant) : (slotsOf entry).size = entry.width := by
  cases entry <;> rfl

theorem push_kept (pool : ConstantPool) (entry : Constant) {found : Constant}
    (present : pool.lookup index = .ok found) : (pool.push entry).lookup index = .ok found := by
  rw [lookup_eq_ok_iff] at present ⊢
  obtain ⟨position, indexEq, slot⟩ := present
  refine ⟨position, indexEq, ?_⟩
  have bound : position < pool.slots.size := by
    rw [Array.getElem?_eq_some_iff] at slot
    exact slot.1
  simpa [push, Array.getElem?_append_left bound] using slot

theorem push_lookup_last (pool : ConstantPool) (entry : Constant) (small : pool.slots.size + 1 < 65536) :
    (pool.push entry).lookup (UInt16.ofNat (pool.slots.size + 1)) = .ok entry := by
  rw [lookup_eq_ok_iff]
  refine ⟨pool.slots.size, ?_, ?_⟩
  · rw [UInt16.toNat_ofNat']
    exact Nat.mod_eq_of_lt small
  · simp only [push]
    rw [Array.getElem?_append_right (Nat.le_refl _), Nat.sub_self]
    exact slotsOf_head entry

theorem last_lt {size : Nat} {entry : Constant} (room : size + entry.width ≤ maxIndex) :
    size + 1 < 65536 := by
  have wide := entry.width_pos
  simp only [maxIndex] at room
  omega

theorem push_lookup (pool : ConstantPool) (entry : Constant)
    (room : pool.slots.size + entry.width ≤ maxIndex) :
    (pool.push entry).lookup (UInt16.ofNat (pool.slots.size + 1)) = .ok entry :=
  push_lookup_last pool entry (last_lt room)

theorem Indexed.push (indexed : pool.Indexed) {entry : Constant} (small : pool.slots.size + 1 < 65536) :
    (pool.push entry).Indexed := by
  intro other index found
  simp only [ConstantPool.push, Std.HashMap.getElem?_insertIfNew] at found
  split at found
  · rename_i fresh
    simp only [Option.some.injEq] at found
    rw [beq_iff_eq] at fresh
    rw [← fresh.1, ← found]
    exact push_lookup_last pool entry small
  · exact push_kept pool entry (indexed other index found)

theorem Lists.push {entries : List Constant} (lists : pool.Lists entries) {entry : Constant}
    (brief : ∀ text, entry = .utf8 text → Brief text) :
    (pool.push entry).Lists (entries ++ [entry]) := by
  constructor
  · rw [List.foldl_append, ← lists.pushed]
    rfl
  · intro text member
    rcases List.mem_append.mp member with earlier | last
    · exact lists.brief earlier
    · exact brief text (List.mem_singleton.mp last).symm

theorem push_extends (pool : ConstantPool) (entry : Constant)
    (room : pool.slots.size + entry.width ≤ maxIndex)
    (brief : ∀ text, entry = .utf8 text → Brief text) : pool.Extends (pool.push entry) := by
  have small := last_lt room
  refine ⟨fun sound => ⟨?_, sound.indexed.push small, ?_⟩, fun indexed => indexed.push small,
    push_kept pool entry⟩
  · simp only [push, Array.size_append, slotsOf_size]
    exact room
  · obtain ⟨entries, lists⟩ := sound.entered
    exact ⟨entries ++ [entry], lists.push brief⟩

theorem obstacle?_eq_none {size : Nat} {entry : Constant} (free : obstacle? size entry = none) :
    size + entry.width ≤ maxIndex := by
  by_cases full : maxIndex < size + entry.width
  · cases entry with
    | utf8 text =>
        simp only [obstacle?, full, if_true] at free
        split at free <;> simp at free
    | _ => simp [obstacle?, full] at free
  · omega

theorem brief_of_obstacle? {size : Nat} {text : String} (free : obstacle? size (.utf8 text) = none) :
    Brief text := by
  simp only [obstacle?] at free
  split at free
  · cases free
  · rename_i short
    exact Nat.le_of_not_lt short

theorem obstacle?_eq_some_iff (size : Nat) (entry : Constant) (error : ClassFileError) :
    obstacle? size entry = some error ↔
      (∃ text, entry = .utf8 text ∧ ¬ Brief text ∧
        error = .textTooLong (ModifiedUtf8.encode text).length) ∨
      (∀ text, entry = .utf8 text → Brief text) ∧ maxIndex < size + entry.width ∧
        error = .poolOverflow := by
  have full : (if maxIndex < size + entry.width then some ClassFileError.poolOverflow else none) =
      some error ↔ maxIndex < size + entry.width ∧ error = .poolOverflow := by
    by_cases full : maxIndex < size + entry.width
    · simp only [full, if_true, Option.some.injEq, true_and, eq_comm]
    · simp only [full, if_false, reduceCtorEq, false_and]
  cases entry with
  | utf8 text =>
      simp only [obstacle?, Constant.utf8.injEq, exists_eq_left', forall_eq']
      by_cases long : maxTextLength < (ModifiedUtf8.encode text).length
      · have notBrief : ¬ Brief text := Nat.not_le.mpr long
        simp only [long, if_true, notBrief, not_false_eq_true, true_and, false_and, or_false,
          Option.some.injEq, eq_comm]
      · have brief : Brief text := Nat.le_of_not_lt long
        simp only [long, if_false, brief, not_true_eq_false, false_and, false_or, true_and, full]
  | _ =>
      simpa only [obstacle?, reduceCtorEq, false_and, exists_false, false_or, false_implies,
        implies_true, true_and] using full

theorem intern_run (entry : Constant) (pool : ConstantPool) :
    (intern entry).run pool =
      match pool.index[entry]? with
      | some index => (.ok index, pool)
      | none =>
        match obstacle? pool.slots.size entry with
        | some error => (.error error, pool)
        | none => (.ok (UInt16.ofNat (pool.slots.size + 1)), pool.push entry) := rfl

theorem intern_ends (entry : Constant) (pool : ConstantPool) :
    Ends (intern entry) pool
      (fun index final => pool.Extends final ∧ (pool.Indexed → final.lookup index = .ok entry))
      (fun _ final => pool.Extends final) := by
  unfold Ends
  rw [intern_run]
  cases known : pool.index[entry]? with
  | some index => exact ⟨.refl pool, fun indexed => indexed entry index known⟩
  | none =>
      cases free : obstacle? pool.slots.size entry with
      | some error => exact .refl pool
      | none =>
          have room := obstacle?_eq_none free
          have brief (text : String) (isText : entry = .utf8 text) : Brief text :=
            brief_of_obstacle? (isText ▸ free)
          exact ⟨push_extends pool entry room brief, fun _ => push_lookup pool entry room⟩

theorem empty_sound : Sound empty := by
  refine ⟨?_, ?_, [], rfl, nofun⟩
  · simp [empty, maxIndex]
  · intro entry index found
    simp [empty] at found

theorem textAt_eq_ok_iff (pool : ConstantPool) (index : UInt16) (text : String) :
    pool.textAt index = .ok text ↔ pool.lookup index = .ok (.utf8 text) := by
  unfold textAt
  cases pool.lookup index with
  | error error => simp [bind, Except.bind]
  | ok entry => cases entry <;> simp [bind, Except.bind]

theorem classNameAt_eq_ok_iff (pool : ConstantPool) (index : UInt16) (name : String) :
    pool.classNameAt index = .ok name ↔
      ∃ text, pool.lookup index = .ok (.classRef text) ∧ pool.lookup text = .ok (.utf8 name) := by
  unfold classNameAt
  cases pool.lookup index with
  | error error => simp [bind, Except.bind]
  | ok entry => cases entry <;> simp [bind, Except.bind, textAt_eq_ok_iff]

theorem memberPartsAt_eq_ok_iff (pool : ConstantPool) (index owner member : UInt16) :
    pool.memberPartsAt index = .ok (owner, member) ↔
      pool.lookup index = .ok (.fieldRef owner member) ∨
        pool.lookup index = .ok (.methodRef owner member) := by
  unfold memberPartsAt
  cases pool.lookup index with
  | error error => simp [bind, Except.bind]
  | ok entry => cases entry <;> simp [bind, Except.bind]

theorem memberAt_eq_ok_iff (pool : ConstantPool) (index : UInt16)
    (ownerName name descriptor : String) :
    pool.memberAt index = .ok (ownerName, name, descriptor) ↔
      ∃ owner member nameText descriptorText,
        pool.memberPartsAt index = .ok (owner, member) ∧
        pool.lookup member = .ok (.nameAndType nameText descriptorText) ∧
        pool.classNameAt owner = .ok ownerName ∧
        pool.textAt nameText = .ok name ∧ pool.textAt descriptorText = .ok descriptor := by
  unfold memberAt
  cases partsEq : pool.memberPartsAt index with
  | error error => simp [bind, Except.bind]
  | ok parts =>
      obtain ⟨owner, member⟩ := parts
      cases memberEq : pool.lookup member with
      | error error =>
          simp only [bind, Except.bind, memberEq, Except.ok.injEq, Prod.mk.injEq]
          constructor
          · intro impossible
            cases impossible
          · rintro ⟨_, _, _, _, ⟨rfl, rfl⟩, found, _⟩
            rw [memberEq] at found
            cases found
      | ok entry =>
          constructor
          · intro found
            cases entry <;> simp [bind, Except.bind, memberEq] at found
            rename_i nameText descriptorText
            refine ⟨owner, member, nameText, descriptorText, rfl, memberEq, ?_⟩
            cases ownerEq : pool.classNameAt owner <;> simp [ownerEq] at found
            cases nameEq : pool.textAt nameText <;> simp [nameEq] at found
            cases descriptorEq : pool.textAt descriptorText <;> simp [descriptorEq] at found
            simp [found]
          · rintro ⟨_, _, nameText, descriptorText, sameParts, found, ownerNamed, named, typed⟩
            cases sameParts
            rw [memberEq] at found
            cases found
            simp [bind, Except.bind, memberEq, ownerNamed, named, typed]

theorem Extends.textAt (grown : pool.Extends extended) {text : String}
    (found : pool.textAt index = .ok text) :
    extended.textAt index = .ok text := by
  rw [textAt_eq_ok_iff] at found ⊢
  exact grown.kept found

theorem Extends.classNameAt (grown : pool.Extends extended) {name : String}
    (found : pool.classNameAt index = .ok name) :
    extended.classNameAt index = .ok name := by
  rw [classNameAt_eq_ok_iff] at found ⊢
  obtain ⟨text, entry, named⟩ := found
  exact ⟨text, grown.kept entry, grown.kept named⟩

theorem Extends.memberAt (grown : pool.Extends extended) {ownerName name descriptor : String}
    (found : pool.memberAt index = .ok (ownerName, name, descriptor)) :
    extended.memberAt index = .ok (ownerName, name, descriptor) := by
  rw [memberAt_eq_ok_iff] at found ⊢
  obtain ⟨owner, member, nameText, descriptorText, parts, both, ownerNamed, named, typed⟩ := found
  refine ⟨owner, member, nameText, descriptorText, ?_, grown.kept both, grown.classNameAt ownerNamed,
    grown.textAt named, grown.textAt typed⟩
  rw [memberPartsAt_eq_ok_iff] at parts ⊢
  exact parts.imp grown.kept grown.kept

/-- A computation only adds to the pool, and its value names in the pool what `result` says. -/
def Adds {α : Type} (action : PoolM α) (result : α → ConstantPool → Prop) : Prop :=
  ∀ pool, Ends action pool
    (fun value final => pool.Extends final ∧ (pool.Indexed → result value final))
    (fun _ final => pool.Extends final)

theorem Adds.pure (value : α) : Adds (Pure.pure value) (fun found _ => found = value) :=
  fun pool => ⟨.refl pool, fun _ => rfl⟩

theorem Adds.bind {β : Type} {first : PoolM α} {next : α → PoolM β} {named : α → ConstantPool → Prop}
    {result : β → ConstantPool → Prop} (adds : Adds first named)
    (addsNext : ∀ value, Adds (next value) (fun last final =>
      ∀ middle : ConstantPool, middle.Extends final → named value middle → result last final)) :
    Adds (first >>= next) result := by
  intro pool
  rw [ends_bind]
  refine (adds pool).imp ?_
  rintro value middle ⟨grown, isNamed⟩
  refine (addsNext value middle).mono ?_ (fun _ _ later => grown.trans later)
  rintro last final ⟨later, isResult⟩
  exact ⟨grown.trans later, fun indexed =>
    isResult (grown.indexed indexed) middle later (isNamed indexed)⟩

theorem Adds.imp {action : PoolM α} {result weaker : α → ConstantPool → Prop} (adds : Adds action result)
    (implies : ∀ value final, result value final → weaker value final) :
    Adds action weaker :=
  fun pool => (adds pool).mono
    (fun value final ends => ⟨ends.1, fun indexed => implies value final (ends.2 indexed)⟩)
    (fun _ _ grown => grown)

theorem intern_adds (entry : Constant) :
    Adds (intern entry) (fun index pool => pool.lookup index = .ok entry) :=
  intern_ends entry

theorem utf8_adds (text : String) : Adds (utf8 text) (fun index pool => pool.textAt index = .ok text) :=
  (intern_adds (.utf8 text)).imp fun index pool found => (textAt_eq_ok_iff pool index text).mpr found

theorem classRef_adds (name : String) :
    Adds (classRef name) (fun index pool => pool.classNameAt index = .ok name) := by
  refine (utf8_adds name).bind fun text => (intern_adds (.classRef text)).imp ?_
  intro index final found middle grown named
  rw [classNameAt_eq_ok_iff]
  exact ⟨text, found, (textAt_eq_ok_iff final text name).mp (grown.textAt named)⟩

theorem string_adds (text : String) :
    Adds (string text) (fun index pool =>
      ∃ content, pool.lookup index = .ok (.string content) ∧ pool.textAt content = .ok text) := by
  refine (utf8_adds text).bind fun content => (intern_adds (.string content)).imp ?_
  intro index final found middle grown named
  exact ⟨content, found, grown.textAt named⟩

theorem nameAndType_adds (name descriptor : String) :
    Adds (nameAndType name descriptor) (fun index pool =>
      ∃ nameText descriptorText, pool.lookup index = .ok (.nameAndType nameText descriptorText) ∧
        pool.textAt nameText = .ok name ∧ pool.textAt descriptorText = .ok descriptor) := by
  refine (utf8_adds name).bind fun nameText => ?_
  refine (utf8_adds descriptor).bind fun descriptorText =>
    (intern_adds (.nameAndType nameText descriptorText)).imp ?_
  intro index final found second grown typed first earlier named
  exact ⟨nameText, descriptorText, found, earlier.textAt named, grown.textAt typed⟩

theorem memberRef_adds (entry : UInt16 → UInt16 → Constant) (owner name descriptor : String)
    (isMember : ∀ {pool : ConstantPool} {index ownerIndex member},
      pool.lookup index = .ok (entry ownerIndex member) →
        pool.memberPartsAt index = .ok (ownerIndex, member)) :
    Adds (do
      let ownerIndex ← classRef owner
      let member ← nameAndType name descriptor
      intern (entry ownerIndex member)) (fun index pool =>
      (∃ ownerIndex member, pool.lookup index = .ok (entry ownerIndex member)) ∧
        pool.memberAt index = .ok (owner, name, descriptor)) := by
  refine (classRef_adds owner).bind fun ownerIndex => ?_
  refine (nameAndType_adds name descriptor).bind fun member =>
    (intern_adds (entry ownerIndex member)).imp ?_
  rintro index final found second grown ⟨nameText, descriptorText, both, named, typed⟩ first earlier
    ownerNamed
  refine ⟨⟨ownerIndex, member, found⟩, (memberAt_eq_ok_iff _ _ _ _ _).mpr ?_⟩
  exact ⟨ownerIndex, member, nameText, descriptorText, isMember found, grown.kept both,
    earlier.classNameAt ownerNamed, grown.textAt named, grown.textAt typed⟩

theorem fieldRef_adds (owner name descriptor : String) :
    Adds (fieldRef owner name descriptor) (fun index pool =>
      (∃ ownerIndex member, pool.lookup index = .ok (.fieldRef ownerIndex member)) ∧
        pool.memberAt index = .ok (owner, name, descriptor)) :=
  memberRef_adds .fieldRef owner name descriptor fun found =>
    (memberPartsAt_eq_ok_iff _ _ _ _).mpr (.inl found)

theorem methodRef_adds (owner name descriptor : String) :
    Adds (methodRef owner name descriptor) (fun index pool =>
      (∃ ownerIndex member, pool.lookup index = .ok (.methodRef ownerIndex member)) ∧
        pool.memberAt index = .ok (owner, name, descriptor)) :=
  memberRef_adds .methodRef owner name descriptor fun found =>
    (memberPartsAt_eq_ok_iff _ _ _ _).mpr (.inr found)

end BasicCompiler.ConstantPool
