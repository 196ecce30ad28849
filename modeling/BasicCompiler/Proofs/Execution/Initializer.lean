import BasicCompiler.Proofs.Compile.ResolvedClass
import BasicCompiler.Proofs.Execution.Blocks
import BasicCompiler.Proofs.Library.LongTexts

/-!
What the class initializer does when it is executed: it gives every cell its first value. The places
of the data items are computed by a loop from the lengths of the items.
-/

namespace BasicCompiler

open Draft Utf16 Process

variable {data : DataTable} {effect : Data → Data → Prop}

namespace CellCode

def indexSetup (base : Nat) : List Insn :=
  [PlatformMethod.charsOfText.insn, .access Opcode.astore base, .access Opcode.aload base,
    .op Opcode.arraylength, .newArray ElementType.int, .access Opcode.astore (base + 1),
    .op Opcode.iconst0, .access Opcode.istore (base + 2),
    .op Opcode.iconst0, .access Opcode.istore (base + 3)]

def indexTest (base : Nat) : List Insn :=
  [.access Opcode.iload (base + 2), .access Opcode.aload base, .op Opcode.arraylength]

def indexRead (base : Nat) : List Insn :=
  [.access Opcode.aload base, .access Opcode.iload (base + 2), .op Opcode.caload, .pushInt 15,
    .op Opcode.ishl, .access Opcode.aload base, .access Opcode.iload (base + 2),
    .op Opcode.iconst1, .op Opcode.iadd, .op Opcode.caload, .op Opcode.ior,
    .access Opcode.istore (base + 4)]

def indexWrite (base : Nat) : List Insn :=
  [.access Opcode.aload (base + 1), .access Opcode.iload (base + 2),
    .access Opcode.iload (base + 3), .op Opcode.iastore,
    .access Opcode.aload (base + 1), .access Opcode.iload (base + 2), .op Opcode.iconst1,
    .op Opcode.iadd, .access Opcode.iload (base + 4), .op Opcode.iastore]

def indexAdvance (base : Nat) : List Insn :=
  [.access Opcode.iload (base + 3), .access Opcode.iload (base + 4), .op Opcode.iadd,
    .access Opcode.istore (base + 3), .increment (base + 2) 2]

def indexLoop (base label : Nat) : List Item :=
  Item.label (Label.numbered "index_next" label) :: (indexTest base).map .insn ++
    .insn (.branch Opcode.ificmpge (Label.numbered "index_done" (label + 1))) ::
    (indexRead base).map .insn ++ (indexWrite base).map .insn ++ (indexAdvance base).map .insn ++
    [.insn (.branch Opcode.goto (Label.numbered "index_next" label))] ++
    [.label (Label.numbered "index_done" (label + 1))]

theorem pushDataIndex_items (data : DataTable) (draft : Draft) :
    Drafts (pushDataIndex data) draft fun _ final => final.items.toList =
      draft.items.toList ++ ((joinCode (chunks data.lengthsText)).map .insn ++
        (indexSetup draft.scope.nextSlot).map .insn ++
        indexLoop draft.scope.nextSlot draft.scope.nextLabel ++
        [Item.insn (.access Opcode.aload (draft.scope.nextSlot + 1))]) ∧
      final.scope.nextSlot = draft.scope.nextSlot + 5 := by
  unfold pushDataIndex
  simp only [drafts_bind, drafts_temporary, drafts_freshLabel]
  refine (pushLongText_items data.lengthsText _).mono ?_
  rintro _ middle ⟨items, scope⟩
  simp only [toCharacters, invokeVirtual, Draft.astore, Draft.aload, Draft.istore, Draft.iload, Draft.op,
    Draft.newArray, Draft.pushInt, Draft.branch, Draft.increment, Draft.goto, drafts_emit,
    drafts_place, add_items, items, add_scope, scope, indexSetup, indexTest, indexLoop,
    indexRead, indexWrite, indexAdvance]
  exact ⟨by simp [Scope.temporary, Scope.freshLabel]; rfl, rfl⟩

section

open Course

variable {course : Course} {base lengths index cursor : Nat} {offset length : Int32} {stack : List Value}
  {locals : Nat → Option Value} {heap : Heap} {created : Nat} {units : List UInt16} {values : List Int32}

/-- The slots of the loop: the arrays that it reads and writes, the place in them that it has got to, and
the offset of the next item. -/
structure Indexing (base lengths index cursor : Nat) (offset : Int32) (locals : Nat → Option Value) :
    Prop where
  lengths : locals base = some (.chars lengths)
  index : locals (base + 1) = some (.ints index)
  cursor : locals (base + 2) = some (.int (word cursor))
  offset : locals (base + 3) = some (.int offset)

theorem passes_indexSetup (room : base + 5 ≤ 65536) (small : units.length < lengthLimit) :
    ∃ locals', Indexing base heap.chars.length heap.ints.length 0 0 locals' ∧
      course.Passes (indexSetup base) ⟨.text units :: stack, locals, heap, created⟩
        ⟨stack, locals', { heap with
          chars := heap.chars ++ [units]
          ints := heap.ints ++ [List.replicate units.length 0] }, created⟩ := by
  have known : { heap with chars := heap.chars ++ [units] }.chars[heap.chars.length]? = some units := by simp
  have slots : base < 65536 ∧ base + 1 < 65536 ∧ base + 2 < 65536 ∧ base + 3 < 65536 := by omega
  refine ⟨Function.update (Function.update (Function.update (Function.update locals base
    (some (.chars heap.chars.length))) (base + 1) (some (.ints heap.ints.length)))
    (base + 2) (some (.int 0))) (base + 3) (some (.int 0)), ⟨?_, ?_, ?_, ?_⟩, ?_⟩
  all_goals simp [indexSetup, slots, PlatformMethod.call, passes_arraylength known, word_toInt small,
    word_toNat small]
  rfl

theorem passes_indexRead (room : base + 5 ≤ 65536)
    (indexing : Indexing base lengths index cursor offset locals)
    (known : heap.chars[lengths]? = some units) (small : units.length < lengthLimit) {upper lower : UInt16}
    (isUpper : units[cursor]? = some upper) (isLower : units[cursor + 1]? = some lower) :
    course.Passes (indexRead base) ⟨stack, locals, heap, created⟩
      ⟨stack, Function.update locals (base + 4)
        (some (.int ((word upper.toNat <<< 15) ||| word lower.toNat))), heap, created⟩ := by
  have slots : base < 65536 ∧ base + 2 < 65536 ∧ base + 4 < 65536 := by omega
  simp [indexRead, slots, indexing.lengths, indexing.cursor, passes_caload known small isUpper,
    passes_caload known small isLower, word_succ]

theorem passes_indexWrite (room : base + 5 ≤ 65536)
    (indexing : Indexing base lengths index cursor offset locals)
    (isLength : locals (base + 4) = some (.int length)) (known : heap.ints[index]? = some values)
    (small : values.length < lengthLimit) (within : cursor + 1 < values.length) :
    course.Passes (indexWrite base) ⟨stack, locals, heap, created⟩
      ⟨stack, locals, { heap with
        ints := heap.ints.set index ((values.set cursor offset).set (cursor + 1) length) }, created⟩ := by
  have present : index < heap.ints.length := (List.getElem?_eq_some_iff.mp known).1
  have again : { heap with ints := heap.ints.set index (values.set cursor offset) }.ints[index]? =
      some (values.set cursor offset) := List.getElem?_set_self present
  have slots : base + 1 < 65536 ∧ base + 2 < 65536 ∧ base + 3 < 65536 ∧ base + 4 < 65536 := by omega
  simp [indexWrite, slots, indexing.index, indexing.cursor, indexing.offset, isLength,
    passes_iastore known small (Nat.lt_of_succ_lt within), word_succ,
    passes_iastore again (by simpa using small) (by simpa using within)]

theorem passes_indexAdvance (room : base + 5 ≤ 65536)
    (indexing : Indexing base lengths index cursor offset locals)
    (isLength : locals (base + 4) = some (.int length)) :
    ∃ locals', Indexing base lengths index (cursor + 2) (offset + length) locals' ∧
      course.Passes (indexAdvance base) ⟨stack, locals, heap, created⟩ ⟨stack, locals', heap, created⟩ := by
  have slots : base + 2 < 65536 ∧ base + 3 < 65536 ∧ base + 4 < 65536 := by omega
  have two : word cursor + Int32.ofInt 2 = word (cursor + 2) := (Int32.ofNat_add cursor 2).symm
  refine ⟨Function.update (Function.update locals (base + 3) (some (.int (offset + length)))) (base + 2)
    (some (.int (word (cursor + 2)))), ⟨?_, ?_, ?_, ?_⟩, ?_⟩
  all_goals simp [indexAdvance, slots, indexing.lengths, indexing.index, indexing.cursor, indexing.offset,
    isLength, ← two]

/-- The numbers that the loop stores for code units that tell lengths. -/
def places (offset : Int32) (units : List UInt16) : List Int32 :=
  (DataTable.placesFrom offset units).flatMap fun place => [place.1, place.2]

theorem leads_indexLoop {label : Nat} {rest : List Item} (room : base + 5 ≤ 65536)
    {chars : List (List UInt16)} {ints : List (List Int32)} {cells : Cell → Option Value}
    (small : units.length < lengthLimit) {sizes : List Nat} {read left : List UInt16} {stored : List Int32}
    (told : left = sizes.flatMap DataTable.lengthUnits) (split : units = read ++ left)
    (pace : stored.length = read.length)
    (indexing : Indexing base chars.length ints.length read.length offset locals)
    (onwards : ∀ locals', locals' (base + 1) = some (.ints ints.length) → course.Leads rest
      ⟨stack, locals', ⟨chars ++ [units], ints ++ [stored ++ places offset left], cells⟩, created⟩) :
    course.Leads (indexLoop base label ++ rest) ⟨stack, locals,
      ⟨chars ++ [units], ints ++ [stored ++ List.replicate left.length 0], cells⟩, created⟩ := by
  subst told
  intro here stands
  have atDone : course.environment.StandsAt course.target course.code
      (course.target (Label.numbered "index_done" (label + 1))) rest := by
    rw [indexLoop, List.append_assoc] at stands
    exact stands.behind
  simp only [indexLoop, List.cons_append, List.append_assoc, List.nil_append] at stands
  obtain _ | _ | ⟨rfl, atNext⟩ := stands
  have slots : base < 65536 ∧ base + 2 < 65536 := by omega
  have tested {values : List (List Int32)} {read : List UInt16} {locals : Nat → Option Value}
      {offset : Int32} (indexing : Indexing base chars.length ints.length read.length offset locals) :
      course.Passes (indexTest base) ⟨stack, locals, ⟨chars ++ [units], values, cells⟩, created⟩
        ⟨.int (word units.length) :: .int (word read.length) :: stack, locals,
          ⟨chars ++ [units], values, cells⟩, created⟩ := by
    have known : (Heap.mk (chars ++ [units]) values cells).chars[chars.length]? = some units := by simp
    simp [indexTest, slots, indexing.cursor, indexing.lengths, passes_arraylength known]
  -- The loop runs from its first label, with one length less to read each time.
  induction sizes generalizing read stored offset locals with
  | nil =>
      refine leads_branch (indexTest base) _ (tested indexing) (decide?_pair rfl _ _ _) (fun _ => ?_)
        (fun before => ?_) _ atNext
      · exact onwards locals indexing.index _ atDone
      · simp [split] at before
  | cons first others ih =>
      have more : read.length + ((others.flatMap DataTable.lengthUnits).length + 2) = units.length := by
        simp [split, DataTable.lengthUnits]
      have width : (stored ++ List.replicate ((first :: others).flatMap DataTable.lengthUnits).length
          (0 : Int32)).length = units.length := by
        simp [split, pace]
      refine leads_branch (indexTest base) _ (tested indexing) (decide?_pair rfl _ _ _) (fun behind => ?_)
        (fun _ => ?_) _ atNext
      · simp only [word_toInt small, word_toInt (show read.length < lengthLimit by omega), decide_eq_true_eq]
          at behind
        omega
      have isUpper : units[read.length]? = some (UInt16.ofNat (first / 0x8000)) := by
        simp [split, DataTable.lengthUnits]
      have isLower : units[read.length + 1]? = some (UInt16.ofNat (first % 0x8000)) := by
        simp [split, DataTable.lengthUnits]
      refine leads_block (indexRead base) _
        (passes_indexRead room indexing (by simp) small isUpper isLower) ?_
      have kept (value : Value) : Indexing base chars.length ints.length read.length offset
          (Function.update locals (base + 4) (some value)) :=
        ⟨by simp [indexing.lengths], by simp [indexing.index], by simp [indexing.cursor],
          by simp [indexing.offset]⟩
      refine leads_block (indexWrite base) _ (passes_indexWrite room (kept _) (Function.update_self ..)
        (List.getElem?_concat_length ..) (width ▸ small) (by omega)) ?_
      obtain ⟨locals', next, passes⟩ := passes_indexAdvance room (kept _) (Function.update_self ..)
      refine leads_block (indexAdvance base) _ passes (leads_goto ?_)
      generalize isLength : (word _ <<< 15 ||| word _) = length at next ⊢
      have split' : units = read ++ DataTable.lengthUnits first ++ others.flatMap DataTable.lengthUnits := by
        simp [split]
      have pace' : (stored ++ [offset, length]).length = (read ++ DataTable.lengthUnits first).length := by
        simp [pace, DataTable.lengthUnits]
      have told : places offset ((first :: others).flatMap DataTable.lengthUnits) =
          [offset, length] ++ places (offset + length) (others.flatMap DataTable.lengthUnits) := by
        rw [← isLength]
        rfl
      rw [told, ← List.append_assoc] at onwards
      have later := ih pace' (by rwa [List.length_append]) split' onwards
      simpa [← pace, DataTable.lengthUnits, List.replicate_succ] using later

theorem passes_appendCodes {pieces : List String}
    (small : (units ++ pieces.flatMap unitsOf).length < lengthLimit) :
    course.Passes (pieces.flatMap appendCode) ⟨.text units :: stack, locals, heap, created⟩
      ⟨.text (units ++ pieces.flatMap unitsOf) :: stack, locals, heap, created⟩ := by
  induction pieces generalizing units with
  | nil => simp
  | cons piece rest ih =>
      have grouped : units ++ (piece :: rest).flatMap unitsOf =
          units ++ unitsOf piece ++ rest.flatMap unitsOf := by simp
      rw [grouped] at small ⊢
      have shorter : (units ++ unitsOf piece).length < lengthLimit := by
        rw [List.length_append] at small
        omega
      change course.Passes (.pushText piece :: PlatformMethod.concat.insn :: rest.flatMap appendCode) _ _
      rw [passes_pushText, passes_platform]
      exact ⟨_, if_pos shorter, ih small⟩

theorem passes_joinCode {text : String} (small : (unitsOf text).length < lengthLimit) :
    course.Passes (joinCode (chunks text)) ⟨stack, locals, heap, created⟩
      ⟨.text (unitsOf text) :: stack, locals, heap, created⟩ := by
  have isText : (chunks text).flatMap unitsOf = unitsOf text := by rw [← unitsOf_join, chunks_join]
  cases pieces : chunks text with
  | nil => exact absurd pieces (chunks_ne_nil text)
  | cons first rest =>
      rw [pieces, List.flatMap_cons] at isText
      rw [← isText] at small ⊢
      exact passes_appendCodes small

end

end CellCode

/-- Wherever the code of an action stands, it does what the effect says. -/
def Performs (action : DraftM Unit) (effect : Data → Data → Prop) : Prop :=
  ∀ draft, Drafts action draft fun _ final => ∃ block, final.items.toList = draft.items.toList ++ block ∧
    draft.scope.nextSlot ≤ final.scope.nextSlot ∧ (final.scope.nextSlot ≤ 65536 →
      ∀ (course : Course) (rest : List Item) (start : Data),
        (∀ stop, effect start stop → course.Leads rest stop) → course.Leads (block ++ rest) start)

namespace Performs

theorem pure (holds : ∀ data, effect data data) : Performs (Pure.pure ()) effect :=
  fun _ => ⟨[], (List.append_nil _).symm, Nat.le_refl _, fun _ _ _ start onwards => onwards start (holds start)⟩

theorem bind {first second : DraftM Unit} {before after : Data → Data → Prop}
    (performs : Performs first before) (performs' : Performs second after)
    (both : ∀ start middle stop, before start middle → after middle stop → effect start stop) :
    Performs (do
      first
      second) effect := by
  intro draft
  rw [drafts_bind]
  refine (performs draft).mono ?_
  rintro _ middle ⟨block, items, more, leads⟩
  refine (performs' middle).mono ?_
  rintro _ final ⟨block', items', more', leads'⟩
  refine ⟨block ++ block', by rw [items', items, List.append_assoc], Nat.le_trans more more', ?_⟩
  intro room course rest start onwards
  rw [List.append_assoc]
  exact leads (Nat.le_trans more' room) course _ start fun between done =>
    leads' room course rest between fun stop done' => onwards stop (both start between stop done done')

theorem insns {action : DraftM Unit} (insns : List Insn)
    (drafts : ∀ draft, Drafts action draft fun _ final =>
      final.items.toList = draft.items.toList ++ insns.map .insn ∧ final.scope = draft.scope)
    (passes : ∀ course : Course, ∀ start, ∃ stop, course.Passes insns start stop ∧ effect start stop) :
    Performs action effect := by
  intro draft
  refine (drafts draft).mono ?_
  rintro _ final ⟨items, scope⟩
  refine ⟨_, items, Nat.le_of_eq (by rw [scope]), fun _ course rest start onwards => ?_⟩
  obtain ⟨stop, passed, done⟩ := passes course start
  exact Course.leads_block insns stop passed (onwards stop done)

end Performs

/-- Arrays were added to a heap, and no other was changed. -/
structure Process.Heap.Adds (heap final : Heap) : Prop where
  chars : heap.chars <+: final.chars
  ints : heap.ints <+: final.ints

theorem getElem?_of_prefix {α : Type} {list longer : List α} (kept : list <+: longer) {index : Nat}
    {item : α} (found : list[index]? = some item) : longer[index]? = some item := by
  obtain ⟨more, rfl⟩ := kept
  rw [List.getElem?_append_left (List.getElem?_eq_some_iff.mp found).1, found]

namespace Process.Heap.Adds

variable {heap middle final : Heap} {value : Value}

theorem trans (first : heap.Adds middle) (second : middle.Adds final) : heap.Adds final :=
  ⟨first.chars.trans second.chars, first.ints.trans second.ints⟩

theorem chars? (adds : heap.Adds final) {units : List UInt16} (found : heap.chars? value = some units) :
    final.chars? value = some units := by
  cases value with
  | chars address => exact getElem?_of_prefix adds.chars found
  | _ => cases found

theorem ints? (adds : heap.Adds final) {values : List Int32} (found : heap.ints? value = some values) :
    final.ints? value = some values := by
  cases value with
  | ints address => exact getElem?_of_prefix adds.ints found
  | _ => cases found

end Process.Heap.Adds

namespace Cell

/-- The value that a cell is given when a class is initialized. -/
def Holds (data : DataTable) : Cell → Value → Heap → Prop
  | dataChars, value, heap => heap.chars? value = some (unitsOf data.joined)
  | dataIndex, value, heap => heap.ints? value = some (CellCode.places 0 (unitsOf data.lengthsText))
  | gosubStack, value, heap => heap.ints? value = some (List.replicate 1024 0)
  | console, value, _ => value = .object bufferClass
  | _, _, _ => False

/-- A cell has its first value, which is zero where none is stored in it. -/
def Prepared (data : DataTable) (heap : Heap) : Cell → Prop
  | cursorColumn | lastRandom | dataCursor | gosubDepth => True
  | cell => ∃ value, heap.cells cell = some value ∧ cell.Holds data value heap

variable {heap final : Heap} {cell : Cell} {value : Value}

theorem Holds.mono (adds : heap.Adds final) (holds : cell.Holds data value heap) :
    cell.Holds data value final := by
  cases cell with
  | dataChars => exact adds.chars? holds
  | dataIndex | gosubStack => exact adds.ints? holds
  | _ => exact holds

theorem Holds.prepared (holds : cell.Holds data value heap) (isCell : heap.cells cell = some value) :
    cell.Prepared data heap := by
  cases cell with
  | cursorColumn | lastRandom | dataCursor | gosubDepth => trivial
  | _ => exact ⟨value, isCell, holds⟩

theorem Prepared.mono (prepared : cell.Prepared data heap) (adds : heap.Adds final)
    (kept : final.cells cell = heap.cells cell) : cell.Prepared data final := by
  cases cell with
  | cursorColumn | lastRandom | dataCursor | gosubDepth => trivial
  | _ =>
      obtain ⟨value, isCell, holds⟩ := prepared
      exact ⟨value, kept.trans isCell, holds.mono adds⟩

end Cell

namespace CellCode

open Course

/-- A value was pushed, and nothing was changed but that arrays were added. -/
structure Pushed (holds : Value → Heap → Prop) (start stop : Data) : Prop where
  stack : ∃ value, stop.stack = value :: start.stack ∧ holds value stop.heap
  adds : start.heap.Adds stop.heap
  cells : stop.heap.cells = start.heap.cells

theorem pushDataIndex_performs (short : data.Short)
    (small : (unitsOf data.lengthsText).length < lengthLimit) :
    Performs (pushDataIndex data) (Pushed (Cell.dataIndex.Holds data)) := by
  intro draft
  refine (pushDataIndex_items data draft).mono ?_
  rintro _ final ⟨items, slots⟩
  refine ⟨_, items, by omega, fun room course rest start onwards => ?_⟩
  rw [slots] at room
  obtain ⟨stack, locals, heap, created⟩ := start
  rw [List.append_assoc, List.append_assoc, List.append_assoc]
  refine leads_block (joinCode (chunks data.lengthsText)) _ (passes_joinCode small) ?_
  obtain ⟨locals', indexing, setup⟩ := passes_indexSetup room small
  refine leads_block (indexSetup draft.scope.nextSlot) _ setup ?_
  have pace : ([] : List Int32).length = ([] : List UInt16).length := rfl
  rw [← List.nil_append (List.replicate _ (0 : Int32))]
  refine leads_indexLoop room small (DataTable.lengthsText_units short.each) (List.nil_append _).symm pace
    indexing fun locals'' index => ?_
  rw [List.nil_append]
  have loaded {heap' : Heap} : course.Passes [.access Opcode.aload (draft.scope.nextSlot + 1)]
      ⟨stack, locals'', heap', created⟩ ⟨.ints heap.ints.length :: stack, locals'', heap', created⟩ := by
    simp [index, show draft.scope.nextSlot + 1 < 65536 by omega]
  refine leads_block [.access Opcode.aload (draft.scope.nextSlot + 1)] _ loaded (onwards _ ?_)
  exact ⟨⟨_, rfl, List.getElem?_concat_length ..⟩, ⟨List.prefix_append _ _, List.prefix_append _ _⟩, rfl⟩

theorem pushCharacters_performs (small : (unitsOf data.joined).length < lengthLimit) :
    Performs (do
      pushLongText data.joined
      toCharacters) (Pushed (Cell.dataChars.Holds data)) := by
  refine .insns (joinCode (chunks data.joined) ++ [PlatformMethod.charsOfText.insn]) ?_ ?_
  · intro draft
    rw [drafts_bind]
    refine (pushLongText_items data.joined draft).mono ?_
    rintro _ middle ⟨items, scope⟩
    rw [toCharacters, invokeVirtual, drafts_emit]
    exact ⟨by simp [items]; rfl, scope⟩
  · rintro course ⟨stack, locals, heap, created⟩
    refine ⟨⟨.chars heap.chars.length :: stack, locals,
      { heap with chars := heap.chars ++ [unitsOf data.joined] }, created⟩, ?_, ?_⟩
    · exact (passes_joinCode small).append (by simp [PlatformMethod.call])
    · exact ⟨⟨_, rfl, List.getElem?_concat_length ..⟩, ⟨List.prefix_append _ _, List.prefix_refl _⟩, rfl⟩

theorem pushCalls_performs :
    Performs (do
      Draft.pushInt FlowCode.gosubStackDepth
      Draft.newArray ElementType.int) (Pushed (Cell.gosubStack.Holds data)) := by
  refine .insns [.pushInt FlowCode.gosubStackDepth, .newArray ElementType.int] (fun draft => ?_) ?_
  · simp only [Draft.pushInt, Draft.newArray, drafts_bind, drafts_emit, add_items, add_scope]
    simp
  · rintro course ⟨stack, locals, heap, created⟩
    refine ⟨⟨.ints heap.ints.length :: stack, locals,
      { heap with ints := heap.ints ++ [List.replicate 1024 0] }, created⟩, ?_, ?_⟩
    · rw [passes_pushInt, passes_newInts, passes_nil]
      exact ⟨by decide, rfl⟩
    · exact ⟨⟨_, rfl, List.getElem?_concat_length ..⟩, ⟨List.prefix_refl _, List.prefix_append _ _⟩, rfl⟩

theorem pushConsole_performs : Performs pushConsole (Pushed (Cell.console.Holds data)) := by
  refine .insns [.newDup bufferClass, .newDup readerClass,
    .field Opcode.getstatic ⟨"java/lang/System", "in", "Ljava/io/InputStream;"⟩,
    PlatformMethod.readerOf.insn, PlatformMethod.bufferOf.insn] (fun draft => ?_) ?_
  · simp only [pushConsole, Draft.newDup, Draft.getStatic, invokeSpecial, drafts_bind, drafts_emit,
      add_items, add_scope]
    simp
    exact ⟨rfl, rfl, rfl, rfl⟩
  · rintro course ⟨stack, locals, heap, created⟩
    refine ⟨⟨.object bufferClass :: stack, locals, heap, created + 2⟩, ?_, ?_⟩
    · simp [constant?, PlatformMethod.call, PlatformMethod.wrap, PlatformMethod.construct]
    · exact ⟨⟨_, rfl, rfl⟩, ⟨List.prefix_refl _, List.prefix_refl _⟩, rfl⟩

structure Prepares (data : DataTable) (cells : List Cell) (start stop : Data) : Prop where
  adds : start.heap.Adds stop.heap
  others : ∀ other, other ∉ cells → stop.heap.cells other = start.heap.cells other
  prepared : ∀ cell ∈ cells, cell.Prepared data stop.heap

theorem store_performs {action : DraftM Unit} {cell : Cell}
    (performs : Performs action (Pushed (cell.Holds data))) :
    Performs (do
      action
      Draft.putCell cell) (Prepares data [cell]) := by
  intro draft
  rw [drafts_bind]
  refine (performs draft).mono ?_
  rintro _ middle ⟨block, items, more, leads⟩
  rw [Draft.putCell, drafts_emit]
  refine ⟨block ++ [Item.insn (.putCell cell)], by simp [items], more, fun room course rest start onwards => ?_⟩
  rw [List.append_assoc]
  refine leads room course _ start ?_
  rintro ⟨_, locals, heap, created⟩ ⟨⟨value, rfl, holds⟩, adds, cells⟩
  have same : heap.Adds { heap with cells := Function.update heap.cells cell (some value) } :=
    ⟨List.prefix_refl _, List.prefix_refl _⟩
  refine leads_block [.putCell cell] _ (passes_putCell.mpr (passes_nil.mpr rfl))
    (onwards _ ⟨adds.trans same, ?_, ?_⟩)
  · intro other different
    rw [← cells]
    exact Function.update_of_ne (fun same => different (List.mem_singleton.mpr same)) ..
  · exact List.forall_mem_singleton.mpr ((holds.mono same).prepared (Function.update_self ..))

theorem prepare_performs (short : data.Short) (cell : Cell)
    (small : cell = .dataIndex → (unitsOf data.lengthsText).length < lengthLimit) :
    Performs (prepare data cell) (Prepares data [cell]) := by
  have nothing (unused : ∀ heap, cell.Prepared data heap) : Performs (pure ()) (Prepares data [cell]) :=
    .pure fun data => ⟨⟨List.prefix_refl _, List.prefix_refl _⟩, fun _ _ => rfl, by simp [unused]⟩
  cases cell with
  | cursorColumn | lastRandom | dataCursor | gosubDepth => exact nothing fun _ => trivial
  | dataIndex => exact store_performs (pushDataIndex_performs short (small rfl))
  | dataChars =>
      exact store_performs (pushCharacters_performs (data.joined_units_length ▸ short.together))
  | gosubStack => exact store_performs pushCalls_performs
  | console => exact store_performs pushConsole_performs

theorem prepareAll_performs (short : data.Short) {cells : List Cell}
    (small : .dataIndex ∈ cells → (unitsOf data.lengthsText).length < lengthLimit) :
    Performs (prepareAll data cells) (Prepares data cells) := by
  induction cells with
  | nil => exact .pure fun _ => ⟨⟨List.prefix_refl _, List.prefix_refl _⟩, fun _ _ => rfl, by simp⟩
  | cons first rest ih =>
      have head := prepare_performs short first fun isIndex => small (by simp [isIndex])
      refine head.bind (ih fun member => small (List.mem_cons_of_mem _ member)) ?_
      rintro start middle stop ⟨adds, others, prepared⟩ ⟨adds', others', prepared'⟩
      refine ⟨adds.trans adds', ?_, ?_⟩
      · intro other outside
        obtain ⟨different, outside'⟩ := not_or.mp (mt List.mem_cons.mpr outside)
        exact (others' other outside').trans (others other (by simpa using different))
      · intro cell member
        by_cases later : cell ∈ rest
        · exact prepared' cell later
        · have isFirst : cell = first := (List.mem_cons.mp member).resolve_right later
          exact (prepared cell (by simp [isFirst])).mono adds' (others' cell later)

end CellCode

/-- The class initializer ends, and then every cell that it prepares has its first value. -/
theorem ClassInitializer.draft_runs (short : data.Short) {cells : List Cell}
    (small : .dataIndex ∈ cells → (unitsOf data.lengthsText).length < lengthLimit)
    (room : (draft data cells).scope.nextSlot ≤ 65536) {environment : Environment} {target : Label → Nat}
    {code : Array UInt8} (stands : environment.StandsAt target code 0 (draft data cells).items.toList)
    (start : Data) :
    ∃ heap, environment.Reaches (.running code 0 start []) (.finished heap) ∧
      ∀ cell ∈ cells, cell.Prepared data heap := by
  obtain ⟨block, items, _, leads⟩ := CellCode.prepareAll_performs short small (.empty descriptor)
  have whole : (draft data cells).items.toList = block ++ [.insn (.op Opcode.vreturn)] :=
    (Draft.add_items _ _).trans (congrArg (· ++ _) items)
  rw [whole] at stands
  have runs : environment.Runs (fun state => ∃ heap, state = .finished heap ∧
      ∀ cell ∈ cells, cell.Prepared data heap) (.running code 0 start []) := by
    refine Course.runs_of_leads stands (leads room _ _ start fun stop prepares position stands => ?_)
    obtain _ | ⟨⟨next, fetched, rfl⟩, _⟩ := stands
    exact .step (Environment.step_of_fetch fetched rfl) (.here ⟨_, rfl, prepares.prepared⟩)
  obtain ⟨_, reached, heap, rfl, prepared⟩ := runs
  exact ⟨heap, reached, prepared⟩

end BasicCompiler
