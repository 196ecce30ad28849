import BasicCompiler.Compile.Class
import BasicCompiler.Proofs.Library.LongTexts
import BasicCompiler.Proofs.Method.Growth
import BasicCompiler.Proofs.Method.WellFormed

/-!
The class initializer is typed within the stack that it declares, whatever data items a program has. It
needs no helper, touches only the cells that it prepares, its texts are short, and its code grows with
the data items.
-/

namespace BasicCompiler

open ValueType Draft

namespace ClassInitializer

def region : Region where
  before := []
  handlers := #[]
  entry := some []
  parameters := 0
  limit := some maxStack.toNat
  stackOf := fun _ => some []
  gaps := true

variable {draft : Draft} {stack : StackType}

theorem op (stands : draft.At region (some stack) maxStack.toNat) (opcode : Opcode) (after : StackType)
    (effect : opcode.shape = .plain 0 ∧ opcode.continues = true ∧ opcode.execute stack = some after ∧
      after.height ≤ maxStack.toNat) :
    (draft.add (.insn (.op opcode))).At region (some after) maxStack.toNat :=
  (stands.plain (.op opcode) effect.1 effect.2.2.1 ⟨rfl, rfl, effect.2.1⟩).congr
    (Nat.max_eq_left effect.2.2.2)

theorem access (stands : draft.At region (some stack) maxStack.toNat) (opcode : Opcode) {slot : Nat}
    (within : slot < draft.scope.nextSlot) (after : StackType)
    (effect : opcode.accessesSlot = true ∧ opcode.continues = true ∧
      opcode.execute stack = some after ∧ after.height ≤ maxStack.toNat) :
    (draft.add (.insn (.access opcode slot))).At region (some after) maxStack.toNat := by
  have added := stands.insn (.access opcode slot) effect.1 (by rintro _ ⟨⟩; exact within)
    effect.2.2.1 (by simp [Insn.labels])
  rw [show (Insn.access opcode slot).continues = true from effect.2.1] at added
  exact added.congr (Nat.max_eq_left effect.2.2.2)

end ClassInitializer

namespace CellCode

open ClassInitializer

/-- A piece of code of the initializer that pushes the types `pushed` and takes fewer new slots than it
has instructions. -/
def Pushes (pushed : StackType) (action : DraftM Unit) : Prop :=
  ∀ draft : Draft, draft.At region (some []) maxStack.toNat → Drafts action draft fun _ final =>
    final.At region (some pushed) maxStack.toNat ∧
      final.scope.nextSlot + draft.insnCount ≤ draft.scope.nextSlot + final.insnCount

theorem chunksAfter_ne_nil {length fuel : Nat} {characters : List Char} {done : List (List Char)}
    (some : done ≠ []) : chunksAfter length fuel characters done ≠ [] := by
  induction fuel generalizing characters done with
  | zero => simpa [chunksAfter] using some
  | succ fuel ih =>
      simp only [chunksAfter]
      split
      · simpa using some
      · exact ih (List.cons_ne_nil _ _)

theorem chunks_ne_nil (text : String) : chunks text ≠ [] := by
  unfold chunks
  dsimp only
  split
  · exact List.cons_ne_nil _ _
  · rename_i nonempty
    rw [ne_eq, List.map_eq_nil_iff]
    cases characters : text.toList with
    | nil => simp [characters] at nonempty
    | cons first rest =>
        simp only [List.length_cons, chunksAfter, List.isEmpty_cons, Bool.false_eq_true, if_false]
        exact chunksAfter_ne_nil (List.cons_ne_nil _ _)

theorem joinChunks_at {draft : Draft} (stands : draft.At region (some [reference]) maxStack.toNat)
    (texts : List String) :
    Drafts (joinChunks texts) draft fun _ final => final.At region (some [reference]) maxStack.toNat ∧
      final.scope = draft.scope ∧ draft.insnCount ≤ final.insnCount := by
  induction texts generalizing draft with
  | nil => exact ⟨stands, rfl, Nat.le_refl _⟩
  | cons first rest ih =>
      have pushed := stands.pushText first
      have joined := pushed.invokeOn Opcode.invokevirtual
        ⟨stringClass, "concat", "(Ljava/lang/String;)Ljava/lang/String;"⟩ [reference] [reference]
        (.inl rfl) (by decide)
      simp only [joinChunks, joinTexts, invokeVirtual, Draft.pushText, drafts_bind, drafts_emit]
      refine (ih joined).mono ?_
      rintro _ final ⟨stands', sameScope, grown⟩
      simp only [insnCount_add_insn] at grown
      exact ⟨stands', sameScope, by omega⟩

theorem pushLongText_at {draft : Draft} (stands : draft.At region (some []) maxStack.toNat) (text : String) :
    Drafts (pushLongText text) draft fun _ final => final.At region (some [reference]) maxStack.toNat ∧
      final.scope = draft.scope ∧ draft.insnCount ≤ final.insnCount := by
  unfold pushLongText
  split
  · rename_i none
    exact absurd none (chunks_ne_nil text)
  · rename_i first rest _
    rw [drafts_bind, Draft.pushText, drafts_emit]
    refine (joinChunks_at (stands.pushText first) rest).mono ?_
    rintro _ final ⟨stands', sameScope, grown⟩
    simp only [insnCount_add_insn] at grown
    exact ⟨stands', sameScope, by omega⟩

theorem pushDataIndex_at (data : DataTable) : Pushes [reference] (pushDataIndex data) := by
  intro draft stands
  have opened := ((((stands.temporary .null).temporary .null).temporary .int).temporary .int).temporary
    .int
  have labelled := (opened.freshLabel "index_next").freshLabel "index_done"
  unfold pushDataIndex
  simp only [drafts_bind, drafts_temporary, drafts_freshLabel]
  refine (pushLongText_at labelled data.lengthsText).mono ?_
  rintro _ middle ⟨text, sameScope, grown⟩
  have slots : middle.scope.nextSlot = draft.scope.nextSlot + 5 := by rw [sameScope]; rfl
  have lengths : draft.scope.nextSlot < middle.scope.nextSlot := by omega
  have index : draft.scope.nextSlot + 1 < middle.scope.nextSlot := by omega
  have cursor : draft.scope.nextSlot + 2 < middle.scope.nextSlot := by omega
  have offset : draft.scope.nextSlot + 3 < middle.scope.nextSlot := by omega
  have length : draft.scope.nextSlot + 4 < middle.scope.nextSlot := by omega
  have s := text.invokeOn Opcode.invokevirtual ⟨stringClass, "toCharArray", "()[C"⟩ [] [reference]
    (.inl rfl) (by decide)
  have s := access s Opcode.astore lengths [] (by decide)
  have s := access s Opcode.aload lengths [reference] (by decide)
  have s := op s Opcode.arraylength [int] (by decide)
  have s := s.newArray ElementType.int
  have s := access s Opcode.astore index [] (by decide)
  have s := op s Opcode.iconst0 [int] (by decide)
  have s := access s Opcode.istore cursor [] (by decide)
  have s := op s Opcode.iconst0 [int] (by decide)
  have s := access s Opcode.istore offset [] (by decide)
  -- The loop starts here and ends when the cursor has passed the lengths.
  have s := s.label (Label.numbered "index_next" draft.scope.nextLabel) rfl
  have s := access s Opcode.iload cursor [int] (by decide)
  have s := access s Opcode.aload lengths [reference, int] (by decide)
  have s := op s Opcode.arraylength [int, int] (by decide)
  have s := s.branch Opcode.ificmpge (Label.numbered "index_done" (draft.scope.nextLabel + 1)) [int, int]
    (by decide) rfl
  -- The two characters of a length.
  have s := access s Opcode.aload lengths [reference] (by decide)
  have s := access s Opcode.iload cursor [int, reference] (by decide)
  have s := op s Opcode.caload [int] (by decide)
  have s := s.pushInt 15
  have s := op s Opcode.ishl [int] (by decide)
  have s := access s Opcode.aload lengths [reference, int] (by decide)
  have s := access s Opcode.iload cursor [int, reference, int] (by decide)
  have s := op s Opcode.iconst1 [int, int, reference, int] (by decide)
  have s := op s Opcode.iadd [int, reference, int] (by decide)
  have s := op s Opcode.caload [int, int] (by decide)
  have s := op s Opcode.ior [int] (by decide)
  have s := access s Opcode.istore length [] (by decide)
  -- The offset and the length are stored.
  have s := access s Opcode.aload index [reference] (by decide)
  have s := access s Opcode.iload cursor [int, reference] (by decide)
  have s := access s Opcode.iload offset [int, int, reference] (by decide)
  have s := op s Opcode.iastore [] (by decide)
  have s := access s Opcode.aload index [reference] (by decide)
  have s := access s Opcode.iload cursor [int, reference] (by decide)
  have s := op s Opcode.iconst1 [int, int, reference] (by decide)
  have s := op s Opcode.iadd [int, reference] (by decide)
  have s := access s Opcode.iload length [int, int, reference] (by decide)
  have s := op s Opcode.iastore [] (by decide)
  have s := access s Opcode.iload offset [int] (by decide)
  have s := access s Opcode.iload length [int, int] (by decide)
  have s := op s Opcode.iadd [int] (by decide)
  have s := access s Opcode.istore offset [] (by decide)
  have s := s.increment _ 2 cursor
  have s := s.goto (Label.numbered "index_next" draft.scope.nextLabel) rfl
  have s := s.deadLabel (Label.numbered "index_done" (draft.scope.nextLabel + 1)) rfl rfl
  have s := access s Opcode.aload index [reference] (by decide)
  simp only [toCharacters, invokeVirtual, Draft.astore, Draft.aload, Draft.istore, Draft.iload, Draft.op,
    Draft.newArray, Draft.pushInt, Draft.branch, Draft.increment, Draft.goto, drafts_emit,
    drafts_place]
  refine ⟨s, ?_⟩
  have before : draft.insnCount ≤ middle.insnCount := grown
  simp only [insnCount_add_insn, insnCount_add_label, add_scope]
  omega

theorem pushConsole_at : Pushes [reference] pushConsole := by
  intro draft s
  have s := s.newDup "java/io/BufferedReader"
  have s := s.newDup "java/io/InputStreamReader"
  have s := s.getStatic ⟨"java/lang/System", "in", "Ljava/io/InputStream;"⟩ [reference] (by decide)
  have s := s.invokeOn Opcode.invokespecial
    ⟨"java/io/InputStreamReader", "<init>", "(Ljava/io/InputStream;)V"⟩ [reference] [] (.inr rfl)
    (by decide)
  have s := s.invokeOn Opcode.invokespecial ⟨"java/io/BufferedReader", "<init>", "(Ljava/io/Reader;)V"⟩
    [reference] [] (.inr rfl) (by decide)
  simp only [pushConsole, Draft.newDup, Draft.getStatic, invokeSpecial, drafts_bind, drafts_emit]
  refine ⟨s, ?_⟩
  simp only [insnCount_add_insn, add_scope]
  omega

theorem Pushes.store {action : DraftM Unit} (pushes : Pushes [reference] action) {cell : Cell}
    (type : Descriptor.fieldTypes cell.descriptor = some [reference]) :
    Pushes [] (do
      action
      Draft.putCell cell) := by
  intro draft stands
  rw [drafts_bind]
  refine (pushes draft stands).mono ?_
  rintro _ middle ⟨pushed, few⟩
  rw [Draft.putCell, drafts_emit]
  refine ⟨pushed.putCell cell [reference] type, ?_⟩
  simp only [insnCount_add_insn, add_scope]
  omega

theorem prepare_at (data : DataTable) (cell : Cell) : Pushes [] (prepare data cell) := by
  have nothing : Pushes [] (pure ()) := fun draft stands => ⟨stands, Nat.le_refl _⟩
  cases cell with
  | cursorColumn | lastRandom | dataCursor | gosubDepth => exact nothing
  | dataIndex => exact (pushDataIndex_at data).store (by decide)
  | dataChars =>
      have characters : Pushes [reference] (do
          pushLongText data.joined
          toCharacters) := by
        intro draft stands
        rw [drafts_bind]
        refine (pushLongText_at stands data.joined).mono ?_
        rintro _ middle ⟨text, sameScope, grown⟩
        rw [toCharacters, invokeVirtual, drafts_emit]
        refine ⟨text.invokeOn _ ⟨_, _, _⟩ [] [reference] (.inl rfl) (by decide), ?_⟩
        simp only [insnCount_add_insn, add_scope, sameScope]
        omega
      exact characters.store (by decide)
  | gosubStack =>
      have array : Pushes [reference] (do
          Draft.pushInt FlowCode.gosubStackDepth
          Draft.newArray ElementType.int) := by
        intro draft stands
        have allocated := (stands.pushInt FlowCode.gosubStackDepth).newArray ElementType.int
        simp only [Draft.pushInt, Draft.newArray, drafts_bind, drafts_emit]
        refine ⟨allocated, ?_⟩
        simp only [insnCount_add_insn, add_scope]
        omega
      exact array.store (by decide)
  | console => exact pushConsole_at.store (by decide)

theorem prepareAll_at (data : DataTable) (cells : List Cell) : Pushes [] (prepareAll data cells) := by
  induction cells with
  | nil => exact fun draft stands => ⟨stands, Nat.le_refl _⟩
  | cons cell rest ih =>
      intro draft stands
      rw [prepareAll, drafts_bind]
      refine (prepare_at data cell draft stands).mono ?_
      rintro _ middle ⟨prepared, few⟩
      refine (ih middle prepared).mono ?_
      rintro _ final ⟨done, fewer⟩
      exact ⟨done, by omega⟩

end CellCode

namespace ClassInitializer

def draft (data : DataTable) (cells : List Cell) : Draft :=
  ((code data cells).run (.empty descriptor)).2

theorem draft_certified (data : DataTable) (cells : List Cell) :
    (draft data cells).Certified (region.frame (draft data cells).scope.nextSlot) ∧
      (draft data cells).scope.nextSlot ≤ (draft data cells).insnCount := by
  have start : (Draft.empty descriptor).At region (some []) maxStack.toNat :=
    ⟨⟨[], 0, rfl, .nil, rfl⟩, Scope.ofDescriptor_sound descriptor, rfl⟩
  have drafted : Drafts (code data cells) (.empty descriptor) fun _ final =>
      final.At region none maxStack.toNat ∧ final.scope.nextSlot ≤ final.insnCount := by
    rw [code, drafts_bind]
    refine (CellCode.prepareAll_at data cells _ start).mono ?_
    rintro _ middle ⟨prepared, few⟩
    rw [Draft.op, drafts_emit]
    refine ⟨prepared.ends Opcode.vreturn [] (by decide), ?_⟩
    simp only [insnCount_add_insn, add_scope]
    have empty : (Draft.empty descriptor).scope.nextSlot = 0 := by decide
    omega
  obtain ⟨stands, few⟩ := drafted
  refine ⟨⟨rfl, stands.whole rfl ?_, ?_⟩, few⟩
  · rintro _ ⟨⟩
    exact Nat.le_refl _
  intro handler member
  rw [show (draft data cells).handlers = #[] from stands.handlers] at member
  cases member

end ClassInitializer

namespace ClassInitializer

structure Allows (cells : List Cell) (item : Item) : Prop where
  hosted : item.Hosted
  noHelper : item.helper? = none
  noLine : item.line? = none
  known : ∀ cell, item.cell? = some cell → cell ∈ cells
  brief : Item.Brief [item]

theorem brief_of_none {item : Item} (none : ∀ insn, item = .insn insn → insn.texts = []) :
    Item.Brief [item] := by
  intro insn isItem text member
  rw [none insn (List.mem_singleton.mp isItem).symm] at member
  cases member

theorem brief_of_small {insn : Insn} (small : ∀ text ∈ insn.texts, text.utf8ByteSize ≤ 10000) :
    Item.Brief [.insn insn] := by
  intro other isItem text member
  rw [Item.insn.inj (List.mem_singleton.mp isItem)] at member
  exact ConstantPool.brief_of_bytes (small text member)

theorem Allows.label {cells : List Cell} (label : Label) : Allows cells (.label label) :=
  ⟨trivial, rfl, rfl, nofun, brief_of_none nofun⟩

theorem Allows.simple {cells : List Cell} {insn : Insn} (simple : insn.isSimple = true) :
    Allows cells (.insn insn) := by
  cases insn with
  | op | branch | pushFloat | pushInt | access | increment | newArray =>
      exact ⟨trivial, rfl, rfl, nofun, brief_of_none (by rintro _ ⟨⟩; rfl)⟩
  | tableSwitch | pushText | field | invoke | newDup | newRefArray | newMultiArray | call | getCell
  | putCell => cases simple

end ClassInitializer

namespace CellCode

open ClassInitializer

variable {cells : List Cell}

theorem chunksAfter_length (length fuel : Nat) (characters : List Char) (done : List (List Char)) :
    (chunksAfter length fuel characters done).length ≤ done.length + fuel ∧
      ((chunksAfter length fuel characters done).map List.length).sum ≤
        (done.map List.length).sum + characters.length := by
  induction fuel generalizing characters done with
  | zero => simp [chunksAfter]
  | succ fuel ih =>
      simp only [chunksAfter]
      split
      · simp
      · obtain ⟨count, total⟩ := ih (characters.drop length) (characters.take length :: done)
        simp only [List.length_cons, List.map_cons, List.sum_cons, List.length_take,
          List.length_drop] at count total
        omega

theorem chunks_length (text : String) :
    (chunks text).length ≤ text.length + 1 ∧ ((chunks text).map String.length).sum ≤ text.length := by
  unfold chunks
  dsimp only
  split
  · simp
  · obtain ⟨count, total⟩ := chunksAfter_length chunkLength text.toList.length text.toList []
    simp only [List.length_map, List.map_map, String.length_toList, List.length_nil, List.map_nil,
      List.sum_nil] at count total ⊢
    refine ⟨by omega, ?_⟩
    have same : String.length ∘ String.ofList = List.length := by
      funext characters
      simp
    rw [same]
    omega

theorem joinTexts_writes : Writes (Allows cells) 102 joinTexts :=
  .emit ⟨by decide, rfl, rfl, nofun, brief_of_small (by decide +kernel)⟩ (by decide +kernel)

theorem toCharacters_writes : Writes (Allows cells) 102 toCharacters :=
  .emit ⟨by decide, rfl, rfl, nofun, brief_of_small (by decide +kernel)⟩ (by decide +kernel)

theorem pushText_writes {text : String} (brief : ConstantPool.Brief text) :
    Writes (Allows cells) (6 + 6 * text.length) (Draft.pushText text) := by
  refine .emit ⟨trivial, rfl, rfl, nofun, ?_⟩ (Insn.pushText_load text)
  intro insn isItem other member
  rw [Item.insn.inj (List.mem_singleton.mp isItem)] at member
  exact List.mem_singleton.mp member ▸ brief

theorem joinChunks_writes {texts : List String} (brief : ∀ text ∈ texts, ConstantPool.Brief text) :
    Writes (Allows cells) (108 * texts.length + 6 * (texts.map String.length).sum) (joinChunks texts) := by
  induction texts with
  | nil => exact .pure ()
  | cons first rest ih =>
      obtain ⟨head, tail⟩ := List.forall_mem_cons.mp brief
      refine ((pushText_writes head).bind fun _ => joinTexts_writes.bind fun _ => ih tail).mono ?_
      simp only [List.length_cons, List.map_cons, List.sum_cons]
      omega

theorem pushLongText_writes (text : String) :
    Writes (Allows cells) (114 * text.length + 108) (pushLongText text) := by
  obtain ⟨count, total⟩ := chunks_length text
  have brief := chunks_brief text
  unfold pushLongText
  split
  · exact (Writes.pure ()).mono (Nat.zero_le _)
  · rename_i first rest isChunks
    rw [isChunks] at count total brief
    obtain ⟨head, tail⟩ := List.forall_mem_cons.mp brief
    refine ((pushText_writes head).bind fun _ => joinChunks_writes tail).mono ?_
    simp only [List.length_cons, List.map_cons, List.sum_cons] at count total
    omega

theorem simple_writes {insn : Insn} (simple : insn.isSimple = true) :
    Writes (Allows cells) 6 (Draft.emit insn) :=
  .emit (.simple simple) (Nat.le_of_eq (Insn.load_of_simple simple))

theorem putCell_writes {cell : Cell} (member : cell ∈ cells) : Writes (Allows cells) 6 (Draft.putCell cell) :=
  .emit ⟨trivial, rfl, rfl, by rintro _ ⟨⟩; exact member, brief_of_none (by rintro _ ⟨⟩; rfl)⟩
    (Nat.le_refl 6)

theorem pushDataIndex_writes (data : DataTable) :
    Writes (Allows cells) (114 * data.lengthsText.length + 540) (pushDataIndex data) := by
  apply Writes.mono
  · iterate 5 apply (Writes.temporary _).bind; intro _
    iterate 2 apply (Writes.freshLabel _).bind; intro _
    apply (pushLongText_writes _).bind; intro _
    apply toCharacters_writes.bind; intro _
    iterate 9 apply (simple_writes rfl).bind; intro _
    apply (Writes.place (.label _)).bind; intro _
    iterate 32 apply (simple_writes rfl).bind; intro _
    apply (Writes.place (.label _)).bind; intro _
    exact simple_writes rfl
  · omega

theorem pushConsole_writes : Writes (Allows cells) 540 pushConsole := by
  have step {insn : Insn} (plain : Item.helper? (.insn insn) = none ∧ Item.cell? (.insn insn) = none)
      (hosted : Item.Hosted (.insn insn))
      (bound : insn.load ≤ 108 ∧ ∀ text ∈ insn.texts, text.utf8ByteSize ≤ 10000) :
      Writes (Allows cells) 108 (Draft.emit insn) :=
    .emit ⟨hosted, plain.1, rfl, by simp [plain.2], brief_of_small bound.2⟩ bound.1
  exact (step ⟨rfl, rfl⟩ (by decide) (by decide +kernel)).bind fun _ =>
    (step ⟨rfl, rfl⟩ (by decide) (by decide +kernel)).bind fun _ =>
    (step ⟨rfl, rfl⟩ (by decide) (by decide +kernel)).bind fun _ =>
    (step ⟨rfl, rfl⟩ (by decide) (by decide +kernel)).bind fun _ =>
    step ⟨rfl, rfl⟩ (by decide) (by decide +kernel)

def preparation (data : DataTable) : Cell → Nat
  | .gosubStack => 18
  | .console => 546
  | .dataChars => 114 * data.joined.length + 216
  | .dataIndex => 114 * data.lengthsText.length + 546
  | .cursorColumn | .lastRandom | .dataCursor | .gosubDepth => 0

theorem prepare_writes (data : DataTable) {cell : Cell} (member : cell ∈ cells) :
    Writes (Allows cells) (preparation data cell) (prepare data cell) := by
  cases cell with
  | cursorColumn | lastRandom | dataCursor | gosubDepth => exact .pure ()
  | dataIndex => exact (pushDataIndex_writes data).bind fun _ => putCell_writes member
  | dataChars =>
      exact ((pushLongText_writes _).bind fun _ => toCharacters_writes.bind fun _ =>
        putCell_writes member).mono (by simp only [preparation]; omega)
  | gosubStack =>
      exact (simple_writes rfl).bind fun _ => (simple_writes rfl).bind fun _ => putCell_writes member
  | console => exact pushConsole_writes.bind fun _ => putCell_writes member

theorem prepareAll_writes (data : DataTable) {some : List Cell} (within : ∀ cell ∈ some, cell ∈ cells) :
    Writes (Allows cells) (some.map (preparation data)).sum (prepareAll data some) := by
  induction some with
  | nil => exact .pure ()
  | cons first rest ih =>
      obtain ⟨member, members⟩ := List.forall_mem_cons.mp within
      exact (prepare_writes data member).bind fun _ => ih members

end CellCode

namespace ClassInitializer

theorem draft_grows (data : DataTable) (cells : List Cell) :
    (Draft.empty descriptor).Grows (Allows cells) ((cells.map (CellCode.preparation data)).sum + 6)
      (draft data cells) :=
  ((CellCode.prepareAll_writes data fun _ member => member).bind
    fun _ => CellCode.simple_writes rfl).grows (.empty descriptor)

theorem allows_of_mem {data : DataTable} {cells : List Cell} {item : Item}
    (member : item ∈ (draft data cells).items.toList) : Allows cells item := by
  obtain ⟨added, items, allows⟩ := (draft_grows data cells).items
  rw [items] at member
  exact allows item member

theorem draft_brief (data : DataTable) (cells : List Cell) :
    Item.Brief (draft data cells).items.toList :=
  fun insn member => (allows_of_mem member).brief insn (List.mem_singleton.mpr rfl)

theorem draft_helpers (data : DataTable) (cells : List Cell) :
    Item.helpers (draft data cells).items.toList = [] :=
  List.filterMap_eq_nil_iff.mpr fun _ member => (allows_of_mem member).noHelper

theorem draft_cells (data : DataTable) (cells : List Cell) :
    ∀ cell ∈ Item.cells (draft data cells).items.toList, cell ∈ cells := by
  intro cell member
  obtain ⟨item, isItem, uses⟩ := List.mem_filterMap.mp member
  exact (allows_of_mem isItem).known cell uses

end ClassInitializer

end BasicCompiler
