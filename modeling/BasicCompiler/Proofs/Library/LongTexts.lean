import BasicCompiler.Library.Code.Cell
import BasicCompiler.Proofs.ClassFile.Pool
import BasicCompiler.Proofs.Method.Drafting
import BasicCompiler.Proofs.Program.DataTables

/-!
A text of any length is pushed as constants that are joined. The constants make up the text, none of
them ends inside of a character, and each of them fits into an entry of a pool.
-/

namespace BasicCompiler

namespace Utf16

def Whole (codes : List UInt16) : Prop :=
  (∀ unit ∈ codes.head?, isLowSurrogate unit = false) ∧
    ∀ unit ∈ codes.getLast?, isHighSurrogate unit = false

theorem units_whole (character : Char) : Whole (units character) := by
  have valid := toNat_valid character
  have notLow (unit : UInt16) (outside : unit.toNat < 0xDC00 ∨ 0xE000 ≤ unit.toNat) :
      isLowSurrogate unit = false := by
    rw [← Bool.not_eq_true, isLowSurrogate_iff]
    omega
  have notHigh (unit : UInt16) (outside : unit.toNat < 0xD800 ∨ 0xDC00 ≤ unit.toNat) :
      isHighSurrogate unit = false := by
    rw [← Bool.not_eq_true, isHighSurrogate_iff]
    omega
  unfold units Whole
  dsimp only
  split
  · rename_i basic
    have code := toNat_ofNat_of_lt basic
    simp only [List.head?_cons, List.getLast?_singleton, Option.mem_some_iff, forall_eq']
    exact ⟨notLow _ (by omega), notHigh _ (by omega)⟩
  · simp only [List.head?_cons, List.getLast?_cons_cons, List.getLast?_singleton, Option.mem_some_iff,
      forall_eq']
    refine ⟨notLow _ ?_, notHigh _ ?_⟩
    · rw [toNat_ofNat_of_lt (by omega)]
      omega
    · rw [toNat_ofNat_of_lt (by omega)]
      omega

theorem units_ne_nil (character : Char) : units character ≠ [] := by
  unfold units
  dsimp only
  split <;> exact List.cons_ne_nil _ _

theorem length_encode_le (text : List Char) : (encode text).length ≤ 2 * text.length := by
  induction text with
  | nil => exact Nat.le_refl 0
  | cons first rest ih =>
      have one : (units first).length ≤ 2 := by
        unfold units
        dsimp only
        split
        · exact Nat.le_succ 1
        · exact Nat.le_refl 2
      rw [encode, List.flatMap_cons, List.length_append, ← encode, List.length_cons]
      omega

theorem encode_whole (characters : List Char) : Whole (encode characters) := by
  constructor
  · cases characters with
    | nil =>
        intro unit isHead
        cases isHead
    | cons first rest =>
        intro unit isHead
        rw [encode, List.flatMap_cons, List.head?_append_of_ne_nil _ (units_ne_nil first)] at isHead
        exact (units_whole first).1 unit isHead
  · rcases List.eq_nil_or_concat characters with rfl | ⟨front, last, rfl⟩
    · intro unit isLast
      cases isLast
    · intro unit isLast
      rw [encode, List.concat_eq_append, List.flatMap_append, List.flatMap_singleton,
        List.getLast?_append_of_ne_nil _ (units_ne_nil last)] at isLast
      exact (units_whole last).2 unit isLast

end Utf16

namespace CellCode

open Draft Utf16

theorem chunksAfter_flatten {length fuel : Nat} (positive : 0 < length) {characters : List Char}
    (enough : characters.length ≤ fuel) (done : List (List Char)) :
    (chunksAfter length fuel characters done).flatten = done.reverse.flatten ++ characters := by
  induction fuel generalizing characters done with
  | zero =>
      rw [List.length_eq_zero_iff.mp (Nat.le_zero.mp enough)]
      simp [chunksAfter]
  | succ fuel ih =>
      cases characters with
      | nil => simp [chunksAfter]
      | cons first rest =>
          have fewer : ((first :: rest).drop length).length ≤ fuel := by
            rw [List.length_drop]
            omega
          rw [chunksAfter, List.isEmpty_cons, if_neg Bool.false_ne_true, ih fewer]
          simp [List.take_append_drop]

theorem chunksAfter_short {length fuel : Nat} {characters : List Char} {done : List (List Char)}
    (short : ∀ piece ∈ done, piece.length ≤ length) :
    ∀ piece ∈ chunksAfter length fuel characters done, piece.length ≤ length := by
  induction fuel generalizing characters done with
  | zero => simpa [chunksAfter] using short
  | succ fuel ih =>
      simp only [chunksAfter]
      split
      · simpa using short
      · exact ih (List.forall_mem_cons.mpr ⟨List.length_take_le _ _, short⟩)

theorem chunks_join (text : String) : String.join (chunks text) = text := by
  have positive : 0 < chunkLength := by decide
  have flattened := chunksAfter_flatten positive (Nat.le_refl text.toList.length) []
  have joined (pieces : List (List Char)) :
      String.join (pieces.map String.ofList) = String.ofList pieces.flatten := by
    induction pieces with
    | nil => rfl
    | cons first rest ih =>
        rw [List.map_cons, String.join_cons, ih, List.flatten_cons, String.ofList_append]
  unfold chunks
  dsimp only
  split
  · rename_i empty
    rw [List.isEmpty_iff, String.toList_eq_nil_iff] at empty
    rw [empty]
    rfl
  · rw [joined, flattened]
    simp

theorem chunks_short (text : String) : ∀ piece ∈ chunks text, piece.length ≤ chunkLength := by
  unfold chunks
  dsimp only
  split
  · simp
  · intro piece member
    obtain ⟨characters, isPiece, rfl⟩ := List.mem_map.mp member
    rw [String.length_ofList]
    exact chunksAfter_short (by simp) characters isPiece

theorem chunks_brief (text : String) : ∀ piece ∈ chunks text, ConstantPool.Brief piece := by
  intro piece member
  have bytes := ModifiedUtf8.encode_length_le piece
  have short := chunks_short text piece member
  simp only [chunkLength] at short
  simp only [ConstantPool.Brief, ConstantPool.maxTextLength]
  omega

def appendCode (piece : String) : List Insn :=
  [.pushText piece,
    .invoke Opcode.invokevirtual ⟨stringClass, "concat", "(Ljava/lang/String;)Ljava/lang/String;"⟩]

def joinCode : List String → List Insn
  | [] => []
  | first :: rest => .pushText first :: rest.flatMap appendCode

theorem joinCode_plain (pieces : List String) : ∀ insn ∈ joinCode pieces, insn.labels = [] := by
  cases pieces with
  | nil => exact fun _ member => nomatch member
  | cons first rest =>
      refine List.forall_mem_cons.mpr ⟨rfl, fun insn member => ?_⟩
      obtain ⟨piece, _, isPart⟩ := List.mem_flatMap.mp member
      simp only [appendCode, List.mem_cons, List.not_mem_nil, or_false] at isPart
      rcases isPart with rfl | rfl <;> rfl

theorem joinChunks_items (texts : List String) (draft : Draft) :
    Drafts (joinChunks texts) draft fun _ final =>
      final.items.toList = draft.items.toList ++ (texts.flatMap appendCode).map .insn ∧
      final.scope = draft.scope := by
  induction texts generalizing draft with
  | nil => exact ⟨(List.append_nil _).symm, rfl⟩
  | cons first rest ih =>
      simp only [joinChunks, joinTexts, invokeVirtual, Draft.pushText, drafts_bind, drafts_emit]
      refine (ih _).mono ?_
      rintro _ final ⟨items, sameScope⟩
      exact ⟨by simp [items, appendCode], sameScope⟩

theorem pushLongText_items (text : String) (draft : Draft) :
    Drafts (pushLongText text) draft fun _ final =>
      final.items.toList = draft.items.toList ++ (joinCode (chunks text)).map .insn ∧
      final.scope = draft.scope := by
  unfold pushLongText
  split
  · rename_i none
    rw [none]
    exact ⟨(List.append_nil _).symm, rfl⟩
  · rename_i first rest some
    rw [drafts_bind, Draft.pushText, drafts_emit, some]
    refine (joinChunks_items rest _).mono ?_
    rintro _ final ⟨items, sameScope⟩
    exact ⟨by simp [items, joinCode], sameScope⟩

end CellCode

end BasicCompiler
