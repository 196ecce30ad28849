import BasicCompiler.Proofs.Compile.WellFormedClass
import BasicCompiler.Proofs.Execution.Initializer

/-!
The data cells of a class. When the class is initialized they hold the texts of the data items of its
program, joined, and the place of every item in them.
-/

namespace BasicCompiler

open Utf16 Stmt Draft Process

theorem Item.count_append (first second : List Item) : count (first ++ second) = count first + count second :=
  List.countP_append

theorem Writes.insnCount_le {α : Type} {allowed : Item → Prop} {cost : Nat} {action : DraftM α}
    (writes : Writes allowed cost action) (draft : Draft) :
    Drafts action draft fun _ final => draft.insnCount ≤ final.insnCount := by
  refine (writes.grows draft).mono fun _ final grows => ?_
  obtain ⟨added, items, _⟩ := grows.items
  rw [insnCount, insnCount, items, Item.count_append]
  exact Nat.le_add_right _ _

namespace CellCode

theorem length_le_chunks (text : String) : text.length ≤ chunkLength * (chunks text).length := by
  have bound (pieces : List String) (short : ∀ piece ∈ pieces, piece.length ≤ chunkLength) :
      (String.join pieces).length ≤ chunkLength * pieces.length := by
    induction pieces with
    | nil => exact Nat.zero_le _
    | cons first rest ih =>
        obtain ⟨head, tail⟩ := List.forall_mem_cons.mp short
        have later := ih tail
        rw [String.join_cons, String.length_append, List.length_cons, Nat.mul_add]
        omega
  have whole := bound (chunks text) (chunks_short text)
  rwa [chunks_join] at whole

theorem length_le_joinCode (pieces : List String) : pieces.length ≤ (joinCode pieces).length := by
  cases pieces with
  | nil => exact Nat.zero_le _
  | cons first rest =>
      have appended : rest.length ≤ (rest.flatMap appendCode).length := by
        induction rest with
        | nil => exact Nat.zero_le _
        | cons piece rest ih =>
            rw [List.flatMap_cons, List.length_append, List.length_cons]
            have two : (appendCode piece).length = 2 := rfl
            omega
      rw [joinCode, List.length_cons, List.length_cons]
      omega

theorem prepareAll_insnCount (data : DataTable) {cells : List Cell} (member : .dataIndex ∈ cells)
    (draft : Draft) : Drafts (prepareAll data cells) draft fun _ final =>
      (chunks data.lengthsText).length + draft.insnCount ≤ final.insnCount := by
  induction cells generalizing draft with
  | nil => cases member
  | cons first rest ih =>
      rw [prepareAll, drafts_bind]
      by_cases isIndex : first = .dataIndex
      · subst isIndex
        have pushed : Drafts (prepare data .dataIndex) draft fun _ middle =>
            (chunks data.lengthsText).length + draft.insnCount ≤ middle.insnCount := by
          rw [prepare, drafts_bind]
          refine (pushDataIndex_items data draft).mono ?_
          rintro _ between ⟨items, _⟩
          rw [Draft.putCell, drafts_emit, insnCount_add_insn]
          have constants := length_le_joinCode (chunks data.lengthsText)
          have counted : Item.count ((joinCode (chunks data.lengthsText)).map .insn) =
              (joinCode (chunks data.lengthsText)).length := by
            simp [Item.count]
          simp only [insnCount, items, Item.count_append, counted]
          omega
        refine pushed.mono fun _ middle few => ?_
        exact ((prepareAll_writes data fun _ member => member).insnCount_le middle).mono fun _ final grown =>
          Nat.le_trans few grown
      · have later := (List.mem_cons.mp member).resolve_left (Ne.symm isIndex)
        refine ((prepare_writes data (List.mem_singleton.mpr rfl)).insnCount_le draft).mono ?_
        intro _ middle grown
        exact (ih later middle).mono fun _ final few => Nat.le_trans (Nat.add_le_add_left grown _) few

end CellCode

def Item.constants (items : List Item) : List String :=
  items.filterMap fun item => match item with
    | .insn (.pushText text) => some text
    | _ => none

theorem CellCode.joinCode_constants (pieces : List String) :
    Item.constants ((joinCode pieces).map .insn) = pieces := by
  have appended (rest : List String) : Item.constants ((rest.flatMap appendCode).map .insn) = rest := by
    induction rest with
    | nil => rfl
    | cons piece rest ih => exact congrArg (piece :: ·) ih
  cases pieces with
  | nil => rfl
  | cons first rest => exact congrArg (first :: ·) (appended rest)

namespace ClassInitializer

theorem lengthsText_small {data : DataTable} {cells : List Cell} (member : .dataIndex ∈ cells)
    (few : (draft data cells).insnCount ≤ 65535) :
    (unitsOf data.lengthsText).length < lengthLimit := by
  have units := length_encode_le data.lengthsText.toList
  have characters := CellCode.length_le_chunks data.lengthsText
  have counted : (CellCode.chunks data.lengthsText).length + (Draft.empty descriptor).insnCount ≤
      ((CellCode.prepareAll data cells).run (.empty descriptor)).2.insnCount :=
    CellCode.prepareAll_insnCount data member (.empty descriptor)
  have last : (draft data cells).insnCount =
      ((CellCode.prepareAll data cells).run (.empty descriptor)).2.insnCount + 1 :=
    insnCount_add_insn _ _
  rw [String.length_toList] at units
  simp only [CellCode.chunkLength] at characters
  simp only [unitsOf, lengthLimit]
  omega

theorem build_refused {options : Options} {data : DataTable} {build final : Build} {length : Nat}
    (refused : (ClassInitializer.build options data).run build =
      (.error (.classFile (.textTooLong length)), final)) :
    length = (ModifiedUtf8.encode options.className).length ∧ 65535 < length := by
  have costs (cells : List Cell) : Costs (Build.ledger False) (· = options.className)
      (draft data cells).cost ((draft data cells).finish (header options)) := by
    refine Draft.finish_costs (fun _ => rfl) ?_ ?_
    · exact fun insn member text isText => absurd (draft_brief data cells insn member text isText)
    · intro handler member
      rw [(draft_grows data cells).handlers] at member
      cases member
  have ends : Ends (ClassInitializer.build options data) build (fun _ _ => True) fun error _ =>
      ∃ size, ∀ cause, error = .classFile cause → ConstantPool.Exceeds (· = options.className) size cause := by
    unfold ClassInitializer.build
    rw [ends_bind, ends_get]
    refine (costs build.library.cells.toList build nofun).mono (fun _ _ _ => trivial) ?_
    exact fun error _ limits => ⟨_, fun cause isCause => limits cause (isCause ▸ rfl)⟩
  rw [Ends, refused] at ends
  obtain ⟨_, limits⟩ := ends
  rcases limits _ rfl with ⟨isOverflow, _⟩ | ⟨text, rfl, long, isLong⟩
  · cases isOverflow
  · cases isLong
    exact ⟨rfl, Nat.lt_of_not_le long⟩

end ClassInitializer

namespace DataTable

theorem flatMap_places {places : List (Int32 × Int32)} {entries : List DataEntry}
    (same : places.map (fun place => (place.1.toInt, place.2.toInt)) =
      entries.map fun entry => ((entry.offset : Int), (entry.length : Int))) :
    (places.flatMap fun place => [place.1, place.2]).map Int32.toInt =
      entries.flatMap fun entry => [(entry.offset : Int), (entry.length : Int)] := by
  have flattened := congrArg (List.flatMap fun pair : Int × Int => [pair.1, pair.2]) same
  simpa [List.flatMap_map, List.map_flatMap] using flattened

/-- A program with data items in both arms of a conditional, one of them empty and one outside of the
basic plane. -/
def stock : Program :=
  [.data ["PEN", ""], .conditional (.scalar ⟨"N"⟩) [.data ["🖊", "é"]] [.data ["7"]],
    .read [.scalar ⟨"N"⟩]]

end DataTable

end BasicCompiler
