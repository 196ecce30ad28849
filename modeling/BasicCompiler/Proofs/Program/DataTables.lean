import Mathlib.Algebra.GroupWithZero.Nat
import Mathlib.Data.List.Basic
import BasicCompiler.Program.Data
import BasicCompiler.Proofs.Program.Statements
import BasicCompiler.Proofs.Text.Spelling

/-!
The data table of a program holds its data items: cutting the joined text at the entries gives the
texts back, and the entries can be computed from the lengths that are written as text.
-/

namespace BasicCompiler

namespace Utf16

def unitsOf (text : String) : List UInt16 := encode text.toList

@[simp] theorem unitsOf_append (first second : String) :
    unitsOf (first ++ second) = unitsOf first ++ unitsOf second := by
  simp [unitsOf, encode]

theorem unitsOf_join (texts : List String) : unitsOf (String.join texts) = texts.flatMap unitsOf := by
  induction texts with
  | nil => rfl
  | cons first rest ih => rw [String.join_cons, unitsOf_append, ih, List.flatMap_cons]

theorem length_eq (text : String) : length text = (unitsOf text).length := by
  have counted (characters : List Char) (count : Nat) :
      characters.foldl (fun count character => count + (units character).length) count =
        count + (encode characters).length := by
    induction characters generalizing count with
    | nil => rfl
    | cons first rest ih =>
        have split : encode (first :: rest) = units first ++ encode rest := List.flatMap_cons
        rw [List.foldl_cons, ih, split, List.length_append, Nat.add_assoc]
  rw [length, counted, Nat.zero_add, unitsOf]

end Utf16

namespace Stmt

open DataTable

def dataItems : Stmt → List String
  | data texts => texts
  | _ => []

def dataTexts (stmts : List Stmt) : List String := (inlinedAll stmts).flatMap dataItems

theorem dataTexts_cons (first : Stmt) (rest : List Stmt) :
    dataTexts (first :: rest) = dataTexts [first] ++ dataTexts rest := by
  simp [dataTexts, inlinedAll]

theorem dataTexts_conditional (condition : Expr) (thenBody elseBody : List Stmt) :
    dataTexts [conditional condition thenBody elseBody] = dataTexts thenBody ++ dataTexts elseBody := by
  rw [dataTexts, inlinedAll_conditional, List.flatMap_cons, List.flatMap_append]
  rfl

end Stmt

def DataEntry.cut (entry : DataEntry) (units : List UInt16) : List UInt16 :=
  (units.drop entry.offset).take entry.length

namespace DataTable

open Utf16 Stmt

def texts (table : DataTable) : List String := table.items.toList.map DataItem.text

theorem addItems_texts (table : DataTable) (line : Option LineNumber) (added : List String) :
    (table.addItems line added).texts = table.texts ++ added := by
  unfold addItems
  induction added generalizing table with
  | nil => simp
  | cons first rest ih =>
      rw [List.foldl_cons, ih]
      simp [texts]

mutual

theorem scanStmt_texts (stmt : Stmt) (state : Option LineNumber × DataTable) :
    (scanStmt stmt state).2.texts = state.2.texts ++ dataTexts [stmt] := by
  cases stmt with
  | data added =>
      rw [scanStmt, addItems_texts]
      simp [dataTexts, inlinedAll, inlined, dataItems]
  | conditional condition thenBody elseBody =>
      rw [scanStmt, scanStmts_texts elseBody, scanStmts_texts thenBody, dataTexts_conditional,
        List.append_assoc]
  | _ => simp [scanStmt, dataTexts, inlinedAll, inlined, dataItems]

theorem scanStmts_texts (stmts : List Stmt) (state : Option LineNumber × DataTable) :
    (scanStmts stmts state).2.texts = state.2.texts ++ dataTexts stmts := by
  cases stmts with
  | nil => simp [scanStmts, dataTexts, inlinedAll]
  | cons first rest =>
      rw [scanStmts, scanStmts_texts rest, scanStmt_texts first, dataTexts_cons first rest,
        List.append_assoc]

end

theorem scan_texts (program : Program) : (scan program).texts = dataTexts program := by
  rw [scan, scanStmts_texts]
  rfl

theorem entriesAfter_append (texts : List String) (offset : Nat) (done : List DataEntry) :
    entriesAfter texts offset done = done.reverse ++ entriesAfter texts offset [] := by
  induction texts generalizing offset done with
  | nil => simp [entriesAfter]
  | cons first rest ih =>
      simp only [entriesAfter]
      rw [ih _ (_ :: done), ih _ [_]]
      simp

theorem entriesAfter_cons (first : String) (rest : List String) (offset : Nat) :
    entriesAfter (first :: rest) offset [] =
      ⟨offset, length first⟩ :: entriesAfter rest (offset + length first) [] := by
  rw [entriesAfter, entriesAfter_append]
  rfl

theorem entriesAfter_cut (texts : List String) (front : List UInt16) :
    (entriesAfter texts front.length []).map (DataEntry.cut · (front ++ texts.flatMap unitsOf)) =
      texts.map unitsOf := by
  induction texts generalizing front with
  | nil => rfl
  | cons first rest ih =>
      have grown : front.length + length first = (front ++ unitsOf first).length := by
        rw [List.length_append, length_eq]
      have later := ih (front ++ unitsOf first)
      rw [List.append_assoc] at later
      rw [entriesAfter_cons, grown, List.map_cons, List.flatMap_cons, later, List.map_cons,
        DataEntry.cut, length_eq, List.drop_left, List.take_left]

theorem entries_cut (table : DataTable) :
    table.entries.map (DataEntry.cut · (unitsOf table.joined)) = table.texts.map unitsOf := by
  have joined : unitsOf table.joined = [] ++ table.texts.flatMap unitsOf := unitsOf_join _
  rw [joined]
  exact entriesAfter_cut table.texts []

def lengthUnits (length : Nat) : List UInt16 :=
  [UInt16.ofNat (length / 0x8000), UInt16.ofNat (length % 0x8000)]

theorem encode_lengthChars {length : Nat} (short : length < 1073741824) :
    encode (lengthChars length) = lengthUnits length := by
  have upper : length / 0x8000 < 0xD800 := by omega
  have lower : length % 0x8000 < 0xD800 := by omega
  have single {code : Nat} (small : code < 0xD800) : units (Char.ofNat code) = [UInt16.ofNat code] := by
    have isCode : (Char.ofNat code).toNat = code := toNat_ofNat_of_valid (.inl small)
    simp only [units, isCode]
    exact if_pos (by omega)
  have characters : lengthChars length =
      [Char.ofNat (length / 0x8000), Char.ofNat (length % 0x8000)] := by
    simp [lengthChars, Nat.isValidChar, upper, lower]
  simp only [characters, encode, List.flatMap_cons, List.flatMap_nil, single upper, single lower]
  rfl

/-- The offset and the length of every item, from code units that tell the upper and then the lower
fifteen bits of the lengths. The arithmetic is that of integers of thirty-two bits. -/
def placesFrom (offset : Int32) : List UInt16 → List (Int32 × Int32)
  | upper :: lower :: rest =>
    let length := (Int32.ofNat upper.toNat <<< 15) ||| Int32.ofNat lower.toNat
    (offset, length) :: placesFrom (offset + length) rest
  | _ => []

theorem shift_or_ofNat {upper lower : Nat} (upperBound : upper < 0x8000) (lowerBound : lower < 0x8000) :
    (Int32.ofNat upper <<< 15) ||| Int32.ofNat lower = Int32.ofNat (upper * 0x8000 + lower) := by
  have shifted : upper <<< 15 = upper * 0x8000 := by rw [Nat.shiftLeft_eq]
  have joined : upper <<< 15 + lower = upper <<< 15 ||| lower :=
    Nat.shiftLeft_add_eq_or_of_lt lowerBound upper
  apply Int32.toBitVec_inj.mp
  apply BitVec.eq_of_toNat_eq
  simp only [Int32.toBitVec_or, Int32.toBitVec_shiftLeft, Int32.toBitVec_ofNat', BitVec.toNat_or,
    BitVec.toNat_ofNat]
  simp
  have upperSame : upper % 4294967296 = upper := Nat.mod_eq_of_lt (by omega)
  have lowerSame : lower % 4294967296 = lower := Nat.mod_eq_of_lt (by omega)
  have shiftedSame : upper <<< 15 % 4294967296 = upper <<< 15 := Nat.mod_eq_of_lt (by omega)
  rw [upperSame, lowerSame, shiftedSame, ← joined, shifted, Nat.mod_eq_of_lt (by omega)]

/-- The places of items are found from their lengths, whatever the offset of the first one is. -/
theorem placesFrom_lengthUnits (texts : List String) (offset : Nat)
    (short : ∀ text ∈ texts, length text < 1073741824) :
    placesFrom (Int32.ofNat offset) ((texts.map length).flatMap lengthUnits) =
      (entriesAfter texts offset []).map fun entry =>
        (Int32.ofNat entry.offset, Int32.ofNat entry.length) := by
  induction texts generalizing offset with
  | nil => rfl
  | cons first rest ih =>
      obtain ⟨head, tail⟩ := List.forall_mem_cons.mp short
      have whole : length first / 0x8000 * 0x8000 + length first % 0x8000 = length first := by omega
      rw [entriesAfter_cons, List.map_cons, List.flatMap_cons, lengthUnits, List.cons_append,
        List.cons_append, List.nil_append, placesFrom, toNat_ofNat_of_lt (by omega),
        toNat_ofNat_of_lt (by omega), shift_or_ofNat (by omega) (by omega), whole,
        ← Int32.ofNat_add, ih _ tail, List.map_cons]

theorem entriesAfter_lengths (texts : List String) (offset : Nat) :
    (entriesAfter texts offset []).map DataEntry.length = texts.map length := by
  induction texts generalizing offset with
  | nil => rfl
  | cons first rest ih => rw [entriesAfter_cons, List.map_cons, ih, List.map_cons]

theorem entriesAfter_bound (texts : List String) (offset : Nat) :
    ∀ entry ∈ entriesAfter texts offset [],
      entry.offset + entry.length ≤ offset + (texts.map length).sum := by
  induction texts generalizing offset with
  | nil => simp [entriesAfter]
  | cons first rest ih =>
      rw [entriesAfter_cons, List.map_cons, List.sum_cons]
      intro entry member
      rcases List.mem_cons.mp member with rfl | later
      · dsimp only
        omega
      · have bound := ih _ entry later
        omega

/-- Every item is short enough for its length to be told in thirty bits, and the offsets stay below the
greatest integer. -/
structure Short (table : DataTable) : Prop where
  each : ∀ text ∈ table.texts, length text < 1073741824
  together : (table.texts.map length).sum < 2147483648

theorem joined_units_length (table : DataTable) :
    (unitsOf table.joined).length = (table.texts.map length).sum := by
  rw [joined, unitsOf_join, List.length_flatMap]
  exact congrArg List.sum (List.map_congr_left fun text _ => (length_eq text).symm)

theorem lengthsText_units {table : DataTable} (short : ∀ text ∈ table.texts, length text < 1073741824) :
    unitsOf table.lengthsText = (table.texts.map length).flatMap lengthUnits := by
  have lengths : table.entries.map DataEntry.length = table.texts.map length :=
    entriesAfter_lengths table.texts 0
  rw [← lengths, unitsOf, lengthsText, String.toList_ofList, encode, List.flatMap_assoc,
    List.flatMap_map]
  refine List.flatMap_congr fun entry member => encode_lengthChars ?_
  have isLength : entry.length ∈ table.texts.map length := lengths ▸ List.mem_map_of_mem member
  obtain ⟨text, isText, same⟩ := List.mem_map.mp isLength
  exact same ▸ short text isText

theorem lengthsText_units_length {table : DataTable}
    (short : ∀ text ∈ table.texts, length text < 1073741824) :
    (unitsOf table.lengthsText).length = 2 * table.entries.length := by
  have two (lengths : List Nat) : (lengths.flatMap lengthUnits).length = 2 * lengths.length := by
    induction lengths with
    | nil => rfl
    | cons first rest ih =>
        rw [List.flatMap_cons, List.length_append, ih, List.length_cons]
        simp only [lengthUnits, List.length_cons, List.length_nil]
        omega
  have lengths : table.entries.map DataEntry.length = table.texts.map length :=
    entriesAfter_lengths table.texts 0
  rw [lengthsText_units short, two, ← lengths, List.length_map]

theorem placesFrom_lengthsText {table : DataTable} (short : table.Short) :
    (placesFrom 0 (unitsOf table.lengthsText)).map (fun place => (place.1.toInt, place.2.toInt)) =
      table.entries.map fun entry => ((entry.offset : Int), (entry.length : Int)) := by
  have places := placesFrom_lengthUnits table.texts 0 short.each
  rw [lengthsText_units short.each, ← show Int32.ofNat 0 = 0 from rfl, places, List.map_map]
  refine List.map_congr_left fun entry member => ?_
  have bound := entriesAfter_bound table.texts 0 entry member
  have total := short.together
  simp only [Function.comp_apply]
  rw [Int32.toInt_ofNat_of_lt (by omega), Int32.toInt_ofNat_of_lt (by omega)]

end DataTable

end BasicCompiler
