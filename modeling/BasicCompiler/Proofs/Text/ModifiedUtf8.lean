import BasicCompiler.Text.ModifiedUtf8

/-!
Every text can be read back from its bytes: decoding undoes encoding, first between characters and
code units and then between code units and bytes.
-/

namespace BasicCompiler

namespace Utf16

theorem toNat_valid (character : Char) :
    character.toNat < 0xD800 ∨ 0xDFFF < character.toNat ∧ character.toNat < 0x110000 :=
  character.valid

theorem isHighSurrogate_iff (unit : UInt16) :
    isHighSurrogate unit = true ↔ 0xD800 ≤ unit.toNat ∧ unit.toNat < 0xDC00 := by
  simp [isHighSurrogate, UInt16.le_iff_toNat_le, UInt16.lt_iff_toNat_lt]

theorem isLowSurrogate_iff (unit : UInt16) :
    isLowSurrogate unit = true ↔ 0xDC00 ≤ unit.toNat ∧ unit.toNat < 0xE000 := by
  simp [isLowSurrogate, UInt16.le_iff_toNat_le, UInt16.lt_iff_toNat_lt]

theorem toNat_ofNat_of_lt {code : Nat} (bound : code < 0x10000) :
    (UInt16.ofNat code).toNat = code := by
  rw [UInt16.toNat_ofNat']
  exact Nat.mod_eq_of_lt bound

theorem decodeAfter_units (character : Char) (rest : List UInt16) (done : List Char) :
    decodeAfter (units character ++ rest) done = decodeAfter rest (character :: done) := by
  have valid := toNat_valid character
  unfold units
  dsimp only
  split
  · rename_i basic
    have code := toNat_ofNat_of_lt basic
    rw [List.singleton_append, decodeAfter.eq_def]
    simp only [isHighSurrogate_iff, isLowSurrogate_iff, code]
    rw [if_neg (by omega), if_neg (by omega), Char.ofNat_toNat]
  · have high : (UInt16.ofNat (0xD800 + (character.toNat - 0x10000) / 0x400)).toNat =
        0xD800 + (character.toNat - 0x10000) / 0x400 := toNat_ofNat_of_lt (by omega)
    have low : (UInt16.ofNat (0xDC00 + (character.toNat - 0x10000) % 0x400)).toNat =
        0xDC00 + (character.toNat - 0x10000) % 0x400 := toNat_ofNat_of_lt (by omega)
    have joined : 0x10000 + (0xD800 + (character.toNat - 0x10000) / 0x400 - 0xD800) * 0x400 +
        (0xDC00 + (character.toNat - 0x10000) % 0x400 - 0xDC00) = character.toNat := by
      omega
    simp only [List.cons_append, List.nil_append]
    rw [decodeAfter.eq_def]
    simp only [isHighSurrogate_iff, isLowSurrogate_iff, ofSurrogates, high, low, joined,
      Char.ofNat_toNat]
    rw [if_pos (by omega), if_pos (by omega)]

theorem decodeAfter_encode (text done : List Char) :
    decodeAfter (encode text) done = some (done.reverse ++ text) := by
  induction text generalizing done with
  | nil => simp [encode, decodeAfter]
  | cons first rest ih =>
      have split : encode (first :: rest) = units first ++ encode rest := List.flatMap_cons
      rw [split, decodeAfter_units, ih, List.reverse_cons, List.append_assoc, List.singleton_append]

theorem decode?_encode (text : List Char) : decode? (encode text) = some text :=
  decodeAfter_encode text []

end Utf16

namespace ModifiedUtf8

theorem continuation?_ofNat {bits : Nat} (bound : bits < 0x40) :
    continuation? (UInt8.ofNat (0x80 + bits)) = some bits := by
  have code : (UInt8.ofNat (0x80 + bits)).toNat = 0x80 + bits := by
    rw [UInt8.toNat_ofNat']
    omega
  have within : 0x80 ≤ UInt8.ofNat (0x80 + bits) ∧ UInt8.ofNat (0x80 + bits) < 0xC0 := by
    simp only [UInt8.le_iff_toNat_le, UInt8.lt_iff_toNat_lt, code, UInt8.reduceToNat]
    omega
  have low : (0x80 + bits) % 0x40 = bits := by omega
  rw [continuation?, if_pos within, code, low]

theorem toNat_ofNat_of_lt {code : Nat} (bound : code < 0x100) : (UInt8.ofNat code).toNat = code := by
  rw [UInt8.toNat_ofNat']
  exact Nat.mod_eq_of_lt bound

theorem decodeUnitsAfter_single {code : Nat} (positive : 0 < code) (bound : code < 0x80)
    (rest : List UInt8) (done : List UInt16) :
    decodeUnitsAfter (UInt8.ofNat code :: rest) done =
      decodeUnitsAfter rest (UInt16.ofNat code :: done) := by
  have byte : (UInt8.ofNat code).toNat = code := toNat_ofNat_of_lt (by omega)
  rw [decodeUnitsAfter.eq_def]
  simp only [← UInt8.toNat_inj, UInt8.lt_iff_toNat_lt, byte, UInt8.reduceToNat]
  rw [if_neg (by omega), if_pos bound]

theorem decodeUnitsAfter_pair {high low : Nat} (highBound : high < 0x20) (lowBound : low < 0x40)
    (rest : List UInt8) (done : List UInt16) :
    decodeUnitsAfter (UInt8.ofNat (0xC0 + high) :: UInt8.ofNat (0x80 + low) :: rest) done =
      decodeUnitsAfter rest (UInt16.ofNat (high * 0x40 + low) :: done) := by
  have byte : (UInt8.ofNat (0xC0 + high)).toNat = 0xC0 + high := toNat_ofNat_of_lt (by omega)
  have bits : (0xC0 + high) % 0x20 = high := by omega
  rw [decodeUnitsAfter.eq_def]
  simp only [← UInt8.toNat_inj, UInt8.lt_iff_toNat_lt, UInt8.le_iff_toNat_le, byte, bits,
    UInt8.reduceToNat, continuation?_ofNat lowBound]
  rw [if_neg (by omega), if_neg (by omega), if_pos (by omega)]

theorem decodeUnitsAfter_triple {high middle low : Nat} (highBound : high < 0x10)
    (middleBound : middle < 0x40) (lowBound : low < 0x40) (rest : List UInt8) (done : List UInt16) :
    decodeUnitsAfter (UInt8.ofNat (0xE0 + high) :: UInt8.ofNat (0x80 + middle) ::
        UInt8.ofNat (0x80 + low) :: rest) done =
      decodeUnitsAfter rest (UInt16.ofNat (high * 0x1000 + middle * 0x40 + low) :: done) := by
  have byte : (UInt8.ofNat (0xE0 + high)).toNat = 0xE0 + high := toNat_ofNat_of_lt (by omega)
  have bits : (0xE0 + high) % 0x10 = high := by omega
  rw [decodeUnitsAfter.eq_def]
  simp only [← UInt8.toNat_inj, UInt8.lt_iff_toNat_lt, UInt8.le_iff_toNat_le, byte, bits,
    UInt8.reduceToNat, continuation?_ofNat middleBound, continuation?_ofNat lowBound]
  rw [if_neg (by omega), if_neg (by omega), if_neg (by omega), if_pos (by omega)]

theorem decodeUnitsAfter_encodeUnit (unit : UInt16) (rest : List UInt8) (done : List UInt16) :
    decodeUnitsAfter (encodeUnit unit ++ rest) done = decodeUnitsAfter rest (unit :: done) := by
  have bound : unit.toNat < 65536 := unit.toNat_lt
  have low : unit.toNat % 0x40 < 0x40 := Nat.mod_lt _ (by decide)
  unfold encodeUnit
  dsimp only
  split
  · rename_i short
    rw [List.singleton_append, decodeUnitsAfter_single short.1 short.2, UInt16.ofNat_toNat]
  split
  · have joined : unit.toNat / 0x40 * 0x40 + unit.toNat % 0x40 = unit.toNat := by omega
    simp only [List.cons_append, List.nil_append]
    rw [decodeUnitsAfter_pair (by omega) low, joined, UInt16.ofNat_toNat]
  · have joined : unit.toNat / 0x1000 * 0x1000 + unit.toNat / 0x40 % 0x40 * 0x40 +
        unit.toNat % 0x40 = unit.toNat := by omega
    simp only [List.cons_append, List.nil_append]
    rw [decodeUnitsAfter_triple (by omega) (Nat.mod_lt _ (by decide)) low, joined, UInt16.ofNat_toNat]

theorem decodeUnitsAfter_flatMap (units done : List UInt16) :
    decodeUnitsAfter (units.flatMap encodeUnit) done = some (done.reverse ++ units) := by
  induction units generalizing done with
  | nil => simp [decodeUnitsAfter]
  | cons first rest ih =>
      rw [List.flatMap_cons, decodeUnitsAfter_encodeUnit, ih, List.reverse_cons, List.append_assoc,
        List.singleton_append]

theorem encode_eq_flatMap (text : String) :
    encode text = (Utf16.encode text.toList).flatMap encodeUnit := by
  rw [encode, Utf16.encode, List.flatMap_assoc]

theorem decode?_encode (text : String) : decode? (encode text) = some text := by
  rw [decode?, encode_eq_flatMap, decodeUnitsAfter_flatMap, Option.bind_some, List.reverse_nil,
    List.nil_append, Utf16.decode?_encode, Option.map_some, String.ofList_toList]

theorem ofNat_bounds {code : Nat} (positive : 0 < code) (bound : code < 0xF0) :
    UInt8.ofNat code ≠ 0 ∧ UInt8.ofNat code < 0xF0 := by
  have byte : (UInt8.ofNat code).toNat = code := toNat_ofNat_of_lt (by omega)
  rw [ne_eq, ← UInt8.toNat_inj, UInt8.lt_iff_toNat_lt, byte]
  exact ⟨Nat.ne_of_gt positive, bound⟩

theorem encodeUnit_bounds (unit : UInt16) : ∀ byte ∈ encodeUnit unit, byte ≠ 0 ∧ byte < 0xF0 := by
  have bound : unit.toNat < 65536 := unit.toNat_lt
  unfold encodeUnit
  dsimp only
  split
  · rename_i short
    rw [List.forall_mem_singleton]
    exact ofNat_bounds short.1 (by omega)
  split
  · rw [List.forall_mem_cons, List.forall_mem_singleton]
    exact ⟨ofNat_bounds (by omega) (by omega), ofNat_bounds (by omega) (by omega)⟩
  · rw [List.forall_mem_cons, List.forall_mem_cons, List.forall_mem_singleton]
    exact ⟨ofNat_bounds (by omega) (by omega), ofNat_bounds (by omega) (by omega),
      ofNat_bounds (by omega) (by omega)⟩

/-- Every text is read back from its bytes. None of them is zero, and none starts a form of more than
three bytes. -/
theorem encode_reversible (text : String) :
    decode? (encode text) = some text ∧ ∀ byte ∈ encode text, byte ≠ 0 ∧ byte < 0xF0 := by
  refine ⟨decode?_encode text, ?_⟩
  intro byte member
  rw [encode_eq_flatMap] at member
  obtain ⟨unit, _, isByte⟩ := List.mem_flatMap.mp member
  exact encodeUnit_bounds unit byte isByte

end ModifiedUtf8

end BasicCompiler
