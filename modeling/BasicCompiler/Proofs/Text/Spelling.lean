import BasicCompiler.Proofs.Text.ModifiedUtf8

/-!
The bytes that decoding accepts for a text. There may be several, since a code unit may take more
bytes than it needs, but the encoding is the shortest of them.
-/

namespace BasicCompiler

namespace Utf16

theorem toNat_ofNat_of_valid {code : Nat} (valid : code < 0xD800 ∨ 0xDFFF < code ∧ code < 0x110000) :
    (Char.ofNat code).toNat = code := by
  have isValid : code.isValidChar := valid
  rw [Char.ofNat, dif_pos isValid]
  rfl

theorem units_ofNat {unit : UInt16} (notHigh : ¬ isHighSurrogate unit) (notLow : ¬ isLowSurrogate unit) :
    units (Char.ofNat unit.toNat) = [unit] := by
  have bound : unit.toNat < 0x10000 := unit.toNat_lt
  rw [isHighSurrogate_iff] at notHigh
  rw [isLowSurrogate_iff] at notLow
  have code : (Char.ofNat unit.toNat).toNat = unit.toNat := toNat_ofNat_of_valid (by omega)
  simp only [units, code, if_pos bound, UInt16.ofNat_toNat]

theorem units_ofSurrogates {high low : UInt16} (isHigh : isHighSurrogate high) (isLow : isLowSurrogate low) :
    units (ofSurrogates high low) = [high, low] := by
  rw [isHighSurrogate_iff] at isHigh
  rw [isLowSurrogate_iff] at isLow
  have code : (ofSurrogates high low).toNat =
      0x10000 + (high.toNat - 0xD800) * 0x400 + (low.toNat - 0xDC00) := toNat_ofNat_of_valid (by omega)
  have upper : 0xD800 + (0x10000 + (high.toNat - 0xD800) * 0x400 + (low.toNat - 0xDC00) - 0x10000) / 0x400 =
      high.toNat := by omega
  have lower : 0xDC00 + (0x10000 + (high.toNat - 0xD800) * 0x400 + (low.toNat - 0xDC00) - 0x10000) % 0x400 =
      low.toNat := by omega
  simp only [units, code]
  rw [if_neg (by omega), upper, lower, UInt16.ofNat_toNat, UInt16.ofNat_toNat]

theorem encode_of_decodeAfter {codes : List UInt16} {done text : List Char}
    (decoded : decodeAfter codes done = some text) :
    ∃ added, text = done.reverse ++ added ∧ encode added = codes := by
  fun_induction decodeAfter codes done with
  | case1 done =>
      cases decoded
      exact ⟨[], (List.append_nil _).symm, rfl⟩
  | case2 => cases decoded
  | case3 unit done isHigh next tail isLow ih =>
      obtain ⟨added, rfl, codes⟩ := ih decoded
      refine ⟨ofSurrogates unit next :: added, by simp, ?_⟩
      rw [encode, List.flatMap_cons, units_ofSurrogates isHigh isLow, ← codes]
      rfl
  | case4 => cases decoded
  | case5 => cases decoded
  | case6 unit rest done notHigh notLow ih =>
      obtain ⟨added, rfl, codes⟩ := ih decoded
      refine ⟨Char.ofNat unit.toNat :: added, by simp, ?_⟩
      rw [encode, List.flatMap_cons, units_ofNat notHigh notLow, ← codes]
      rfl

theorem encode_of_decode? {codes : List UInt16} {text : List Char} (decoded : decode? codes = some text) :
    encode text = codes := by
  obtain ⟨added, rfl, encoded⟩ := encode_of_decodeAfter decoded
  exact encoded

end Utf16

namespace ModifiedUtf8

inductive Spells : List UInt8 → List UInt16 → Prop
  | nil : Spells [] []
  | single {byte : UInt8} {rest : List UInt8} {units : List UInt16} : byte ≠ 0 → byte < 0x80 →
      Spells rest units → Spells (byte :: rest) (UInt16.ofNat byte.toNat :: units)
  | pair {first second : UInt8} {low : Nat} {rest : List UInt8} {units : List UInt16} :
      0xC0 ≤ first ∧ first < 0xE0 → continuation? second = some low → Spells rest units →
      Spells (first :: second :: rest) (UInt16.ofNat (first.toNat % 0x20 * 0x40 + low) :: units)
  | triple {first second third : UInt8} {middle low : Nat} {rest : List UInt8} {units : List UInt16} :
      0xE0 ≤ first ∧ first < 0xF0 → continuation? second = some middle → continuation? third = some low →
      Spells rest units →
      Spells (first :: second :: third :: rest)
        (UInt16.ofNat (first.toNat % 0x10 * 0x1000 + middle * 0x40 + low) :: units)

theorem spells_of_decodeUnitsAfter {bytes : List UInt8} {done units : List UInt16}
    (decoded : decodeUnitsAfter bytes done = some units) :
    ∃ added, units = done.reverse ++ added ∧ Spells bytes added := by
  fun_induction decodeUnitsAfter bytes done with
  | case1 done =>
      cases decoded
      exact ⟨[], (List.append_nil _).symm, .nil⟩
  | case3 done byte rest notZero isSingle ih =>
      obtain ⟨added, rfl, spells⟩ := ih decoded
      exact ⟨_ :: added, by simp, .single notZero isSingle spells⟩
  | case4 first done _ _ isPair second rest low isLow ih =>
      obtain ⟨added, rfl, spells⟩ := ih decoded
      exact ⟨_ :: added, by simp, .pair isPair isLow spells⟩
  | case7 first done _ _ _ isTriple second third rest middle low isLow isMiddle ih =>
      obtain ⟨added, rfl, spells⟩ := ih decoded
      exact ⟨_ :: added, by simp, .triple isTriple isMiddle isLow spells⟩
  | _ => cases decoded

theorem encodeUnit_length (unit : UInt16) :
    (encodeUnit unit).length =
      if 0 < unit.toNat ∧ unit.toNat < 0x80 then 1 else if unit.toNat < 0x800 then 2 else 3 := by
  unfold encodeUnit
  dsimp only
  split
  · rfl
  · split <;> rfl

theorem encodeUnit_length_le (unit : UInt16) : (encodeUnit unit).length ≤ 3 := by
  rw [encodeUnit_length]
  split
  · decide
  · split <;> decide

theorem encode_length_le (text : String) : (encode text).length ≤ 6 * text.length := by
  have single (character : Char) : ((Utf16.units character).flatMap encodeUnit).length ≤ 6 := by
    unfold Utf16.units
    dsimp only
    split
    · simpa using Nat.le_trans (encodeUnit_length_le _) (by decide)
    · simpa using Nat.add_le_add (encodeUnit_length_le _) (encodeUnit_length_le _)
  have all (characters : List Char) : (characters.flatMap fun character =>
      (Utf16.units character).flatMap encodeUnit).length ≤ 6 * characters.length := by
    induction characters with
    | nil => simp
    | cons first rest ih =>
        have head := single first
        simp only [List.flatMap_cons, List.length_append, List.length_cons] at ih ⊢
        omega
  have whole := all text.toList
  rwa [String.length_toList] at whole

theorem continuation?_eq_some {byte : UInt8} {bits : Nat} (continues : continuation? byte = some bits) :
    byte = UInt8.ofNat (0x80 + bits) ∧ bits < 0x40 := by
  unfold continuation? at continues
  split at continues
  · rename_i within
    cases continues
    simp only [UInt8.le_iff_toNat_le, UInt8.lt_iff_toNat_lt, UInt8.reduceToNat] at within
    have code : 0x80 + byte.toNat % 0x40 = byte.toNat := by omega
    exact ⟨by rw [code, UInt8.ofNat_toNat], Nat.mod_lt _ (by decide)⟩
  · cases continues

/-- Bytes that are the same as others or fewer. -/
def Within (bytes others : List UInt8) : Prop :=
  bytes = others ∨ bytes.length < others.length

theorem Within.length_le {bytes others : List UInt8} (within : Within bytes others) :
    bytes.length ≤ others.length := by
  rcases within with rfl | fewer
  · exact Nat.le_refl _
  · exact Nat.le_of_lt fewer

theorem Within.append {first second first' second' : List UInt8} (within : Within first first')
    (withinNext : Within second second') : Within (first ++ second) (first' ++ second') := by
  have short := within.length_le
  have shortNext := withinNext.length_le
  rcases within with rfl | fewer
  · rcases withinNext with rfl | fewer
    · exact .inl rfl
    · exact .inr (by simpa using fewer)
  · refine .inr ?_
    rw [List.length_append, List.length_append]
    omega

theorem encodeUnit_single {byte : UInt8} (notZero : byte ≠ 0) (isSingle : byte < 0x80) :
    encodeUnit (UInt16.ofNat byte.toNat) = [byte] := by
  have positive : byte.toNat ≠ 0 := fun isZero => notZero (UInt8.toNat_inj.mp isZero)
  have small : byte.toNat < 0x80 := UInt8.lt_iff_toNat_lt.mp isSingle
  have code : (UInt16.ofNat byte.toNat).toNat = byte.toNat := Utf16.toNat_ofNat_of_lt (by omega)
  simp only [encodeUnit, code]
  rw [if_pos (by omega), UInt8.ofNat_toNat]

theorem encodeUnit_pair {first second : UInt8} {low : Nat} (isPair : 0xC0 ≤ first ∧ first < 0xE0)
    (isLow : continuation? second = some low) :
    Within (encodeUnit (UInt16.ofNat (first.toNat % 0x20 * 0x40 + low))) [first, second] := by
  obtain ⟨rfl, bound⟩ := continuation?_eq_some isLow
  simp only [UInt8.le_iff_toNat_le, UInt8.lt_iff_toNat_lt, UInt8.reduceToNat] at isPair
  have code : (UInt16.ofNat (first.toNat % 0x20 * 0x40 + low)).toNat = first.toNat % 0x20 * 0x40 + low :=
    Utf16.toNat_ofNat_of_lt (by omega)
  have high : 0xC0 + (first.toNat % 0x20 * 0x40 + low) / 0x40 = first.toNat := by omega
  have rest : (first.toNat % 0x20 * 0x40 + low) % 0x40 = low := by omega
  simp only [encodeUnit, code]
  split
  · exact .inr (by simp)
  · refine .inl ?_
    rw [if_pos (by omega), high, rest, UInt8.ofNat_toNat]

theorem encodeUnit_triple {first second third : UInt8} {middle low : Nat}
    (isTriple : 0xE0 ≤ first ∧ first < 0xF0) (isMiddle : continuation? second = some middle)
    (isLow : continuation? third = some low) :
    Within (encodeUnit (UInt16.ofNat (first.toNat % 0x10 * 0x1000 + middle * 0x40 + low)))
      [first, second, third] := by
  obtain ⟨rfl, middleBound⟩ := continuation?_eq_some isMiddle
  obtain ⟨rfl, lowBound⟩ := continuation?_eq_some isLow
  simp only [UInt8.le_iff_toNat_le, UInt8.lt_iff_toNat_lt, UInt8.reduceToNat] at isTriple
  have code : (UInt16.ofNat (first.toNat % 0x10 * 0x1000 + middle * 0x40 + low)).toNat =
      first.toNat % 0x10 * 0x1000 + middle * 0x40 + low := Utf16.toNat_ofNat_of_lt (by omega)
  have high : 0xE0 + (first.toNat % 0x10 * 0x1000 + middle * 0x40 + low) / 0x1000 = first.toNat := by omega
  have between : (first.toNat % 0x10 * 0x1000 + middle * 0x40 + low) / 0x40 % 0x40 = middle := by omega
  have rest : (first.toNat % 0x10 * 0x1000 + middle * 0x40 + low) % 0x40 = low := by omega
  simp only [encodeUnit, code]
  split
  · exact .inr (by simp)
  split
  · exact .inr (by simp)
  · refine .inl ?_
    rw [high, between, rest, UInt8.ofNat_toNat]

theorem Spells.within {bytes : List UInt8} {units : List UInt16} (spells : Spells bytes units) :
    Within (units.flatMap encodeUnit) bytes := by
  induction spells with
  | nil => exact .inl rfl
  | single notZero isSingle _ ih => exact Within.append (.inl (encodeUnit_single notZero isSingle)) ih
  | pair isPair isLow _ ih => exact (encodeUnit_pair isPair isLow).append ih
  | triple isTriple isMiddle isLow _ ih => exact (encodeUnit_triple isTriple isMiddle isLow).append ih

theorem encode_within_of_decode? {bytes : List UInt8} {text : String} (decoded : decode? bytes = some text) :
    Within (encode text) bytes := by
  obtain ⟨units, unitsEq, textEq⟩ := Option.bind_eq_some_iff.mp decoded
  obtain ⟨characters, charactersEq, rfl⟩ := Option.map_eq_some_iff.mp textEq
  obtain ⟨added, isUnits, spells⟩ := spells_of_decodeUnitsAfter unitsEq
  rw [List.reverse_nil, List.nil_append] at isUnits
  rw [encode_eq_flatMap, String.toList_ofList, Utf16.encode_of_decode? charactersEq, isUnits]
  exact spells.within

end ModifiedUtf8

end BasicCompiler
