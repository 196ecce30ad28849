import BasicCompiler.Bytes.BigEndian

/-!
Fixed width fields read back what was written.
-/

namespace BasicCompiler.BigEndian

theorem encode16_length (word : UInt16) : (encode16 word).length = 2 := rfl

theorem encode32_length (word : UInt32) : (encode32 word).length = 4 := rfl

theorem shifted (value width size : Nat) (sizeEq : Nat.pow 2 width = size) :
    value <<< width = value * size := by
  subst sizeEq
  exact Nat.shiftLeft_eq value width

theorem shifted_or (high low width size : Nat) (sizeEq : Nat.pow 2 width = size)
    (bound : low < size) : high * size ||| low = high * size + low := by
  subst sizeEq
  rw [← shifted high width _ rfl, ← Nat.shiftLeft_add_eq_or_of_lt bound]

theorem decode16_toNat (first second : UInt8) :
    (decode16 first second).toNat = first.toNat * 256 + second.toNat := by
  have firstBound : first.toNat < 256 := first.toNat_lt
  have secondBound : second.toNat < 256 := second.toNat_lt
  simp only [decode16, UInt16.toNat_or, UInt16.toNat_shiftLeft, UInt8.toNat_toUInt16]
  change first.toNat <<< 8 % 65536 ||| second.toNat = _
  rw [shifted _ 8 256 rfl, Nat.mod_eq_of_lt (by omega), shifted_or _ _ 8 256 rfl secondBound]

theorem joined (first second third fourth : Nat) (secondBound : second < 256)
    (thirdBound : third < 256) (fourthBound : fourth < 256) :
    first * 16777216 ||| second * 65536 ||| third * 256 ||| fourth =
      ((first * 256 + second) * 256 + third) * 256 + fourth := by
  have upper : first * 16777216 ||| second * 65536 = (first * 256 + second) * 65536 := by
    rw [shifted_or _ _ 24 16777216 rfl (by omega)]
    omega
  have lower (high : Nat) : high * 65536 ||| third * 256 = (high * 256 + third) * 256 := by
    rw [shifted_or _ _ 16 65536 rfl (by omega)]
    omega
  rw [upper, lower, shifted_or _ _ 8 256 rfl fourthBound]

theorem decode32_toNat (first second third fourth : UInt8) :
    (decode32 first second third fourth).toNat =
      ((first.toNat * 256 + second.toNat) * 256 + third.toNat) * 256 + fourth.toNat := by
  have firstBound : first.toNat < 256 := first.toNat_lt
  have secondBound : second.toNat < 256 := second.toNat_lt
  have thirdBound : third.toNat < 256 := third.toNat_lt
  have fourthBound : fourth.toNat < 256 := fourth.toNat_lt
  simp only [decode32, UInt32.toNat_or, UInt32.toNat_shiftLeft, UInt8.toNat_toUInt32]
  change first.toNat <<< 24 % 4294967296 ||| second.toNat <<< 16 % 4294967296 |||
    third.toNat <<< 8 % 4294967296 ||| fourth.toNat = _
  rw [shifted _ 24 16777216 rfl, shifted _ 16 65536 rfl, shifted _ 8 256 rfl,
    Nat.mod_eq_of_lt (show first.toNat * 16777216 < 4294967296 by omega),
    Nat.mod_eq_of_lt (show second.toNat * 65536 < 4294967296 by omega),
    Nat.mod_eq_of_lt (show third.toNat * 256 < 4294967296 by omega),
    joined _ _ _ _ secondBound thirdBound fourthBound]

theorem decode16_encode16 (value : UInt16) :
    decode16 (value >>> 8).toUInt8 value.toUInt8 = value := by
  have bound : value.toNat < 65536 := value.toNat_lt
  apply UInt16.toNat_inj.mp
  rw [decode16_toNat, UInt16.toNat_toUInt8, UInt16.toNat_toUInt8, UInt16.toNat_shiftRight]
  change value.toNat >>> 8 % 256 * 256 + value.toNat % 256 = value.toNat
  rw [Nat.shiftRight_eq_div_pow]
  omega

theorem encode16_decode16 (first second : UInt8) : encode16 (decode16 first second) = [first, second] := by
  have firstBound : first.toNat < 256 := first.toNat_lt
  have secondBound : second.toNat < 256 := second.toNat_lt
  simp only [encode16, List.cons.injEq, and_true, ← UInt8.toNat_inj, UInt16.toNat_toUInt8,
    UInt16.toNat_shiftRight, decode16_toNat, UInt16.reduceToNat, Nat.reduceMod, Nat.shiftRight_eq_div_pow]
  omega

theorem decode32_encode32 (value : UInt32) :
    decode32 (value >>> 24).toUInt8 (value >>> 16).toUInt8 (value >>> 8).toUInt8 value.toUInt8 =
      value := by
  have bound : value.toNat < 4294967296 := value.toNat_lt
  apply UInt32.toNat_inj.mp
  rw [decode32_toNat]
  simp only [UInt32.toNat_toUInt8, UInt32.toNat_shiftRight]
  change ((value.toNat >>> 24 % 256 * 256 + value.toNat >>> 16 % 256) * 256 +
    value.toNat >>> 8 % 256) * 256 + value.toNat % 256 = value.toNat
  simp only [Nat.shiftRight_eq_div_pow]
  omega

theorem encode64_eq (value : UInt64) :
    encode64 value = encode32 (value >>> 32).toUInt32 ++ encode32 value.toUInt32 := by
  have bound : value.toNat < 18446744073709551616 := value.toNat_lt
  simp only [encode64, encode32, List.cons_append, List.nil_append, List.cons.injEq, and_true,
    ← UInt8.toNat_inj, UInt64.toNat_toUInt8, UInt32.toNat_toUInt8, UInt64.toNat_shiftRight,
    UInt32.toNat_shiftRight, UInt64.toNat_toUInt32, UInt64.reduceToNat, UInt32.reduceToNat,
    Nat.shiftRight_eq_div_pow, Nat.reduceMod, Nat.reducePow]
  omega

theorem decode64_split (value : UInt64) :
    decode64 (value >>> 32).toUInt32 value.toUInt32 = value := by
  have bound : value.toNat < 18446744073709551616 := value.toNat_lt
  apply UInt64.toNat_inj.mp
  simp only [decode64, UInt64.toNat_or, UInt64.toNat_shiftLeft, UInt32.toNat_toUInt64,
    UInt64.toNat_toUInt32, UInt64.toNat_shiftRight, UInt64.reduceToNat]
  change (value.toNat >>> 32 % 4294967296) <<< 32 % 18446744073709551616 |||
    value.toNat % 4294967296 = _
  rw [Nat.shiftRight_eq_div_pow, shifted _ 32 4294967296 rfl, Nat.mod_eq_of_lt (by omega),
    shifted_or _ _ 32 4294967296 rfl (by omega)]
  omega

end BasicCompiler.BigEndian
