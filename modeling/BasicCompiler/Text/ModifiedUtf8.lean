import BasicCompiler.Text.Utf16

/-!
The text encoding of class files. Every UTF-16 code unit is encoded on its own, in one to three
bytes, and the unit zero takes two bytes, so that no encoded text holds a zero byte. Decoding accepts
forms that are longer than necessary.
-/

namespace BasicCompiler.ModifiedUtf8

def encodeUnit (unit : UInt16) : List UInt8 :=
  let code := unit.toNat
  if 0 < code ∧ code < 0x80 then [UInt8.ofNat code]
  else if code < 0x800 then [UInt8.ofNat (0xC0 + code / 0x40), UInt8.ofNat (0x80 + code % 0x40)]
  else
    [UInt8.ofNat (0xE0 + code / 0x1000), UInt8.ofNat (0x80 + code / 0x40 % 0x40),
      UInt8.ofNat (0x80 + code % 0x40)]

def encode (text : String) : List UInt8 :=
  text.toList.flatMap fun character => (Utf16.units character).flatMap encodeUnit

def continuation? (byte : UInt8) : Option Nat :=
  if 0x80 ≤ byte ∧ byte < 0xC0 then some (byte.toNat % 0x40) else none

/-- Decodes bytes into code units after the units `done`, which are held last first. -/
def decodeUnitsAfter : List UInt8 → List UInt16 → Option (List UInt16)
  | [], done => some done.reverse
  | first :: rest, done =>
    if first = 0 then none
    else if first < 0x80 then decodeUnitsAfter rest (UInt16.ofNat first.toNat :: done)
    else if 0xC0 ≤ first ∧ first < 0xE0 then
      match rest with
      | second :: tail =>
        match continuation? second with
        | some low =>
          decodeUnitsAfter tail (UInt16.ofNat (first.toNat % 0x20 * 0x40 + low) :: done)
        | none => none
      | _ => none
    else if 0xE0 ≤ first ∧ first < 0xF0 then
      match rest with
      | second :: third :: tail =>
        match continuation? second, continuation? third with
        | some middle, some low =>
          decodeUnitsAfter tail
            (UInt16.ofNat (first.toNat % 0x10 * 0x1000 + middle * 0x40 + low) :: done)
        | _, _ => none
      | _ => none
    else none

def decode? (bytes : List UInt8) : Option String :=
  (decodeUnitsAfter bytes []).bind fun units => (Utf16.decode? units).map String.ofList

end BasicCompiler.ModifiedUtf8
