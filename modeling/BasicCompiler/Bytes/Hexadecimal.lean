/-!
Bytes as hexadecimal text, two lower case digits for each byte.
-/

namespace BasicCompiler.Hexadecimal

def encode (bytes : List UInt8) : String :=
  bytes.foldl (fun text byte =>
    (text.push (Nat.digitChar (byte.toNat / 16))).push (Nat.digitChar (byte.toNat % 16))) ""

def digit? (character : Char) : Option Nat :=
  if '0' ≤ character ∧ character ≤ '9' then some (character.toNat - '0'.toNat)
  else if 'a' ≤ character ∧ character ≤ 'f' then some (character.toNat - 'a'.toNat + 10)
  else none

/-- The bytes of digits, after the bytes `done`, which are held last first. -/
def decodeAfter : List Char → List UInt8 → Option (List UInt8)
  | [], done => some done.reverse
  | [_], _ => none
  | first :: second :: rest, done =>
    match digit? first, digit? second with
    | some high, some low => decodeAfter rest (UInt8.ofNat (high * 16 + low) :: done)
    | _, _ => none

def decode? (text : String) : Option (List UInt8) :=
  decodeAfter text.toList []

end BasicCompiler.Hexadecimal
