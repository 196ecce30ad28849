import BasicCompiler.ClassFile.Pool
import BasicCompiler.ClassFile.Reader

/-!
The written form of constant pools: a count, which is one more than the number of slots, and the
entries in order.
-/

namespace BasicCompiler

namespace Constant

open BigEndian

def payload : Constant → List UInt8
  | utf8 text =>
    let bytes := ModifiedUtf8.encode text
    encode16 (UInt16.ofNat bytes.length) ++ bytes
  | integer value => encode32 value.toUInt32
  | float value => encode32 value.bits
  | long value => encode64 value.toUInt64
  | double bits => encode64 bits
  | classRef name => encode16 name
  | string text => encode16 text
  | fieldRef owner member => encode16 owner ++ encode16 member
  | methodRef owner member => encode16 owner ++ encode16 member
  | nameAndType name descriptor => encode16 name ++ encode16 descriptor

def encode (entry : Constant) : List UInt8 :=
  entry.tag :: entry.payload

def readText : Reader Constant := do
  let length ← Reader.word16
  let bytes ← Reader.bytes length.toNat
  match ModifiedUtf8.decode? bytes with
  | some text => return utf8 text
  | none => throw .invalidText

def readPayload (tag : UInt8) : Reader Constant := do
  match tag.toNat with
  | 1 => readText
  | 3 => return integer (← Reader.word32).toInt32
  | 4 => return float ⟨← Reader.word32⟩
  | 5 => return long (← Reader.word64).toInt64
  | 6 => return double (← Reader.word64)
  | 7 => return classRef (← Reader.word16)
  | 8 => return string (← Reader.word16)
  | 9 => return fieldRef (← Reader.word16) (← Reader.word16)
  | 10 => return methodRef (← Reader.word16) (← Reader.word16)
  | 12 => return nameAndType (← Reader.word16) (← Reader.word16)
  | _ => throw (.invalidConstantTag tag)

def read : Reader Constant := do
  readPayload (← Reader.byte)

end Constant

namespace ConstantPool

def encode (pool : ConstantPool) : List UInt8 :=
  BigEndian.encode16 pool.count ++ pool.slots.toList.flatMap fun slot =>
    match slot with
    | some entry => entry.encode
    | none => []

/-- Reads entries until they fill `remaining` slots. A wide entry may fill one slot more. -/
def readEntries (remaining : Nat) (pool : ConstantPool) : Reader ConstantPool := do
  match remaining with
  | 0 => return pool
  | remaining + 1 =>
    let entry ← Constant.read
    readEntries (remaining + 1 - entry.width) (pool.push entry)
termination_by remaining
decreasing_by
  have positive := entry.width_pos
  omega

def read : Reader ConstantPool := do
  let count ← Reader.word16
  readEntries (count.toNat - 1) empty

end ConstantPool

end BasicCompiler
