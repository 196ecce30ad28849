/-!
Fixed width fields, most significant byte first.
-/

namespace BasicCompiler.BigEndian

def encode16 (value : UInt16) : List UInt8 :=
  [(value >>> 8).toUInt8, value.toUInt8]

def encode32 (value : UInt32) : List UInt8 :=
  [(value >>> 24).toUInt8, (value >>> 16).toUInt8, (value >>> 8).toUInt8, value.toUInt8]

def encode64 (value : UInt64) : List UInt8 :=
  [(value >>> 56).toUInt8, (value >>> 48).toUInt8, (value >>> 40).toUInt8, (value >>> 32).toUInt8,
    (value >>> 24).toUInt8, (value >>> 16).toUInt8, (value >>> 8).toUInt8, value.toUInt8]

def decode16 (first second : UInt8) : UInt16 :=
  first.toUInt16 <<< 8 ||| second.toUInt16

def decode32 (first second third fourth : UInt8) : UInt32 :=
  first.toUInt32 <<< 24 ||| second.toUInt32 <<< 16 ||| third.toUInt32 <<< 8 ||| fourth.toUInt32

def decode64 (high low : UInt32) : UInt64 :=
  high.toUInt64 <<< 32 ||| low.toUInt64

/-- Splits exactly `count` bytes off, after the bytes `taken`, which are held last first. -/
def takeAfter : Nat → List UInt8 → List UInt8 → Option (List UInt8 × List UInt8)
  | 0, bytes, taken => some (taken.reverse, bytes)
  | _ + 1, [], _ => none
  | count + 1, byte :: rest, taken => takeAfter count rest (byte :: taken)

def take? (count : Nat) (bytes : List UInt8) : Option (List UInt8 × List UInt8) :=
  takeAfter count bytes []

end BasicCompiler.BigEndian
