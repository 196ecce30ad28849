/-!
Single precision numbers, held as their IEEE 754 bit pattern, so that signed zeros and the payloads
of NaNs survive every copy. A finite number without its sign is `significand * 2 ^ scale`.
-/

namespace BasicCompiler

structure Single where
  bits : UInt32
  deriving DecidableEq, Hashable, Repr

namespace Single

def zero : Single := ⟨0x00000000⟩

def one : Single := ⟨0x3F800000⟩

def two : Single := ⟨0x40000000⟩

def ten : Single := ⟨0x41200000⟩

def negativeOne : Single := ⟨0xBF800000⟩

def infinity : Single := ⟨0x7F800000⟩

def negativeInfinity : Single := ⟨0xFF800000⟩

def notANumber : Single := ⟨0x7FC00000⟩

/-- The pattern of the infinities without their sign; every larger magnitude is a NaN. -/
def infiniteMagnitude : Nat := 0x7F800000

def isNegative (value : Single) : Bool :=
  0x80000000 ≤ value.bits

/-- The pattern without the sign bit. Magnitudes of finite numbers are ordered like the numbers. -/
def magnitude (value : Single) : Nat :=
  value.bits.toNat % 0x80000000

def ofMagnitude (negative : Bool) (magnitude : Nat) : Single :=
  ⟨UInt32.ofNat (if negative then 0x80000000 + magnitude else magnitude)⟩

def isNaN (value : Single) : Bool :=
  infiniteMagnitude < value.magnitude

def isInfinite (value : Single) : Bool :=
  value.magnitude == infiniteMagnitude

def isZero (value : Single) : Bool :=
  value.magnitude == 0

/-- The integer part of `significand * 2 ^ scale`. Numbers below the normal range have no leading one. -/
def significand (value : Single) : Nat :=
  let fraction := value.magnitude % 0x800000
  if value.magnitude / 0x800000 = 0 then fraction else 0x800000 + fraction

def scale (value : Single) : Int :=
  (max (value.magnitude / 0x800000) 1 : Nat) - 150

def numericEq (left right : Single) : Bool :=
  !left.isNaN && !right.isNaN && (left == right || (left.isZero && right.isZero))

end Single

end BasicCompiler
