import BasicCompiler.Number.Single

/-!
Rounding of exact ratios: to the nearest integer and to the nearest single precision number, with a
tie going to the even neighbour.
-/

namespace BasicCompiler

def roundHalfEven (numerator denominator : Nat) : Nat :=
  let quotient := numerator / denominator
  let doubled := 2 * (numerator % denominator)
  if doubled < denominator then quotient
  else if denominator < doubled then quotient + 1
  else if quotient % 2 = 0 then quotient
  else quotient + 1

/-- The numerator of `numerator / denominator * base ^ power` over `scaledDenominator`. -/
def scaledNumerator (base numerator : Nat) (power : Int) : Nat :=
  numerator * Nat.pow base power.toNat

def scaledDenominator (base denominator : Nat) (power : Int) : Nat :=
  denominator * Nat.pow base (-power).toNat

/-- The exponent of the largest power of two that does not exceed a positive ratio. -/
def binaryExponent (numerator denominator : Nat) : Int :=
  let estimate : Int := (numerator.log2 : Int) - denominator.log2
  if scaledDenominator 2 denominator (-estimate) ≤ scaledNumerator 2 numerator (-estimate) then
    estimate
  else
    estimate - 1

namespace Single

/-- The magnitude of the single nearest to a ratio. Ratios that round past the largest finite number
become infinite. A significand that rounds up to the next power of two carries into the exponent. -/
def magnitudeOfRatio (numerator denominator : Nat) : Nat :=
  if numerator = 0 then 0 else
  let unit := max (binaryExponent numerator denominator - 23) (-149)
  let significand := roundHalfEven
    (scaledNumerator 2 numerator (-unit)) (scaledDenominator 2 denominator (-unit))
  min ((unit + 149).toNat * 0x800000 + significand) infiniteMagnitude

def ofInt (value : Int) : Single :=
  ofMagnitude (value < 0) (magnitudeOfRatio value.natAbs 1)

def numerator (value : Single) : Nat :=
  scaledNumerator 2 value.significand value.scale

/-- The denominator of the exact value of a finite number without its sign. -/
def denominator (value : Single) : Nat :=
  scaledDenominator 2 1 value.scale

end Single

end BasicCompiler
