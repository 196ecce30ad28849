import BasicCompiler.Number.Rounding

/-!
The shortest decimal that reads back as a given positive single: the fewest digits for which a
neighbour of the exact value on the decimal grid rounds to the number, and of two such neighbours
the nearer one.
-/

namespace BasicCompiler

structure Decimal where
  coefficient : Nat
  exponent : Int
  deriving DecidableEq, Repr

namespace Decimal

def toMagnitude (decimal : Decimal) : Nat :=
  Single.magnitudeOfRatio (scaledNumerator 10 decimal.coefficient decimal.exponent)
    (scaledDenominator 10 1 decimal.exponent)

def digits (decimal : Decimal) : List Char :=
  Nat.toDigits 10 decimal.coefficient

def leadingExponent (decimal : Decimal) : Int :=
  decimal.exponent + decimal.digits.length - 1

end Decimal

def greatestIndex (accept : Nat → Bool) : Nat → Nat
  | 0 => 0
  | bound + 1 => if accept (bound + 1) then bound + 1 else greatestIndex accept bound

namespace Single

/-- The power of ten of the first digit of a positive finite number, which lies in `-45 .. 38`. -/
def decimalExponent (value : Single) : Int :=
  let index := greatestIndex
    (fun index => Nat.pow 10 index * value.denominator ≤ Nat.pow 10 45 * value.numerator) 83
  (index : Int) - 45

/-- The power of ten of the last digit when the exact value is cut after `count` digits. -/
def gridExponent (value : Single) (count : Nat) : Int :=
  value.decimalExponent - (count - 1 : Nat)

/-- The numerator of the exact value counted in units of the grid of `count` digits. -/
def gridNumerator (value : Single) (count : Nat) : Nat :=
  scaledNumerator 10 value.numerator (-value.gridExponent count)

def gridDenominator (value : Single) (count : Nat) : Nat :=
  scaledDenominator 10 value.denominator (-value.gridExponent count)

def nearestDecimal (value : Single) (count : Nat) : Decimal :=
  ⟨roundHalfEven (value.gridNumerator count) (value.gridDenominator count), value.gridExponent count⟩

/-- The neighbour of the exact value on the grid of `count` digits that reads back, if any. -/
def decimalOfLength? (value : Single) (count : Nat) : Option Decimal :=
  let exponent := value.gridExponent count
  let floor := value.gridNumerator count / value.gridDenominator count
  let below : Decimal := ⟨floor, exponent⟩
  let above : Decimal := ⟨floor + 1, exponent⟩
  let readsBack (decimal : Decimal) := decimal.toMagnitude == value.magnitude
  match readsBack below, readsBack above with
  | true, true => some (value.nearestDecimal count)
  | true, false => some below
  | false, true => some above
  | false, false => none

/-- The shortest decimal that reads back. Nine digits tell any two singles apart. -/
def shortestDecimal (value : Single) : Decimal :=
  ((List.range' 1 8).findSome? value.decimalOfLength?).getD (value.nearestDecimal 9)

end Single

end BasicCompiler
