import BasicCompiler.Number.Shortest

/-!
Exact decimals, with the operations that the class of exact decimals documents. Only decimals that are not
negative are needed.
-/

namespace BasicCompiler

inductive Rounding where
  | halfEven
  | ceiling
  | floor
  | down
  deriving DecidableEq, Repr

def Rounding.quotient (mode : Rounding) (numerator denominator : Nat) : Nat :=
  match mode with
  | halfEven => roundHalfEven numerator denominator
  | ceiling => (numerator + (denominator - 1)) / denominator
  | floor | down => numerator / denominator

namespace Decimal

def dropLast (decimal : Decimal) (mode : Rounding) (count : Nat) : Decimal :=
  ⟨mode.quotient decimal.coefficient (Nat.pow 10 count), decimal.exponent + count⟩

/-- Rounds to a number of digits. The coefficient may get one digit more, which is dropped then. -/
def round (decimal : Decimal) (precision : Nat) (mode : Rounding) : Decimal :=
  if precision = 0 then decimal
  else
    let first := decimal.dropLast mode (decimal.digits.length - precision)
    first.dropLast mode (first.digits.length - precision)

def stripZeros (decimal : Decimal) : Decimal :=
  if decimal.coefficient = 0 then ⟨0, 0⟩
  else
    let zeros := (decimal.digits.reverse.takeWhile (· == '0')).length
    ⟨decimal.coefficient / Nat.pow 10 zeros, decimal.exponent + zeros⟩

/-- The text of a decimal: an integer or a fraction if there are few zeros after the point, and else one
digit before the point and an exponent. -/
def text (decimal : Decimal) : List Char :=
  let digits := decimal.digits
  let places := (-decimal.exponent).toNat
  if decimal.exponent ≤ 0 ∧ -6 ≤ decimal.leadingExponent then
    if places = 0 then digits
    else if places < digits.length then
      digits.take (digits.length - places) ++ '.' :: digits.drop (digits.length - places)
    else '0' :: '.' :: (List.replicate (places - digits.length) '0' ++ digits)
  else
    let point := if digits.length = 1 then [] else '.' :: digits.drop 1
    let sign := if decimal.leadingExponent < 0 then '-' else '+'
    digits.take 1 ++ point ++ 'E' :: sign :: Nat.toDigits 10 decimal.leadingExponent.natAbs

end Decimal

/-- The exact value of a finite number without its sign, with as few digits after the point as possible. -/
def Single.exactDecimal (value : Single) : Decimal :=
  let places := (-value.scale).toNat
  let halvings := greatestIndex (fun count => value.significand % Nat.pow 2 count == 0) places
  ⟨value.significand / Nat.pow 2 halvings * Nat.pow 2 value.scale.toNat * Nat.pow 5 (places - halvings),
    -(places - halvings : Nat)⟩

end BasicCompiler
