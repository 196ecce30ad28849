import BasicCompiler.Number.Shortest

/-!
Numbers as `PRINT` and `STR$` write them: a blank or a minus sign, at most seven significant digits,
no zero before the point, and the form `d.ddddddE+XX` for numbers outside the fixed range.
-/

namespace BasicCompiler

namespace Display

def significantDigits : Nat := 7

def fixedMinimum : Int := -7

def fixedMaximum : Int := 6

def stripTrailingZeros (digits : List Char) : List Char :=
  (digits.reverse.dropWhile (· == '0')).reverse

/-- The digits to print of a positive finite number and the power of ten of the first one: those of the
shortest decimal, or the nearest two where one would do, cut after seven. -/
def printedDigits (value : Single) : List Char × Int :=
  let shortest := value.shortestDecimal
  let decimal :=
    if (stripTrailingZeros shortest.digits).length ≤ 1 then value.nearestDecimal 2 else shortest
  (stripTrailingZeros (decimal.digits.take significantDigits), decimal.leadingExponent)

def exponentDigits (exponent : Nat) : List Char :=
  if exponent < 10 then '0' :: Nat.toDigits 10 exponent else Nat.toDigits 10 exponent

/-- The text of a number `d.ddd * 10 ^ exponent` with the given digits, without its sign. -/
def layout (digits : List Char) (exponent : Int) : List Char :=
  if exponent < fixedMinimum ∨ fixedMaximum < exponent then
    let point := if digits.length ≤ 1 then [] else ['.']
    let sign := if exponent < 0 then '-' else '+'
    digits.take 1 ++ point ++ digits.drop 1 ++ 'E' :: sign :: exponentDigits exponent.natAbs
  else if exponent < 0 then
    '.' :: List.replicate (exponent.natAbs - 1) '0' ++ digits
  else
    let whole := exponent.toNat + 1
    if digits.length ≤ whole then
      digits ++ List.replicate (whole - digits.length) '0'
    else
      digits.take whole ++ '.' :: digits.drop whole

end Display

def Single.display (value : Single) : String :=
  if value.isNaN then " NaN"
  else if value.isInfinite then (if value.isNegative then "-Infinity" else " Infinity")
  else if value.isZero then " 0"
  else
    let (digits, exponent) := Display.printedDigits value
    String.ofList ((if value.isNegative then '-' else ' ') :: Display.layout digits exponent)

end BasicCompiler
