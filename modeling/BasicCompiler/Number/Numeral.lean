import BasicCompiler.Number.Rounding
import BasicCompiler.Text.Utf8

/-!
Numbers as `VAL`, `INPUT` and `READ` read them: leading blanks are skipped and the longest numeral at
the start of the text counts. Text without a numeral is NaN. The numeral is found in the bytes of the
text, and the characters between its ends are then read as a whole.
-/

namespace BasicCompiler

/-- A decimal numeral: its digits are those before and after the point, `fractionLength` of them after. -/
structure Numeral where
  negative : Bool
  digits : List Nat
  fractionLength : Nat
  exponent : Int
  deriving DecidableEq, Repr

namespace Numeral

def digitValue (digit : Char) : Nat :=
  digit.toNat - '0'.toNat

def readSign : List Char → Bool × List Char
  | '+' :: rest => (false, rest)
  | '-' :: rest => (true, rest)
  | rest => (false, rest)

/-- The value of the digits of an exponent. Digits after the value has passed `65535` are ignored, so
the result stays small. -/
def exponentValue (digits : List Char) : Nat :=
  digits.foldl (fun value digit => if value < 0x10000 then 10 * value + digitValue digit else value) 0

/-- Reads the part from `E` on. It counts only when at least one digit follows. -/
def readExponent : List Char → Int × List Char
  | [] => (0, [])
  | mark :: rest =>
    if mark = 'E' ∨ mark = 'e' then
      let (negative, tail) := readSign rest
      match tail.takeWhile Char.isDigit with
      | [] => (0, mark :: rest)
      | digits =>
        let value : Int := exponentValue digits
        (if negative then -value else value, tail.dropWhile Char.isDigit)
    else
      (0, mark :: rest)

def readFraction : List Char → List Char × List Char
  | '.' :: rest => (rest.takeWhile Char.isDigit, rest.dropWhile Char.isDigit)
  | rest => ([], rest)

/-- Reads the longest numeral at the start of a text and returns it with what follows. -/
def read? (text : List Char) : Option (Numeral × List Char) :=
  let (negative, unsigned) := readSign text
  let whole := unsigned.takeWhile Char.isDigit
  let (fraction, tail) := readFraction (unsigned.dropWhile Char.isDigit)
  if whole.isEmpty && fraction.isEmpty then none
  else
    let (exponent, rest) := readExponent tail
    some (⟨negative, (whole ++ fraction).map digitValue, fraction.length, exponent⟩, rest)

def ofDigits (digits : List Nat) : Nat :=
  digits.foldl (fun value digit => 10 * value + digit) 0

/-- The magnitude of the single nearest to a numeral. Numerals of at least `10 ^ 39` are infinite and
those below `10 ^ -46` vanish, so only powers of ten near the range of singles are ever computed. -/
def magnitude (numeral : Numeral) : Nat :=
  let significant := numeral.digits.dropWhile (· == 0)
  let unit := numeral.exponent - numeral.fractionLength
  let size := unit + significant.length
  if significant.isEmpty then 0
  else if 39 < size then Single.infiniteMagnitude
  else if size < -45 then 0
  else
    Single.magnitudeOfRatio (scaledNumerator 10 (ofDigits significant) unit)
      (scaledDenominator 10 1 unit)

def toSingle (numeral : Numeral) : Single :=
  Single.ofMagnitude numeral.negative numeral.magnitude

end Numeral

def Single.magnitudeOfWord? (word : List Char) : Option Nat :=
  let lower := word.map Char.toLower
  if lower = ['n', 'a', 'n'] then some Single.notANumber.magnitude
  else if lower = ['i', 'n', 'f'] ∨ lower = ['i', 'n', 'f', 'i', 'n', 'i', 't', 'y'] then
    some Single.infiniteMagnitude
  else none

/-- Reads a text that is a number as a whole: a numeral, or a word after an optional sign. -/
def Single.parse? (text : List Char) : Option Single :=
  match Numeral.read? text with
  | some (numeral, []) => some numeral.toSingle
  | _ =>
    let (negative, word) := Numeral.readSign text
    (Single.magnitudeOfWord? word).map (Single.ofMagnitude negative)

namespace Numeral

/-! Scanning works on codes, which are the bytes of a text or other units that agree with them up to
`127`. -/

def isDigitCode (code : Nat) : Bool := 48 ≤ code && code ≤ 57

def isSignCode (code : Nat) : Bool := code == 43 || code == 45

def isPointCode (code : Nat) : Bool := code == 46

def isMarkCode (code : Nat) : Bool := code == 69 || code == 101

def digitRun (codes : List Nat) : Nat :=
  (codes.takeWhile isDigitCode).length

def passOne (kind : Nat → Bool) : List Nat → Nat
  | [] => 0
  | code :: _ => if kind code then 1 else 0

/-- The size of an exponent that codes start with. It counts only when at least one digit follows. -/
def exponentSize (codes : List Nat) : Nat :=
  let marked := passOne isMarkCode codes
  if marked = 0 then 0
  else
    let signed := marked + passOne isSignCode (codes.drop marked)
    let digits := digitRun (codes.drop signed)
    if digits = 0 then 0 else signed + digits

def signStop (codes : List Nat) : Nat :=
  passOne isSignCode codes

def wholeStop (codes : List Nat) : Nat :=
  signStop codes + digitRun (codes.drop (signStop codes))

def pointStop (codes : List Nat) : Nat :=
  wholeStop codes + passOne isPointCode (codes.drop (wholeStop codes))

def fractionStop (codes : List Nat) : Nat :=
  if pointStop codes = wholeStop codes then pointStop codes
  else pointStop codes + digitRun (codes.drop (pointStop codes))

def digitCount (codes : List Nat) : Nat :=
  wholeStop codes - signStop codes + (fractionStop codes - pointStop codes)

def size? (codes : List Nat) : Option Nat :=
  if digitCount codes = 0 then none
  else some (fractionStop codes + exponentSize (codes.drop (fractionStop codes)))

def extent? (codes : List Nat) : Option (Nat × Nat) :=
  let start := (codes.takeWhile (· == 32)).length
  (size? (codes.drop start)).map fun size => (start, start + size)

end Numeral

def Single.read (text : String) : Single :=
  match Numeral.extent? ((Utf8.encode text.toList).map UInt8.toNat) with
  | none => Single.notANumber
  | some (start, stop) =>
    ((Utf8.slice? text.toList start stop).bind Single.parse?).getD Single.notANumber

end BasicCompiler
