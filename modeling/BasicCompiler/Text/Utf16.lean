/-!
UTF-16 code units of a text. A character outside the basic plane is a pair of surrogates; decoding
refuses a surrogate that stands alone.
-/

namespace BasicCompiler.Utf16

def units (character : Char) : List UInt16 :=
  let code := character.toNat
  if code < 0x10000 then [UInt16.ofNat code]
  else
    let offset := code - 0x10000
    [UInt16.ofNat (0xD800 + offset / 0x400), UInt16.ofNat (0xDC00 + offset % 0x400)]

def encode (text : List Char) : List UInt16 :=
  text.flatMap units

def length (text : String) : Nat :=
  text.toList.foldl (fun count character => count + (units character).length) 0

def isHighSurrogate (unit : UInt16) : Bool :=
  0xD800 ≤ unit && unit < 0xDC00

def isLowSurrogate (unit : UInt16) : Bool :=
  0xDC00 ≤ unit && unit < 0xE000

def ofSurrogates (high low : UInt16) : Char :=
  Char.ofNat (0x10000 + (high.toNat - 0xD800) * 0x400 + (low.toNat - 0xDC00))

/-- Decodes code units after the characters `done`, which are held last first. -/
def decodeAfter : List UInt16 → List Char → Option (List Char)
  | [], done => some done.reverse
  | unit :: rest, done =>
    if isHighSurrogate unit then
      match rest with
      | [] => none
      | next :: tail =>
        if isLowSurrogate next then decodeAfter tail (ofSurrogates unit next :: done) else none
    else if isLowSurrogate unit then none
    else decodeAfter rest (Char.ofNat unit.toNat :: done)

def decode? (units : List UInt16) : Option (List Char) :=
  decodeAfter units []

end BasicCompiler.Utf16
