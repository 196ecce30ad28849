/-!
Positions in a text that are counted in bytes of UTF-8.
-/

namespace BasicCompiler.Utf8

def encode (text : List Char) : List UInt8 :=
  text.flatMap String.utf8EncodeChar

/-- Splits a text after a number of bytes. The characters `taken` stand before it and are held last
first. There is no split inside of a character or behind the end. -/
def splitAfter : List Char → Nat → List Char → Option (List Char × List Char)
  | rest, 0, taken => some (taken.reverse, rest)
  | [], _ + 1, _ => none
  | character :: rest, count + 1, taken =>
    if character.utf8Size ≤ count + 1 then
      splitAfter rest (count + 1 - character.utf8Size) (character :: taken)
    else none

def split? (text : List Char) (count : Nat) : Option (List Char × List Char) :=
  splitAfter text count []

def slice? (text : List Char) (start stop : Nat) : Option (List Char) :=
  if stop < start then none
  else do
    let (_, rest) ← split? text start
    let (part, _) ← split? rest (stop - start)
    return part

end BasicCompiler.Utf8
