import BasicCompiler.Bytes.BigEndian
import BasicCompiler.ClassFile.Error

/-!
Readers: computations that consume bytes from the front of an input and fail when it is too short.
-/

namespace BasicCompiler

abbrev Reader := StateT (List UInt8) (Except ClassFileError)

namespace Reader

def byte : Reader UInt8
  | [] => .error .endOfInput
  | first :: rest => .ok (first, rest)

def word16 : Reader UInt16
  | first :: second :: rest => .ok (BigEndian.decode16 first second, rest)
  | _ => .error .endOfInput

def word32 : Reader UInt32
  | first :: second :: third :: fourth :: rest =>
    .ok (BigEndian.decode32 first second third fourth, rest)
  | _ => .error .endOfInput

def word64 : Reader UInt64 := do
  let high ← word32
  let low ← word32
  return BigEndian.decode64 high low

def bytes (count : Nat) : Reader (List UInt8) := fun input =>
  match BigEndian.take? count input with
  | some (taken, rest) => .ok (taken, rest)
  | none => .error .endOfInput

def repeatAfter {α : Type} (item : Reader α) : Nat → List α → Reader (List α)
  | 0, done => return done.reverse
  | count + 1, done => do
    let next ← item
    repeatAfter item count (next :: done)

def counted {α : Type} (item : Reader α) : Reader (List α) := do
  let count ← word16
  repeatAfter item count.toNat []

end Reader

end BasicCompiler
