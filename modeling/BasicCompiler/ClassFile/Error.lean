/-!
What can go wrong with a class file: while writing it, reading it or decoding its code.
-/

namespace BasicCompiler

inductive ClassFileError where
  /-- The input ends before the value that is being read. -/
  | endOfInput
  | missingDirectory
  | invalidMagic
  | unsupportedVersion (major minor : UInt16)
  | invalidConstantTag (tag : UInt8)
  | invalidConstantIndex (index : UInt16)
  | poolOverflow
  | textTooLong (length : Nat)
  | invalidText
  | unsupportedAttribute (name : String)
  | invalidOpcode (position : Nat) (opcode : UInt8)
  | truncatedInstruction (position : Nat)
  deriving DecidableEq, Repr

namespace ClassFileError

def kind : ClassFileError → String
  | endOfInput => "Io"
  | missingDirectory => "Io"
  | invalidMagic => "InvalidMagic"
  | unsupportedVersion _ _ => "UnsupportedVersion"
  | invalidConstantTag _ => "InvalidConstantTag"
  | invalidConstantIndex _ => "InvalidConstantIndex"
  | poolOverflow => "ConstantPoolOverflow"
  | textTooLong _ => "Utf8TooLong"
  | invalidText => "InvalidUtf8"
  | unsupportedAttribute _ => "UnsupportedAttribute"
  | invalidOpcode _ _ => "InvalidOpcode"
  | truncatedInstruction _ => "TruncatedInstruction"

def hexByte (byte : UInt8) : String :=
  let digits := (Nat.toDigits 16 byte.toNat).map Char.toUpper
  String.ofList (if digits.length < 2 then '0' :: digits else digits)

/-- The text of the failed input or output operation below an error, if there is one. -/
def cause? : ClassFileError → Option String
  | endOfInput => some "failed to fill whole buffer"
  | missingDirectory => some "No such file or directory (os error 2)"
  | _ => none

def message : ClassFileError → String
  | endOfInput => "I/O error: failed to fill whole buffer"
  | missingDirectory => "I/O error: No such file or directory (os error 2)"
  | invalidMagic => "invalid magic number"
  | unsupportedVersion major minor => s!"unsupported class file version {major}.{minor}"
  | invalidConstantTag tag => s!"invalid constant tag: {tag}"
  | invalidConstantIndex index => s!"invalid constant pool index: {index}"
  | poolOverflow => "constant pool exceeds 65535 entries"
  | textTooLong length => s!"text constant of {length} bytes exceeds 65535 bytes"
  | invalidText => "invalid modified UTF-8 text"
  | unsupportedAttribute name => s!"unsupported attribute: {name}"
  | invalidOpcode position opcode => s!"invalid opcode 0x{hexByte opcode} at {position}"
  | truncatedInstruction position => s!"truncated instruction at {position}"

end ClassFileError

end BasicCompiler
