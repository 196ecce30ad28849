import BasicCompiler.Assembly.Buffer
import BasicCompiler.Library.Cell
import BasicCompiler.Library.Helper
import BasicCompiler.Number.Single

/-!
Symbolic code: instructions whose operands are values, names, labels and local slots. Constants get
their indices, and branches their offsets, only when the code is assembled.
-/

namespace BasicCompiler

structure MemberRef where
  owner : String
  name : String
  descriptor : String
  deriving DecidableEq, Repr

inductive Insn where
  | op (opcode : Opcode)
  | branch (opcode : Opcode) (target : Label)
  | tableSwitch (low : Int32) (targets : List Label) (default : Label)
  | pushFloat (value : Single)
  | pushInt (value : Int32)
  | pushText (text : String)
  | access (opcode : Opcode) (slot : Nat)
  | increment (slot : Nat) (amount : Int8)
  | field (opcode : Opcode) (member : MemberRef)
  | invoke (opcode : Opcode) (member : MemberRef)
  /-- Creates an object and duplicates it for its constructor. -/
  | newDup (className : String)
  | newArray (elementType : UInt8)
  | newRefArray (className : String)
  | newMultiArray (descriptor : String) (dimensions : UInt8)
  | call (helper : Helper)
  | getCell (cell : Cell)
  | putCell (cell : Cell)
  deriving DecidableEq, Repr

inductive Item where
  | insn (instruction : Insn)
  | label (label : Label)
  | sourceLine (line : UInt32)
  | request (helper : Helper)
  deriving DecidableEq, Repr

/-- An exception handler for the code between two labels. Without a class it catches everything. -/
structure Handler where
  start : Label
  stop : Label
  handler : Label
  className : Option String
  deriving DecidableEq, Repr

end BasicCompiler
