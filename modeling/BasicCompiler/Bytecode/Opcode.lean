/-!
The instructions of the virtual machine that the compiler emits, by their opcodes, and the shapes of
the operands of all instructions.
-/

namespace BasicCompiler

abbrev Opcode := UInt8

namespace Opcode

def aconstNull : Opcode := 0x01

def iconstM1 : Opcode := 0x02

def iconst0 : Opcode := 0x03

def iconst1 : Opcode := 0x04

def iconst2 : Opcode := 0x05

def fconst0 : Opcode := 0x0B

def fconst1 : Opcode := 0x0C

def fconst2 : Opcode := 0x0D

def bipush : Opcode := 0x10

def sipush : Opcode := 0x11

def ldc : Opcode := 0x12

def ldcW : Opcode := 0x13

def iload : Opcode := 0x15

def fload : Opcode := 0x17

def aload : Opcode := 0x19

def iaload : Opcode := 0x2E

def faload : Opcode := 0x30

def aaload : Opcode := 0x32

def caload : Opcode := 0x34

def istore : Opcode := 0x36

def fstore : Opcode := 0x38

def astore : Opcode := 0x3A

def iastore : Opcode := 0x4F

def fastore : Opcode := 0x51

def aastore : Opcode := 0x53

def pop : Opcode := 0x57

def dup : Opcode := 0x59

def swap : Opcode := 0x5F

def iadd : Opcode := 0x60

def fadd : Opcode := 0x62

def isub : Opcode := 0x64

def fsub : Opcode := 0x66

def imul : Opcode := 0x68

def fmul : Opcode := 0x6A

def idiv : Opcode := 0x6C

def fdiv : Opcode := 0x6E

def irem : Opcode := 0x70

def ineg : Opcode := 0x74

def fneg : Opcode := 0x76

def ishl : Opcode := 0x78

def iand : Opcode := 0x7E

def ior : Opcode := 0x80

def ixor : Opcode := 0x82

def iinc : Opcode := 0x84

def i2f : Opcode := 0x86

def f2i : Opcode := 0x8B

def f2d : Opcode := 0x8D

def d2f : Opcode := 0x90

def i2c : Opcode := 0x92

def fcmpl : Opcode := 0x95

def fcmpg : Opcode := 0x96

def ifeq : Opcode := 0x99

def ifne : Opcode := 0x9A

def iflt : Opcode := 0x9B

def ifge : Opcode := 0x9C

def ifgt : Opcode := 0x9D

def ifle : Opcode := 0x9E

def ificmpeq : Opcode := 0x9F

def ificmpne : Opcode := 0xA0

def ificmplt : Opcode := 0xA1

def ificmpge : Opcode := 0xA2

def ificmpgt : Opcode := 0xA3

def ificmple : Opcode := 0xA4

def goto : Opcode := 0xA7

def tableswitch : Opcode := 0xAA

def lookupswitch : Opcode := 0xAB

def ireturn : Opcode := 0xAC

def freturn : Opcode := 0xAE

def areturn : Opcode := 0xB0

def vreturn : Opcode := 0xB1

def getstatic : Opcode := 0xB2

def putstatic : Opcode := 0xB3

def invokevirtual : Opcode := 0xB6

def invokespecial : Opcode := 0xB7

def invokestatic : Opcode := 0xB8

def new : Opcode := 0xBB

def newarray : Opcode := 0xBC

def anewarray : Opcode := 0xBD

def arraylength : Opcode := 0xBE

def athrow : Opcode := 0xBF

def wide : Opcode := 0xC4

def multianewarray : Opcode := 0xC5

def ifnull : Opcode := 0xC6

end Opcode

namespace ElementType

def char : UInt8 := 5

def float : UInt8 := 6

def int : UInt8 := 10

end ElementType

inductive OperandShape where
  | plain (bytes : Nat)
  | poolByte
  /-- A two byte index of a constant and a number of other bytes. -/
  | poolWord (bytes : Nat)
  | slotByte (bytes : Nat)
  | branch
  | wideBranch
  /-- The opcode of a slot instruction and a two byte slot. -/
  | widened
  | tableSwitch
  | lookupSwitch
  | undefined
  deriving DecidableEq, Repr

namespace Opcode

def accessesSlot (opcode : Opcode) : Bool :=
  let code := opcode.toNat
  (0x15 ≤ code && code ≤ 0x19) || (0x36 ≤ code && code ≤ 0x3A) || code == 0xA9

def shape (opcode : Opcode) : OperandShape :=
  let code := opcode.toNat
  if opcode.accessesSlot then .slotByte 0
  else if code = 0x84 then .slotByte 1
  else if code = 0x10 ∨ code = 0xBC then .plain 1
  else if code = 0x11 then .plain 2
  else if code = 0x12 then .poolByte
  else if code = 0x13 ∨ code = 0x14 ∨ (0xB2 ≤ code ∧ code ≤ 0xB8) ∨ code = 0xBB ∨ code = 0xBD ∨
      code = 0xC0 ∨ code = 0xC1 then .poolWord 0
  else if code = 0xC5 then .poolWord 1
  else if code = 0xB9 ∨ code = 0xBA then .poolWord 2
  else if (0x99 ≤ code ∧ code ≤ 0xA8) ∨ code = 0xC6 ∨ code = 0xC7 then .branch
  else if code = 0xC8 ∨ code = 0xC9 then .wideBranch
  else if code = 0xC4 then .widened
  else if code = 0xAA then .tableSwitch
  else if code = 0xAB then .lookupSwitch
  else if 0xCA ≤ code then .undefined
  else .plain 0

end Opcode

end BasicCompiler
