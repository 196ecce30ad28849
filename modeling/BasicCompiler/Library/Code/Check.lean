import BasicCompiler.Fault
import BasicCompiler.Method.Draft

/-!
Code that raises faults and checks ranges.
-/

namespace BasicCompiler.Draft

def stringClass : String := "java/lang/String"

def printStreamClass : String := "java/io/PrintStream"

def raise (fault : Fault) : DraftM Unit := do
  pushText fault.message
  call .fault
  op Opcode.athrow

/-- Moves the integer on the stack to a slot and raises a fault unless it lies in `[low, high]`. -/
def checkRange (slot : Nat) (low high : Int32) (fault : Fault) : DraftM Unit := do
  let bad ← freshLabel "range_bad"
  let ok ← freshLabel "range_ok"
  istore slot
  iload slot
  pushInt low
  branch Opcode.ificmplt bad
  iload slot
  pushInt high
  branch Opcode.ificmpgt bad
  goto ok
  place bad
  raise fault
  place ok

/-- Converts a number argument to an integer in `[low, high]` and returns the slot that holds it. -/
def intArgument (argument : Nat) (low high : Int32) (fault : Fault) : DraftM Nat := do
  let slot ← temporary .int
  fload argument
  op Opcode.f2i
  checkRange slot low high fault
  return slot

def textLength : DraftM Unit :=
  invokeVirtual stringClass "length" "()I"

def joinTexts : DraftM Unit :=
  invokeVirtual stringClass "concat" "(Ljava/lang/String;)Ljava/lang/String;"

def pushOutput : DraftM Unit :=
  getStatic "java/lang/System" "out" "Ljava/io/PrintStream;"

def flushOutput : DraftM Unit := do
  pushOutput
  invokeVirtual printStreamClass "flush" "()V"

end BasicCompiler.Draft
