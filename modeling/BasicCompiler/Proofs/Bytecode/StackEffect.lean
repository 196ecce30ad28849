import Mathlib.Algebra.GroupWithZero.Nat
import BasicCompiler.Bytecode.Descriptor
import BasicCompiler.Bytecode.Instruction
import BasicCompiler.ClassFile.Pool

/-!
What the instructions of the virtual machine do to the types on the operand stack. Only the
instructions that the compiler emits have an effect.
-/

namespace BasicCompiler

inductive ValueType where
  | int
  | float
  | double
  | reference
  deriving DecidableEq, Repr

abbrev StackType := List ValueType

namespace StackType

def height (stack : StackType) : Nat :=
  (stack.map fun type => if type = .double then 2 else 1).sum

def replace : (stack popped pushed : StackType) → Option StackType
  | stack, [], pushed => some (pushed ++ stack)
  | found :: rest, expected :: more, pushed =>
    if expected = found then replace rest more pushed else none
  | [], _ :: _, _ => none

theorem replace_append (popped pushed rest : StackType) :
    (popped ++ rest).replace popped pushed = some (pushed ++ rest) := by
  induction popped with
  | nil => cases rest <;> rfl
  | cons type more ih => simpa [replace] using ih

end StackType

namespace Descriptor

def primitive? (letter : Char) : Option ValueType :=
  if letter = 'F' then some .float
  else if letter = 'D' then some .double
  else if letter = 'I' ∨ letter = 'C' ∨ letter = 'Z' ∨ letter = 'B' ∨ letter = 'S' then some .int
  else none

def typesAfter : ScanState → StackType → List Char → Option StackType
  | .start, done, [] => some done
  | .className, _, [] => none
  | .element, _, [] => none
  | .start, done, letter :: rest =>
    if letter = 'L' then typesAfter .className (.reference :: done) rest
    else if letter = '[' then typesAfter .element (.reference :: done) rest
    else
      match primitive? letter with
      | some type => typesAfter .start (type :: done) rest
      | none => none
  | .className, done, letter :: rest =>
    if letter = ';' then typesAfter .start done rest else typesAfter .className done rest
  | .element, done, letter :: rest =>
    if letter = '[' then typesAfter .element done rest
    else if letter = 'L' then typesAfter .className done rest
    else typesAfter .start done rest

def fieldTypes (descriptor : String) : Option StackType :=
  typesAfter .start [] descriptor.toList

/-- The types of the parameters of a method, the last one first as they stand on the stack. -/
def parameterTypes (descriptor : String) : Option StackType :=
  typesAfter .start [] (parameters descriptor)

def resultTypes (descriptor : String) : Option StackType :=
  let result := (descriptor.toList.dropWhile (· ≠ ')')).drop 1
  if result = ['V'] then some [] else typesAfter .start [] result

def invoke? (receiver : StackType) (descriptor : String) (stack : StackType) : Option StackType := do
  stack.replace ((← parameterTypes descriptor) ++ receiver) (← resultTypes descriptor)

end Descriptor

namespace Opcode

open ValueType

/-- What instructions without a constant take from the stack and put on it, the topmost value first. -/
def effects : List (Opcode × StackType × StackType) :=
  [(aconstNull, [], [reference]),
    (iconstM1, [], [int]),
    (iconst0, [], [int]),
    (iconst1, [], [int]),
    (iconst2, [], [int]),
    (0x06, [], [int]),
    (0x07, [], [int]),
    (0x08, [], [int]),
    (fconst0, [], [float]),
    (fconst1, [], [float]),
    (fconst2, [], [float]),
    (bipush, [], [int]),
    (sipush, [], [int]),
    (iload, [], [int]),
    (fload, [], [float]),
    (aload, [], [reference]),
    (iaload, [int, reference], [int]),
    (faload, [int, reference], [float]),
    (aaload, [int, reference], [reference]),
    (caload, [int, reference], [int]),
    (istore, [int], []),
    (fstore, [float], []),
    (astore, [reference], []),
    (iastore, [int, int, reference], []),
    (fastore, [float, int, reference], []),
    (aastore, [reference, int, reference], []),
    (iadd, [int, int], [int]),
    (fadd, [float, float], [float]),
    (isub, [int, int], [int]),
    (fsub, [float, float], [float]),
    (imul, [int, int], [int]),
    (fmul, [float, float], [float]),
    (idiv, [int, int], [int]),
    (fdiv, [float, float], [float]),
    (irem, [int, int], [int]),
    (ineg, [int], [int]),
    (fneg, [float], [float]),
    (ishl, [int, int], [int]),
    (iand, [int, int], [int]),
    (ior, [int, int], [int]),
    (ixor, [int, int], [int]),
    (iinc, [], []),
    (i2f, [int], [float]),
    (f2i, [float], [int]),
    (f2d, [float], [double]),
    (d2f, [double], [float]),
    (i2c, [int], [int]),
    (fcmpl, [float, float], [int]),
    (fcmpg, [float, float], [int]),
    (ifeq, [int], []),
    (ifne, [int], []),
    (iflt, [int], []),
    (ifge, [int], []),
    (ifgt, [int], []),
    (ifle, [int], []),
    (ificmpeq, [int, int], []),
    (ificmpne, [int, int], []),
    (ificmplt, [int, int], []),
    (ificmpge, [int, int], []),
    (ificmpgt, [int, int], []),
    (ificmple, [int, int], []),
    (goto, [], []),
    (tableswitch, [int], []),
    (ireturn, [int], []),
    (freturn, [float], []),
    (areturn, [reference], []),
    (vreturn, [], []),
    (newarray, [int], [reference]),
    (arraylength, [reference], [int]),
    (athrow, [reference], []),
    (ifnull, [reference], [])]

/-- What an instruction without a constant does to the stack. The values that `pop`, `dup` and `swap`
move may have any type that takes one slot. -/
def execute (opcode : Opcode) (stack : StackType) : Option StackType :=
  if opcode = pop then
    match stack with
    | top :: rest => if top = double then none else some rest
    | [] => none
  else if opcode = dup then
    match stack with
    | top :: rest => if top = double then none else some (top :: top :: rest)
    | [] => none
  else if opcode = swap then
    match stack with
    | top :: next :: rest =>
      if top = double ∨ next = double then none else some (next :: top :: rest)
    | _ => none
  else
    match effects.lookup opcode with
    | some (popped, pushed) => stack.replace popped pushed
    | none => none

/-- An instruction takes values of fixed types from the stack and puts values of fixed types on it. -/
def Replaces (opcode : Opcode) (popped pushed : StackType) : Prop :=
  opcode ∉ [pop, dup, swap] ∧ effects.lookup opcode = some (popped, pushed)

instance (opcode : Opcode) (popped pushed : StackType) : Decidable (opcode.Replaces popped pushed) :=
  inferInstanceAs (Decidable (_ ∧ _))

theorem Replaces.execute {opcode : Opcode} {popped pushed : StackType}
    (replaces : opcode.Replaces popped pushed) (rest : StackType) :
    opcode.execute (popped ++ rest) = some (pushed ++ rest) := by
  obtain ⟨plain, found⟩ := replaces
  simp only [List.mem_cons, List.not_mem_nil, or_false, not_or] at plain
  simp only [Opcode.execute, plain, if_false, found, StackType.replace_append]

def continues (opcode : Opcode) : Bool :=
  opcode ∉ [goto, tableswitch, lookupswitch, ireturn, freturn, areturn, vreturn, athrow]

end Opcode

namespace Instruction

open ValueType

def constantType? : Constant → Option ValueType
  | .integer _ => some int
  | .float _ => some float
  | .string _ => some reference
  | _ => none

def descriptorAt? (pool : ConstantPool) (index : UInt16) : Option String :=
  match pool.memberAt index with
  | .ok (_, _, descriptor) => some descriptor
  | .error _ => none

/-- What an instruction does to the stack. Constants, fields and methods have the types that the pool
says. -/
def execute (pool : ConstantPool) (code : Array UInt8) (instruction : Instruction)
    (stack : StackType) : Option StackType :=
  match instruction.poolIndex with
  | none => instruction.opcode.execute stack
  | some index =>
    if instruction.opcode = Opcode.ldc ∨ instruction.opcode = Opcode.ldcW then do
      let entry ← (pool.lookup index).toOption
      return (← constantType? entry) :: stack
    else if instruction.opcode = Opcode.getstatic then do
      stack.replace [] (← Descriptor.fieldTypes (← descriptorAt? pool index))
    else if instruction.opcode = Opcode.putstatic then do
      stack.replace (← Descriptor.fieldTypes (← descriptorAt? pool index)) []
    else if instruction.opcode = Opcode.invokestatic then do
      Descriptor.invoke? [] (← descriptorAt? pool index) stack
    else if instruction.opcode = Opcode.invokevirtual ∨ instruction.opcode = Opcode.invokespecial then do
      Descriptor.invoke? [reference] (← descriptorAt? pool index) stack
    else if instruction.opcode = Opcode.new then
      some (reference :: stack)
    else if instruction.opcode = Opcode.anewarray then
      stack.replace [int] [reference]
    else if instruction.opcode = Opcode.multianewarray then do
      let dimensions ← code[instruction.position + 3]?
      stack.replace (List.replicate dimensions.toNat int) [reference]
    else none

end Instruction

end BasicCompiler
