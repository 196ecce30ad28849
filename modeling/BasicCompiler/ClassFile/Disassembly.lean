import BasicCompiler.Bytecode.Instruction
import BasicCompiler.ClassFile.Basic

/-!
Disassembly of the methods of a class.
-/

namespace BasicCompiler

def MethodInfo.instructions (method : MethodInfo) : Except ClassFileError (List Instruction) :=
  match method.code with
  | some code => Instruction.decode code.bytes
  | none => return []

def ClassFile.disassemble (file : ClassFile) :
    Except ClassFileError (List (String × List Instruction)) :=
  file.methods.mapM fun method => do
    return (← file.pool.textAt method.nameIndex, ← method.instructions)

end BasicCompiler
