import BasicCompiler.ClassFile.Basic

/-!
What the caller chooses about a class.
-/

namespace BasicCompiler

structure Options where
  className : String := "Main"
  superClass : String := "java/lang/Object"
  maxStack : UInt16 := 64
  /-- Whether the main method says which source line its code belongs to. -/
  lineNumbers : Bool := false
  majorVersion : UInt16 := ClassFile.defaultMajorVersion
  deriving DecidableEq, Repr

end BasicCompiler
