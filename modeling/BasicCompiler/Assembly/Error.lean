/-!
What can go wrong while the code of a method is assembled.
-/

namespace BasicCompiler

inductive AssemblyError where
  | unresolvedLabel (method label : String)
  | duplicateLabel (method label : String)
  | methodTooLarge (method : String) (size : Nat)
  | branchOutOfRange (method label : String)
  /-- A field that should hold an offset is not part of the code. -/
  | fieldOutsideCode (method : String) (position : Nat)
  deriving DecidableEq, Repr

def AssemblyError.kind : AssemblyError → String
  | unresolvedLabel _ _ => "UnresolvedLabel"
  | duplicateLabel _ _ => "DuplicateLabel"
  | methodTooLarge _ _ => "MethodTooLarge"
  | branchOutOfRange _ _ => "BranchOutOfRange"
  | fieldOutsideCode _ _ => "FieldOutsideCode"

def AssemblyError.message : AssemblyError → String
  | unresolvedLabel method label =>
    s!"label '{label}' in method {method} is referenced but never defined"
  | duplicateLabel method label => s!"label '{label}' in method {method} is defined more than once"
  | methodTooLarge method size =>
    s!"method {method} is too large: {size} bytes of code, at most 65535 allowed"
  | branchOutOfRange method label => s!"branch to '{label}' in method {method} is out of range"
  | fieldOutsideCode method position =>
    s!"field at {position} in method {method} is outside of the code"

end BasicCompiler
