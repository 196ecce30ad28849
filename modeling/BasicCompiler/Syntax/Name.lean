/-!
Value kinds, line numbers and variable names.
-/

namespace BasicCompiler

/-- The kind of a value. Truth values are numbers: `-1` is true and `0` is false. -/
inductive ValueKind where
  | number
  | text
  deriving DecidableEq, Repr

def ValueKind.name : ValueKind → String
  | number => "number"
  | text => "text"

abbrev LineNumber := UInt32

/-- The name of a variable as it is written, with its type suffix. -/
structure VarName where
  spelling : String
  deriving DecidableEq, Hashable, Repr

/-- A name that ends in a dollar sign holds text and every other name a number. -/
def VarName.kind (name : VarName) : ValueKind :=
  if name.spelling.toList.getLast? = some '$' then .text else .number

end BasicCompiler
