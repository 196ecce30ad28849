import BasicCompiler.Syntax.Name

/-!
The shapes of arrays: numbers or texts in one or two dimensions.
-/

namespace BasicCompiler

inductive ArrayShape where
  | num1
  | num2
  | text1
  | text2
  deriving DecidableEq, Repr

namespace ArrayShape

def all : List ArrayShape := [num1, num2, text1, text2]

/-- The shape of arrays of a kind with a number of subscripts, if there is one. -/
def of? : ValueKind → Nat → Option ArrayShape
  | .number, 1 => some num1
  | .number, 2 => some num2
  | .text, 1 => some text1
  | .text, 2 => some text2
  | _, _ => none

def dimensions : ArrayShape → Nat
  | num1 | text1 => 1
  | num2 | text2 => 2

def kind : ArrayShape → ValueKind
  | num1 | num2 => .number
  | text1 | text2 => .text

def name : ArrayShape → String
  | num1 => "Num1"
  | num2 => "Num2"
  | text1 => "Text1"
  | text2 => "Text2"

def descriptor : ArrayShape → String
  | num1 => "[F"
  | num2 => "[[F"
  | text1 => "[Ljava/lang/String;"
  | text2 => "[[Ljava/lang/String;"

def elementDescriptor (shape : ArrayShape) : String :=
  match shape.kind with
  | .number => "F"
  | .text => "Ljava/lang/String;"

def subscripts (shape : ArrayShape) : String :=
  match shape.dimensions with
  | 1 => "F"
  | _ => "FF"

end ArrayShape

end BasicCompiler
