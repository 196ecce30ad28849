import BasicCompiler.Assembly.Error
import BasicCompiler.ClassFile.Error
import BasicCompiler.Syntax.Expr

/-!
What can go wrong while a program is compiled.
-/

namespace BasicCompiler

inductive Place where
  | assignment (target : VarName)
  | subscript (array : VarName)
  | bound (array : VarName)
  | tab
  | spc
  | selector
  | ifCondition
  | whileCondition
  | loop (control : VarName)
  | negation
  | complement
  | concatenation
  | operand (op : BinaryOp)
  | comparison
  | argument (position : Nat) (function : Builtin)
  deriving DecidableEq, Repr

def Place.describe : Place → String
  | assignment target => s!"assignment to {target.spelling}"
  | subscript array => s!"subscript of {array.spelling}"
  | bound array => s!"bound of {array.spelling}"
  | tab => "TAB"
  | spc => "SPC"
  | selector => "ON selector"
  | ifCondition => "IF condition"
  | whileCondition => "WHILE condition"
  | loop control => s!"FOR {control.spelling}"
  | negation => "negation"
  | complement => "NOT"
  | concatenation => "concatenation"
  | operand op => s!"operator {op.symbol}"
  | comparison => "comparison"
  | argument position function => s!"argument {position} of {function.name}"

inductive CompileError where
  | assembly (error : AssemblyError)
  | classFile (error : ClassFileError)
  | duplicateLine (line : LineNumber)
  | undefinedLine (line : LineNumber)
  | kindMismatch (place : Place) (expected found : ValueKind)
  /-- A call with a number of arguments that is not one of those `expected`. -/
  | arity (function : Builtin) (expected : List Nat) (found : Nat)
  | arrayDimensions (name : VarName) (expected found : Nat)
  | tooManyDimensions (name : VarName) (found : Nat)
  | nextWithoutFor
  | nextMismatch (expected found : VarName)
  | forWithoutNext (control : VarName)
  | whileWithoutWend
  | wendWithoutWhile
  deriving DecidableEq, Repr

namespace CompileError

/-- The short name of the kind of an error, with the part of the compiler it comes from. -/
def kind : CompileError → String
  | assembly error => s!"Assembler.{error.kind}"
  | classFile error => s!"ClassFile.{error.kind}"
  | duplicateLine _ => "DuplicateLine"
  | undefinedLine _ => "UndefinedLine"
  | kindMismatch _ _ _ => "TypeMismatch"
  | arity _ _ _ => "Arity"
  | arrayDimensions _ _ _ => "ArrayDimensions"
  | tooManyDimensions _ _ => "TooManyDimensions"
  | nextWithoutFor => "NextWithoutFor"
  | nextMismatch _ _ => "NextMismatch"
  | forWithoutNext _ => "ForWithoutNext"
  | whileWithoutWend => "WhileWithoutWend"
  | wendWithoutWhile => "WendWithoutWhile"

def message : CompileError → String
  | assembly error => error.message
  | classFile error => s!"class file error: {error.message}"
  | duplicateLine line => s!"line {line} is defined more than once"
  | undefinedLine line => s!"line {line} is not defined"
  | kindMismatch place expected found =>
    s!"{place.describe} expects a {expected.name} value, found a {found.name} value"
  | arity function expected found =>
    let counts := String.intercalate " or " (expected.map toString)
    s!"{function.name} expects {counts} arguments, found {found}"
  | arrayDimensions name expected found =>
    s!"array {name.spelling} is used with {found} subscripts but has {expected}"
  | tooManyDimensions name found =>
    s!"array {name.spelling} has {found} dimensions, at most 2 are supported"
  | nextWithoutFor => "NEXT without FOR"
  | nextMismatch expected found => s!"NEXT {found.spelling} does not match FOR {expected.spelling}"
  | forWithoutNext control => s!"FOR {control.spelling} without NEXT"
  | whileWithoutWend => "WHILE without WEND"
  | wendWithoutWhile => "WEND without WHILE"

def causes : CompileError → List String
  | classFile error => error.message :: error.cause?.toList
  | _ => []

end CompileError

end BasicCompiler
