import BasicCompiler.Number.Single
import BasicCompiler.Syntax.Name

/-!
Expressions. The kind of an expression follows from its form alone.
-/

namespace BasicCompiler

inductive BinaryOp where
  | add
  | sub
  | mul
  | div
  | intDiv
  | mod
  | pow
  | and
  | or
  | xor
  deriving DecidableEq, Repr

def BinaryOp.symbol : BinaryOp → String
  | add => "+"
  | sub => "-"
  | mul => "*"
  | div => "/"
  | intDiv => "\\"
  | mod => "MOD"
  | pow => "^"
  | and => "AND"
  | or => "OR"
  | xor => "XOR"

inductive UnaryOp where
  | neg
  | not
  deriving DecidableEq, Repr

inductive CompareOp where
  | eq
  | ne
  | lt
  | le
  | gt
  | ge
  deriving DecidableEq, Repr

inductive Builtin where
  | abs
  | asc
  | atn
  | chr
  | cos
  | exp
  | fix
  | instr
  | int
  | left
  | len
  | log
  | mid
  | right
  | rnd
  | sgn
  | sin
  | space
  | sqr
  | str
  | stringFill
  | tan
  | val
  deriving DecidableEq, Repr

namespace Builtin

def all : List Builtin :=
  [abs, asc, atn, chr, cos, exp, fix, instr, int, left, len, log, mid, right, rnd, sgn, sin, space,
    sqr, str, stringFill, tan, val]

def name : Builtin → String
  | abs => "ABS"
  | asc => "ASC"
  | atn => "ATN"
  | chr => "CHR$"
  | cos => "COS"
  | exp => "EXP"
  | fix => "FIX"
  | instr => "INSTR"
  | int => "INT"
  | left => "LEFT$"
  | len => "LEN"
  | log => "LOG"
  | mid => "MID$"
  | right => "RIGHT$"
  | rnd => "RND"
  | sgn => "SGN"
  | sin => "SIN"
  | space => "SPACE$"
  | sqr => "SQR"
  | str => "STR$"
  | stringFill => "STRING$"
  | tan => "TAN"
  | val => "VAL"

def kind : Builtin → ValueKind
  | chr | left | mid | right | space | str | stringFill => .text
  | _ => .number

end Builtin

inductive Expr where
  | number (value : Single)
  | text (value : String)
  | scalar (name : VarName)
  | element (name : VarName) (subscripts : List Expr)
  | unary (op : UnaryOp) (operand : Expr)
  | binary (op : BinaryOp) (left right : Expr)
  | compare (op : CompareOp) (left right : Expr)
  | call (function : Builtin) (arguments : List Expr)

namespace Expr

def kind : Expr → ValueKind
  | number _ => .number
  | text _ => .text
  | scalar name => name.kind
  | element name _ => name.kind
  | unary _ _ => .number
  | binary .add left _ => left.kind
  | binary _ _ _ => .number
  | compare _ _ _ => .number
  | call function _ => function.kind

mutual

def agrees : Expr → Expr → Bool
  | number first, number second => first.numericEq second
  | text first, text second => first == second
  | scalar first, scalar second => first == second
  | element first subscripts, element second others =>
    first == second && agreesAll subscripts others
  | unary op operand, unary other second => op == other && agrees operand second
  | binary op left right, binary other left' right' =>
    op == other && agrees left left' && agrees right right'
  | compare op left right, compare other left' right' =>
    op == other && agrees left left' && agrees right right'
  | call function arguments, call other others =>
    function == other && agreesAll arguments others
  | _, _ => false

def agreesAll : List Expr → List Expr → Bool
  | [], [] => true
  | first :: rest, second :: others => agrees first second && agreesAll rest others
  | _, _ => false

end

end Expr

inductive Variable where
  | scalar (name : VarName)
  | element (name : VarName) (subscripts : List Expr)

namespace Variable

def name : Variable → VarName
  | scalar name => name
  | element name _ => name

def kind (target : Variable) : ValueKind := target.name.kind

def toExpr : Variable → Expr
  | scalar name => .scalar name
  | element name subscripts => .element name subscripts

def agrees (first second : Variable) : Bool :=
  first.toExpr.agrees second.toExpr

end Variable

end BasicCompiler
