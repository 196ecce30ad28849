import BasicCompiler.Compile.Body

/-!
Code of expressions. It leaves the value of the expression on the stack. Numbers are floats and truth
values are the numbers `-1` and `0`.
-/

namespace BasicCompiler

namespace Builtin

def arities : Builtin → List Nat
  | rnd => [0, 1]
  | left | right | stringFill => [2]
  | mid | instr => [2, 3]
  | _ => [1]

/-- The kinds of the parameters for arguments of the given kinds. A text is filled with a text or with
the character of a code. -/
def parameters (function : Builtin) (arguments : List ValueKind) : List ValueKind :=
  match function with
  | asc | len | val => [.text]
  | left | right => [.text, .number]
  | mid => [.text, .number, .number]
  | instr => if arguments.length = 2 then [.text, .text] else [.number, .text, .text]
  | stringFill => .number :: arguments.drop 1
  | _ => [.number]

def helper (function : Builtin) (count : Nat) : Helper :=
  match function with
  | abs => .abs
  | asc => .asc
  | atn => .atn
  | chr => .chr
  | cos => .cos
  | exp => .exp
  | fix => .fix
  | instr => if count = 2 then .instr2 else .instr3
  | int => .int
  | left => .left
  | len => .len
  | log => .log
  | mid => if count = 2 then .mid2 else .mid3
  | right => .right
  | rnd => .rnd
  | sgn => .sgn
  | sin => .sin
  | space => .space
  | sqr => .sqr
  | str => .floatToText
  | stringFill => .stringFill
  | tan => .tan
  | val => .val

end Builtin

/-- The branch that is taken when a three-way comparison has the given outcome. -/
def CompareOp.branch : CompareOp → Opcode
  | eq => Opcode.ifeq
  | ne => Opcode.ifne
  | lt => Opcode.iflt
  | le => Opcode.ifle
  | gt => Opcode.ifgt
  | ge => Opcode.ifge

/-- The comparison of numbers whose outcome for NaN does not take the branch, `ne` apart. -/
def CompareOp.comparison : CompareOp → Opcode
  | lt | le => Opcode.fcmpg
  | eq | ne | gt | ge => Opcode.fcmpl

namespace Expr

open Draft Body

def expect (place : Place) (expected : ValueKind) (expr : Expr) : BodyM Unit :=
  if expr.kind = expected then return
  else throw (.kindMismatch place expected expr.kind)

def operate : BinaryOp → DraftM Unit
  | .add => op Opcode.fadd
  | .sub => op Opcode.fsub
  | .mul => op Opcode.fmul
  | .div => Draft.call .divide
  | .intDiv => Draft.call .intDiv
  | .mod => Draft.call .mod
  | .pow => Draft.call .power
  | .and => Draft.call .and
  | .or => Draft.call .or
  | .xor => Draft.call .xor

def joins (operator : BinaryOp) (left : Expr) : Bool :=
  operator == .add && left.kind == .text

def operandPlace (operator : BinaryOp) (left : Expr) : Place :=
  if joins operator left then .concatenation else .operand operator

def operandKind (operator : BinaryOp) (left : Expr) : ValueKind :=
  if joins operator left then .text else .number

def combine (operator : BinaryOp) (left : Expr) : DraftM Unit :=
  if joins operator left then Draft.call .concat else operate operator

def compareValues (operator : CompareOp) (kind : ValueKind) : DraftM Unit := do
  match kind with
  | .text => Draft.call .textCompare
  | .number => op operator.comparison
  let holds ← freshLabel "cmp_true"
  let done ← freshLabel "cmp_done"
  branch operator.branch holds
  op Opcode.fconst0
  goto done
  place holds
  pushFloat .negativeOne
  place done

def pushScalar (name : VarName) : DraftM Unit := do
  let slot ← scalarSlot name
  match name.kind with
  | .number => fload slot
  | .text => aload slot

/-- Pushes an array, which is allocated on its first use, and returns its shape. -/
def pushArray (name : VarName) (count : Nat) : BodyM ArrayShape := do
  let shape ← arrayShape name count
  let slot ← arraySlot name
  aload slot
  Draft.call (.auto shape)
  op Opcode.dup
  astore slot
  return shape

def callBuiltin (function : Builtin) (arguments : List Expr) : DraftM Unit := do
  if function = .rnd ∧ arguments.isEmpty then
    op Opcode.fconst1
  if function = .stringFill ∧ (arguments.map kind).drop 1 = [.number] then
    Draft.call .chr
  Draft.call (function.helper arguments.length)

def checkArity (function : Builtin) (count : Nat) : BodyM Unit :=
  if count ∈ function.arities then return
  else throw (.arity function function.arities count)

mutual

def compile : Expr → BodyM Unit
  | number value => pushFloat value
  | text value => pushText value
  | scalar name => pushScalar name
  | element name subscripts => do
    let shape ← pushArray name subscripts.length
    compileNumbers (.subscript name) subscripts
    Draft.call (.get shape)
  | unary .neg operand => do
    expect .negation .number operand
    compile operand
    op Opcode.fneg
  | unary .not operand => do
    expect .complement .number operand
    compile operand
    Draft.call .not
  | binary operator left right => do
    expect (operandPlace operator left) (operandKind operator left) left
    compile left
    expect (operandPlace operator left) (operandKind operator left) right
    compile right
    combine operator left
  | compare operator left right => do
    compile left
    expect .comparison left.kind right
    compile right
    compareValues operator left.kind
  | Expr.call function arguments => do
    checkArity function arguments.length
    compileArguments function 1 (function.parameters (arguments.map kind)) arguments
    callBuiltin function arguments

def compileNumbers (place : Place) : List Expr → BodyM Unit
  | [] => return
  | first :: rest => do
    expect place .number first
    compile first
    compileNumbers place rest

def compileArguments (function : Builtin) (position : Nat) :
    List ValueKind → List Expr → BodyM Unit
  | kind :: kinds, first :: rest => do
    expect (.argument position function) kind first
    compile first
    compileArguments function (position + 1) kinds rest
  | _, _ => return

end

def compileNumber (place : Place) (expr : Expr) : BodyM Unit := do
  expect place .number expr
  expr.compile

end Expr

end BasicCompiler
