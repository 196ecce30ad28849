import BasicCompiler.Library.Code.Check

/-!
Code of the array helpers. Every access first goes through `auto`, which allocates an array that was
never dimensioned, and then through `get` or `set`, which check the subscripts.
-/

namespace BasicCompiler.ArrayCode

open Draft

def maxSubscript : Int32 := 32767

def defaultBound : Single := .ten

def maxBoundsFault : ArrayShape → Fault
  | .num1 => .indexOutOfMaxBoundsNum1
  | .num2 => .indexOutOfMaxBoundsNum2
  | .text1 => .indexOutOfMaxBoundsText1
  | .text2 => .indexOutOfMaxBoundsText2

def boundsFault : ArrayShape → Fault
  | .num1 => .indexOutOfBoundsNum1
  | .num2 => .indexOutOfBoundsNum2
  | .text1 => .indexOutOfBoundsText1
  | .text2 => .indexOutOfBoundsText2

def dimensionFault : ArrayShape → Fault
  | .num1 => .dimensionOutOfMaxBoundsNum1
  | .num2 => .dimensionOutOfMaxBoundsNum2
  | .text1 => .dimensionOutOfMaxBoundsText1
  | .text2 => .dimensionOutOfMaxBoundsText2

def redimensionedFault : ArrayShape → Fault
  | .num1 => .redimensionedNum1
  | .num2 => .redimensionedNum2
  | .text1 => .redimensionedText1
  | .text2 => .redimensionedText2

/-- From a subscript and a length to an index. The subscript is cut towards zero. -/
def indexCheck (shape : ArrayShape) : DraftM Unit := do
  let index ← temporary .int
  let max ← freshLabel "max_bounds"
  let bounds ← freshLabel "bounds"
  fload 0
  op Opcode.f2i
  istore index
  iload index
  branch Opcode.iflt max
  iload index
  pushInt maxSubscript
  branch Opcode.ificmpgt max
  iload index
  iload 1
  branch Opcode.ificmpge bounds
  iload index
  op Opcode.ireturn
  place max
  raise (maxBoundsFault shape)
  place bounds
  raise (boundsFault shape)

def dimCheck (shape : ArrayShape) : DraftM Unit := do
  let bound ← intArgument 0 0 maxSubscript (dimensionFault shape)
  iload bound
  op Opcode.iconst1
  op Opcode.iadd
  op Opcode.ireturn

def fillEmpty : DraftM Unit := do
  pushText ""
  invokeStatic "java/util/Arrays" "fill" "([Ljava/lang/Object;Ljava/lang/Object;)V"

def fillRows : DraftM Unit := do
  let array ← temporary .null
  let row ← temporary .int
  let next ← freshLabel "fill_next"
  let done ← freshLabel "fill_done"
  astore array
  op Opcode.iconst0
  istore row
  place next
  iload row
  aload array
  op Opcode.arraylength
  branch Opcode.ificmpge done
  aload array
  iload row
  op Opcode.aaload
  fillEmpty
  increment row 1
  goto next
  place done
  aload array

/-- Checks the bounds, which follow the array among the arguments, and pushes the lengths. -/
def pushLengths (shape : ArrayShape) : DraftM Unit := do
  fload 1
  call (.dimCheck shape)
  if shape.dimensions = 2 then
    fload 2
    call (.dimCheck shape)

def dim (shape : ArrayShape) : DraftM Unit := do
  let fresh ← freshLabel "fresh"
  aload 0
  branch Opcode.ifnull fresh
  raise (redimensionedFault shape)
  place fresh
  pushLengths shape
  match shape with
  | .num1 => newArray ElementType.float
  | .num2 => emit (.newMultiArray shape.descriptor 2)
  | .text1 => do
    emit (.newRefArray stringClass)
    op Opcode.dup
    fillEmpty
  | .text2 => do
    emit (.newMultiArray shape.descriptor 2)
    fillRows
  op Opcode.areturn

def auto (shape : ArrayShape) : DraftM Unit := do
  let allocate ← freshLabel "allocate"
  aload 0
  branch Opcode.ifnull allocate
  aload 0
  op Opcode.areturn
  place allocate
  op Opcode.aconstNull
  pushFloat defaultBound
  if shape.dimensions = 2 then
    pushFloat defaultBound
  call (.dim shape)
  op Opcode.areturn

def elementAddress (shape : ArrayShape) : DraftM Unit := do
  aload 0
  fload 1
  aload 0
  op Opcode.arraylength
  call (.indexCheck shape)
  if shape.dimensions = 2 then
    op Opcode.aaload
    op Opcode.dup
    op Opcode.arraylength
    fload 2
    op Opcode.swap
    call (.indexCheck shape)

def get (shape : ArrayShape) : DraftM Unit := do
  elementAddress shape
  match shape.kind with
  | .number => do
    op Opcode.faload
    op Opcode.freturn
  | .text => do
    op Opcode.aaload
    op Opcode.areturn

def set (shape : ArrayShape) : DraftM Unit := do
  elementAddress shape
  let value := 1 + shape.dimensions
  match shape.kind with
  | .number => do
    fload value
    op Opcode.fastore
  | .text => do
    aload value
    op Opcode.aastore
  op Opcode.vreturn

end BasicCompiler.ArrayCode
