import BasicCompiler.Library.Code.Check

/-!
Code of the helpers for faults, subroutines, `ON` selectors and data items.
-/

namespace BasicCompiler.FlowCode

open Draft

def gosubStackDepth : Int32 := 1024

def maxSelector : Int32 := 255

def faultClass : String := "java/lang/RuntimeException"

def fault : DraftM Unit := do
  newDup faultClass
  aload 0
  invokeSpecial faultClass "<init>" "(Ljava/lang/String;)V"
  op Opcode.areturn

def gosubPush : DraftM Unit := do
  let tooDeep ← freshLabel "too_deep"
  getCell .gosubDepth
  getCell .gosubStack
  op Opcode.arraylength
  branch Opcode.ificmpge tooDeep
  getCell .gosubStack
  getCell .gosubDepth
  iload 0
  op Opcode.iastore
  getCell .gosubDepth
  op Opcode.iconst1
  op Opcode.iadd
  putCell .gosubDepth
  op Opcode.vreturn
  place tooDeep
  raise .gosubTooDeep

def gosubPop : DraftM Unit := do
  let pop ← freshLabel "pop"
  getCell .gosubDepth
  branch Opcode.ifne pop
  raise .returnWithoutGosub
  place pop
  getCell .gosubDepth
  op Opcode.iconst1
  op Opcode.isub
  putCell .gosubDepth
  getCell .gosubStack
  getCell .gosubDepth
  op Opcode.iaload
  op Opcode.ireturn

def onSelector : DraftM Unit := do
  let selector ← intArgument 0 0 maxSelector .onSelectorOutOfRange
  iload selector
  op Opcode.ireturn

def dataItem : DraftM Unit := do
  let entry ← temporary .int
  let available ← freshLabel "available"
  getCell .dataCursor
  getCell .dataIndex
  op Opcode.arraylength
  op Opcode.iconst2
  op Opcode.idiv
  branch Opcode.ificmplt available
  raise .outOfData
  place available
  getCell .dataCursor
  op Opcode.iconst2
  op Opcode.imul
  istore entry
  getCell .dataCursor
  op Opcode.iconst1
  op Opcode.iadd
  putCell .dataCursor
  newDup stringClass
  getCell .dataChars
  getCell .dataIndex
  iload entry
  op Opcode.iaload
  getCell .dataIndex
  iload entry
  op Opcode.iconst1
  op Opcode.iadd
  op Opcode.iaload
  invokeSpecial stringClass "<init>" "([CII)V"
  op Opcode.areturn

def readNumber : DraftM Unit := do
  let value ← temporary .number
  let malformed ← freshLabel "syntax"
  call .dataItem
  call .textToFloat
  fstore value
  fload value
  fload value
  op Opcode.fcmpl
  branch Opcode.ifne malformed
  fload value
  op Opcode.freturn
  place malformed
  raise .dataSyntax

def readText : DraftM Unit := do
  call .dataItem
  op Opcode.areturn

def restore : DraftM Unit := do
  iload 0
  putCell .dataCursor
  op Opcode.vreturn

end BasicCompiler.FlowCode
