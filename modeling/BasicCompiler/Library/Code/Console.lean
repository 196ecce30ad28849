import BasicCompiler.Library.Code.Check

/-!
Code of the console helpers. Output keeps track of the cursor column, which commas and `TAB` use, and
a fault report starts on a line of its own.
-/

namespace BasicCompiler.ConsoleCode

open Draft

def zoneWidth : Int32 := 14

def redoPrompt : String := "?Redo from start"

def resetColumn : DraftM Unit := do
  op Opcode.iconst0
  putCell .cursorColumn

def printText : DraftM Unit := do
  let newline ← temporary .int
  let sameLine ← freshLabel "same_line"
  pushOutput
  aload 0
  invokeVirtual printStreamClass "print" "(Ljava/lang/String;)V"
  aload 0
  pushChar '\n'
  invokeVirtual stringClass "lastIndexOf" "(I)I"
  istore newline
  iload newline
  branch Opcode.iflt sameLine
  -- The column is the length of the text after the last line end.
  aload 0
  textLength
  iload newline
  op Opcode.isub
  op Opcode.iconst1
  op Opcode.isub
  putCell .cursorColumn
  op Opcode.vreturn
  place sameLine
  getCell .cursorColumn
  aload 0
  textLength
  op Opcode.iadd
  putCell .cursorColumn
  op Opcode.vreturn

def printNumber : DraftM Unit := do
  fload 0
  call .floatToText
  pushText " "
  joinTexts
  call .printText
  op Opcode.vreturn

def printNewline : DraftM Unit := do
  pushOutput
  invokeVirtual printStreamClass "println" "()V"
  resetColumn
  op Opcode.vreturn

def printComma : DraftM Unit := do
  pushInt zoneWidth
  getCell .cursorColumn
  pushInt zoneWidth
  op Opcode.irem
  op Opcode.isub
  op Opcode.i2f
  call .printSpc
  op Opcode.vreturn

/-- Moves to a column, counted from one, on a new line when the cursor is past it. -/
def printTab : DraftM Unit := do
  let column ← temporary .int
  let sameLine ← freshLabel "same_line"
  fload 0
  op Opcode.f2i
  checkRange column 1 255 .tabOutOfRange
  increment column (-1)
  getCell .cursorColumn
  iload column
  branch Opcode.ificmple sameLine
  call .printNewline
  place sameLine
  iload column
  getCell .cursorColumn
  op Opcode.isub
  op Opcode.i2f
  call .printSpc
  op Opcode.vreturn

def printSpc : DraftM Unit := do
  let _ ← intArgument 0 0 255 .spcOutOfRange
  fload 0
  call .space
  call .printText
  op Opcode.vreturn

def inputLine : DraftM Unit := do
  let line ← temporary .null
  let tryStart ← freshLabel "try_start"
  let tryEnd ← freshLabel "try_end"
  let failed ← freshLabel "io_error"
  let pastEnd ← freshLabel "past_end"
  aload 0
  call .printText
  flushOutput
  place tryStart
  getCell .console
  invokeVirtual "java/io/BufferedReader" "readLine" "()Ljava/lang/String;"
  place tryEnd
  astore line
  aload line
  branch Opcode.ifnull pastEnd
  resetColumn
  aload line
  op Opcode.areturn
  place failed
  op Opcode.pop
  raise .inputError
  place pastEnd
  raise .inputPastEnd
  addHandler ⟨tryStart, tryEnd, failed, some "java/io/IOException"⟩

def inputNumber : DraftM Unit := do
  let value ← temporary .number
  let retry ← freshLabel "retry"
  let redo ← freshLabel "redo"
  place retry
  aload 0
  call .inputLine
  call .textToFloat
  fstore value
  fload value
  fload value
  op Opcode.fcmpl
  branch Opcode.ifne redo
  fload value
  op Opcode.freturn
  place redo
  pushText redoPrompt
  call .printText
  call .printNewline
  goto retry

def inputText : DraftM Unit := do
  aload 0
  call .inputLine
  invokeVirtual stringClass "trim" "()Ljava/lang/String;"
  op Opcode.areturn

def reportFault : DraftM Unit := do
  let atStart ← freshLabel "at_start"
  getCell .cursorColumn
  branch Opcode.ifeq atStart
  call .printNewline
  place atStart
  pushOutput
  aload 0
  invokeVirtual "java/lang/Throwable" "getMessage" "()Ljava/lang/String;"
  invokeVirtual printStreamClass "println" "(Ljava/lang/String;)V"
  resetColumn
  op Opcode.vreturn

end BasicCompiler.ConsoleCode
