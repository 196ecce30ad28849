import BasicCompiler.Library.Code.Flow
import BasicCompiler.Program.Data

/-!
Code that gives the cells of a class their first values.
-/

namespace BasicCompiler.CellCode

open Draft

/-- The number of characters in a text constant. A character takes at most six bytes, so a constant of
this size fits into a pool. -/
def chunkLength : Nat := 8192

def chunksAfter (length : Nat) : Nat → List Char → List (List Char) → List (List Char)
  | 0, _, done => done.reverse
  | fuel + 1, characters, done =>
    if characters.isEmpty then done.reverse
    else chunksAfter length fuel (characters.drop length) (characters.take length :: done)

/-- The constants that a text is built from. An empty text is one empty constant. -/
def chunks (text : String) : List String :=
  let characters := text.toList
  if characters.isEmpty then [""]
  else (chunksAfter chunkLength characters.length characters []).map String.ofList

def joinChunks : List String → DraftM Unit
  | [] => return
  | first :: rest => do
    pushText first
    joinTexts
    joinChunks rest

def pushLongText (text : String) : DraftM Unit :=
  match chunks text with
  | [] => return
  | first :: rest => do
    pushText first
    joinChunks rest

def toCharacters : DraftM Unit :=
  invokeVirtual stringClass "toCharArray" "()[C"

/-- Pushes an array with two integers for each data item, its offset and its length. The loop reads
the lengths from a text that has two characters for each item. -/
def pushDataIndex (data : DataTable) : DraftM Unit := do
  let lengths ← temporary .null
  let index ← temporary .null
  let cursor ← temporary .int
  let offset ← temporary .int
  let length ← temporary .int
  let next ← freshLabel "index_next"
  let done ← freshLabel "index_done"
  pushLongText data.lengthsText
  toCharacters
  astore lengths
  aload lengths
  op Opcode.arraylength
  newArray ElementType.int
  astore index
  op Opcode.iconst0
  istore cursor
  op Opcode.iconst0
  istore offset
  place next
  iload cursor
  aload lengths
  op Opcode.arraylength
  branch Opcode.ificmpge done
  aload lengths
  iload cursor
  op Opcode.caload
  pushInt 15
  op Opcode.ishl
  aload lengths
  iload cursor
  op Opcode.iconst1
  op Opcode.iadd
  op Opcode.caload
  op Opcode.ior
  istore length
  aload index
  iload cursor
  iload offset
  op Opcode.iastore
  aload index
  iload cursor
  op Opcode.iconst1
  op Opcode.iadd
  iload length
  op Opcode.iastore
  iload offset
  iload length
  op Opcode.iadd
  istore offset
  increment cursor 2
  goto next
  place done
  aload index

def pushConsole : DraftM Unit := do
  newDup "java/io/BufferedReader"
  newDup "java/io/InputStreamReader"
  getStatic "java/lang/System" "in" "Ljava/io/InputStream;"
  invokeSpecial "java/io/InputStreamReader" "<init>" "(Ljava/io/InputStream;)V"
  invokeSpecial "java/io/BufferedReader" "<init>" "(Ljava/io/Reader;)V"

def prepare (data : DataTable) (cell : Cell) : DraftM Unit :=
  match cell with
  | .gosubStack => do
    pushInt FlowCode.gosubStackDepth
    newArray ElementType.int
    putCell cell
  | .console => do
    pushConsole
    putCell cell
  | .dataChars => do
    pushLongText data.joined
    toCharacters
    putCell cell
  | .dataIndex => do
    pushDataIndex data
    putCell cell
  | .cursorColumn | .lastRandom | .dataCursor | .gosubDepth => return

def prepareAll (data : DataTable) : List Cell → DraftM Unit
  | [] => return
  | first :: rest => do
    prepare data first
    prepareAll data rest

end BasicCompiler.CellCode
