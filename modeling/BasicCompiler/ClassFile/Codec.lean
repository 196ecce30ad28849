import BasicCompiler.ClassFile.Basic
import BasicCompiler.ClassFile.PoolCodec

/-!
The written form of class files. Counts precede lists and have sixteen bits; the length of a code
attribute is that of its written body.
-/

namespace BasicCompiler

open BigEndian

def encodeCounted {α : Type} (encodeItem : α → List UInt8) (items : List α) : List UInt8 :=
  encode16 (UInt16.ofNat items.length) ++ items.flatMap encodeItem

def HandlerRow.encode (row : HandlerRow) : List UInt8 :=
  encode16 row.start ++ encode16 row.stop ++ encode16 row.handler ++ encode16 row.catchType

def HandlerRow.read : Reader HandlerRow := do
  return ⟨← Reader.word16, ← Reader.word16, ← Reader.word16, ← Reader.word16⟩

def LineRow.encode (row : LineRow) : List UInt8 :=
  encode16 row.start ++ encode16 row.line

def LineRow.read : Reader LineRow := do
  return ⟨← Reader.word16, ← Reader.word16⟩

def LineTable.encode (table : LineTable) : List UInt8 :=
  encode16 table.nameIndex ++ encode32 (UInt32.ofNat (2 + 4 * table.rows.length)) ++
    encodeCounted LineRow.encode table.rows

namespace CodeAttribute

def body (code : CodeAttribute) : List UInt8 :=
  encode16 code.maxStack ++ encode16 code.maxLocals ++
    encode32 (UInt32.ofNat code.bytes.size) ++ code.bytes.toList ++
    encodeCounted HandlerRow.encode code.handlers ++
    match code.lines with
    | some table => encode16 1 ++ table.encode
    | none => encode16 0

def encode (code : CodeAttribute) : List UInt8 :=
  let body := code.body
  encode16 code.nameIndex ++ encode32 (UInt32.ofNat body.length) ++ body

/-- Reads the attributes of a code attribute after the table found so far. At most one table of lines
is accepted, and its length is not used. -/
def readLines (pool : ConstantPool) : Nat → Option LineTable → Reader (Option LineTable)
  | 0, found => return found
  | count + 1, found => do
    let nameIndex ← Reader.word16
    let name ← pool.textAt nameIndex
    if name ≠ ClassFile.lineTableName ∨ found.isSome then
      throw (.unsupportedAttribute name)
    let _ ← Reader.word32
    let rows ← Reader.counted LineRow.read
    readLines pool count (some ⟨nameIndex, rows⟩)

def readBody (pool : ConstantPool) (nameIndex : UInt16) : Reader CodeAttribute := do
  let maxStack ← Reader.word16
  let maxLocals ← Reader.word16
  let length ← Reader.word32
  let bytes ← Reader.bytes length.toNat
  let handlers ← Reader.counted HandlerRow.read
  let attributes ← Reader.word16
  let lines ← readLines pool attributes.toNat none
  return { nameIndex, maxStack, maxLocals, bytes := bytes.toArray, handlers, lines }

end CodeAttribute

def FieldInfo.encode (field : FieldInfo) : List UInt8 :=
  encode16 field.access ++ encode16 field.nameIndex ++ encode16 field.descriptorIndex ++ encode16 0

def MethodInfo.encode (method : MethodInfo) : List UInt8 :=
  encode16 method.access ++ encode16 method.nameIndex ++ encode16 method.descriptorIndex ++
    match method.code with
    | some code => encode16 1 ++ code.encode
    | none => encode16 0

def refuseAttribute {α : Type} (pool : ConstantPool) : Reader α := do
  let name ← pool.textAt (← Reader.word16)
  throw (.unsupportedAttribute name)

def FieldInfo.read (pool : ConstantPool) : Reader FieldInfo := do
  let access ← Reader.word16
  let nameIndex ← Reader.word16
  let descriptorIndex ← Reader.word16
  let attributes ← Reader.word16
  if attributes ≠ 0 then
    refuseAttribute pool
  return ⟨access, nameIndex, descriptorIndex⟩

namespace MethodInfo

/-- Reads the attributes of a method after the code found so far. At most one code attribute is
accepted. Its body is cut out by its length, and what the code does not use of it is skipped. -/
def readCode (pool : ConstantPool) : Nat → Option CodeAttribute → Reader (Option CodeAttribute)
  | 0, found => return found
  | count + 1, found => do
    let nameIndex ← Reader.word16
    let name ← pool.textAt nameIndex
    if name ≠ ClassFile.codeName ∨ found.isSome then
      throw (.unsupportedAttribute name)
    let length ← Reader.word32
    let body ← Reader.bytes length.toNat
    let (code, _) ← (CodeAttribute.readBody pool nameIndex).run body
    readCode pool count (some code)

def read (pool : ConstantPool) : Reader MethodInfo := do
  let access ← Reader.word16
  let nameIndex ← Reader.word16
  let descriptorIndex ← Reader.word16
  let attributes ← Reader.word16
  let code ← readCode pool attributes.toNat none
  return ⟨access, nameIndex, descriptorIndex, code⟩

end MethodInfo

namespace ClassFile

def encode (file : ClassFile) : List UInt8 :=
  encode32 magic ++ encode16 file.minorVersion ++ encode16 file.majorVersion ++ file.pool.encode ++
    encode16 file.access ++ encode16 file.thisClass ++ encode16 file.superClass ++
    encodeCounted encode16 file.interfaces ++ encodeCounted FieldInfo.encode file.fields ++
    encodeCounted MethodInfo.encode file.methods ++ encode16 0

def read : Reader ClassFile := do
  let start ← Reader.word32
  if start ≠ magic then
    throw .invalidMagic
  let minorVersion ← Reader.word16
  let majorVersion ← Reader.word16
  if majorVersion < leastMajorVersion then
    throw (.unsupportedVersion majorVersion minorVersion)
  let pool ← ConstantPool.read
  let access ← Reader.word16
  let thisClass ← Reader.word16
  let superClass ← Reader.word16
  let interfaces ← Reader.counted Reader.word16
  let fields ← Reader.counted (FieldInfo.read pool)
  let methods ← Reader.counted (MethodInfo.read pool)
  let attributes ← Reader.word16
  if attributes ≠ 0 then
    refuseAttribute pool
  return {
    minorVersion, majorVersion, pool, access, thisClass, superClass, interfaces, fields, methods
  }

end ClassFile

end BasicCompiler
