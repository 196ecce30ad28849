import BasicCompiler.ClassFile.Pool

/-!
Class files: a class with its constant pool, fields and methods. Names and descriptors are indices of
text entries of the pool.
-/

namespace BasicCompiler

namespace Access

def publicBit : UInt16 := 0x0001

def privateBit : UInt16 := 0x0002

def staticBit : UInt16 := 0x0008

def superBit : UInt16 := 0x0020

end Access

/-- An exception handler for the code in `[start, stop)`. A `catchType` of zero catches everything. -/
structure HandlerRow where
  start : UInt16
  stop : UInt16
  handler : UInt16
  catchType : UInt16
  deriving DecidableEq, Repr

structure LineRow where
  start : UInt16
  line : UInt16
  deriving DecidableEq, Repr

/-- The table of source lines of a method, with the index of its attribute name. -/
structure LineTable where
  nameIndex : UInt16
  rows : List LineRow
  deriving DecidableEq, Repr

/-- The code of a method, with the index of its attribute name. -/
structure CodeAttribute where
  nameIndex : UInt16
  maxStack : UInt16
  maxLocals : UInt16
  bytes : Array UInt8
  handlers : List HandlerRow
  lines : Option LineTable
  deriving DecidableEq

structure FieldInfo where
  access : UInt16
  nameIndex : UInt16
  descriptorIndex : UInt16
  deriving DecidableEq, Repr

structure MethodInfo where
  access : UInt16
  nameIndex : UInt16
  descriptorIndex : UInt16
  code : Option CodeAttribute
  deriving DecidableEq

structure ClassFile where
  minorVersion : UInt16
  majorVersion : UInt16
  pool : ConstantPool
  access : UInt16
  thisClass : UInt16
  superClass : UInt16
  interfaces : List UInt16
  fields : List FieldInfo
  methods : List MethodInfo

namespace ClassFile

def magic : UInt32 := 0xCAFEBABE

def defaultMajorVersion : UInt16 := 49

def leastMajorVersion : UInt16 := 45

def codeName : String := "Code"

def lineTableName : String := "LineNumberTable"

def ofPool (thisName superName : String) : PoolM ClassFile := do
  let thisClass ← ConstantPool.classRef thisName
  let superClass ← ConstantPool.classRef superName
  return {
    minorVersion := 0
    majorVersion := defaultMajorVersion
    pool := ← get
    access := Access.publicBit ||| Access.superBit
    thisClass, superClass
    interfaces := []
    fields := []
    methods := []
  }

def name (file : ClassFile) : Except ClassFileError String :=
  file.pool.classNameAt file.thisClass

def names (file : ClassFile) (text : String) (index : UInt16) : Bool :=
  match file.pool.textAt index with
  | .ok found => found == text
  | .error _ => false

def method? (file : ClassFile) (name : String) : Option MethodInfo :=
  file.methods.find? fun method => file.names name method.nameIndex

def field? (file : ClassFile) (name : String) : Option FieldInfo :=
  file.fields.find? fun field => file.names name field.nameIndex

/-- The names of the methods in order, without those whose name cannot be found. -/
def methodNames (file : ClassFile) : List String :=
  file.methods.filterMap fun method => (file.pool.textAt method.nameIndex).toOption

end ClassFile

end BasicCompiler
