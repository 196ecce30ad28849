import BasicCompiler.ClassFile.Codec
import BasicCompiler.Compile.Statement
import BasicCompiler.Library.Code.Cell
import BasicCompiler.Library.Flush
import BasicCompiler.Options

/-!
Compilation of a program into a class. The statements become the main method:

    goto init
  body:
    the statements
  exit:
    flush of the output, if helpers are used
    return
    the dispatch of returns, if there are subroutines
  bodyEnd:
    the report of faults, if helpers are used
  init:
    the values that the slots start with
    goto body

Slots are handed out while the statements are compiled, so the code that sets them follows at the end.
After the main method come the class initializer and the helpers.
-/

namespace BasicCompiler

namespace MainMethod

open Draft Body

def descriptor : String := "([Ljava/lang/String;)V"

def header (options : Options) : MethodHeader where
  owner := options.className
  name := "main"
  descriptor := descriptor
  access := Access.publicBit ||| Access.staticBit
  maxStack := options.maxStack

def compileExit : BodyM Unit := do
  place MainLabel.exit
  if ← usesLibrary then
    flushOutput
  op Opcode.vreturn

def dispatchReturns (targets : List Label) : DraftM Unit := do
  place MainLabel.returnDispatch
  call .gosubPop
  if targets.isEmpty then
    op Opcode.pop
  else
    let unknown ← freshLabel "return_unknown"
    emit (.tableSwitch 0 targets unknown)
    place unknown
  raise .returnWithoutGosub

def reportFaults : DraftM Unit := do
  place MainLabel.handler
  call .reportFault
  flushOutput
  op Opcode.vreturn
  addHandler ⟨MainLabel.body, MainLabel.bodyEnd, MainLabel.handler, some FlowCode.faultClass⟩

def compileDispatch : BodyM Unit := do
  let body ← getThe Body
  if body.usesReturn || !body.returns.isEmpty then
    dispatchReturns body.returns.targets.toList

def compileReport : BodyM Unit := do
  if ← usesLibrary then
    reportFaults

def compile (surroundings : Surroundings) (program : Program) : BodyM Unit := do
  goto MainLabel.init
  place MainLabel.body
  Stmt.compileAll surroundings program
  checkLoopsClosed
  compileExit
  compileDispatch
  place MainLabel.bodyEnd
  compileReport
  place MainLabel.init
  emitInitializers
  goto MainLabel.body

/-- Assembles the main method. A program that is refused is assembled up to where it was refused, so
the first of all errors is the one that is reported. -/
def build (options : Options) (surroundings : Surroundings) (program : Program) :
    BuildM MethodUnit :=
  match (compile surroundings program).run (Body.empty descriptor) with
  | (.ok _, body) => body.draft.finish (header options)
  | (.error error, body) => do
    let _ ← body.draft.assemble (header options)
    throw error

end MainMethod

namespace ClassInitializer

open Draft

def maxStack : UInt16 := 6

def descriptor : String := "()V"

def header (options : Options) : MethodHeader where
  owner := options.className
  name := "<clinit>"
  descriptor := descriptor
  access := Access.staticBit
  maxStack := maxStack

def code (data : DataTable) (cells : List Cell) : DraftM Unit := do
  CellCode.prepareAll data cells
  op Opcode.vreturn

def build (options : Options) (data : DataTable) : BuildM MethodUnit := do
  let cells := (← get).library.cells.toList
  ((code data cells).run (.empty descriptor)).2.finish (header options)

end ClassInitializer

namespace Program

def fieldOf (cell : Cell) : PoolM FieldInfo := do
  let nameIndex ← ConstantPool.utf8 cell.name
  let descriptorIndex ← ConstantPool.utf8 cell.descriptor
  return { access := Access.privateBit ||| Access.staticBit, nameIndex, descriptorIndex }

def assembleClass (options : Options) (units : List MethodUnit) : BuildM ClassFile := do
  let methods ← Build.interned (units.mapM MethodUnit.toMethodInfo)
  let cells := (← get).library.cells.toList
  let fields ← Build.interned (cells.mapM fieldOf)
  let file ← Build.interned (ClassFile.ofPool options.className options.superClass)
  return { file with majorVersion := options.majorVersion, fields, methods }

def build (options : Options) (program : Program) : BuildM ClassFile := do
  Build.report (.compiling program.length options.className)
  match LineSet.scan program with
  | .error error => throw error
  | .ok lines =>
    let data := DataTable.scan program
    let main ← MainMethod.build options ⟨lines, data, options.lineNumbers⟩ program
    let helpers ← Library.flush options.className
    let initializer ← ClassInitializer.build options data
    let file ← assembleClass options (main :: initializer :: helpers)
    Build.report
      (.classAssembled options.className file.methods.length file.fields.length file.pool.size)
    return file

def compileTraced (options : Options) (program : Program) :
    Except CompileError ClassFile × Array Event :=
  match (build options program).run .empty with
  | (result, build) => (result, build.events)

def compile (options : Options) (program : Program) : Except CompileError ClassFile :=
  (compileTraced options program).1

end Program

end BasicCompiler
