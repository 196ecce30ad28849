import BasicCompiler.Assembly.Buffer
import BasicCompiler.Error
import BasicCompiler.Syntax.Stmt
import Std.Data.HashSet

/-!
The line numbers of a program and the return points of its subroutine calls.
-/

namespace BasicCompiler

structure LineSet where
  lines : Std.HashSet LineNumber

namespace LineSet

def empty : LineSet := ⟨∅⟩

def contains (set : LineSet) (line : LineNumber) : Bool := set.lines.contains line

def size (set : LineSet) : Nat := set.lines.size

def isEmpty (set : LineSet) : Bool := set.lines.isEmpty

def add (line : LineNumber) (set : LineSet) : Except CompileError LineSet :=
  if set.contains line then throw (.duplicateLine line)
  else return ⟨set.lines.insert line⟩

mutual

def scanStmt : Stmt → LineSet → Except CompileError LineSet
  | .line number, set => set.add number
  | .conditional _ thenBody elseBody, set => do scanStmts elseBody (← scanStmts thenBody set)
  | .assign _ _, set | .dim _, set | .print _, set | .input _ _, set | .goto _, set | .gosub _, set
  | .returnFromSub, set | .onGoto _ _, set | .onGosub _ _, set | .forLoop _ _ _ _, set
  | .next _, set | .whileLoop _, set | .wend, set | .data _, set | .read _, set | .restore _, set
  | .remark _, set | .finish, set | .stop, set => return set

def scanStmts : List Stmt → LineSet → Except CompileError LineSet
  | [], set => return set
  | first :: rest, set => do scanStmts rest (← scanStmt first set)

end

def scan (program : Program) : Except CompileError LineSet :=
  scanStmts program empty

def labelOf (line : LineNumber) : Label := s!"line_{line}"

def label (set : LineSet) (line : LineNumber) : Except CompileError Label :=
  if set.contains line then return labelOf line
  else throw (.undefinedLine line)

end LineSet

/-- The return points of subroutine calls, numbered from zero in the order they were added. -/
structure ReturnTable where
  targets : Array Label
  deriving DecidableEq, Repr

namespace ReturnTable

def empty : ReturnTable := ⟨#[]⟩

def size (table : ReturnTable) : Nat := table.targets.size

def isEmpty (table : ReturnTable) : Bool := table.targets.isEmpty

def add (table : ReturnTable) (label : Label) : Nat × ReturnTable :=
  (table.size, ⟨table.targets.push label⟩)

end ReturnTable

end BasicCompiler
