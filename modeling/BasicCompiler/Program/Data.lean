import BasicCompiler.Syntax.Stmt
import BasicCompiler.Text.Utf16

/-!
The data items of a program. A class keeps their texts joined in one text and finds an item by its
offset and length.
-/

namespace BasicCompiler

structure DataItem where
  /-- The line that the item stands on, if one precedes it. -/
  line : Option LineNumber
  text : String
  deriving DecidableEq, Repr

/-- The place of a data item in the joined text, in UTF-16 units. -/
structure DataEntry where
  offset : Nat
  length : Nat
  deriving DecidableEq, Repr

structure DataTable where
  items : Array DataItem
  deriving DecidableEq, Repr

namespace DataTable

def empty : DataTable := ⟨#[]⟩

def size (table : DataTable) : Nat := table.items.size

def isEmpty (table : DataTable) : Bool := table.items.isEmpty

def addItems (table : DataTable) (line : Option LineNumber) (texts : List String) : DataTable :=
  texts.foldl (fun table text => ⟨table.items.push ⟨line, text⟩⟩) table

mutual

/-- Adds the items of a statement. The line is the last one before the statement. -/
def scanStmt : Stmt → Option LineNumber × DataTable → Option LineNumber × DataTable
  | .line number, (_, table) => (some number, table)
  | .data texts, (line, table) => (line, table.addItems line texts)
  | .conditional _ thenBody elseBody, state => scanStmts elseBody (scanStmts thenBody state)
  | .assign _ _, state | .dim _, state | .print _, state | .input _ _, state | .goto _, state
  | .gosub _, state | .returnFromSub, state | .onGoto _ _, state | .onGosub _ _, state
  | .forLoop _ _ _ _, state | .next _, state | .whileLoop _, state | .wend, state | .read _, state
  | .restore _, state | .remark _, state | .finish, state | .stop, state => state

def scanStmts : List Stmt → Option LineNumber × DataTable → Option LineNumber × DataTable
  | [], state => state
  | first :: rest, state => scanStmts rest (scanStmt first state)

end

def scan (program : Program) : DataTable :=
  (scanStmts program (none, empty)).2

def joined (table : DataTable) : String :=
  String.join (table.items.toList.map DataItem.text)

def entriesAfter : List String → Nat → List DataEntry → List DataEntry
  | [], _, done => done.reverse
  | first :: rest, offset, done =>
    let length := Utf16.length first
    entriesAfter rest (offset + length) (⟨offset, length⟩ :: done)

def entries (table : DataTable) : List DataEntry :=
  entriesAfter (table.items.toList.map DataItem.text) 0 []

/-- The upper and lower fifteen bits of a length, which are characters for all lengths that a text
can have. -/
def lengthChars (length : Nat) : List Char :=
  [length / 0x8000, length % 0x8000].filterMap fun code =>
    if code.isValidChar then some (Char.ofNat code) else none

def lengthsText (table : DataTable) : String :=
  String.ofList (table.entries.flatMap fun entry => lengthChars entry.length)

/-- The index of the first item on a line or after it, or the number of items. -/
def firstIndexFrom (table : DataTable) (line : LineNumber) : Nat :=
  table.items.toList.findIdx fun item =>
    match item.line with
    | some found => line ≤ found
    | none => false

end DataTable

end BasicCompiler
