import BasicCompiler.Assembly.Buffer
import BasicCompiler.Assembly.Error
import BasicCompiler.Bytecode.Descriptor
import BasicCompiler.Bytecode.Instruction
import BasicCompiler.Bytecode.Opcode
import BasicCompiler.Bytes.BigEndian
import BasicCompiler.Bytes.Hexadecimal
import BasicCompiler.ClassFile.Basic
import BasicCompiler.ClassFile.Codec
import BasicCompiler.ClassFile.Constant
import BasicCompiler.ClassFile.Disassembly
import BasicCompiler.ClassFile.Error
import BasicCompiler.ClassFile.Folder
import BasicCompiler.ClassFile.Pool
import BasicCompiler.ClassFile.PoolCodec
import BasicCompiler.ClassFile.Reader
import BasicCompiler.Compile.Body
import BasicCompiler.Compile.Class
import BasicCompiler.Compile.Expression
import BasicCompiler.Compile.Statement
import BasicCompiler.Error
import BasicCompiler.Fault
import BasicCompiler.Library.Basic
import BasicCompiler.Library.Cell
import BasicCompiler.Library.Code
import BasicCompiler.Library.Code.Arithmetic
import BasicCompiler.Library.Code.Array
import BasicCompiler.Library.Code.Cell
import BasicCompiler.Library.Code.Check
import BasicCompiler.Library.Code.Console
import BasicCompiler.Library.Code.Flow
import BasicCompiler.Library.Code.Numeral
import BasicCompiler.Library.Code.Text
import BasicCompiler.Library.Flush
import BasicCompiler.Library.Helper
import BasicCompiler.Library.Shape
import BasicCompiler.Method.Draft
import BasicCompiler.Method.Emitter
import BasicCompiler.Method.Item
import BasicCompiler.Method.Link
import BasicCompiler.Method.Session
import BasicCompiler.Number.Display
import BasicCompiler.Number.Numeral
import BasicCompiler.Number.Rounding
import BasicCompiler.Number.Shortest
import BasicCompiler.Number.Single
import BasicCompiler.Options
import BasicCompiler.Program.Data
import BasicCompiler.Program.Lines
import BasicCompiler.Proofs.Assembly.Request
import BasicCompiler.Proofs.Assembly.Resolve
import BasicCompiler.Proofs.Bytecode.Decode
import BasicCompiler.Proofs.Bytecode.StackEffect
import BasicCompiler.Proofs.Bytes.BigEndian
import BasicCompiler.Proofs.ClassFile.Pool
import BasicCompiler.Proofs.Compile.Acceptance
import BasicCompiler.Proofs.Compile.Boundaries
import BasicCompiler.Proofs.Compile.Checks
import BasicCompiler.Proofs.Compile.Closing
import BasicCompiler.Proofs.Compile.ClassLayout
import BasicCompiler.Proofs.Compile.DisciplinedClass
import BasicCompiler.Proofs.Compile.Evaluations
import BasicCompiler.Proofs.Compile.StraightCode
import BasicCompiler.Proofs.Compile.ExpressionTyping
import BasicCompiler.Proofs.Compile.Initializer
import BasicCompiler.Proofs.Compile.MainTyping
import BasicCompiler.Proofs.Compile.ResolvedClass
import BasicCompiler.Proofs.Compile.Rules
import BasicCompiler.Proofs.Compile.StatementLabels
import BasicCompiler.Proofs.Compile.StatementTyping
import BasicCompiler.Proofs.Compile.WellFormedClass
import BasicCompiler.Proofs.Computation
import BasicCompiler.Proofs.Library.Helpers
import BasicCompiler.Proofs.Method.Discipline
import BasicCompiler.Proofs.Method.Drafting
import BasicCompiler.Proofs.Method.Emit
import BasicCompiler.Proofs.Method.Labels
import BasicCompiler.Proofs.Method.Layout
import BasicCompiler.Proofs.Method.Link
import BasicCompiler.Proofs.Method.Typing
import BasicCompiler.Proofs.Method.WellFormed
import BasicCompiler.Proofs.Program.Statements
import BasicCompiler.Proofs.Program.Validity
import BasicCompiler.Syntax.Expr
import BasicCompiler.Syntax.Name
import BasicCompiler.Syntax.Stmt
import BasicCompiler.Text.ModifiedUtf8
import BasicCompiler.Text.Utf16
import BasicCompiler.Text.Utf8
import BasicCompiler.Trace
import BasicCompiler.Proofs.ClassFile.RoundTrip
import BasicCompiler.Proofs.Method.Uses
import BasicCompiler.Proofs.Method.Growth
import BasicCompiler.Proofs.Compile.Inventory
import BasicCompiler.Proofs.Compile.MainContents
import BasicCompiler.Proofs.Compile.WrittenClass
import BasicCompiler.Proofs.Compile.SmallPrograms
import BasicCompiler.Proofs.Compile.LinkedClass
import BasicCompiler.Proofs.Compile.Occurrences
import BasicCompiler.Proofs.Compile.ResolvedJumps
import BasicCompiler.Proofs.ClassFile.PoolHistory
import BasicCompiler.Proofs.Method.Journal
import BasicCompiler.Proofs.Compile.Heights
import BasicCompiler.Proofs.Method.Reached
import BasicCompiler.Proofs.Compile.StackBound
import BasicCompiler.Proofs.ClassFile.Normalization
import BasicCompiler.Proofs.Text.Spelling
import BasicCompiler.Proofs.Program.DataTables
import BasicCompiler.Proofs.Library.LongTexts
import BasicCompiler.Proofs.Execution.Initializer
import BasicCompiler.Proofs.Compile.DataCells
import BasicCompiler.Proofs.Method.SlotUses
import BasicCompiler.Proofs.Program.Locals
import BasicCompiler.Proofs.Compile.LocalSlots
import BasicCompiler.Proofs.Compile.StatementSlots
import BasicCompiler.Proofs.Compile.MainSlots
import BasicCompiler.Proofs.Number.Nearest
import BasicCompiler.Proofs.Number.Shortest
import BasicCompiler.Proofs.Number.Printed
import BasicCompiler.Proofs.Number.Reading
import BasicCompiler.Proofs.Number.WrittenNumeral
import BasicCompiler.Proofs.Number.Extent
import BasicCompiler.Proofs.Number.CorrectReading
import BasicCompiler.Proofs.Number.Stability
import BasicCompiler.Proofs.Method.OpenMethod
import BasicCompiler.Proofs.Method.Distances
import BasicCompiler.Proofs.Compile.BranchRange
import BasicCompiler.Proofs.Compile.LineMarks
import BasicCompiler.Proofs.Compile.OptionIndependence
import BasicCompiler.Proofs.Execution.Fetch
import BasicCompiler.Proofs.Execution.ExactDecimal
import BasicCompiler.Proofs.Execution.Platform
import BasicCompiler.Proofs.Execution.Process
import BasicCompiler.Proofs.Execution.Blocks
import BasicCompiler.Proofs.Execution.TextToFloat
import BasicCompiler.Proofs.Execution.DecimalRounding
import BasicCompiler.Proofs.Execution.DecimalSearch
import BasicCompiler.Proofs.Execution.DecimalText
import BasicCompiler.Proofs.Execution.StringFill
import BasicCompiler.Proofs.Execution.FloatDigits
import BasicCompiler.Proofs.Execution.CompiledClass
import BasicCompiler.Proofs.Execution.FloatToText
import BasicCompiler.Proofs.Bytecode.ParameterSlots
import BasicCompiler.Proofs.Bytecode.Partition
import BasicCompiler.Proofs.ClassFile.Truncation
import BasicCompiler.Proofs.Method.Replay
import BasicCompiler.Proofs.Method.Tables
import BasicCompiler.Proofs.Execution.Literals
import BasicCompiler.Proofs.ClassFile.References
import BasicCompiler.Proofs.Library.Flush
import BasicCompiler.Proofs.Library.Repetition
