import BasicCompiler.Library.Code.Arithmetic
import BasicCompiler.Library.Code.Array
import BasicCompiler.Library.Code.Console
import BasicCompiler.Library.Code.Flow
import BasicCompiler.Library.Code.Numeral
import BasicCompiler.Library.Code.Text

/-!
The code of every helper.
-/

namespace BasicCompiler.Helper

def code : Helper → DraftM Unit
  | fault => FlowCode.fault
  | reportFault => ConsoleCode.reportFault
  | indexCheck shape => ArrayCode.indexCheck shape
  | dimCheck shape => ArrayCode.dimCheck shape
  | dim shape => ArrayCode.dim shape
  | auto shape => ArrayCode.auto shape
  | get shape => ArrayCode.get shape
  | set shape => ArrayCode.set shape
  | concat => TextCode.concat
  | textCompare => TextCode.textCompare
  | left => TextCode.left
  | right => TextCode.right
  | mid2 => TextCode.mid2
  | mid3 => TextCode.mid3
  | instr2 => TextCode.instr2
  | instr3 => TextCode.instr3
  | chr => TextCode.chr
  | asc => TextCode.asc
  | len => TextCode.len
  | val => TextCode.val
  | space => TextCode.space
  | stringFill => TextCode.stringFill
  | divide => ArithmeticCode.divide
  | power => ArithmeticCode.power
  | toInt16 => ArithmeticCode.toInt16
  | mod => ArithmeticCode.intDivision Opcode.irem
  | intDiv => ArithmeticCode.intDivision Opcode.idiv
  | and => ArithmeticCode.logical Opcode.iand
  | or => ArithmeticCode.logical Opcode.ior
  | xor => ArithmeticCode.logical Opcode.ixor
  | not => ArithmeticCode.complement
  | int => ArithmeticCode.math1 "floor"
  | fix => ArithmeticCode.fix
  | sgn => ArithmeticCode.sgn
  | abs => ArithmeticCode.abs
  | sqr => ArithmeticCode.checkedMath "sqrt" Opcode.iflt .sqrNegative
  | log => ArithmeticCode.checkedMath "log" Opcode.ifle .logNotPositive
  | exp => ArithmeticCode.math1 "exp"
  | sin => ArithmeticCode.math1 "sin"
  | cos => ArithmeticCode.math1 "cos"
  | tan => ArithmeticCode.math1 "tan"
  | atn => ArithmeticCode.math1 "atan"
  | rnd => ArithmeticCode.rnd
  | printText => ConsoleCode.printText
  | printNumber => ConsoleCode.printNumber
  | printNewline => ConsoleCode.printNewline
  | printComma => ConsoleCode.printComma
  | printTab => ConsoleCode.printTab
  | printSpc => ConsoleCode.printSpc
  | inputLine => ConsoleCode.inputLine
  | inputNumber => ConsoleCode.inputNumber
  | inputText => ConsoleCode.inputText
  | floatToText => NumeralCode.floatToText
  | textToFloat => NumeralCode.textToFloat
  | gosubPush => FlowCode.gosubPush
  | gosubPop => FlowCode.gosubPop
  | onSelector => FlowCode.onSelector
  | dataItem => FlowCode.dataItem
  | readNumber => FlowCode.readNumber
  | readText => FlowCode.readText
  | restore => FlowCode.restore

def draft (helper : Helper) : Draft :=
  (helper.code.run (Draft.empty helper.spec.descriptor)).2

end BasicCompiler.Helper
