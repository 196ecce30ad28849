import BasicCompiler.Library.Shape

/-!
The catalogue of the helper methods that generated classes can carry.
-/

namespace BasicCompiler

inductive Helper where
  /-- Builds the exception of a fault message, which the caller throws. -/
  | fault
  | reportFault
  /-- Checks a subscript against a length and returns it as an index. -/
  | indexCheck (shape : ArrayShape)
  /-- Checks a bound and returns the length of the dimension. -/
  | dimCheck (shape : ArrayShape)
  | dim (shape : ArrayShape)
  /-- Returns an array, which gets the default size on its first use. -/
  | auto (shape : ArrayShape)
  | get (shape : ArrayShape)
  | set (shape : ArrayShape)
  | concat
  | textCompare
  | left
  | right
  | mid2
  | mid3
  | instr2
  | instr3
  | chr
  | asc
  | len
  | val
  | space
  | stringFill
  | divide
  | power
  | toInt16
  | mod
  | intDiv
  | and
  | or
  | xor
  | not
  | int
  | fix
  | sgn
  | abs
  | sqr
  | log
  | exp
  | sin
  | cos
  | tan
  | atn
  | rnd
  | printText
  | printNumber
  | printNewline
  | printComma
  | printTab
  | printSpc
  | inputLine
  | inputNumber
  | inputText
  | floatToText
  | textToFloat
  | gosubPush
  | gosubPop
  | onSelector
  | dataItem
  | readNumber
  | readText
  | restore
  deriving DecidableEq, Repr

/-- The method of a helper: its name, its descriptor and the stack that it needs. -/
structure HelperSpec where
  name : String
  descriptor : String
  maxStack : UInt16
  deriving DecidableEq, Repr

namespace Helper

def all : List Helper :=
  [fault, reportFault] ++
    ArrayShape.all.flatMap (fun shape =>
      [indexCheck shape, dimCheck shape, dim shape, auto shape, get shape, set shape]) ++
    [concat, textCompare, left, right, mid2, mid3, instr2, instr3, chr, asc, len, val, space,
      stringFill, divide, power, toInt16, mod, intDiv, and, or, xor, not, int, fix, sgn, abs,
      sqr, log, exp, sin, cos, tan, atn, rnd, printText, printNumber, printNewline, printComma,
      printTab, printSpc, inputLine, inputNumber, inputText, floatToText, textToFloat,
      gosubPush, gosubPop, onSelector, dataItem, readNumber, readText, restore]

def identity : Helper → String
  | fault => "Fault"
  | reportFault => "ReportFault"
  | indexCheck shape => s!"IndexCheck({shape.name})"
  | dimCheck shape => s!"DimCheck({shape.name})"
  | dim shape => s!"Dim({shape.name})"
  | auto shape => s!"Auto({shape.name})"
  | get shape => s!"Get({shape.name})"
  | set shape => s!"Set({shape.name})"
  | concat => "Concat"
  | textCompare => "TextCompare"
  | left => "Left"
  | right => "Right"
  | mid2 => "Mid2"
  | mid3 => "Mid3"
  | instr2 => "Instr2"
  | instr3 => "Instr3"
  | chr => "Chr"
  | asc => "Asc"
  | len => "Len"
  | val => "Val"
  | space => "Space"
  | stringFill => "StringFill"
  | divide => "Divide"
  | power => "Power"
  | toInt16 => "ToInt16"
  | mod => "Mod"
  | intDiv => "IntDiv"
  | and => "And"
  | or => "Or"
  | xor => "Xor"
  | not => "Not"
  | int => "Int"
  | fix => "Fix"
  | sgn => "Sgn"
  | abs => "Abs"
  | sqr => "Sqr"
  | log => "Log"
  | exp => "Exp"
  | sin => "Sin"
  | cos => "Cos"
  | tan => "Tan"
  | atn => "Atn"
  | rnd => "Rnd"
  | printText => "PrintText"
  | printNumber => "PrintNumber"
  | printNewline => "PrintNewline"
  | printComma => "PrintComma"
  | printTab => "PrintTab"
  | printSpc => "PrintSpc"
  | inputLine => "InputLine"
  | inputNumber => "InputNumber"
  | inputText => "InputText"
  | floatToText => "FloatToText"
  | textToFloat => "TextToFloat"
  | gosubPush => "GosubPush"
  | gosubPop => "GosubPop"
  | onSelector => "OnSelector"
  | dataItem => "DataItem"
  | readNumber => "ReadNumber"
  | readText => "ReadText"
  | restore => "Restore"

def ofIdentity? (name : String) : Option Helper :=
  all.find? fun helper => helper.identity == name

def spec : Helper → HelperSpec
  | fault => ⟨"fault", "(Ljava/lang/String;)Ljava/lang/RuntimeException;", 3⟩
  | reportFault => ⟨"reportFault", "(Ljava/lang/RuntimeException;)V", 2⟩
  | indexCheck shape => ⟨s!"indexCheck{shape.name}", "(FI)I", 2⟩
  | dimCheck shape => ⟨s!"dimCheck{shape.name}", "(F)I", 2⟩
  | dim shape =>
    ⟨s!"dim{shape.name}", s!"({shape.descriptor}{shape.subscripts}){shape.descriptor}", 4⟩
  | auto shape => ⟨s!"auto{shape.name}", s!"({shape.descriptor}){shape.descriptor}", 3⟩
  | get shape =>
    ⟨s!"get{shape.name}", s!"({shape.descriptor}{shape.subscripts}){shape.elementDescriptor}", 4⟩
  | set shape =>
    ⟨s!"set{shape.name}", s!"({shape.descriptor}{shape.subscripts}{shape.elementDescriptor})V", 5⟩
  | concat => ⟨"concat", "(Ljava/lang/String;Ljava/lang/String;)Ljava/lang/String;", 2⟩
  | textCompare => ⟨"textCompare", "(Ljava/lang/String;Ljava/lang/String;)I", 2⟩
  | left => ⟨"left", "(Ljava/lang/String;F)Ljava/lang/String;", 4⟩
  | right => ⟨"right", "(Ljava/lang/String;F)Ljava/lang/String;", 4⟩
  | mid2 => ⟨"mid2", "(Ljava/lang/String;F)Ljava/lang/String;", 4⟩
  | mid3 => ⟨"mid3", "(Ljava/lang/String;FF)Ljava/lang/String;", 5⟩
  | instr2 => ⟨"instr2", "(Ljava/lang/String;Ljava/lang/String;)F", 2⟩
  | instr3 => ⟨"instr3", "(FLjava/lang/String;Ljava/lang/String;)F", 4⟩
  | chr => ⟨"chr", "(F)Ljava/lang/String;", 2⟩
  | asc => ⟨"asc", "(Ljava/lang/String;)F", 2⟩
  | len => ⟨"len", "(Ljava/lang/String;)F", 1⟩
  | val => ⟨"val", "(Ljava/lang/String;)F", 2⟩
  | space => ⟨"space", "(F)Ljava/lang/String;", 3⟩
  | stringFill => ⟨"stringFill", "(FLjava/lang/String;)Ljava/lang/String;", 4⟩
  | divide => ⟨"divide", "(FF)F", 2⟩
  | power => ⟨"power", "(FF)F", 4⟩
  | toInt16 => ⟨"toInt16", "(F)I", 2⟩
  | mod => ⟨"mod", "(FF)F", 2⟩
  | intDiv => ⟨"intDiv", "(FF)F", 2⟩
  | and => ⟨"and", "(FF)F", 2⟩
  | or => ⟨"or", "(FF)F", 2⟩
  | xor => ⟨"xor", "(FF)F", 2⟩
  | not => ⟨"not", "(F)F", 2⟩
  | int => ⟨"int", "(F)F", 2⟩
  | fix => ⟨"fix", "(F)F", 2⟩
  | sgn => ⟨"sgn", "(F)F", 2⟩
  | abs => ⟨"abs", "(F)F", 1⟩
  | sqr => ⟨"sqr", "(F)F", 2⟩
  | log => ⟨"log", "(F)F", 2⟩
  | exp => ⟨"exp", "(F)F", 2⟩
  | sin => ⟨"sin", "(F)F", 2⟩
  | cos => ⟨"cos", "(F)F", 2⟩
  | tan => ⟨"tan", "(F)F", 2⟩
  | atn => ⟨"atn", "(F)F", 2⟩
  | rnd => ⟨"rnd", "(F)F", 2⟩
  | printText => ⟨"printText", "(Ljava/lang/String;)V", 3⟩
  | printNumber => ⟨"printNumber", "(F)V", 2⟩
  | printNewline => ⟨"printNewline", "()V", 1⟩
  | printComma => ⟨"printComma", "()V", 3⟩
  | printTab => ⟨"printTab", "(F)V", 2⟩
  | printSpc => ⟨"printSpc", "(F)V", 2⟩
  | inputLine => ⟨"inputLine", "(Ljava/lang/String;)Ljava/lang/String;", 1⟩
  | inputNumber => ⟨"inputNumber", "(Ljava/lang/String;)F", 2⟩
  | inputText => ⟨"inputText", "(Ljava/lang/String;)Ljava/lang/String;", 1⟩
  | floatToText => ⟨"floatToText", "(F)Ljava/lang/String;", 6⟩
  | textToFloat => ⟨"textToFloat", "(Ljava/lang/String;)F", 3⟩
  | gosubPush => ⟨"gosubPush", "(I)V", 3⟩
  | gosubPop => ⟨"gosubPop", "()I", 2⟩
  | onSelector => ⟨"onSelector", "(F)I", 2⟩
  | dataItem => ⟨"dataItem", "()Ljava/lang/String;", 7⟩
  | readNumber => ⟨"readNumber", "()F", 2⟩
  | readText => ⟨"readText", "()Ljava/lang/String;", 1⟩
  | restore => ⟨"restore", "(I)V", 1⟩

end Helper

end BasicCompiler
