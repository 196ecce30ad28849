/-!
The catalogue of the faults that a running program can raise.
-/

namespace BasicCompiler

inductive Fault where
  | indexOutOfMaxBoundsNum1
  | indexOutOfMaxBoundsNum2
  | indexOutOfMaxBoundsText1
  | indexOutOfMaxBoundsText2
  | indexOutOfBoundsNum1
  | indexOutOfBoundsNum2
  | indexOutOfBoundsText1
  | indexOutOfBoundsText2
  | dimensionOutOfMaxBoundsNum1
  | dimensionOutOfMaxBoundsNum2
  | dimensionOutOfMaxBoundsText1
  | dimensionOutOfMaxBoundsText2
  | redimensionedNum1
  | redimensionedNum2
  | redimensionedText1
  | redimensionedText2
  | stringTooLong
  | leftLengthOutOfRange
  | rightLengthOutOfRange
  | midStartOutOfRange
  | midLengthOutOfRange
  | instrStartOutOfRange
  | chrCodeOutOfRange
  | ascEmptyString
  | spaceLengthOutOfRange
  | stringLengthOutOfRange
  | stringEmptyFill
  | sqrNegative
  | logNotPositive
  | rndNegative
  | overflow
  | divisionByZero
  | tabOutOfRange
  | spcOutOfRange
  | onSelectorOutOfRange
  | returnWithoutGosub
  | gosubTooDeep
  | outOfData
  | dataSyntax
  | inputPastEnd
  | inputError
  deriving DecidableEq, Repr

structure FaultEntry where
  code : String
  name : String
  message : String

namespace Fault

def all : List Fault :=
  [indexOutOfMaxBoundsNum1, indexOutOfMaxBoundsNum2, indexOutOfMaxBoundsText1,
    indexOutOfMaxBoundsText2, indexOutOfBoundsNum1, indexOutOfBoundsNum2,
    indexOutOfBoundsText1, indexOutOfBoundsText2, dimensionOutOfMaxBoundsNum1,
    dimensionOutOfMaxBoundsNum2, dimensionOutOfMaxBoundsText1, dimensionOutOfMaxBoundsText2,
    redimensionedNum1, redimensionedNum2, redimensionedText1, redimensionedText2,
    stringTooLong, leftLengthOutOfRange, rightLengthOutOfRange, midStartOutOfRange,
    midLengthOutOfRange, instrStartOutOfRange, chrCodeOutOfRange, ascEmptyString,
    spaceLengthOutOfRange, stringLengthOutOfRange, stringEmptyFill, sqrNegative,
    logNotPositive, rndNegative, overflow, divisionByZero, tabOutOfRange, spcOutOfRange,
    onSelectorOutOfRange, returnWithoutGosub, gosubTooDeep, outOfData, dataSyntax,
    inputPastEnd, inputError]

def entry : Fault → FaultEntry
  | indexOutOfMaxBoundsNum1 =>
    ⟨"R0001", "IndexOutOfMaxBoundsNum1", "Index of 1D number array out of max bounds."⟩
  | indexOutOfMaxBoundsNum2 =>
    ⟨"R0002", "IndexOutOfMaxBoundsNum2", "Index of 2D number array out of max bounds."⟩
  | indexOutOfMaxBoundsText1 =>
    ⟨"R0003", "IndexOutOfMaxBoundsText1", "Index of 1D string array out of max bounds."⟩
  | indexOutOfMaxBoundsText2 =>
    ⟨"R0004", "IndexOutOfMaxBoundsText2", "Index of 2D string array out of max bounds."⟩
  | indexOutOfBoundsNum1 =>
    ⟨"R0005", "IndexOutOfBoundsNum1", "Index of 1D number array out of bounds."⟩
  | indexOutOfBoundsNum2 =>
    ⟨"R0006", "IndexOutOfBoundsNum2", "Index of 2D number array out of bounds."⟩
  | indexOutOfBoundsText1 =>
    ⟨"R0007", "IndexOutOfBoundsText1", "Index of 1D string array out of bounds."⟩
  | indexOutOfBoundsText2 =>
    ⟨"R0008", "IndexOutOfBoundsText2", "Index of 2D string array out of bounds."⟩
  | dimensionOutOfMaxBoundsNum1 =>
    ⟨"R0009", "DimensionOutOfMaxBoundsNum1", "Dimension of 1D number array out of max bounds."⟩
  | dimensionOutOfMaxBoundsNum2 =>
    ⟨"R0010", "DimensionOutOfMaxBoundsNum2", "Dimension of 2D number array out of max bounds."⟩
  | dimensionOutOfMaxBoundsText1 =>
    ⟨"R0011", "DimensionOutOfMaxBoundsText1", "Dimension of 1D string array out of max bounds."⟩
  | dimensionOutOfMaxBoundsText2 =>
    ⟨"R0012", "DimensionOutOfMaxBoundsText2", "Dimension of 2D string array out of max bounds."⟩
  | redimensionedNum1 =>
    ⟨"R0013", "RedimensionedNum1", "1D number array already dimensioned."⟩
  | redimensionedNum2 =>
    ⟨"R0014", "RedimensionedNum2", "2D number array already dimensioned."⟩
  | redimensionedText1 =>
    ⟨"R0015", "RedimensionedText1", "1D string array already dimensioned."⟩
  | redimensionedText2 =>
    ⟨"R0016", "RedimensionedText2", "2D string array already dimensioned."⟩
  | stringTooLong =>
    ⟨"R0017", "StringTooLong", "String too long."⟩
  | leftLengthOutOfRange =>
    ⟨"R0018", "LeftLengthOutOfRange", "Length argument of LEFT$ out of range."⟩
  | rightLengthOutOfRange =>
    ⟨"R0019", "RightLengthOutOfRange", "Length argument of RIGHT$ out of range."⟩
  | midStartOutOfRange =>
    ⟨"R0020", "MidStartOutOfRange", "Start argument of MID$ out of range."⟩
  | midLengthOutOfRange =>
    ⟨"R0021", "MidLengthOutOfRange", "Length argument of MID$ out of range."⟩
  | instrStartOutOfRange =>
    ⟨"R0022", "InstrStartOutOfRange", "Start argument of INSTR out of range."⟩
  | chrCodeOutOfRange =>
    ⟨"R0023", "ChrCodeOutOfRange", "Argument of CHR$ out of range."⟩
  | ascEmptyString =>
    ⟨"R0024", "AscEmptyString", "Argument of ASC is an empty string."⟩
  | spaceLengthOutOfRange =>
    ⟨"R0025", "SpaceLengthOutOfRange", "Argument of SPACE$ out of range."⟩
  | stringLengthOutOfRange =>
    ⟨"R0026", "StringLengthOutOfRange", "Length argument of STRING$ out of range."⟩
  | stringEmptyFill =>
    ⟨"R0027", "StringEmptyFill", "Fill argument of STRING$ is an empty string."⟩
  | sqrNegative =>
    ⟨"R0028", "SqrNegative", "Argument of SQR is negative."⟩
  | logNotPositive =>
    ⟨"R0029", "LogNotPositive", "Argument of LOG is not positive."⟩
  | rndNegative =>
    ⟨"R0030", "RndNegative", "RND with a negative argument is not supported."⟩
  | overflow =>
    ⟨"R0031", "Overflow", "Overflow."⟩
  | divisionByZero =>
    ⟨"R0032", "DivisionByZero", "Division by zero."⟩
  | tabOutOfRange =>
    ⟨"R0033", "TabOutOfRange", "Argument of TAB out of range."⟩
  | spcOutOfRange =>
    ⟨"R0034", "SpcOutOfRange", "Argument of SPC out of range."⟩
  | onSelectorOutOfRange =>
    ⟨"R0035", "OnSelectorOutOfRange", "Selector of ON out of range."⟩
  | returnWithoutGosub =>
    ⟨"R0036", "ReturnWithoutGosub", "RETURN without GOSUB."⟩
  | gosubTooDeep =>
    ⟨"R0037", "GosubTooDeep", "Too many nested GOSUBs."⟩
  | outOfData =>
    ⟨"R0038", "OutOfData", "Out of DATA."⟩
  | dataSyntax =>
    ⟨"R0039", "DataSyntax", "Syntax error in DATA."⟩
  | inputPastEnd =>
    ⟨"R0040", "InputPastEnd", "Input past end."⟩
  | inputError =>
    ⟨"R0041", "InputError", "Input error."⟩

def code (fault : Fault) : String := fault.entry.code

def name (fault : Fault) : String := fault.entry.name

def message (fault : Fault) : String := fault.entry.message

def display (fault : Fault) : String := s!"{fault.code} {fault.message}"

def ofName? (name : String) : Option Fault :=
  all.find? fun fault => fault.name == name

end Fault

end BasicCompiler
