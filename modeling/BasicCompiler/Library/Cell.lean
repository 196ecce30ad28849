/-!
The static fields of generated classes, which hold the state of a running program.
-/

namespace BasicCompiler

inductive Cell where
  | cursorColumn
  | lastRandom
  | dataCursor
  | dataIndex
  | dataChars
  | gosubStack
  | gosubDepth
  | console
  deriving DecidableEq, Repr

namespace Cell

def all : List Cell :=
  [cursorColumn, lastRandom, dataCursor, dataIndex, dataChars, gosubStack, gosubDepth, console]

def name : Cell → String
  | cursorColumn => "cursorColumn"
  | lastRandom => "lastRandom"
  | dataCursor => "dataCursor"
  | dataIndex => "dataIndex"
  | dataChars => "dataChars"
  | gosubStack => "gosubStack"
  | gosubDepth => "gosubDepth"
  | console => "console"

def descriptor : Cell → String
  | cursorColumn => "I"
  | lastRandom => "F"
  | dataCursor => "I"
  | dataIndex => "[I"
  | dataChars => "[C"
  | gosubStack => "[I"
  | gosubDepth => "I"
  | console => "Ljava/io/BufferedReader;"

def ofName? (name : String) : Option Cell :=
  all.find? fun cell => cell.name == name

end Cell

end BasicCompiler
