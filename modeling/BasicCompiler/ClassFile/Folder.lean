import BasicCompiler.ClassFile.Codec
import BasicCompiler.Trace
import Std.Data.HashMap

/-!
Class files in folders.
-/

namespace BasicCompiler

structure Folder where
  files : Std.HashMap String (List UInt8)

namespace Folder

def empty : Folder := ⟨∅⟩

def file? (folder : Folder) (name : String) : Option (List UInt8) := folder.files[name]?

def write (folder : Folder) (name : String) (content : List UInt8) : Folder :=
  ⟨folder.files.insert name content⟩

end Folder

/-- Writes a class file into a folder and reports it. Without a folder nothing is written. -/
def ClassFile.writeTo (file : ClassFile) (folder : Option Folder) (name : String) :
    Except ClassFileError (Folder × Event) :=
  match folder with
  | some folder => return (folder.write name file.encode, .classWritten name)
  | none => throw .missingDirectory

end BasicCompiler
