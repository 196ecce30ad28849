import BasicCompiler.Number.Single

/-!
Entries of a constant pool. Composite entries refer to other entries by index. Floating point values
are held as bit patterns, so entries are equal exactly when they are written alike.
-/

namespace BasicCompiler

inductive Constant where
  | utf8 (text : String)
  | integer (value : Int32)
  | float (value : Single)
  | long (value : Int64)
  | double (bits : UInt64)
  | classRef (name : UInt16)
  | string (text : UInt16)
  | fieldRef (owner nameAndType : UInt16)
  | methodRef (owner nameAndType : UInt16)
  | nameAndType (name descriptor : UInt16)
  deriving DecidableEq, Hashable, Repr

namespace Constant

def tag : Constant → UInt8
  | utf8 _ => 1
  | integer _ => 3
  | float _ => 4
  | long _ => 5
  | double _ => 6
  | classRef _ => 7
  | string _ => 8
  | fieldRef _ _ => 9
  | methodRef _ _ => 10
  | nameAndType _ _ => 12

def width : Constant → Nat
  | long _ => 2
  | double _ => 2
  | _ => 1

theorem width_pos (entry : Constant) : 0 < entry.width := by
  cases entry <;> simp [width]

end Constant

end BasicCompiler
