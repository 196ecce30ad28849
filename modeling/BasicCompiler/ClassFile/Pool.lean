import Std.Data.HashMap
import BasicCompiler.ClassFile.Constant
import BasicCompiler.ClassFile.Error
import BasicCompiler.Text.ModifiedUtf8

/-!
The constant pool: a table of constants addressed from one, in which interning finds an equal entry
before it adds a new one. A wide entry takes two slots and the second one is never addressed.

An operation that fails keeps the entries that it added before.
-/

namespace BasicCompiler

structure ConstantPool where
  slots : Array (Option Constant)
  /-- The index of every entry, the least one where entries repeat. -/
  index : Std.HashMap Constant UInt16

abbrev PoolM := ExceptT ClassFileError (StateM ConstantPool)

namespace ConstantPool

def empty : ConstantPool := ⟨#[], ∅⟩

/-- The largest index of an entry. The count of a pool is one more and has sixteen bits. -/
def maxIndex : Nat := 65534

def maxTextLength : Nat := 65535

def size (pool : ConstantPool) : Nat := pool.slots.size

def isEmpty (pool : ConstantPool) : Bool := pool.slots.isEmpty

def count (pool : ConstantPool) : UInt16 := UInt16.ofNat (pool.size + 1)

def slotsOf (entry : Constant) : Array (Option Constant) :=
  if entry.width = 2 then #[some entry, none] else #[some entry]

/-- Appends an entry without looking for an equal one. An index that the pool has stays. -/
def push (pool : ConstantPool) (entry : Constant) : ConstantPool :=
  let position := UInt16.ofNat (pool.slots.size + 1)
  ⟨pool.slots ++ slotsOf entry, pool.index.insertIfNew entry position⟩

/-- The error that keeps a new entry out of a pool of `size` slots, if any. -/
def obstacle? (size : Nat) (entry : Constant) : Option ClassFileError :=
  let overflow := if maxIndex < size + entry.width then some .poolOverflow else none
  match entry with
  | .utf8 text =>
    let length := (ModifiedUtf8.encode text).length
    if maxTextLength < length then some (.textTooLong length) else overflow
  | _ => overflow

def intern (entry : Constant) : PoolM UInt16 := fun pool =>
  match pool.index[entry]? with
  | some index => (.ok index, pool)
  | none =>
    match obstacle? pool.slots.size entry with
    | some error => (.error error, pool)
    | none =>
      let index := UInt16.ofNat (pool.slots.size + 1)
      (.ok index, pool.push entry)

def utf8 (text : String) : PoolM UInt16 := intern (.utf8 text)

def integer (value : Int32) : PoolM UInt16 := intern (.integer value)

def float (value : Single) : PoolM UInt16 := intern (.float value)

def long (value : Int64) : PoolM UInt16 := intern (.long value)

def double (bits : UInt64) : PoolM UInt16 := intern (.double bits)

def classRef (name : String) : PoolM UInt16 := do
  intern (.classRef (← utf8 name))

def string (text : String) : PoolM UInt16 := do
  intern (.string (← utf8 text))

def nameAndType (name descriptor : String) : PoolM UInt16 := do
  let name ← utf8 name
  let descriptor ← utf8 descriptor
  intern (.nameAndType name descriptor)

def fieldRef (owner name descriptor : String) : PoolM UInt16 := do
  let owner ← classRef owner
  let member ← nameAndType name descriptor
  intern (.fieldRef owner member)

def methodRef (owner name descriptor : String) : PoolM UInt16 := do
  let owner ← classRef owner
  let member ← nameAndType name descriptor
  intern (.methodRef owner member)

def lookup (pool : ConstantPool) (index : UInt16) : Except ClassFileError Constant :=
  match index.toNat with
  | 0 => .error (.invalidConstantIndex index)
  | position + 1 =>
    match pool.slots[position]? with
    | some (some entry) => .ok entry
    | _ => .error (.invalidConstantIndex index)

def entries (pool : ConstantPool) : List (UInt16 × Constant) :=
  pool.slots.toList.zipIdx.filterMap fun (slot, position) =>
    slot.map fun entry => (UInt16.ofNat (position + 1), entry)

def textAt (pool : ConstantPool) (index : UInt16) : Except ClassFileError String := do
  match ← pool.lookup index with
  | .utf8 text => .ok text
  | _ => .error (.invalidConstantIndex index)

def classNameAt (pool : ConstantPool) (index : UInt16) : Except ClassFileError String := do
  match ← pool.lookup index with
  | .classRef name => pool.textAt name
  | _ => .error (.invalidConstantIndex index)

/-- The class and the entry for name and descriptor of a field or method entry. -/
def memberPartsAt (pool : ConstantPool) (index : UInt16) :
    Except ClassFileError (UInt16 × UInt16) := do
  match ← pool.lookup index with
  | .fieldRef owner member => .ok (owner, member)
  | .methodRef owner member => .ok (owner, member)
  | _ => .error (.invalidConstantIndex index)

/-- The class, name and descriptor of the field or method entry at an index. -/
def memberAt (pool : ConstantPool) (index : UInt16) :
    Except ClassFileError (String × String × String) := do
  let (owner, member) ← pool.memberPartsAt index
  match ← pool.lookup member with
  | .nameAndType name descriptor =>
    .ok (← pool.classNameAt owner, ← pool.textAt name, ← pool.textAt descriptor)
  | _ => .error (.invalidConstantIndex member)

end ConstantPool

end BasicCompiler
