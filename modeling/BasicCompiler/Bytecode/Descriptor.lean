/-!
Method descriptors, such as `(Ljava/lang/String;F)V`.
-/

namespace BasicCompiler.Descriptor

inductive ScanState where
  | start
  /-- Inside the name of a class, which a semicolon ends. -/
  | className
  | element
  deriving DecidableEq, Repr

/-- Adds to `count` the local slots of parameter types, two for `long` and `double` and one for all
others. -/
def countSlots : ScanState → UInt16 → List Char → UInt16
  | _, count, [] => count
  | .start, count, type :: rest =>
    if type = 'J' ∨ type = 'D' then countSlots .start (count + 2) rest
    else if type = 'L' then countSlots .className (count + 1) rest
    else if type = '[' then countSlots .element (count + 1) rest
    else countSlots .start (count + 1) rest
  | .className, count, character :: rest =>
    if character = ';' then countSlots .start count rest else countSlots .className count rest
  | .element, count, type :: rest =>
    if type = '[' then countSlots .element count rest
    else if type = 'L' then countSlots .className count rest
    else countSlots .start count rest

/-- The parameter types of a method descriptor, empty when there is no opening bracket. -/
def parameters (descriptor : String) : List Char :=
  match descriptor.toList with
  | '(' :: rest => rest.takeWhile (· ≠ ')')
  | _ => []

/-- The slots are counted by sixteen bits. -/
def parameterSlots (descriptor : String) : Nat :=
  (countSlots .start 0 (parameters descriptor)).toNat

end BasicCompiler.Descriptor
