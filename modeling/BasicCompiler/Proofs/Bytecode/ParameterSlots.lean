import Mathlib.Algebra.GroupWithZero.Nat
import BasicCompiler.Bytecode.Descriptor

/-!
Field types and how descriptors spell them. Scanning the parameters of a method counts the slots of
the types that are spelled there.
-/

namespace BasicCompiler

inductive PrimitiveType where
  | byte
  | char
  | double
  | float
  | int
  | long
  | short
  | boolean

def PrimitiveType.letter : PrimitiveType → String
  | byte => "B"
  | char => "C"
  | double => "D"
  | float => "F"
  | int => "I"
  | long => "J"
  | short => "S"
  | boolean => "Z"

/-- The type of a field or a parameter. The name of a class holds nothing that would end the name or
the list of parameters. -/
inductive FieldType where
  | primitive (type : PrimitiveType)
  | object (name : String) (unended : ∀ character ∈ name.toList, character ≠ ';' ∧ character ≠ ')')
  | array (element : FieldType)

namespace FieldType

def spelling : FieldType → String
  | primitive type => type.letter
  | object name _ => "L" ++ name ++ ";"
  | array element => "[" ++ element.spelling

def slots : FieldType → Nat
  | primitive .long | primitive .double => 2
  | _ => 1

theorem spelling_unended (type : FieldType) : ∀ character ∈ type.spelling.toList, character ≠ ')' := by
  induction type with
  | primitive type => cases type <;> simp [spelling, PrimitiveType.letter]
  | object name unended =>
      intro character member
      simp only [spelling, String.toList_append, List.mem_append] at member
      obtain (opening | named) | closing := member
      · simp_all
      · exact (unended character named).2
      · simp_all
  | array element ih => simpa [spelling] using ih

end FieldType

namespace Descriptor

theorem countSlots_name {name : List Char} (count : UInt16) (rest : List Char)
    (unended : ∀ character ∈ name, character ≠ ';' ∧ character ≠ ')') :
    countSlots .className count (name ++ ';' :: rest) = countSlots .start count rest := by
  induction name with
  | nil => simp [countSlots]
  | cons character name ih =>
      rw [List.forall_mem_cons] at unended
      simpa [countSlots, unended.1.1] using ih unended.2

/-- Nothing is added for the elements of an array, however many dimensions it has. -/
theorem countSlots_element (type : FieldType) (count : UInt16) (rest : List Char) :
    countSlots .element count (type.spelling.toList ++ rest) = countSlots .start count rest := by
  induction type with
  | primitive type => cases type <;> simp [FieldType.spelling, PrimitiveType.letter, countSlots]
  | object name unended =>
      simpa [FieldType.spelling, countSlots] using countSlots_name count rest unended
  | array element ih => simpa [FieldType.spelling, countSlots] using ih

theorem countSlots_type (type : FieldType) (count : UInt16) (rest : List Char) :
    countSlots .start count (type.spelling.toList ++ rest) =
      countSlots .start (count + .ofNat type.slots) rest := by
  cases type with
  | primitive type =>
      cases type <;> simp [FieldType.spelling, FieldType.slots, PrimitiveType.letter, countSlots]
  | object name unended =>
      simpa [FieldType.spelling, FieldType.slots, countSlots] using
        countSlots_name (count + 1) rest unended
  | array element =>
      simpa [FieldType.spelling, FieldType.slots, countSlots] using
        countSlots_element element (count + 1) rest

theorem countSlots_types (types : List FieldType) (count : UInt16) :
    countSlots .start count (types.flatMap (·.spelling.toList)) =
      count + .ofNat (types.map FieldType.slots).sum := by
  induction types generalizing count with
  | nil => simp [countSlots]
  | cons type types ih =>
      rw [List.flatMap_cons, countSlots_type, ih, List.map_cons, List.sum_cons, UInt16.ofNat_add,
        UInt16.add_assoc]

/-- The descriptor of a method with parameters of the types and the spelled result. -/
def ofTypes (types : List FieldType) (result : String) : String :=
  "(" ++ String.join (types.map FieldType.spelling) ++ ")" ++ result

example : ofTypes [.array (.array (.primitive .long)), .object "x" (by simp), .primitive .double] "V" =
    "([[JLx;D)V" := by decide

theorem parameters_ofTypes (types : List FieldType) (result : String) :
    parameters (ofTypes types result) = types.flatMap (·.spelling.toList) := by
  have unended : ∀ character ∈ types.flatMap (·.spelling.toList), decide (character ≠ ')') := by
    intro character member
    obtain ⟨type, _, spelled⟩ := List.mem_flatMap.1 member
    exact decide_eq_true (type.spelling_unended character spelled)
  have spelled : (ofTypes types result).toList =
      '(' :: (types.flatMap (·.spelling.toList) ++ ')' :: result.toList) := by
    simp [ofTypes, List.flatMap_map]
  simp only [parameters, spelled]
  rw [List.takeWhile_append_of_pos unended]
  simp

/-- Parameters of the types `long` and `double` take two slots and all others take one. The sixteen bits
of the counter suffice for the slots that a method may have. -/
theorem parameterSlots_ofTypes (types : List FieldType) (result : String)
    (few : (types.map FieldType.slots).sum ≤ 65535) :
    parameterSlots (ofTypes types result) = (types.map FieldType.slots).sum := by
  rw [parameterSlots, parameters_ofTypes, countSlots_types, UInt16.zero_add]
  exact UInt16.toNat_ofNat_of_lt' (Nat.lt_succ_of_le few)

theorem parameterSlots_mixed :
    parameterSlots (ofTypes
      [.array (.array (.primitive .long)), .object "x" (by simp), .primitive .double] "V") = 4 :=
  parameterSlots_ofTypes _ "V" (by decide)

end Descriptor

end BasicCompiler
