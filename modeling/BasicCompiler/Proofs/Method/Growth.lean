import Mathlib.Algebra.GroupWithZero.Nat
import BasicCompiler.Proofs.Method.Budget
import BasicCompiler.Proofs.Method.Drafting
import BasicCompiler.Proofs.Method.Unmarked
import BasicCompiler.Proofs.Method.Uses

/-!
What drafting adds to a method: items of a kind that is allowed, and not too many bytes.
-/

namespace BasicCompiler

open Draft

variable {α β : Type}

def hostClasses : List String :=
  ["java/io/BufferedReader", "java/io/InputStreamReader", "java/io/PrintStream", "java/lang/Float",
    "java/lang/Integer", "java/lang/Math", "java/lang/RuntimeException", "java/lang/String",
    "java/lang/System", "java/lang/Throwable", "java/math/BigDecimal", "java/math/BigInteger",
    "java/math/MathContext", "java/math/RoundingMode", "java/util/Arrays"]

def Item.Hosted : Item → Prop
  | .insn (.field _ member) | .insn (.invoke _ member) => member.owner ∈ hostClasses
  | _ => True

instance (item : Item) : Decidable item.Hosted :=
  match item with
  | .insn (.field _ member) | .insn (.invoke _ member) =>
    inferInstanceAs (Decidable (member.owner ∈ hostClasses))
  | .insn (.op _) | .insn (.branch _ _) | .insn (.tableSwitch _ _ _) | .insn (.pushFloat _)
  | .insn (.pushInt _) | .insn (.pushText _) | .insn (.access _ _) | .insn (.increment _ _)
  | .insn (.newDup _) | .insn (.newArray _) | .insn (.newRefArray _) | .insn (.newMultiArray _ _)
  | .insn (.call _) | .insn (.getCell _) | .insn (.putCell _) | .label _ | .sourceLine _
  | .request _ => inferInstanceAs (Decidable True)

namespace Insn

def load (insn : Insn) : Nat :=
  insn.room + (insn.texts.map fun text => (ModifiedUtf8.encode text).length).sum

theorem room_le_load (insn : Insn) : insn.room ≤ insn.load := Nat.le_add_right _ _

theorem brief_of_load {insn : Insn} (small : insn.load ≤ ConstantPool.maxTextLength) :
    ∀ text ∈ insn.texts, ConstantPool.Brief text := by
  intro text member
  obtain ⟨before, after, split⟩ := List.append_of_mem member
  simp only [load, split, List.map_append, List.map_cons, List.sum_append, List.sum_cons] at small
  unfold ConstantPool.Brief
  omega

def isSimple : Insn → Bool
  | op _ | branch _ _ | pushFloat _ | pushInt _ | access _ _ | increment _ _ | newArray _ => true
  | tableSwitch _ _ _ | pushText _ | field _ _ | invoke _ _ | newDup _ | newRefArray _
  | newMultiArray _ _ | call _ | getCell _ | putCell _ => false

theorem load_of_simple {insn : Insn} (simple : insn.isSimple = true) : insn.load = 6 := by
  cases insn with
  | op | branch | pushFloat | pushInt | access | increment | newArray => rfl
  | tableSwitch | pushText | field | invoke | newDup | newRefArray | newMultiArray | call | getCell
  | putCell => cases simple

theorem pushText_load (text : String) : (pushText text).load ≤ 6 + 6 * text.length := by
  have bytes := ModifiedUtf8.encode_length_le text
  simpa [load, room, texts] using bytes

end Insn

namespace Draft

/-- The bytes of a draft and of its texts, with those of the code that gives its slots the values they
start with. -/
def load (draft : Draft) : Nat :=
  Item.total Insn.load draft.items.toList + 12 * draft.scope.initials.size

/-- A draft that is drafted further keeps its code and its handlers. -/
structure Precedes (draft final : Draft) : Prop where
  items : draft.items.toList <+: final.items.toList
  handlers : final.handlers = draft.handlers
  sound : ∀ parameters, draft.scope.Sound parameters → final.scope.Sound parameters

theorem Precedes.refl (draft : Draft) : draft.Precedes draft :=
  ⟨List.prefix_refl _, rfl, fun _ => id⟩

theorem Precedes.trans {draft middle final : Draft} (first : draft.Precedes middle)
    (second : middle.Precedes final) : draft.Precedes final :=
  ⟨first.items.trans second.items, second.handlers.trans first.handlers, fun parameters sound =>
    second.sound parameters (first.sound parameters sound)⟩

/-- A draft has grown by items that are allowed and by at most `cost` bytes. -/
structure Grows (allowed : Item → Prop) (cost : Nat) (before after : Draft) : Prop where
  handlers : after.handlers = before.handlers
  items : ∃ added, after.items.toList = before.items.toList ++ added ∧ ∀ item ∈ added, allowed item
  load : after.load ≤ before.load + cost
  sound : ∀ parameters, before.scope.Sound parameters → after.scope.Sound parameters

namespace Grows

variable {allowed allowed' : Item → Prop} {cost cost' : Nat} {draft middle final : Draft}

theorem refl (draft : Draft) : draft.Grows allowed 0 draft :=
  ⟨rfl, ⟨[], by simp, by simp⟩, Nat.le_refl _, fun _ => id⟩

theorem precedes (grows : draft.Grows allowed cost final) : draft.Precedes final := by
  obtain ⟨added, items, _⟩ := grows.items
  exact ⟨⟨added, items.symm⟩, grows.handlers, grows.sound⟩

theorem trans (first : draft.Grows allowed cost middle) (second : middle.Grows allowed cost' final) :
    draft.Grows allowed (cost + cost') final := by
  obtain ⟨added, items, allow⟩ := first.items
  obtain ⟨added', items', allow'⟩ := second.items
  refine ⟨second.handlers.trans first.handlers, ⟨added ++ added', ?_, ?_⟩, ?_,
    (first.precedes.trans second.precedes).sound⟩
  · rw [items', items, List.append_assoc]
  · exact List.forall_mem_append.mpr ⟨allow, allow'⟩
  · have before := first.load
    have after := second.load
    omega

theorem mono (grows : draft.Grows allowed cost final) (cheaper : cost ≤ cost') :
    draft.Grows allowed cost' final :=
  { grows with load := Nat.le_trans grows.load (Nat.add_le_add_left cheaper _) }

theorem imp (grows : draft.Grows allowed cost final) (implies : ∀ item, allowed item → allowed' item) :
    draft.Grows allowed' cost final := by
  obtain ⟨added, items, allow⟩ := grows.items
  exact { grows with items := ⟨added, items, fun item member => implies item (allow item member)⟩ }

theorem add {item : Item} (allow : allowed item) (bound : Item.total Insn.load [item] ≤ cost) :
    draft.Grows allowed cost (draft.add item) := by
  refine ⟨rfl, ⟨[item], add_items _ _, List.forall_mem_singleton.mpr allow⟩, ?_, fun _ => id⟩
  simp only [Draft.load, add_items, add_scope, Item.total_append]
  omega

end Grows

theorem fit_of_load {draft : Draft} (shaped : ∀ insn, .insn insn ∈ draft.items.toList → insn.Shaped)
    (resolved : draft.Resolved) (short : Item.total Insn.load draft.items.toList ≤ 32767)
    (named : ∀ handler ∈ draft.handlers.toList, ∀ name, handler.className = some name →
      ConstantPool.Brief name) : draft.Fit := by
  refine ⟨shaped, resolved, ?_, ?_, named⟩
  · exact Nat.le_trans (Item.total_le Insn.room_le_load _) short
  · intro insn member
    have single := Item.le_total Insn.load member
    exact Insn.brief_of_load (by simp only [ConstantPool.maxTextLength]; omega)

end Draft

/-- A step that adds items which are allowed and at most `cost` bytes. Where no line may be marked it does
not depend on the marks before it. -/
structure Writes (allowed : Item → Prop) (cost : Nat) (action : DraftM α) : Prop where
  grows : ∀ draft : Draft, Drafts action draft fun _ final => draft.Grows allowed cost final
  overlooks : (∀ item, allowed item → item.marks = false) → Overlooks action

namespace Writes

variable {allowed allowed' : Item → Prop} {cost cost' : Nat}

theorem pure (value : α) : Writes allowed 0 (Pure.pure value : DraftM α) :=
  ⟨fun draft => .refl draft, fun _ => .pure value⟩

theorem mono {action : DraftM α} (writes : Writes allowed cost action) (cheaper : cost ≤ cost') :
    Writes allowed cost' action :=
  ⟨fun draft => Draft.Grows.mono (writes.grows draft) cheaper, writes.overlooks⟩

theorem bind {first : DraftM α} {next : α → DraftM β} (writes : Writes allowed cost first)
    (writes' : ∀ value, Writes allowed cost' (next value)) :
    Writes allowed (cost + cost') (first >>= next) where
  grows draft := (writes.grows draft).trans ((writes' _).grows _)
  overlooks unmarked := (writes.overlooks unmarked).bind fun value => (writes' value).overlooks unmarked

theorem item {item : Item} (allow : allowed item) (bound : Item.total Insn.load [item] ≤ cost) :
    Writes allowed cost (addItem item) :=
  ⟨fun _ => .add allow bound, fun unmarked => .addItem (unmarked item allow)⟩

theorem emit {insn : Insn} (allow : allowed (.insn insn)) (bound : insn.load ≤ cost) :
    Writes allowed cost (Draft.emit insn) := item allow bound

theorem place {label : Label} (allow : allowed (.label label)) : Writes allowed 0 (Draft.place label) :=
  item allow (Nat.le_refl _)

theorem freshLabel (stem : String) : Writes allowed 0 (Draft.freshLabel stem) :=
  ⟨fun _ => ⟨rfl, ⟨[], (List.append_nil _).symm, by simp⟩, Nat.le_refl _, fun _ sound =>
    ⟨sound.counted, sound.initial, sound.named⟩⟩, fun _ _ => rfl⟩

theorem temporary (initial : Initial) : Writes allowed 12 (Draft.temporary initial) := by
  refine ⟨fun draft => ?_, fun _ _ => rfl⟩
  rw [drafts_temporary]
  refine ⟨rfl, ⟨[], (List.append_nil _).symm, by simp⟩, ?_, fun _ sound => sound.temporary initial⟩
  simp only [Draft.load, Scope.temporary, Array.size_push]
  omega

theorem slotOf (name : String) (initial : Initial) : Writes allowed 12 (Draft.slotOf name initial) := by
  refine ⟨fun draft => ?_, fun _ _ => rfl⟩
  rw [drafts_slotOf]
  refine ⟨rfl, ⟨[], (List.append_nil _).symm, by simp⟩, ?_, fun _ sound => (sound.slotOf name initial).1⟩
  unfold Scope.slotOf
  cases draft.scope.named[name]? with
  | some slot => exact Nat.le_add_right _ _
  | none =>
      simp only [Draft.load, Array.size_push]
      omega

end Writes

end BasicCompiler
