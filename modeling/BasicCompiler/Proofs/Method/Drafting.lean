import BasicCompiler.Proofs.Method.Typing

/-!
Drafting of typed code. Every step of a draft has a rule that says how it changes the stack, so the
typing of a piece of code is put together in the order in which the code is drafted.
-/

namespace BasicCompiler

open ValueType

def Drafts {α : Type} (action : DraftM α) (draft : Draft) (post : α → Draft → Prop) : Prop :=
  post (action.run draft).1 (action.run draft).2

theorem drafts_bind {α β : Type} (first : DraftM α) (next : α → DraftM β) (draft : Draft)
    (post : β → Draft → Prop) :
    Drafts (first >>= next) draft post ↔
      Drafts first draft fun value middle => Drafts (next value) middle post := Iff.rfl

theorem drafts_pure {α : Type} (value : α) (draft : Draft) (post : α → Draft → Prop) :
    Drafts (pure value) draft post ↔ post value draft := Iff.rfl

theorem Drafts.mono {α : Type} {action : DraftM α} {draft : Draft} {post post' : α → Draft → Prop}
    (drafts : Drafts action draft post)
    (implies : ∀ value final, post value final → post' value final) : Drafts action draft post' :=
  implies _ _ drafts

namespace Draft

def add (draft : Draft) (item : Item) : Draft :=
  { draft with items := draft.items.push item }

@[simp] theorem add_items (draft : Draft) (item : Item) :
    (draft.add item).items.toList = draft.items.toList ++ [item] := by
  simp [add]

@[simp] theorem add_scope (draft : Draft) (item : Item) : (draft.add item).scope = draft.scope := rfl

@[simp] theorem add_handlers (draft : Draft) (item : Item) :
    (draft.add item).handlers = draft.handlers := rfl

def insnCount (draft : Draft) : Nat := Item.count draft.items.toList

@[simp] theorem insnCount_add_insn (draft : Draft) (insn : Insn) :
    (draft.add (.insn insn)).insnCount = draft.insnCount + 1 := by
  simp [insnCount, Item.count]

@[simp] theorem insnCount_add_label (draft : Draft) (label : Label) :
    (draft.add (.label label)).insnCount = draft.insnCount := by
  simp [insnCount, Item.count]

theorem drafts_addItem (item : Item) (draft : Draft) (post : Unit → Draft → Prop) :
    Drafts (addItem item) draft post ↔ post () (draft.add item) := Iff.rfl

theorem drafts_emit (insn : Insn) (draft : Draft) (post : Unit → Draft → Prop) :
    Drafts (emit insn) draft post ↔ post () (draft.add (.insn insn)) := Iff.rfl

theorem drafts_place (label : Label) (draft : Draft) (post : Unit → Draft → Prop) :
    Drafts (place label) draft post ↔ post () (draft.add (.label label)) := Iff.rfl

theorem drafts_freshLabel (stem : String) (draft : Draft) (post : Label → Draft → Prop) :
    Drafts (freshLabel stem) draft post ↔
      post (Label.numbered stem draft.scope.nextLabel)
        { draft with scope := (draft.scope.freshLabel stem).2 } := Iff.rfl

theorem drafts_temporary (initial : Initial) (draft : Draft) (post : Nat → Draft → Prop) :
    Drafts (temporary initial) draft post ↔
      post draft.scope.nextSlot { draft with scope := (draft.scope.temporary initial).2 } := Iff.rfl

theorem drafts_slotOf (name : String) (initial : Initial) (draft : Draft)
    (post : Nat → Draft → Prop) :
    Drafts (slotOf name initial) draft post ↔
      post (draft.scope.slotOf name initial).1
        { draft with scope := (draft.scope.slotOf name initial).2 } := Iff.rfl

end Draft

namespace Scope

/-- The slots of a scope after the parameters of a method have been counted. -/
structure Sound (parameters : Nat) (scope : Scope) : Prop where
  counted : scope.nextSlot = parameters + scope.initials.size
  initial : ∀ entry ∈ scope.initials.toList, entry.1 < scope.nextSlot
  named : ∀ {name : String} {slot}, scope.named[name]? = some slot → slot < scope.nextSlot

theorem ofDescriptor_sound (descriptor : String) :
    (ofDescriptor descriptor).Sound (Descriptor.parameterSlots descriptor) where
  counted := by simp [ofDescriptor]
  initial := by simp [ofDescriptor]
  named := by simp [ofDescriptor]

variable {parameters : Nat} {scope : Scope}

theorem Sound.temporary (sound : scope.Sound parameters) (initial : Initial) :
    (scope.temporary initial).2.Sound parameters where
  counted := by
    have counted := sound.counted
    simp only [Scope.temporary, Array.size_push]
    omega
  initial := by
    intro entry member
    simp only [Scope.temporary, Array.toList_push, List.mem_append, List.mem_singleton] at member ⊢
    rcases member with earlier | rfl
    · exact Nat.lt_succ_of_lt (sound.initial entry earlier)
    · exact Nat.lt_succ_self _
  named := fun found => Nat.lt_succ_of_lt (sound.named found)

theorem Sound.slotOf (sound : scope.Sound parameters) (name : String) (initial : Initial) :
    (scope.slotOf name initial).2.Sound parameters ∧
      (scope.slotOf name initial).1 < (scope.slotOf name initial).2.nextSlot ∧
      scope.nextSlot ≤ (scope.slotOf name initial).2.nextSlot := by
  unfold Scope.slotOf
  cases found : scope.named[name]? with
  | some slot => exact ⟨sound, sound.named found, Nat.le_refl _⟩
  | none =>
      obtain ⟨counted, initials, _⟩ := sound.temporary initial
      refine ⟨⟨counted, initials, ?_⟩, Nat.lt_succ_self _, Nat.le_succ _⟩
      intro other slot isNamed
      simp only [Std.HashMap.getElem?_insert] at isNamed
      split at isNamed
      · cases isNamed
        exact Nat.lt_succ_self _
      · exact Nat.lt_succ_of_lt (sound.named isNamed)

end Scope

/-- A piece of code that is being drafted: the items and handlers before it, the stack it starts with,
the parameters of its method, and what its frame says besides the number of slots. -/
structure Region where
  before : List Item
  handlers : Array Handler
  entry : Option StackType
  parameters : Nat
  limit : Option Nat
  stackOf : Label → Option StackType
  gaps : Bool

namespace Region

def frame (region : Region) (slots : Nat) : Frame :=
  ⟨slots, region.limit, region.stackOf, region.gaps⟩

/-- The height that the stack of a region has anyway: what the frame grants, and where the code starts. -/
def base (region : Region) : Nat := max (region.limit.getD 0) (flowHeight region.entry)

end Region

/-- A draft that ends with code of a region. The stack is `flow` at its end, and was never higher than
`peak`, which it reached unless it is the base of the region. -/
structure Draft.At (region : Region) (flow : Option StackType) (peak : Nat) (draft : Draft) : Prop where
  climbs : ∃ code height, draft.items.toList = region.before ++ code ∧
    Climbs (region.frame draft.scope.nextSlot) region.entry code flow height ∧
    peak = max region.base (max height (flowHeight flow))
  sound : draft.scope.Sound region.parameters
  handlers : draft.handlers = region.handlers

namespace Draft.At

variable {region : Region} {flow : Option StackType} {stack after rest : StackType} {draft : Draft}
  {peak : Nat}

theorem congr {peak' : Nat} (stands : draft.At region flow peak) (same : peak = peak') :
    draft.At region flow peak' := same ▸ stands

theorem low (stands : draft.At region (some stack) peak) : stack.height ≤ peak := by
  obtain ⟨⟨_, height, _, _, rfl⟩, _⟩ := stands
  simp only [flowHeight, Option.elim]
  omega

theorem whole (stands : draft.At region flow peak) (first : region.before = [])
    (enough : ∀ limit, region.limit = some limit → peak ≤ limit) :
    Typed (region.frame draft.scope.nextSlot) region.entry draft.items.toList flow := by
  obtain ⟨⟨code, height, itemsAre, climbs, rfl⟩, _⟩ := stands
  rw [first, List.nil_append] at itemsAre
  rw [itemsAre]
  refine ⟨height, climbs, fun limit isLimit => ?_⟩
  have bound := enough limit isLimit
  omega

theorem extend {items : List Item} {final : Draft} {stop : Option StackType} {height : Nat}
    (stands : draft.At region flow peak)
    (appended : final.items.toList = draft.items.toList ++ items) (sameScope : final.scope = draft.scope)
    (sameHandlers : final.handlers = draft.handlers)
    (climbs : Climbs (region.frame draft.scope.nextSlot) flow items stop height) :
    final.At region stop (max peak (max height (flowHeight stop))) := by
  obtain ⟨⟨code, height', itemsAre, before, rfl⟩, sound, handlers⟩ := stands
  have low := climbs.flowHeight_le
  refine ⟨⟨code ++ items, max height' height, by rw [appended, itemsAre, List.append_assoc], ?_, ?_⟩, ?_,
    sameHandlers.trans handlers⟩
  · rw [sameScope]
    exact before.append climbs
  · omega
  · rw [sameScope]
    exact sound

theorem rescope {scope : Scope} (stands : draft.At region flow peak)
    (sound : scope.Sound region.parameters) (more : draft.scope.nextSlot ≤ scope.nextSlot) :
    At region flow peak { draft with scope } := by
  obtain ⟨⟨code, height, itemsAre, climbs, isPeak⟩, _, handlers⟩ := stands
  exact ⟨⟨code, height, itemsAre, climbs.grow more, isPeak⟩, sound, handlers⟩

theorem temporary (stands : draft.At region flow peak) (initial : Initial) :
    At region flow peak { draft with scope := (draft.scope.temporary initial).2 } :=
  stands.rescope (stands.sound.temporary initial) (Nat.le_succ _)

theorem relabel (stands : draft.At region flow peak) (nextLabel : Nat) :
    At region flow peak { draft with scope.nextLabel := nextLabel } :=
  stands.rescope ⟨stands.sound.counted, stands.sound.initial, stands.sound.named⟩ (Nat.le_refl _)

theorem freshLabel (stands : draft.At region flow peak) (stem : String) :
    At region flow peak { draft with scope := (draft.scope.freshLabel stem).2 } :=
  stands.relabel (draft.scope.nextLabel + 1)

theorem slotOf (stands : draft.At region flow peak) (name : String) (initial : Initial) :
    At region flow peak { draft with scope := (draft.scope.slotOf name initial).2 } :=
  stands.rescope (stands.sound.slotOf name initial).1 (stands.sound.slotOf name initial).2.2

theorem insn (insn : Insn) (stands : draft.At region (some stack) peak) (shaped : insn.Shaped)
    (within : ∀ slot, insn.slot? = some slot → slot < draft.scope.nextSlot)
    (executes : insn.execute stack = some after)
    (agrees : ∀ label ∈ insn.labels, region.stackOf label = some after) :
    (draft.add (.insn insn)).At region (if insn.continues then some after else none)
      (max peak after.height) := by
  have low := stands.low
  refine (stands.extend (add_items _ _) rfl rfl (.insn ⟨shaped, within⟩ executes agrees .nil)).congr ?_
  split <;> simp only [flowHeight, Option.elim] <;> omega

theorem plain (insn : Insn) (stands : draft.At region (some stack) peak) (shaped : insn.Shaped)
    (executes : insn.execute stack = some after)
    (others : insn.slot? = none ∧ insn.labels = [] ∧ insn.continues = true) :
    (draft.add (.insn insn)).At region (some after) (max peak after.height) := by
  obtain ⟨noSlot, noLabel, continues⟩ := others
  have added := stands.insn insn shaped (by simp [noSlot]) executes (by simp [noLabel])
  rwa [continues, if_pos rfl] at added

theorem op (opcode : Opcode) (popped pushed : StackType)
    (stands : draft.At region (some (popped ++ rest)) peak)
    (effect : opcode.shape = .plain 0 ∧ opcode.continues = true ∧ opcode.Replaces popped pushed) :
    (draft.add (.insn (.op opcode))).At region (some (pushed ++ rest))
      (max peak (pushed ++ rest).height) :=
  stands.plain (.op opcode) effect.1 (effect.2.2.execute rest) ⟨rfl, rfl, effect.2.1⟩

theorem ends (opcode : Opcode) (popped : StackType)
    (stands : draft.At region (some (popped ++ rest)) peak)
    (effect : opcode.shape = .plain 0 ∧ opcode.continues = false ∧ opcode.Replaces popped []) :
    (draft.add (.insn (.op opcode))).At region none (max peak rest.height) := by
  have added := stands.insn (.op opcode) effect.1 (by simp [Insn.slot?]) (effect.2.2.execute rest)
    (by simp [Insn.labels])
  rwa [show (Insn.op opcode).continues = false from effect.2.1] at added

theorem access (opcode : Opcode) (slot : Nat) (popped pushed : StackType)
    (stands : draft.At region (some (popped ++ rest)) peak)
    (effect : opcode.accessesSlot = true ∧ opcode.continues = true ∧ opcode.Replaces popped pushed)
    (within : slot < draft.scope.nextSlot) :
    (draft.add (.insn (.access opcode slot))).At region (some (pushed ++ rest))
      (max peak (pushed ++ rest).height) := by
  have added := stands.insn (.access opcode slot) effect.1 (by rintro _ ⟨⟩; exact within)
    (effect.2.2.execute rest) (by simp [Insn.labels])
  rwa [show (Insn.access opcode slot).continues = true from effect.2.1] at added

theorem increment (slot : Nat) (amount : Int8) (stands : draft.At region (some stack) peak)
    (within : slot < draft.scope.nextSlot) :
    (draft.add (.insn (.increment slot amount))).At region (some stack) (max peak stack.height) := by
  have effect : Opcode.iinc.Replaces [] [] := by decide
  exact stands.insn (.increment slot amount) trivial (by rintro _ ⟨⟩; exact within)
    (effect.execute stack) (by simp [Insn.labels])

theorem pushFloat (value : Single) (stands : draft.At region (some stack) peak) :
    (draft.add (.insn (.pushFloat value))).At region (some (float :: stack))
      (max peak (stack.height + 1)) :=
  .congr (stands.plain _ trivial rfl ⟨rfl, rfl, rfl⟩) (by simp)

theorem pushInt (value : Int32) (stands : draft.At region (some stack) peak) :
    (draft.add (.insn (.pushInt value))).At region (some (int :: stack))
      (max peak (stack.height + 1)) :=
  .congr (stands.plain _ trivial rfl ⟨rfl, rfl, rfl⟩) (by simp)

theorem pushText (text : String) (stands : draft.At region (some stack) peak) :
    (draft.add (.insn (.pushText text))).At region (some (reference :: stack))
      (max peak (stack.height + 1)) :=
  .congr (stands.plain _ trivial rfl ⟨rfl, rfl, rfl⟩) (by simp)

theorem newDup (className : String) (stands : draft.At region (some stack) peak) :
    (draft.add (.insn (.newDup className))).At region (some (reference :: reference :: stack))
      (max peak (stack.height + 2)) :=
  .congr (stands.plain _ trivial rfl ⟨rfl, rfl, rfl⟩) (by simp)

theorem newArray (elementType : UInt8) (stands : draft.At region (some (int :: stack)) peak) :
    (draft.add (.insn (.newArray elementType))).At region (some (reference :: stack))
      (max peak (stack.height + 1)) := by
  have effect : Opcode.newarray.Replaces [int] [reference] := by decide
  exact .congr (stands.plain _ trivial (effect.execute stack) ⟨rfl, rfl, rfl⟩) (by simp)

theorem dup (stands : draft.At region (some (reference :: stack)) peak) :
    (draft.add (.insn (.op Opcode.dup))).At region (some (reference :: reference :: stack))
      (max peak (stack.height + 2)) :=
  (stands.plain (.op Opcode.dup) (show Opcode.dup.shape = .plain 0 by decide) (by rfl)
    ⟨rfl, rfl, rfl⟩).congr (by simp)

theorem pop (stands : draft.At region (some (int :: stack)) peak) :
    (draft.add (.insn (.op Opcode.pop))).At region (some stack) (max peak stack.height) :=
  stands.plain (.op Opcode.pop) (show Opcode.pop.shape = .plain 0 by decide) (by rfl) ⟨rfl, rfl, rfl⟩

end Draft.At

def Descriptor.Signature (descriptor : String) (parameters result : StackType) : Prop :=
  parameterTypes descriptor = some parameters ∧ resultTypes descriptor = some result

instance (descriptor : String) (parameters result : StackType) :
    Decidable (Descriptor.Signature descriptor parameters result) :=
  inferInstanceAs (Decidable (_ ∧ _))

theorem Descriptor.Signature.invoke {descriptor : String} {parameters result : StackType}
    (signature : Signature descriptor parameters result) (receiver rest : StackType) :
    invoke? receiver descriptor (parameters ++ (receiver ++ rest)) = some (result ++ rest) := by
  simp only [invoke?, signature.1, signature.2, Option.bind_eq_bind, Option.bind_some]
  rw [← List.append_assoc]
  exact StackType.replace_append _ _ _

namespace Draft.At

variable {region : Region} {flow : Option StackType} {stack rest : StackType} {draft : Draft}
  {peak : Nat}

theorem call (helper : Helper) (parameters result : StackType)
    (stands : draft.At region (some (parameters ++ rest)) peak)
    (signature : Descriptor.Signature helper.spec.descriptor parameters result) :
    (draft.add (.insn (.call helper))).At region (some (result ++ rest))
      (max peak (result ++ rest).height) :=
  stands.plain (.call helper) trivial (signature.invoke [] rest) ⟨rfl, rfl, rfl⟩

theorem invokeOn (opcode : Opcode) (member : MemberRef) (parameters result : StackType)
    (stands : draft.At region (some (parameters ++ (reference :: rest))) peak)
    (invokes : opcode = Opcode.invokevirtual ∨ opcode = Opcode.invokespecial)
    (signature : Descriptor.Signature member.descriptor parameters result) :
    (draft.add (.insn (.invoke opcode member))).At region (some (result ++ rest))
      (max peak (result ++ rest).height) := by
  refine stands.plain (.invoke opcode member) ?_ ?_ ⟨rfl, rfl, rfl⟩
  · exact invokes.imp id .inl
  · have receives : (if opcode = Opcode.invokestatic then ([] : StackType) else [reference]) =
        [reference] := by
      rcases invokes with rfl | rfl <;> rfl
    rw [Insn.execute, receives]
    exact signature.invoke [reference] rest

theorem getStatic (member : MemberRef) (result : StackType) (stands : draft.At region (some stack) peak)
    (type : Descriptor.fieldTypes member.descriptor = some result) :
    (draft.add (.insn (.field Opcode.getstatic member))).At region (some (result ++ stack))
      (max peak (result ++ stack).height) := by
  refine stands.plain (.field Opcode.getstatic member) (.inl rfl) ?_ ⟨rfl, rfl, rfl⟩
  simp only [Insn.execute, type]
  exact StackType.replace_append [] result stack

theorem putCell (cell : Cell) (result : StackType)
    (stands : draft.At region (some (result ++ rest)) peak)
    (type : Descriptor.fieldTypes cell.descriptor = some result) :
    (draft.add (.insn (.putCell cell))).At region (some rest) (max peak rest.height) := by
  refine stands.plain (.putCell cell) trivial ?_ ⟨rfl, rfl, rfl⟩
  simp only [Insn.execute, type]
  exact StackType.replace_append result [] rest

theorem branch (opcode : Opcode) (label : Label) (popped : StackType)
    (stands : draft.At region (some (popped ++ rest)) peak)
    (effect : opcode.shape = .branch ∧ opcode.continues = true ∧ opcode.Replaces popped [])
    (agrees : region.stackOf label = some rest) :
    (draft.add (.insn (.branch opcode label))).At region (some rest) (max peak rest.height) := by
  have added := stands.insn (.branch opcode label) effect.1 (by simp [Insn.slot?])
    (effect.2.2.execute rest) (by simp [Insn.labels, agrees])
  rwa [show (Insn.branch opcode label).continues = true from effect.2.1] at added

theorem goto (label : Label) (stands : draft.At region (some stack) peak)
    (agrees : region.stackOf label = some stack) :
    (draft.add (.insn (.branch Opcode.goto label))).At region none peak := by
  have effect : Opcode.goto.shape = .branch ∧ Opcode.goto.Replaces [] [] := by decide
  have added := stands.insn (.branch Opcode.goto label) effect.1 (by simp [Insn.slot?])
    (effect.2.execute stack) (by simp [Insn.labels, agrees])
  exact added.congr (Nat.max_eq_left stands.low)

theorem tableSwitch (low : Int32) (targets : List Label) (default : Label)
    (stands : draft.At region (some (int :: stack)) peak)
    (shaped : (Insn.tableSwitch low targets default).Shaped)
    (agrees : ∀ label ∈ default :: targets, region.stackOf label = some stack) :
    (draft.add (.insn (.tableSwitch low targets default))).At region none (max peak stack.height) := by
  have effect : Opcode.tableswitch.Replaces [int] [] := by decide
  exact stands.insn (.tableSwitch low targets default) shaped (by simp [Insn.slot?])
    (effect.execute stack) agrees

theorem pass {item : Item} (stands : draft.At region flow peak)
    (climbs : Climbs (region.frame draft.scope.nextSlot) flow [item] flow 0) :
    (draft.add item).At region flow peak := by
  refine (stands.extend (add_items _ _) rfl rfl climbs).congr ?_
  obtain ⟨⟨_, _, _, _, rfl⟩, _⟩ := stands
  omega

theorem label (label : Label) (stands : draft.At region (some stack) peak)
    (agrees : region.stackOf label = some stack) :
    (draft.add (.label label)).At region (some stack) peak :=
  stands.pass (.label agrees .nil)

theorem deadLabel (label : Label) (stands : draft.At region none peak) (gaps : region.gaps = true)
    (agrees : region.stackOf label = some stack) :
    (draft.add (.label label)).At region (some stack) (max peak stack.height) :=
  (stands.extend (add_items _ _) rfl rfl (.dead gaps (.label agrees .nil))).congr
    (by rw [Nat.zero_max]; rfl)

theorem request (helper : Helper) (stands : draft.At region flow peak) :
    (draft.add (.request helper)).At region flow peak :=
  stands.pass (.request .nil)

theorem sourceLine (line : UInt32) (stands : draft.At region flow peak) :
    (draft.add (.sourceLine line)).At region flow peak :=
  stands.pass (.sourceLine .nil)

theorem choice (opcode : Opcode) (holds done : Label) (value : Single)
    (stands : draft.At region (some (int :: stack)) peak)
    (effect : opcode.shape = .branch ∧ opcode.continues = true ∧ opcode.Replaces [int] [])
    (holdsApart : region.stackOf holds = none) (doneApart : region.stackOf done = none) :
    ((((((draft.add (.insn (.branch opcode holds))).add (.insn (.op Opcode.fconst0))).add
      (.insn (.branch Opcode.goto done))).add (.label holds)).add (.insn (.pushFloat value))).add
        (.label done)).At region (some (float :: stack)) peak := by
  have climbs : Climbs (region.frame draft.scope.nextSlot) (some (int :: stack))
      [.insn (.branch opcode holds), .insn (.op Opcode.fconst0), .insn (.branch Opcode.goto done),
        .label holds, .insn (.pushFloat value), .label done] (some (float :: stack)) _ :=
    .choice effect.1 effect.2.1 (effect.2.2.execute stack) holdsApart doneApart .nil
  have low := stands.low
  refine .congr (stands.extend (by simp) rfl rfl climbs) ?_
  simp only [flowHeight, Option.elim, StackType.height_int, StackType.height_float] at low ⊢
  omega

end Draft.At

end BasicCompiler
