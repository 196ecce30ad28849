import BasicCompiler.Library.Flush
import BasicCompiler.Proofs.Method.WellFormed

/-!
The code of every helper is typed within the stack that the helper declares. The types of the labels
are found by a pass over the code, and a second pass checks them.
-/

namespace BasicCompiler

open ValueType

namespace Handler

def following (item : Item) : List Item → Option (List Item)
  | [] => none
  | first :: rest => if first = item then some rest else following item rest

theorem following_split {item : Item} {items rest : List Item}
    (found : following item items = some rest) : ∃ before, items = before ++ item :: rest := by
  induction items with
  | nil => cases found
  | cons first more ih =>
      simp only [following] at found
      split at found
      · rename_i same
        cases found
        exact ⟨[], by rw [same, List.nil_append]⟩
      · obtain ⟨before, moreIs⟩ := ih found
        exact ⟨first :: before, by rw [moreIs, List.cons_append]⟩

def spans (items : List Item) (handler : Handler) : Bool :=
  match following (.label handler.start) items with
  | none => false
  | some rest =>
    rest.contains (.label handler.stop) &&
      0 < Item.count (rest.takeWhile (· ≠ .label handler.stop))

theorem split_of_mem {items : List Item} {item : Item} (member : item ∈ items) :
    ∃ after, items = items.takeWhile (· ≠ item) ++ item :: after := by
  induction items with
  | nil => cases member
  | cons first rest ih =>
      by_cases same : first = item
      · subst same
        exact ⟨rest, by simp⟩
      · obtain ⟨after, restIs⟩ := ih ((List.mem_cons.mp member).resolve_left (Ne.symm same))
        refine ⟨after, ?_⟩
        rw [List.takeWhile_cons_of_pos (by simpa using same), List.cons_append, ← restIs]

theorem spans_sound {items : List Item} {handler : Handler} (checked : handler.spans items = true) :
    handler.Spans items := by
  unfold spans at checked
  split at checked
  · cases checked
  · rename_i rest found
    simp only [Bool.and_eq_true, List.contains_iff_mem, decide_eq_true_eq] at checked
    obtain ⟨before, itemsAre⟩ := following_split found
    obtain ⟨after, restIs⟩ := split_of_mem checked.1
    exact ⟨before, _, after, by rw [← restIs, itemsAre], checked.2⟩

end Handler

namespace Draft

def certifies (frame : Frame) (draft : Draft) : Bool :=
  frame.slots == draft.scope.nextSlot &&
    frame.check (some []) draft.items.toList == some none &&
    (draft.items.toList.all fun item => item.slot?.all (· < frame.slots)) &&
    draft.handlers.toList.all fun handler =>
      handler.className.isSome && handler.spans draft.items.toList &&
        (frame.stackOf handler.start).isSome &&
        frame.stackOf handler.handler == some [reference]

theorem certifies_sound {frame : Frame} {draft : Draft} (gaps : frame.gaps = true)
    (checked : draft.certifies frame = true) : draft.Certified frame := by
  simp only [certifies, Bool.and_eq_true, beq_iff_eq, List.all_eq_true] at checked
  obtain ⟨⟨⟨slots, typed⟩, within⟩, handled⟩ := checked
  refine ⟨slots, Frame.check_sound (fun _ _ => gaps) typed fun item member slot isSlot => ?_, fun handler member => ?_⟩
  · simpa [isSlot] using within item member
  obtain ⟨⟨⟨named, spans⟩, start⟩, entry⟩ := handled handler member
  exact ⟨Option.isSome_iff_ne_none.mp named, Handler.spans_sound spans,
    Option.isSome_iff_exists.mp start, entry⟩

end Draft

namespace Helper

def inferStacks : List (Label × StackType) → Option StackType → List Item → List (Label × StackType)
  | known, _, [] => known
  | known, none, .insn _ :: items => inferStacks known none items
  | known, some stack, .insn insn :: items =>
    match insn.execute stack with
    | some after =>
      inferStacks (insn.labels.map (·, after) ++ known) (if insn.continues then some after else none)
        items
    | none => known
  | known, flow, .label label :: items =>
    match flow <|> known.lookup label with
    | some stack => inferStacks ((label, stack) :: known) (some stack) items
    | none => inferStacks known none items
  | known, flow, _ :: items => inferStacks known flow items

def frame (helper : Helper) : Frame where
  slots := helper.draft.scope.nextSlot
  limit := some helper.spec.maxStack.toNat
  stackOf := fun label =>
    let handlers := helper.draft.handlers.toList.map fun handler => (handler.handler, [reference])
    List.lookup label (inferStacks handlers (some []) helper.draft.items.toList)
  gaps := true

theorem mem_all (helper : Helper) : helper ∈ all := by
  cases helper with
  | indexCheck shape | dimCheck shape | dim shape | auto shape | get shape | set shape =>
      cases shape <;> decide
  | _ => decide

theorem all_certify :
    ∀ helper ∈ all, helper.draft.certifies helper.frame = true ∧ helper.draft.scope.nextSlot ≤ 255 := by
  decide +kernel

/-- Every helper is typed within the stack that it declares. -/
theorem draft_certified (helper : Helper) : helper.draft.Certified helper.frame :=
  Draft.certifies_sound rfl (all_certify helper (mem_all helper)).1

end Helper

end BasicCompiler
