import BasicCompiler.Proofs.Compile.Boundaries
import BasicCompiler.Proofs.Compile.Closing
import BasicCompiler.Proofs.Method.WellFormed

/-!
The main method is typed as a whole: the statements, the exit, the dispatch of returns, the report of
faults and the first values of the slots.
-/

namespace BasicCompiler

open ValueType Draft Body

namespace MainMethod

def frame (slots : Nat) : Frame := ⟨slots, none, stackOf, true⟩

/-- Code around the statements, which needs no more than one slot of the stack. -/
def Low (frame : Frame) (flow : Option StackType) (items : List Item) (stop : Option StackType) : Prop :=
  ∃ height ≤ 1, Climbs frame flow items stop height

section

variable {slots : Nat} {frame' : Frame} {flow middle stop : Option StackType} {items items' : List Item}

theorem Low.append (low : Low frame' flow items middle) (low' : Low frame' middle items' stop) :
    Low frame' flow (items ++ items') stop := by
  obtain ⟨height, bound, climbs⟩ := low
  obtain ⟨height', bound', climbs'⟩ := low'
  exact ⟨_, Nat.max_le.mpr ⟨bound, bound'⟩, climbs.append climbs'⟩

theorem Low.unusedLabel {label : Label} (low : Low frame' none items stop)
    (apart : frame'.stackOf label = none) : Low frame' none (.label label :: items) stop :=
  low.imp fun _ climbs => ⟨climbs.1, .unused apart climbs.2⟩

theorem low_of_check (checked : Frame.check ⟨0, some 1, stackOf, true⟩ flow items = some stop ∧
    ∀ item ∈ items, item.slot? = none) : Low (frame slots) flow items stop := by
  obtain ⟨height, climbs, enough⟩ := Frame.check_sound (fun _ _ => rfl) checked.1 (by simp +contextual [checked.2])
  exact ⟨height, enough 1 rfl, climbs.grow (Nat.zero_le _)⟩

theorem exitItems_low (helpers : List Helper) : Low (frame slots) (some []) (exitItems helpers) none := by
  unfold exitItems
  split <;> exact low_of_check (by decide +kernel)

theorem dispatchOf_low {body : Body}
    (agrees : ∀ label ∈ body.returns.targets.toList, stackOf label = some []) :
    Low (frame slots) none (dispatchOf body (unknownOf body)) none := by
  have unknown : stackOf (unknownOf body) = some [] := stackOf_numbered _ _ (by decide)
  have popped : Low (frame slots) none [.label MainLabel.returnDispatch, .insn (.call .gosubPop)] (some [int]) :=
    low_of_check (by decide +kernel)
  have raised : Low (frame slots) (some []) [.insn (.pushText Fault.returnWithoutGosub.message),
      .insn (.call .fault), .insn (.op Opcode.athrow)] none := low_of_check (by decide +kernel)
  unfold dispatchOf dispatchItems
  split
  · refine popped.append (Low.append ?_ raised)
    split
    · exact low_of_check (by decide +kernel)
    · rename_i nonempty
      have zero : (0 : Int32).toInt = 0 := by decide
      have shaped : (Insn.tableSwitch 0 body.returns.targets.toList (unknownOf body)).Shaped :=
        ⟨by simpa using nonempty, fun few => by omega⟩
      exact ⟨_, by decide, .insn ⟨shaped, by simp [Insn.slot?]⟩ rfl
        (List.forall_mem_cons.mpr ⟨unknown, agrees⟩) (.dead rfl (.label unknown .nil))⟩
  · exact ⟨0, Nat.zero_le 1, .nil⟩

theorem reportItems_low (helpers : List Helper) : Low (frame slots) none (reportItems helpers) none := by
  unfold reportItems
  split
  · exact ⟨0, Nat.zero_le 1, .nil⟩
  · exact low_of_check (by decide +kernel)

theorem initializers_low {scope : Scope} (within : ∀ entry ∈ scope.initials.toList, entry.1 < frame'.slots) :
    Low frame' (some []) (scope.initializers.map Item.insn) (some []) := by
  have stored {slot : Nat} (bound : slot < frame'.slots) (initial : Initial) :
      Low frame' (some []) ((Scope.initializer slot initial).map Item.insn) (some []) := by
    obtain ⟨height, climbs, enough⟩ : Typed { frame' with limit := some 1 } (some [])
        ((Scope.initializer slot initial).map Item.insn) (some []) := by
      refine Frame.check_sound (by simp) ?_ ?_
      · cases initial <;> rfl
      · cases initial <;> simp [Scope.initializer, Item.slot?, Insn.slot?, bound]
    exact ⟨height, enough 1 rfl, climbs.grow (Nat.le_refl _)⟩
  unfold Scope.initializers
  generalize scope.initials.toList = entries at within ⊢
  induction entries with
  | nil => exact ⟨0, Nat.zero_le 1, .nil⟩
  | cons entry rest ih =>
      obtain ⟨here, later⟩ := List.forall_mem_cons.mp within
      rw [List.flatMap_cons, List.map_append]
      exact (stored here entry.2).append (ih later)

theorem openingItems_low {scope : Scope}
    (within : ∀ entry ∈ scope.initials.toList, entry.1 < slots) :
    Low (frame slots) none (openingItems scope) none := by
  have placed : Low (frame slots) none [.label MainLabel.init] (some []) := low_of_check (by decide +kernel)
  exact placed.append ((initializers_low within).append (low_of_check (by decide +kernel)))

end

theorem empty_fits : (Body.empty descriptor).Fits where
  sound := Scope.ofDescriptor_sound descriptor
  handlers := rfl
  loops := by simp [Body.empty]
  returns := by simp [Body.empty, ReturnTable.empty]

theorem opened_paves : ∃ piece, (Body.empty descriptor).Paves opened [piece] 0 := by
  have ready := empty_fits.ready
  refine Body.Ready.paves ⟨(Stmt.goto_at ready.stands rfl).label MainLabel.body rfl, ?_, ?_⟩
    (Nat.le_refl _)
  · simp [opened]
  · simp [opened, ReturnTable.empty]

/-- A main method whose code is typed piece by piece, with all places between statements at the end of
a piece. -/
structure Drafted (surroundings : Surroundings) (program : Program) (body : Body)
    (pieces : List (List Item)) (last : List Item) : Prop where
  items : body.draft.items.toList = pieces.flatten ++ last
  climbs : ClimbsEach (frame body.draft.scope.nextSlot) (some []) pieces (Stmt.heightAll program)
  ends : ∃ height ≤ 1, Climbs (frame body.draft.scope.nextSlot) (some []) last none height
  places : ∀ place, Stmt.Between surroundings program opened place →
    ∃ front back, pieces = front ++ back ∧ place.draft.items.toList = front.flatten
  handled : ∀ handler ∈ body.draft.handlers.toList,
    handler = ⟨MainLabel.body, MainLabel.bodyEnd, MainLabel.handler, some FlowCode.faultClass⟩
  covers : ∃ between after, body.draft.items.toList =
    [.insn (.branch Opcode.goto MainLabel.init)] ++ .label MainLabel.body ::
      (between ++ .label MainLabel.bodyEnd :: after) ∧ 0 < Item.count between
  few : body.draft.scope.nextSlot ≤ body.draft.insnCount
  sound : body.draft.scope.Sound 1

theorem count_openingItems (scope : Scope) :
    Item.count (openingItems scope) = 2 * scope.initials.size + 1 := by
  have two (entry : Nat × Initial) : (Scope.initializer entry.1 entry.2).length = 2 := by
    cases entry.2 <;> rfl
  have length : scope.initializers.length = 2 * scope.initials.size := by
    simp [Scope.initializers, List.length_flatMap, two, Nat.mul_comm]
  simp [openingItems, Item.count, Function.comp_def, length]

theorem compile_drafted (surroundings : Surroundings) (program : Program) :
    Ends (compile surroundings program) (Body.empty descriptor)
      (fun _ body => ∃ pieces last, Drafted surroundings program body pieces last)
      (fun _ _ => True) := by
  obtain ⟨first, opens⟩ := opened_paves
  have statements : Stmt.Paved (Stmt.compileAll surroundings program) opened
      (Stmt.Between surroundings program opened) (Stmt.heightAll program) := Stmt.compileAll_paved program opens.fits
  refine compile_ends statements (fun _ _ _ _ _ => trivial) ?_
  rintro through body ⟨pieces, paves, cuts⟩ _ _ closed
  have all := opens.trans paves
  obtain ⟨nextLabel, scope⟩ := closed.scope
  have slots : body.draft.scope.nextSlot = through.draft.scope.nextSlot := by rw [scope]
  have sound := paves.fits.sound
  have closing : Low (frame body.draft.scope.nextSlot) (some []) (closingItems through) none :=
    (exitItems_low _).append ((dispatchOf_low paves.fits.returns).append
      ((reportItems_low _).unusedLabel rfl))
  have ends := closing.append (openingItems_low (slots ▸ sound.initial))
  refine ⟨[first] ++ pieces, _, ?_, ?_, ends, ?_, ?_, ?_, ?_, ?_⟩
  · rw [closed.items, all.items]
    rfl
  · rw [← Nat.zero_max (Stmt.heightAll program)]
    exact all.climbs.grow (Nat.le_of_eq slots.symm)
  · intro place isPlace
    obtain ⟨front, back, isFront, isPlace⟩ := (cuts place isPlace).prepend opens
    exact ⟨front, back, isFront, isPlace⟩
  · rw [closed.handlers, paves.fits.handlers]
    split <;> simp [faultRow]
  · refine ⟨pieces.flatten ++ (exitItems (Item.helpers through.draft.items.toList) ++
      dispatchOf through (unknownOf through)),
      reportItems (helpersOf through) ++ openingItems through.draft.scope, ?_, ?_⟩
    · rw [closed.items, closingItems, paves.items]
      simp [opened, Draft.empty]
    · have returns : 0 < Item.count (exitItems (Item.helpers through.draft.items.toList)) := by
        unfold exitItems
        split <;> decide
      simp only [Item.count, List.countP_append] at returns ⊢
      omega
  · have counted : through.draft.scope.nextSlot = 1 + _ := sound.counted
    have opening := count_openingItems through.draft.scope
    simp only [insnCount, closed.items, Item.count, List.countP_append] at opening ⊢
    omega
  · rw [scope]
    exact ⟨sound.counted, sound.initial, sound.named⟩

namespace Drafted

variable {surroundings : Surroundings} {program : Program} {body : Body}
  {pieces : List (List Item)} {last : List Item}

theorem whole (drafted : Drafted surroundings program body pieces last) :
    Typed (frame body.draft.scope.nextSlot) (some []) body.draft.items.toList none := by
  obtain ⟨height, _, ends⟩ := drafted.ends
  rw [drafted.items]
  exact ⟨_, drafted.climbs.flatten.append ends, nofun⟩

theorem shaped (drafted : Drafted surroundings program body pieces last) (insn : Insn)
    (member : .insn insn ∈ body.draft.items.toList) : insn.Shaped :=
  (drafted.whole.part member).1.shaped

theorem certified (drafted : Drafted surroundings program body pieces last) :
    body.draft.Certified (frame body.draft.scope.nextSlot) where
  slots := rfl
  typed := drafted.whole
  handled := by
    intro handler member
    obtain rfl := drafted.handled handler member
    obtain ⟨between, after, items, positive⟩ := drafted.covers
    exact ⟨by simp, ⟨_, between, after, items, positive⟩, ⟨[], rfl⟩, rfl⟩

end Drafted

end MainMethod

end BasicCompiler
