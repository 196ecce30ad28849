import BasicCompiler.Method.Emitter

/-!
Methods without what the code does not depend on: the marks of source lines and the stack bound. What is
assembled without them is what is assembled with them, less the marks and the bound.
-/

namespace BasicCompiler

variable {ε σ α β : Type}

def Erases (erase : σ → σ) (detailed plain : ExceptT ε (StateM σ) α) : Prop :=
  ∀ state, plain.run (erase state) = ((detailed.run state).1, erase (detailed.run state).2)

theorem Erases.bind {erase : σ → σ} {first first' : ExceptT ε (StateM σ) α}
    {next next' : α → ExceptT ε (StateM σ) β} (erases : Erases erase first first')
    (erases' : ∀ value {state final}, first.run state = (.ok value, final) →
      Erases erase (next value) (next' value)) :
    Erases erase (first >>= next) (first' >>= next') := by
  intro state
  change ExceptT.bindCont next' (first'.run (erase state)).1 (first'.run (erase state)).2 =
    ((ExceptT.bindCont next (first.run state).1 (first.run state).2).1,
      erase (ExceptT.bindCont next (first.run state).1 (first.run state).2).2)
  rw [erases state]
  rcases ran : first.run state with ⟨error | value, middle⟩
  · rfl
  · exact erases' value ran middle

theorem run_map (change : α → β) (action : ExceptT ε (StateM σ) α) (state : σ) :
    (change <$> action).run state = ((action.run state).1.map change, (action.run state).2) := by
  simp only [Functor.map, ExceptT.map, ExceptT.run, ExceptT.mk, bind, StateT.bind]
  rcases action state with ⟨_ | _, _⟩ <;> rfl

def Item.marks : Item → Bool
  | .sourceLine _ => true
  | .insn _ | .label _ | .request _ => false

def Draft.unmarked (draft : Draft) : Draft :=
  { draft with items := draft.items.filter fun item => !item.marks }

def Overlooks (action : DraftM α) : Prop :=
  ∀ draft : Draft, action.run draft.unmarked = ((action.run draft).1, (action.run draft).2.unmarked)

namespace Overlooks

theorem pure (value : α) : Overlooks (Pure.pure value : DraftM α) := fun _ => rfl

theorem bind {first : DraftM α} {next : α → DraftM β} (overlooks : Overlooks first)
    (overlooks' : ∀ value, Overlooks (next value)) : Overlooks (first >>= next) := by
  intro draft
  change (next (first.run draft.unmarked).1).run (first.run draft.unmarked).2 = _
  rw [overlooks draft]
  exact overlooks' _ _

theorem addItem {item : Item} (unmarked : item.marks = false) : Overlooks (Draft.addItem item) := by
  rintro ⟨scope, items, handlers⟩
  have kept : (items.push item).filter (fun item => !item.marks) =
      (items.filter fun item => !item.marks).push item := by
    simp [unmarked]
  exact congrArg (fun items => ((), Draft.mk scope items handlers)) kept.symm

end Overlooks

def MethodHeader.plain (header : MethodHeader) : MethodHeader := { header with maxStack := 0 }

def Emitter.plain (emitter : Emitter) : Emitter := ⟨emitter.header.plain, emitter.buffer, #[]⟩

def Emission.plain (emission : Emission) : Emission := ⟨emission.build, emission.emitter.plain⟩

def MethodUnit.plain (unit : MethodUnit) : MethodUnit :=
  { unit with header := unit.header.plain, lines := [] }

namespace Emission

theorem onBuild_erases (action : BuildM α) : Erases plain (onBuild action) (onBuild action) := fun _ => rfl

theorem emit_erases (insn : Insn) : Erases plain (emit insn) (emit insn) := by
  have asked (emission : Emission) : (emit insn).run emission =
      (onBuild (insn.link emission.emitter.header.owner) >>= fun fragment =>
        modify fun linked => ⟨linked.build, linked.emitter.append fragment⟩).run emission := by
    simp only [emit, ExceptT.run_bind]
    rfl
  intro emission
  -- Linking asks for the class that the method belongs to and for nothing else of the method.
  have owned : emission.plain.emitter.header.owner = emission.emitter.header.owner := rfl
  rw [asked, asked, owned]
  exact (onBuild_erases _).bind (fun _ _ _ _ _ => rfl) emission

theorem define_erases (label : Label) : Erases plain (define label) (define label) := by
  rintro ⟨⟨pool, library, events⟩, ⟨header, buffer, lines⟩⟩
  simp only [ExceptT.run, define, plain, Emitter.plain]
  rcases buffer.define label with ⟨_ | _, _⟩ <;> rfl

theorem emitItem_erases {item : Item} (unmarked : item.marks = false) :
    Erases plain (emitItem item) (emitItem item) := by
  cases item with
  | insn insn => exact emit_erases insn
  | label label => exact define_erases label
  | request helper => exact onBuild_erases (Build.request helper)
  | sourceLine line => cases unmarked

theorem emitItems_erases (items : List Item) :
    Erases plain (emitItems items) (emitItems (items.filter fun item => !item.marks)) := by
  induction items with
  | nil => exact fun _ => rfl
  | cons item rest ih =>
      cases marks : item.marks with
      | false =>
          rw [List.filter_cons_of_pos (by simp [marks])]
          exact (emitItem_erases marks).bind fun _ _ _ _ => ih
      | true =>
          rw [List.filter_cons_of_neg (by simp [marks])]
          cases item with
          | sourceLine line =>
              intro emission
              exact ih ⟨emission.build, emission.emitter.markLine line⟩
          | insn | label | request => cases marks

end Emission

theorem Emitter.finish_plain (emitter : Emitter) (handlers : List Handler) (locals : Nat) :
    emitter.plain.finish handlers locals = MethodUnit.plain <$> emitter.finish handlers locals := by
  have rows : emitter.plain.handlerRow = emitter.handlerRow := rfl
  have buffer : emitter.plain.buffer = emitter.buffer := rfl
  unfold Emitter.finish
  rw [rows, buffer]
  simp only [map_bind, map_pure]
  rfl

namespace Draft

variable (draft : Draft) (header : MethodHeader)

theorem assemble_plain : draft.unmarked.assemble header.plain = Emitter.plain <$> draft.assemble header := by
  funext build
  have items : draft.unmarked.items.toList = draft.items.toList.filter fun item => !item.marks :=
    Array.toList_filter
  have assembled := Emission.emitItems_erases draft.items.toList ⟨build, Emitter.new header⟩
  rw [← items] at assembled
  unfold ExceptT.run at assembled
  change _ = (Emitter.plain <$> draft.assemble header).run build
  rw [run_map]
  unfold assemble ExceptT.run
  have start : (⟨build, Emitter.new header.plain⟩ : Emission) =
      Emission.plain ⟨build, Emitter.new header⟩ := rfl
  rw [start, assembled]
  dsimp only
  rcases Emission.emitItems draft.items.toList ⟨build, Emitter.new header⟩ with ⟨_ | _, _⟩ <;> rfl

/-- A method is finished as if no lines were marked, whatever its stack bound. -/
theorem finish_plain : draft.unmarked.finish header.plain = MethodUnit.plain <$> draft.finish header := by
  unfold finish
  rw [assemble_plain]
  simp only [bind_map_left, Emitter.finish_plain, map_bind]
  rfl

end Draft

end BasicCompiler
