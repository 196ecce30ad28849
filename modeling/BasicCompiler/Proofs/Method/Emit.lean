import BasicCompiler.Method.Emitter
import BasicCompiler.Proofs.Method.Link

/-!
Assembled methods are laid out as they were drafted: the instructions follow each other in the order of
the items, each label stands where its item stood, and branches and exception handlers name the
positions of their labels.
-/

namespace BasicCompiler

open Instruction

variable {items : List Item} {header : MethodHeader} {emission : Emission}

namespace Item

def defined : Item → List Label
  | .label name => [name]
  | .insn _ | .sourceLine _ | .request _ => []

def jumps : Item → List Label
  | .insn instruction => instruction.labels
  | .label _ | .sourceLine _ | .request _ => []

def definitions (items : List Item) : List Label := items.flatMap defined

def references (items : List Item) : List Label := items.flatMap jumps

def count (items : List Item) : Nat := items.countP fun item => item matches .insn _

def total (measure : Insn → Nat) : List Item → Nat
  | [] => 0
  | .insn instruction :: rest => measure instruction + total measure rest
  | .label _ :: rest | .sourceLine _ :: rest | .request _ :: rest => total measure rest

theorem total_append (measure : Insn → Nat) (first second : List Item) :
    total measure (first ++ second) = total measure first + total measure second := by
  induction first with
  | nil => exact (Nat.zero_add _).symm
  | cons item rest ih =>
      cases item with
      | insn instruction => simp only [List.cons_append, total, ih, Nat.add_assoc]
      | label _ | sourceLine _ | request _ => exact ih

theorem total_replicate (measure : Insn → Nat) (count : Nat) (instruction : Insn) :
    total measure (List.replicate count (.insn instruction)) = count * measure instruction := by
  induction count with
  | zero => exact (Nat.zero_mul _).symm
  | succ count ih =>
      rw [List.replicate_succ, total, ih, Nat.succ_mul, Nat.add_comm]

theorem total_le {measure larger : Insn → Nat} (below : ∀ instruction, measure instruction ≤ larger instruction)
    (items : List Item) : total measure items ≤ total larger items := by
  induction items with
  | nil => exact Nat.le_refl _
  | cons item rest ih =>
      cases item with
      | insn instruction => exact Nat.add_le_add (below instruction) ih
      | label _ | sourceLine _ | request _ => exact ih

theorem le_total (measure : Insn → Nat) {instruction : Insn} (member : .insn instruction ∈ items) :
    measure instruction ≤ total measure items := by
  obtain ⟨before, after, rfl⟩ := List.append_of_mem member
  rw [total_append, total]
  omega

theorem definitions_append (first second : List Item) :
    definitions (first ++ second) = definitions first ++ definitions second :=
  List.flatMap_append

end Item

def Handler.labels (handler : Handler) : List Label :=
  [handler.start, handler.stop, handler.handler]

/-- Fragments that were written for items from a position on. -/
inductive Placed (pool : ConstantPool) (owner : String) (labels : Std.HashMap Label Nat) :
    Nat → List Item → List Fragment → Prop where
  | nil {position : Nat} : Placed pool owner labels position [] []
  | insn {position : Nat} {insn : Insn} {fragment : Fragment} {items : List Item}
      {fragments : List Fragment} :
      fragment.Denotes pool owner insn →
      Placed pool owner labels (position + fragment.size position) items fragments →
      Placed pool owner labels position (.insn insn :: items) (fragment :: fragments)
  | label {position : Nat} {label : Label} {items : List Item} {fragments : List Fragment} :
      labels[label]? = some position →
      Placed pool owner labels position items fragments →
      Placed pool owner labels position (.label label :: items) fragments
  | sourceLine {position : Nat} {line : UInt32} {items : List Item} {fragments : List Fragment} :
      Placed pool owner labels position items fragments →
      Placed pool owner labels position (.sourceLine line :: items) fragments
  | request {position : Nat} {helper : Helper} {items : List Item} {fragments : List Fragment} :
      Placed pool owner labels position items fragments →
      Placed pool owner labels position (.request helper :: items) fragments

namespace Placed

variable {pool extended : ConstantPool} {owner : String} {labels more : Std.HashMap Label Nat}
  {position : Nat} {items items' : List Item} {fragments fragments' : List Fragment}

theorem append (placed : Placed pool owner labels position items fragments)
    (placed' : Placed pool owner labels (Fragment.stop position fragments) items' fragments') :
    Placed pool owner labels position (items ++ items') (fragments ++ fragments') := by
  induction placed with
  | nil => exact placed'
  | insn denotes _ ih => exact .insn denotes (ih placed')
  | label here _ ih => exact .label here (ih placed')
  | sourceLine _ ih => exact .sourceLine (ih placed')
  | request _ ih => exact .request (ih placed')

theorem mono (grown : pool.Extends extended)
    (kept : ∀ label ∈ Item.definitions items, more[label]? = labels[label]?)
    (placed : Placed pool owner labels position items fragments) :
    Placed extended owner more position items fragments := by
  induction placed with
  | nil => exact .nil
  | insn denotes _ ih => exact .insn (denotes.mono grown) (ih kept)
  | label here _ ih =>
      refine .label ?_ (ih fun label member => kept label (List.mem_cons_of_mem _ member))
      rw [kept _ (List.mem_cons_self ..), here]
  | sourceLine _ ih => exact .sourceLine (ih kept)
  | request _ ih => exact .request (ih kept)

theorem stop_le (placed : Placed pool owner labels position items fragments) :
    Fragment.stop position fragments ≤ position + Item.total Insn.room items := by
  induction placed with
  | nil => exact Nat.le_refl _
  | @insn position insn fragment items fragments denotes _ ih =>
      have size := denotes.size position
      simp only [Item.total, Fragment.stop]
      omega
  | label _ _ ih => exact ih
  | sourceLine _ ih => exact ih
  | request _ ih => exact ih

theorem labels_eq (placed : Placed pool owner labels position items fragments) :
    fragments.flatMap Fragment.labels = Item.references items := by
  induction placed with
  | nil => rfl
  | insn denotes _ ih =>
      rw [List.flatMap_cons, ih, denotes.labels]
      rfl
  | label _ _ ih => exact ih
  | sourceLine _ ih => exact ih
  | request _ ih => exact ih

end Placed

namespace Emission

structure Lays (header : MethodHeader) (items : List Item) (emission : Emission) : Prop where
  sameHeader : emission.emitter.header = header
  method : emission.emitter.buffer.method = header.name
  limit : emission.emitter.buffer.limit = Buffer.maxCodeLength
  indexed : emission.build.pool.Indexed
  written : ∃ fragments, emission.emitter.buffer.Written fragments ∧
    Placed emission.build.pool header.owner emission.emitter.buffer.labels 0 items fragments
  defined : ∀ label, emission.emitter.buffer.labels.contains label = true ↔
    label ∈ Item.definitions items

/-- How items can be refused: by the limits of the pool or by a label that is defined twice. -/
def Refused (method : String) (items : List Item) (error : CompileError) : Prop :=
  (∃ cause, error = .classFile cause) ∨
    ∃ label, error = .assembly (.duplicateLabel method label) ∧ ¬ (Item.definitions items).Nodup

theorem Refused.append {method : String} {error : CompileError} (refused : Refused method items error)
    (more : List Item) : Refused method (items ++ more) error := by
  refine refused.imp id ?_
  rintro ⟨label, isDuplicate, repeated⟩
  refine ⟨label, isDuplicate, fun distinct => repeated ?_⟩
  rw [Item.definitions_append] at distinct
  exact (List.nodup_append.mp distinct).1

theorem new_lays {build : Build} (indexed : build.pool.Indexed) (header : MethodHeader) :
    Lays header [] ⟨build, Emitter.new header⟩ where
  sameHeader := rfl
  method := rfl
  limit := rfl
  indexed := indexed
  written := ⟨[], ⟨rfl, rfl⟩, .nil⟩
  defined := by simp [Emitter.new, Buffer.empty, Item.definitions]

theorem ends_onBuild {α : Type} (action : BuildM α) (emission : Emission)
    (success : α → Emission → Prop) (failure : CompileError → Emission → Prop) :
    Ends (onBuild action) emission success failure ↔
      Ends action emission.build (fun value build => success value { emission with build })
        (fun error build => failure error { emission with build }) := by
  have unfolded : (onBuild action).run emission =
      ((action.run emission.build).1, { emission with build := (action.run emission.build).2 }) := rfl
  simp only [Ends, unfolded]
  rcases action.run emission.build with ⟨result | result, build⟩ <;> rfl

/-- A label gets the current position, also where that is an error because it is defined before. -/
theorem define_ends (label : Label) (emission : Emission) :
    Ends (define label) emission
      (fun _ final => emission.emitter.buffer.labels.contains label = false ∧ ∃ events,
        final = ⟨{ emission.build with events },
          { emission.emitter with buffer := (emission.emitter.buffer.define label).2 }⟩)
      (fun error final => emission.emitter.buffer.labels.contains label = true ∧
        error = .assembly (.duplicateLabel emission.emitter.buffer.method label) ∧
        final = { emission with
          emitter.buffer := (emission.emitter.buffer.define label).2 }) := by
  obtain ⟨⟨pool, library, events⟩, ⟨header, buffer, lines⟩⟩ := emission
  unfold Ends
  by_cases known : buffer.labels.contains label = true
  · simp [define, Buffer.define, known, ExceptT.run]
  · simp [define, Buffer.define, known, ExceptT.run]

theorem define_lays (lays : emission.Lays header items) (label : Label) :
    Ends (define label) emission
      (fun _ final => emission.build.pool.Extends final.build.pool ∧
        final.Lays header (items ++ [Item.label label]))
      (fun error _ => Refused header.name (items ++ [Item.label label]) error) := by
  obtain ⟨sameHeader, method, limit, indexed, ⟨fragments, written, placed⟩, defined⟩ := lays
  refine (define_ends label emission).mono ?_ ?_
  · rintro _ _ ⟨new, events, rfl⟩
    have kept : ∀ other ∈ Item.definitions items,
        (emission.emitter.buffer.define label).2.labels[other]? =
          emission.emitter.buffer.labels[other]? := by
      intro other member
      have different : label ≠ other := by
        rintro rfl
        rw [(defined label).mpr member] at new
        cases new
      simp [Buffer.define, Std.HashMap.getElem?_insert, different]
    refine ⟨.refl _, sameHeader, method, limit, indexed, ⟨fragments, ⟨written.bytes, written.patches⟩,
      ?_⟩, ?_⟩
    · have here : Placed emission.build.pool header.owner (emission.emitter.buffer.define label).2.labels
          (Fragment.stop 0 fragments) [.label label] [] :=
        .label (by simp [Buffer.define, written.position]) .nil
      simpa using (placed.mono (.refl _) kept).append here
    · intro other
      have single : Item.definitions [.label label] = [label] := rfl
      rw [Item.definitions_append, List.mem_append, ← defined other, single, List.mem_singleton]
      simp only [Buffer.define, Std.HashMap.contains_insert, Bool.or_eq_true, beq_iff_eq]
      rw [or_comm, eq_comm (a := label)]
  · rintro _ _ ⟨known, rfl, _⟩
    refine .inr ⟨label, by rw [← method], ?_⟩
    rw [Item.definitions_append, List.nodup_append]
    rintro ⟨_, _, apart⟩
    exact apart label ((defined label).mp known) label (by simp [Item.definitions, Item.defined]) rfl

theorem emit_lays (lays : emission.Lays header items) (insn : Insn) :
    Ends (emit insn) emission
      (fun _ final => emission.build.pool.Extends final.build.pool ∧
        final.Lays header (items ++ [Item.insn insn]))
      (fun error _ => Refused header.name (items ++ [Item.insn insn]) error) := by
  obtain ⟨sameHeader, method, limit, indexed, ⟨fragments, written, placed⟩, defined⟩ := lays
  unfold emit
  rw [ends_bind, ends_get, ends_bind, ends_onBuild, sameHeader]
  refine (Insn.link_adds header.owner insn emission.build).mono ?_
    (fun _ _ failed => .inl failed.2)
  rintro fragment build ⟨grown, denotes⟩
  rw [ends_modify]
  have appends := Buffer.append_appends emission.emitter.buffer fragment
  have here : Placed build.pool header.owner emission.emitter.buffer.labels
      (Fragment.stop 0 fragments) [.insn insn] [fragment] := .insn (denotes indexed) .nil
  refine ⟨grown, sameHeader, appends.method.trans method, appends.limit.trans limit, grown.indexed indexed,
    ⟨fragments ++ [fragment], written.append fragment, ?_⟩, ?_⟩
  · change Placed build.pool header.owner (emission.emitter.buffer.append fragment).labels _ _ _
    rw [appends.labels]
    exact (placed.mono grown fun _ _ => rfl).append here
  · intro label
    change (emission.emitter.buffer.append fragment).labels.contains label = true ↔ _
    rw [appends.labels, defined, Item.definitions_append]
    simp [Item.definitions, Item.defined]

theorem Lays.skip {final : Emission} (lays : emission.Lays header items) {item : Item}
    (nothing : item.defined = [])
    (empty : ∀ pool owner labels position, Placed pool owner labels position [item] [])
    (sameHeader : final.emitter.header = emission.emitter.header)
    (sameBuffer : final.emitter.buffer = emission.emitter.buffer)
    (samePool : final.build.pool = emission.build.pool) :
    emission.build.pool.Extends final.build.pool ∧ final.Lays header (items ++ [item]) := by
  obtain ⟨isHeader, method, limit, indexed, ⟨fragments, written, placed⟩, defined⟩ := lays
  rw [← samePool] at indexed placed ⊢
  rw [← sameBuffer] at method limit written placed defined
  refine ⟨.refl _, sameHeader.trans isHeader, method, limit, indexed, ⟨fragments, written, ?_⟩, ?_⟩
  · simpa using placed.append (empty _ _ _ _)
  · intro label
    rw [defined, Item.definitions_append]
    simp [Item.definitions, nothing]

theorem emitItem_lays (lays : emission.Lays header items) (item : Item) :
    Ends (emitItem item) emission
      (fun _ final => emission.build.pool.Extends final.build.pool ∧
        final.Lays header (items ++ [item]))
      (fun error _ => Refused header.name (items ++ [item]) error) := by
  cases item with
  | insn insn => exact emit_lays lays insn
  | label label => exact define_lays lays label
  | sourceLine line => exact lays.skip rfl (fun _ _ _ _ => .sourceLine .nil) rfl rfl rfl
  | request helper =>
      rw [emitItem, ends_onBuild]
      refine (Build.request_silent helper emission.build).mono ?_ (fun _ _ never => never.elim)
      intro _ build samePool
      exact lays.skip rfl (fun _ _ _ _ => .request .nil) rfl rfl samePool

theorem emitItems_lays {done : List Item} (lays : emission.Lays header done) (items : List Item) :
    Ends (emitItems items) emission
      (fun _ final => emission.build.pool.Extends final.build.pool ∧
        final.Lays header (done ++ items))
      (fun error _ => Refused header.name (done ++ items) error) := by
  induction items generalizing done emission with
  | nil => exact ⟨.refl _, by simpa using lays⟩
  | cons item rest ih =>
      have whole : done ++ item :: rest = done ++ [item] ++ rest := by simp
      rw [emitItems, ends_bind, whole]
      refine (emitItem_lays lays item).mono ?_ (fun _ _ refused => refused.append rest)
      rintro _ middle ⟨grown, middleLays⟩
      refine (ih middleLays).imp ?_
      rintro _ final ⟨later, finalLays⟩
      exact ⟨grown.trans later, finalLays⟩

end Emission

end BasicCompiler
