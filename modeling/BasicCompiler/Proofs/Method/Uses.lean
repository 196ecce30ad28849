import BasicCompiler.Proofs.Method.Layout

/-!
What a method takes from the library of its class. Helpers and cells enter the library in the order of
their first use, and every source line that is marked becomes a row of the table of lines.
-/

namespace BasicCompiler

section Duplicates

variable {α : Type} [BEq α] [LawfulBEq α]

theorem eraseDups_of_nodup {items : List α} (distinct : items.Nodup) : items.eraseDups = items := by
  induction items with
  | nil => rfl
  | cons first rest ih =>
      obtain ⟨new, others⟩ := List.nodup_cons.mp distinct
      have same : rest.filter (fun item => !item == first) = rest := by
        refine List.filter_eq_self.mpr fun item member => ?_
        have different : item ≠ first := fun isFirst => new (isFirst ▸ member)
        simpa using different
      rw [List.eraseDups_cons, same, ih others]

theorem nodup_eraseDups (items : List α) : items.eraseDups.Nodup := by
  cases items with
  | nil => simp
  | cons first rest =>
      rw [List.eraseDups_cons, List.nodup_cons]
      exact ⟨by simp [List.mem_eraseDups], nodup_eraseDups (rest.filter fun item => !item == first)⟩
termination_by items.length
decreasing_by exact Nat.lt_succ_of_le (List.length_filter_le _ _)

theorem eraseDups_append_eraseDups (front back : List α) :
    (front.eraseDups ++ back).eraseDups = (front ++ back).eraseDups := by
  have same : back.removeAll front.eraseDups = back.removeAll front := by
    simp [List.removeAll, List.mem_eraseDups]
  rw [List.eraseDups_append, List.eraseDups_append, same, eraseDups_of_nodup (nodup_eraseDups front)]

end Duplicates

namespace Item

def helper? : Item → Option Helper
  | .insn (.call helper) | .request helper => some helper
  | _ => none

def cell? : Item → Option Cell
  | .insn (.getCell cell) | .insn (.putCell cell) => some cell
  | _ => none

def line? : Item → Option LineNumber
  | .sourceLine line => some line
  | _ => none

def helpers (items : List Item) : List Helper := items.filterMap helper?

def cells (items : List Item) : List Cell := items.filterMap cell?

def sourceLines (items : List Item) : List LineNumber := items.filterMap line?

theorem helpers_append (first second : List Item) :
    helpers (first ++ second) = helpers first ++ helpers second := List.filterMap_append

theorem cells_append (first second : List Item) :
    cells (first ++ second) = cells first ++ cells second := List.filterMap_append

theorem sourceLines_append (first second : List Item) :
    sourceLines (first ++ second) = sourceLines first ++ sourceLines second := List.filterMap_append

end Item

namespace Library

/-- The library that code needs after the one that was needed before it. -/
structure Gains (items : List Item) (library extended : Library) : Prop where
  requested : extended.requested.toList =
    (library.requested.toList ++ Item.helpers items).eraseDups
  cells : extended.cells.toList = (library.cells.toList ++ Item.cells items).eraseDups

structure Distinct (library : Library) : Prop where
  requested : library.requested.toList.Nodup
  cells : library.cells.toList.Nodup

theorem empty_distinct : Distinct empty := ⟨List.nodup_nil, List.nodup_nil⟩

namespace Gains

variable {items items' : List Item} {library middle extended : Library}

theorem distinct (gains : library.Gains items extended) : extended.Distinct :=
  ⟨gains.requested ▸ nodup_eraseDups _, gains.cells ▸ nodup_eraseDups _⟩

theorem nothing (distinct : library.Distinct) (noHelpers : Item.helpers items = [])
    (noCells : Item.cells items = []) : library.Gains items library := by
  constructor
  · rw [noHelpers, List.append_nil, eraseDups_of_nodup distinct.requested]
  · rw [noCells, List.append_nil, eraseDups_of_nodup distinct.cells]

theorem trans (first : library.Gains items middle) (second : middle.Gains items' extended) :
    library.Gains (items ++ items') extended := by
  constructor
  · rw [second.requested, first.requested, eraseDups_append_eraseDups, Item.helpers_append,
      List.append_assoc]
  · rw [second.cells, first.cells, eraseDups_append_eraseDups, Item.cells_append, List.append_assoc]

theorem mem_requested (gains : library.Gains items extended) {helper : Helper} :
    helper ∈ extended.requested.toList ↔
      helper ∈ library.requested.toList ∨ helper ∈ Item.helpers items := by
  rw [gains.requested, List.mem_eraseDups, List.mem_append]

theorem mem_cells (gains : library.Gains items extended) {cell : Cell} :
    cell ∈ extended.cells.toList ↔ cell ∈ library.cells.toList ∨ cell ∈ Item.cells items := by
  rw [gains.cells, List.mem_eraseDups, List.mem_append]

theorem keeps (gains : library.Gains items extended) (distinct : library.Distinct) :
    library.requested.toList <+: extended.requested.toList := by
  rw [gains.requested, List.eraseDups_append, eraseDups_of_nodup distinct.requested]
  exact List.prefix_append _ _

theorem unchanged (gains : library.Gains items extended) (distinct : library.Distinct)
    (noHelpers : Item.helpers items = [])
    (known : ∀ cell ∈ Item.cells items, cell ∈ library.cells.toList) : extended = library := by
  have removed : (Item.cells items).removeAll library.cells.toList = [] := by
    simpa [List.removeAll] using known
  have requested := gains.requested
  have cells := gains.cells
  rw [noHelpers, List.append_nil, eraseDups_of_nodup distinct.requested] at requested
  rw [List.eraseDups_append, removed, eraseDups_of_nodup distinct.cells, List.eraseDups_nil,
    List.append_nil] at cells
  obtain ⟨_, _⟩ := library
  obtain ⟨_, _⟩ := extended
  congr
  · exact Array.toList_inj.mp requested
  · exact Array.toList_inj.mp cells

end Gains

theorem eraseDups_push {α : Type} [BEq α] [LawfulBEq α] {known : List α} (distinct : known.Nodup)
    (item : α) : (known ++ [item]).eraseDups = if known.contains item then known else known ++ [item] := by
  rw [List.eraseDups_append, eraseDups_of_nodup distinct]
  by_cases member : item ∈ known <;> simp [List.removeAll, List.eraseDups_cons, member]

theorem request_gains {library : Library} (distinct : library.Distinct) {item : Item} {helper : Helper}
    (needs : item.helper? = some helper) (noCell : item.cell? = none) :
    library.Gains [item] (library.request helper) := by
  have single : Item.helpers [item] = [helper] := by simp [Item.helpers, needs]
  have none : Item.cells [item] = [] := by simp [Item.cells, noCell]
  unfold request requests
  constructor
  · rw [single, eraseDups_push distinct.requested, Array.contains_toList]
    split <;> simp
  · rw [none, List.append_nil, eraseDups_of_nodup distinct.cells]
    split <;> rfl

theorem register_gains {library : Library} (distinct : library.Distinct) {item : Item} {cell : Cell}
    (uses : item.cell? = some cell) (noHelper : item.helper? = none) :
    library.Gains [item] (library.register cell) := by
  have single : Item.cells [item] = [cell] := by simp [Item.cells, uses]
  have none : Item.helpers [item] = [] := by simp [Item.helpers, noHelper]
  unfold register registers
  constructor
  · rw [none, List.append_nil, eraseDups_of_nodup distinct.requested]
    split <;> rfl
  · rw [single, eraseDups_push distinct.cells, Array.contains_toList]
    split <;> simp

end Library

namespace Build

def Leaves {α : Type} (action : BuildM α) : Prop :=
  ∀ build, Ends action build (fun _ final => final.library = build.library) (fun _ _ => True)

namespace Leaves

variable {α β : Type}

theorem pure (value : α) : Leaves (Pure.pure value) := fun _ => rfl

theorem throw (error : CompileError) : Leaves (throw error : BuildM α) := fun _ => trivial

theorem bind {first : BuildM α} {next : α → BuildM β} (leaves : Leaves first)
    (leaves' : ∀ value, Leaves (next value)) : Leaves (first >>= next) := by
  intro build
  refine (leaves build).bind fun value middle same => ?_
  exact (leaves' value middle).imp (fun _ _ same' => same'.trans same)

theorem map {action : BuildM α} {change : α → β} (leaves : Leaves action) :
    Leaves (do return change (← action)) :=
  leaves.bind fun value => .pure (change value)

theorem interned (action : PoolM α) : Leaves (interned action) := by
  intro build
  rw [ends_interned]
  unfold Ends
  split <;> trivial

theorem traced (action : TraceM α) : Leaves (traced action) := by
  intro build
  rw [ends_traced]
  unfold Ends
  split <;> trivial

theorem report (event : Event) : Leaves (report event) := fun _ => rfl

theorem mapM {action : α → BuildM β} (leaves : ∀ item, Leaves (action item)) (items : List α) :
    Leaves (items.mapM action) := by
  induction items with
  | nil => exact .pure []
  | cons first rest ih =>
      rw [List.mapM_cons]
      exact (leaves first).bind fun value => ih.bind fun values => .pure (value :: values)

end Leaves

end Build

def Build.Draws {α : Type} (items : List Item) (action : BuildM α) : Prop :=
  ∀ build : Build, build.library.Distinct →
    Ends action build (fun _ final => build.library.Gains items final.library) (fun _ _ => True)

namespace Build

variable {α β : Type}

theorem Leaves.draws {action : BuildM α} (leaves : Leaves action) {items : List Item}
    (noHelpers : Item.helpers items = []) (noCells : Item.cells items = []) : Draws items action := by
  intro build distinct
  refine (leaves build).imp ?_
  intro _ final same
  rw [same]
  exact .nothing distinct noHelpers noCells

theorem Draws.leaving {first : BuildM α} {next : α → BuildM β} {items : List Item}
    (draws : Draws items first) (leaves : ∀ value, Leaves (next value)) :
    Draws items (first >>= next) := by
  intro build distinct
  refine (draws build distinct).bind fun value middle gains => ?_
  refine (leaves value middle).imp ?_
  intro _ final same
  rwa [same]

theorem request_draws {item : Item} {helper : Helper} (needs : item.helper? = some helper)
    (noCell : item.cell? = none) : Draws [item] (request helper) := by
  intro build distinct
  unfold request
  rw [ends_modify]
  have gains := Library.request_gains distinct needs noCell
  change build.library.Gains [item] (if build.library.requests helper then _ else _ : Build).library
  split
  · rename_i known
    rwa [Library.request, if_pos known] at gains
  · exact gains

theorem register_draws {item : Item} {cell : Cell} (uses : item.cell? = some cell)
    (noHelper : item.helper? = none) : Draws [item] (register cell) :=
  fun _ distinct => Library.register_gains distinct uses noHelper

end Build

namespace Insn

open Build

theorem announce_draws (insn : Insn) : Draws [.insn insn] insn.announce := by
  cases insn with
  | call helper => exact request_draws rfl rfl
  | getCell cell | putCell cell => exact register_draws rfl rfl
  | _ => exact (Leaves.pure ()).draws rfl rfl

theorem link_draws (owner : String) (insn : Insn) : Draws [.insn insn] (insn.link owner) := by
  rw [link_eq]
  refine insn.announce_draws.leaving fun _ => ?_
  cases insn.constantIndex? owner with
  | none => exact .pure _
  | some action => exact (Leaves.interned action).map

end Insn

namespace Emission

/-- Items that have been assembled are in the library of the class and in the table of lines. -/
structure Draws (items : List Item) (emission final : Emission) : Prop where
  library : emission.build.library.Gains items final.build.library
  lines : final.emitter.lines.toList.map Prod.snd =
    emission.emitter.lines.toList.map Prod.snd ++ Item.sourceLines items

theorem emitItem_draws (item : Item) (emission : Emission)
    (distinct : emission.build.library.Distinct) :
    Ends (emitItem item) emission (fun _ final => emission.Draws [item] final) (fun _ _ => True) := by
  cases item with
  | insn insn =>
      rw [emitItem, emit, ends_bind, ends_get, ends_bind, ends_onBuild]
      refine (insn.link_draws _ emission.build distinct).imp ?_
      intro fragment build gains
      exact ⟨gains, (List.append_nil _).symm⟩
  | label label =>
      refine (define_ends label emission).mono ?_ (fun _ _ _ => trivial)
      rintro _ final ⟨_, events, rfl⟩
      exact ⟨.nothing distinct rfl rfl, (List.append_nil _).symm⟩
  | sourceLine line =>
      refine ⟨.nothing distinct rfl rfl, ?_⟩
      change (emission.emitter.lines.push _).toList.map Prod.snd = _
      rw [Array.toList_push, List.map_append]
      rfl
  | request helper =>
      have draws : Build.Draws [.request helper] (Build.request helper) := Build.request_draws rfl rfl
      rw [emitItem, ends_onBuild]
      refine (draws emission.build distinct).imp ?_
      intro _ build gains
      exact ⟨gains, (List.append_nil _).symm⟩

theorem emitItems_draws (items : List Item) (emission : Emission)
    (distinct : emission.build.library.Distinct) :
    Ends (emitItems items) emission (fun _ final => emission.Draws items final) (fun _ _ => True) := by
  induction items generalizing emission with
  | nil => exact ⟨.nothing distinct rfl rfl, (List.append_nil _).symm⟩
  | cons first rest ih =>
      refine (emitItem_draws first emission distinct).bind fun _ middle before => ?_
      refine (ih middle before.library.distinct).imp ?_
      intro _ final after
      refine ⟨before.library.trans after.library, ?_⟩
      rw [after.lines, before.lines, List.append_assoc, ← Item.sourceLines_append]
      rfl

end Emission

namespace Emitter

theorem finish_leaves (emitter : Emitter) (handlers : List Handler) (locals : Nat) :
    Build.Leaves (emitter.finish handlers locals) := by
  have row (handler : Handler) : Build.Leaves (emitter.handlerRow handler) := by
    have caught : Build.Leaves (catchIndex handler) := by
      unfold catchIndex
      cases handler.className with
      | none => exact .pure 0
      | some name => exact .interned _
    rcases emitter.handlerRow_cases handler with ⟨_, row⟩ | ⟨label, _, _, row⟩
    · rw [row]
      exact caught.bind fun _ => .pure _
    · rw [row]
      exact caught.bind fun _ => .throw _
  exact (Build.Leaves.mapM row handlers).bind fun _ => (Build.Leaves.traced _).bind fun _ =>
    (Build.Leaves.report _).bind fun _ => .pure _

theorem finish_lines (emitter : Emitter) (handlers : List Handler) (locals : Nat) (build : Build) :
    Ends (emitter.finish handlers locals) build
      (fun unit _ => unit.lines.length = emitter.lines.size) (fun _ _ => True) := by
  have any {α : Type} (action : BuildM α) (build : Build) :
      Ends action build (fun _ _ => True) (fun _ _ => True) := by
    unfold Ends
    split <;> trivial
  refine (any _ build).bind fun rows _ _ => (any _ _).bind fun code _ _ => ?_
  change (emitter.lines.toList.map _).length = _
  rw [List.length_map, Array.length_toList]

end Emitter

theorem Draft.finish_draws (draft : Draft) (header : MethodHeader) {build : Build}
    (distinct : build.library.Distinct) :
    Ends (draft.finish header) build
      (fun unit final => build.library.Gains draft.items.toList final.library ∧
        unit.lines.length = (Item.sourceLines draft.items.toList).length)
      (fun _ _ => True) := by
  have draws := Emission.emitItems_draws draft.items.toList ⟨build, Emitter.new header⟩ distinct
  have assembled : Ends (draft.assemble header) build
      (fun emitter final => build.library.Gains draft.items.toList final.library ∧
        emitter.lines.size = (Item.sourceLines draft.items.toList).length)
      (fun _ _ => True) := by
    rw [ends_assemble]
    refine draws.imp (fun _ emission draws => ⟨draws.library, ?_⟩)
    have lines := congrArg List.length draws.lines
    simpa [Emitter.new] using lines
  refine assembled.bind ?_
  rintro emitter middle ⟨gains, lines⟩
  refine ((emitter.finish_leaves _ _ middle).and (emitter.finish_lines _ _ middle)).mono ?_ (fun _ _ _ => trivial)
  rintro unit final ⟨same, rows⟩
  exact ⟨same ▸ gains, rows.trans lines⟩

end BasicCompiler
