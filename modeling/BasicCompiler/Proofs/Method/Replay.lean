import Mathlib.Order.CompleteBooleanAlgebra
import Mathlib.Order.CompletePartialOrder
import BasicCompiler.Proofs.ClassFile.PoolHistory
import BasicCompiler.Proofs.Method.Uses

/-!
Assembling a method again. A computation that went through has left everything it asked for in the pool
and in the library of its class. Run again on what it left, or on anything that has grown out of it, it
finds every constant at the index that it was given before, so it yields the same value and adds nothing.
-/

namespace BasicCompiler

variable {ε σ κ ρ α β : Type}

/-- A later pool knows every entry at the index that it had before. -/
instance : Preorder ConstantPool where
  le pool later := ∀ (entry : Constant) (index : UInt16), pool.index[entry]? = some index →
    later.index[entry]? = some index
  le_refl _ _ _ known := known
  le_trans _ _ _ first second entry index known := second entry index (first entry index known)

instance : Preorder Library where
  le library later := library.requested.toList <+: later.requested.toList ∧
    library.cells.toList <+: later.cells.toList
  le_refl library := ⟨List.prefix_refl _, List.prefix_refl _⟩
  le_trans _ _ _ first second := ⟨first.1.trans second.1, first.2.trans second.2⟩

/-- What the code of a class depends on: everything but the trace of events. -/
def Build.contents (build : Build) : ConstantPool × Library := (build.pool, build.library)

def Emission.contents (emission : Emission) : ConstantPool × Library := emission.build.contents

/-- Where a computation goes through, it knows at the end what it knew at the start. From any state that
knows as much it goes through again, with the same value and to the same `rest`, and learns nothing. -/
def Replays [Preorder κ] (known : σ → κ) (rest : σ → ρ) (action : ExceptT ε (StateM σ) α) : Prop :=
  ∀ start, Ends action start
    (fun value final => known start ≤ known final ∧
      ∀ later, rest later = rest start → known final ≤ known later →
        Ends action later
          (fun found again => found = value ∧ known again = known later ∧ rest again = rest final)
          fun _ _ => False)
    fun _ _ => True

namespace Replays

variable [Preorder κ] {known : σ → κ} {rest : σ → ρ}

theorem pure (value : α) : Replays known rest (Pure.pure value : ExceptT ε (StateM σ) α) :=
  fun _ => ⟨le_refl _, fun _ same _ => ⟨rfl, rfl, same⟩⟩

theorem throw (error : ε) : Replays known rest (throw error : ExceptT ε (StateM σ) α) :=
  fun _ => trivial

theorem bind {first : ExceptT ε (StateM σ) α} {next : α → ExceptT ε (StateM σ) β}
    (replays : Replays known rest first) (replays' : ∀ value, Replays known rest (next value)) :
    Replays known rest (first >>= next) := by
  intro start
  refine (replays start).bind ?_
  rintro between middle ⟨grown, again⟩
  refine (replays' between middle).imp ?_
  rintro value final ⟨grown', again'⟩
  refine ⟨grown.trans grown', fun later same knows => (again later same (grown'.trans knows)).bind ?_⟩
  rintro _ once ⟨rfl, knownOnce, restOnce⟩
  refine (again' once restOnce (knownOnce ▸ knows)).imp ?_
  rintro _ twice ⟨rfl, knownTwice, restTwice⟩
  exact ⟨rfl, knownTwice.trans knownOnce, restTwice⟩

theorem map {action : ExceptT ε (StateM σ) α} {change : α → β} (replays : Replays known rest action) :
    Replays known rest (do return change (← action)) :=
  replays.bind fun value => .pure (change value)

theorem mapM {action : α → ExceptT ε (StateM σ) β} (replays : ∀ item, Replays known rest (action item))
    (items : List α) : Replays known rest (items.mapM action) := by
  induction items with
  | nil => exact .pure []
  | cons first others ih =>
      rw [List.mapM_cons]
      exact (replays first).bind fun value => ih.map

theorem modify {change : σ → σ} (keeps : ∀ state, known (change state) = known state)
    (depends : ∀ state state', rest state = rest state' → rest (change state) = rest (change state')) :
    Replays known rest (modify change : ExceptT ε (StateM σ) PUnit) :=
  fun start => ⟨(keeps start).ge, fun later same _ => ⟨rfl, keeps later, depends _ _ same⟩⟩

end Replays

namespace ConstantPool

theorem push_le {pool : ConstantPool} {entry : Constant} (new : pool.index[entry]? = none) :
    pool ≤ pool.push entry ∧
      (pool.push entry).index[entry]? = some (UInt16.ofNat (pool.slots.size + 1)) := by
  have absent : entry ∉ pool.index := by
    rw [Std.HashMap.mem_iff_isSome_getElem?, new]
    simp
  constructor
  · intro other index known
    have different : entry ≠ other := by
      rintro rfl
      rw [new] at known
      cases known
    simp [push, Std.HashMap.getElem?_insertIfNew, different, known]
  · rw [push, Std.HashMap.getElem?_insertIfNew, if_pos ⟨beq_self_eq_true entry, absent⟩]

theorem intern_replays (entry : Constant) : Replays id (fun _ => ()) (intern entry) := by
  have found {later : ConstantPool} {index : UInt16} (known : later.index[entry]? = some index) :
      Ends (intern entry) later (fun found again => found = index ∧ again = later ∧ () = ())
        fun _ _ => False := by
    rw [Ends, intern_run, known]
    exact ⟨rfl, rfl, rfl⟩
  intro pool
  rw [Ends, intern_run]
  cases known : pool.index[entry]? with
  | some index => exact ⟨le_refl pool, fun later _ knows => found (knows entry index known)⟩
  | none =>
      cases obstacle? pool.slots.size entry with
      | some error => trivial
      | none =>
          obtain ⟨grown, entered⟩ := push_le known
          exact ⟨grown, fun later _ knows => found (knows entry _ entered)⟩

theorem Operation.replays (operation : Operation) : Replays id (fun _ => ()) operation.action :=
  operation.rule intern_replays fun first next => first.bind next

end ConstantPool

namespace Build

theorem interned_replays {action : PoolM α} (replays : Replays id (fun _ => ()) action) :
    Replays contents (fun _ => ()) (interned action) := by
  intro build
  rw [ends_interned]
  refine (replays build.pool).imp ?_
  rintro value pool ⟨grown, again⟩
  refine ⟨⟨grown, le_refl build.library⟩, fun later _ knows => ?_⟩
  rw [ends_interned]
  refine (again later.pool rfl knows.1).imp ?_
  rintro found last ⟨same, rfl, _⟩
  exact ⟨same, rfl, rfl⟩

theorem traced_replays {action : TraceM α} (replays : Replays (fun _ => ()) (fun _ => ()) action) :
    Replays contents (fun _ => ()) (traced action) := by
  intro build
  rw [ends_traced]
  refine (replays build.events).imp ?_
  rintro value events ⟨_, again⟩
  refine ⟨le_refl _, fun later _ _ => ?_⟩
  rw [ends_traced]
  exact (again later.events rfl (le_refl _)).imp (fun _ _ ends => ⟨ends.1, rfl, rfl⟩)

theorem report_replays (event : Event) : Replays contents (fun _ => ()) (report event) :=
  .modify (fun _ => rfl) (fun _ _ _ => rfl)

/-- What enters a library once stays there and does not enter it again. -/
theorem entering_replays {change : Build → Build} (enter : Library → Library)
    (enters : ∀ build, (change build).contents = (build.pool, enter build.library))
    (grows : ∀ library, library ≤ enter library)
    (stays : ∀ library later, enter library ≤ later → enter later = later) :
    Replays contents (fun _ => ()) (modify change : BuildM PUnit) := by
  intro build
  rw [ends_modify, enters]
  refine ⟨⟨le_refl build.pool, grows _⟩, fun later _ knows => ?_⟩
  rw [ends_modify, enters, stays _ later.library knows.2]
  exact ⟨rfl, rfl, rfl⟩

theorem request_replays (helper : Helper) : Replays contents (fun _ => ()) (request helper) := by
  refine entering_replays (·.request helper) ?_ ?_ ?_
  · rintro ⟨pool, library, events⟩
    by_cases known : library.requests helper <;> simp [known, contents, Library.request]
  · intro library
    unfold Library.request
    split
    · exact le_refl _
    · exact ⟨by simp, List.prefix_refl _⟩
  · rintro library later ⟨more, _⟩
    have member : helper ∈ (library.request helper).requested.toList := by
      unfold Library.request Library.requests
      split <;> simp_all
    have known : later.requests helper = true := by
      simpa [Library.requests] using more.subset member
    rw [Library.request, if_pos known]

theorem register_replays (cell : Cell) : Replays contents (fun _ => ()) (register cell) := by
  refine entering_replays (·.register cell) (fun _ => rfl) ?_ ?_
  · intro library
    unfold Library.register
    split
    · exact le_refl _
    · exact ⟨List.prefix_refl _, by simp⟩
  · rintro library later ⟨_, more⟩
    have member : cell ∈ (library.register cell).cells.toList := by
      unfold Library.register Library.registers
      split <;> simp_all
    have known : later.registers cell = true := by
      simpa [Library.registers] using more.subset member
    rw [Library.register, if_pos known]

end Build

namespace Insn

theorem constant_operation {insn : Insn} {owner : String} {action : PoolM UInt16}
    (refers : insn.constantIndex? owner = some action) :
    ∃ operation : ConstantPool.Operation, action = operation.action := by
  cases insn with
  | op | branch | tableSwitch | access | increment | newArray => cases refers
  | pushFloat value => exact ⟨.single (.float value), constant_float refers⟩
  | pushInt value => exact ⟨.single (.integer value), constant_int refers⟩
  | pushText text =>
      cases refers
      exact ⟨.string text, rfl⟩
  | newDup name | newRefArray name | newMultiArray name =>
      cases refers
      exact ⟨.classRef name, rfl⟩
  | field | getCell | putCell =>
      cases refers
      exact ⟨.fieldRef _ _ _, rfl⟩
  | invoke | call =>
      cases refers
      exact ⟨.methodRef _ _ _, rfl⟩

theorem link_replays (owner : String) (insn : Insn) :
    Replays Build.contents (fun _ => ()) (insn.link owner) := by
  have announces : Replays Build.contents (fun _ => ()) insn.announce := by
    cases insn with
    | call helper => exact Build.request_replays helper
    | getCell cell | putCell cell => exact Build.register_replays cell
    | _ => exact .pure ()
  rw [link_eq]
  refine announces.bind fun _ => ?_
  cases refers : insn.constantIndex? owner with
  | none => exact .pure _
  | some action =>
      obtain ⟨operation, rfl⟩ := constant_operation refers
      exact (Build.interned_replays operation.replays).map

end Insn

namespace Buffer

theorem resolve_replays (method : String) (labels : Std.HashMap Label Nat) (patch : Patch)
    (bytes : Array UInt8) : Replays (fun _ => ()) (fun _ => ()) (resolve method labels patch bytes) := by
  have report (event : Event) : Replays (fun _ => ()) (fun _ => ()) (TraceM.report event) :=
    .modify (fun _ => rfl) (fun _ _ _ => rfl)
  unfold resolve
  split
  · split
    · refine (report _).bind fun _ => ?_
      split
      · split
        · exact .pure _
        · exact .throw _
      · exact .throw _
    · exact .throw _
  · exact .throw _

theorem resolveAll_replays (method : String) (labels : Std.HashMap Label Nat) (patches : List Patch)
    (bytes : Array UInt8) :
    Replays (fun _ => ()) (fun _ => ()) (resolveAll method labels patches bytes) := by
  induction patches generalizing bytes with
  | nil => exact .pure bytes
  | cons patch rest ih => exact (resolve_replays method labels patch bytes).bind fun patched => ih patched

theorem finish_replays (buffer : Buffer) : Replays (fun _ => ()) (fun _ => ()) buffer.finish := by
  unfold finish
  split
  · exact (Replays.throw _).bind fun _ => resolveAll_replays _ _ _ _
  · exact resolveAll_replays _ _ _ _

end Buffer

namespace Emission

theorem onBuild_replays {action : BuildM α} (replays : Replays Build.contents (fun _ => ()) action) :
    Replays contents emitter (onBuild action) := by
  intro emission
  rw [ends_onBuild]
  refine (replays emission.build).imp ?_
  rintro value build ⟨grown, again⟩
  refine ⟨grown, fun later same knows => ?_⟩
  rw [ends_onBuild]
  exact (again later.build rfl knows).imp (fun _ _ ends => ⟨ends.1, ends.2.1, same⟩)

theorem emit_replays (insn : Insn) : Replays contents emitter (emit insn) := by
  have linked (owner : String) : Replays contents emitter (onBuild (insn.link owner) >>= fun fragment =>
      modify fun emission => ⟨emission.build, emission.emitter.append fragment⟩) :=
    (onBuild_replays (insn.link_replays owner)).bind fun fragment =>
      .modify (fun _ => rfl) fun _ _ same => congrArg (Emitter.append · fragment) same
  intro emission
  unfold emit
  rw [ends_bind, ends_get]
  refine (linked emission.emitter.header.owner emission).imp ?_
  rintro value final ⟨grown, again⟩
  refine ⟨grown, fun later same knows => ?_⟩
  rw [ends_bind, ends_get, same]
  exact again later same knows

theorem define_replays (label : Label) : Replays contents emitter (define label) := by
  intro emission
  refine (define_ends label emission).mono ?_ (fun _ _ _ => trivial)
  rintro _ _ ⟨new, _, rfl⟩
  refine ⟨le_refl _, fun later same _ => (define_ends label later).mono ?_ ?_⟩
  · rintro _ _ ⟨_, _, rfl⟩
    exact ⟨rfl, rfl, by rw [same]⟩
  · rintro _ _ ⟨known, _⟩
    rw [same, new] at known
    cases known

theorem emitItem_replays (item : Item) : Replays contents emitter (emitItem item) := by
  cases item with
  | insn insn => exact emit_replays insn
  | label label => exact define_replays label
  | sourceLine line =>
      exact .modify (fun _ => rfl) fun _ _ same => congrArg (Emitter.markLine · line) same
  | request helper => exact onBuild_replays (Build.request_replays helper)

theorem emitItems_replays (items : List Item) : Replays contents emitter (emitItems items) := by
  induction items with
  | nil => exact .pure ()
  | cons first rest ih => exact (emitItem_replays first).bind fun _ => ih

end Emission

theorem Emitter.finish_replays (emitter : Emitter) (handlers : List Handler) (locals : Nat) :
    Replays Build.contents (fun _ => ()) (emitter.finish handlers locals) := by
  have row (handler : Handler) : Replays Build.contents (fun _ => ()) (emitter.handlerRow handler) := by
    have caught : Replays Build.contents (fun _ => ()) (catchIndex handler) := by
      unfold catchIndex
      cases handler.className with
      | none => exact .pure 0
      | some name => exact Build.interned_replays (ConstantPool.Operation.classRef name).replays
    rcases emitter.handlerRow_cases handler with ⟨_, row⟩ | ⟨label, _, _, row⟩
    · rw [row]
      exact caught.map
    · rw [row]
      exact caught.bind fun _ => .throw _
  exact (Replays.mapM row handlers).bind fun _ =>
    (Build.traced_replays emitter.buffer.finish_replays).bind fun _ => (Build.report_replays _).map

/-- A method that was finished is finished again, with the same code and the same tables. -/
theorem Draft.finish_replays (draft : Draft) (header : MethodHeader) :
    Replays Build.contents (fun _ => ()) (draft.finish header) := by
  have assembles : Replays Build.contents (fun _ => ()) (draft.assemble header) := by
    intro build
    rw [ends_assemble]
    refine (Emission.emitItems_replays _ _).imp ?_
    rintro _ emission ⟨grown, again⟩
    refine ⟨grown, fun later _ knows => ?_⟩
    rw [ends_assemble]
    exact (again ⟨later, Emitter.new header⟩ rfl knows).imp (fun _ _ ends => ⟨ends.2.2, ends.2.1, rfl⟩)
  exact assembles.bind fun emitter => emitter.finish_replays _ _

end BasicCompiler
