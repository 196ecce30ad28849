import BasicCompiler.Proofs.Library.Helpers
import BasicCompiler.Proofs.Method.Labels
import BasicCompiler.Proofs.Text.Spelling

/-!
What methods cost. A method that is short, whose texts are short and whose labels are all defined is
assembled if the pool has room for the constants that its instructions may need.
-/

namespace BasicCompiler

variable {cost' budget : Nat} {draft : Draft} {text : String} {header : MethodHeader}
  {allowed : String → Prop} {distinct : Prop} {σ ε α β : Type}

theorem length_le_utf8ByteSize (text : String) : text.length ≤ text.utf8ByteSize := by
  have all (characters : List Char) : characters.length ≤ (String.ofList characters).utf8ByteSize := by
    induction characters with
    | nil => exact Nat.zero_le _
    | cons first rest ih =>
        have positive := first.utf8Size_pos
        rw [String.ofList_cons, String.utf8ByteSize_append, String.utf8ByteSize_singleton,
          List.length_cons]
        omega
  have whole := all text.toList
  rwa [String.length_toList, String.ofList_toList] at whole

namespace ConstantPool

theorem brief_of_bytes (short : text.utf8ByteSize ≤ 10000) : Brief text := by
  have bytes := ModifiedUtf8.encode_length_le text
  have characters := length_le_utf8ByteSize text
  simp only [Brief, maxTextLength]
  omega

/-- A pool of a size is refused an entry for want of room, or for a text that is too long. -/
def Exceeds (allowed : String → Prop) (size : Nat) (error : ClassFileError) : Prop :=
  (error = .poolOverflow ∧ maxIndex < size) ∨
    ∃ text, allowed text ∧ ¬ Brief text ∧ error = .textTooLong (ModifiedUtf8.encode text).length

theorem Exceeds.mono {size size' : Nat} {error : ClassFileError} (exceeds : Exceeds allowed size error)
    (larger : size ≤ size') : Exceeds allowed size' error :=
  exceeds.imp (fun full => ⟨full.1, Nat.lt_of_lt_of_le full.2 larger⟩) id

end ConstantPool

/-- How much of a pool the states of a computation take up, what holds of them, and which of its errors
are those of a pool. -/
structure Ledger (σ ε : Type) where
  size : σ → Nat
  holds : σ → Prop
  limit : ε → Option ClassFileError

/-- A computation that adds at most `cost` slots to a pool, and fails by a limit of the pool only for want
of these or for an allowed text. -/
def Costs (ledger : Ledger σ ε) (allowed : String → Prop) (cost : Nat) (action : ExceptT ε (StateM σ) α) :
    Prop :=
  ∀ start, ledger.holds start → Ends action start
    (fun _ final => ledger.size final ≤ ledger.size start + cost ∧ ledger.holds final)
    fun error _ => ∀ cause, ledger.limit error = some cause →
      ConstantPool.Exceeds allowed (ledger.size start + cost) cause

namespace Costs

variable {cost : Nat} {ledger : Ledger σ ε} {action : ExceptT ε (StateM σ) α}

theorem pure (value : α) : Costs ledger allowed 0 (Pure.pure value : ExceptT ε (StateM σ) α) :=
  fun _ holds => ⟨Nat.le_refl _, holds⟩

theorem bind {first : ExceptT ε (StateM σ) α} {next : α → ExceptT ε (StateM σ) β}
    (costs : Costs ledger allowed cost first) (costs' : ∀ value, Costs ledger allowed cost' (next value)) :
    Costs ledger allowed (cost + cost') (first >>= next) := by
  intro start holds
  rw [ends_bind]
  refine (costs start holds).mono ?_ fun _ _ limits cause isLimit => (limits cause isLimit).mono (by omega)
  rintro value middle ⟨grown, holds⟩
  exact (costs' value middle holds).mono (fun _ _ grown' => ⟨by omega, grown'.2⟩)
    fun _ _ limits cause isLimit => (limits cause isLimit).mono (by omega)

theorem mono (costs : Costs ledger allowed cost action) (cheaper : cost ≤ cost') :
    Costs ledger allowed cost' action :=
  fun start holds => (costs start holds).mono (fun _ _ grown => ⟨by omega, grown.2⟩)
    fun _ _ limits cause isLimit => (limits cause isLimit).mono (by omega)

theorem map {change : α → β} (costs : Costs ledger allowed cost action) :
    Costs ledger allowed cost (do return change (← action)) :=
  costs.bind fun value => .pure (change value)

theorem mapM {action : α → ExceptT ε (StateM σ) β} {items : List α}
    (costs : ∀ item ∈ items, Costs ledger allowed cost (action item)) :
    Costs ledger allowed (items.length * cost) (items.mapM action) := by
  induction items with
  | nil => exact (pure []).mono (Nat.zero_le _)
  | cons first rest ih =>
      obtain ⟨head, tail⟩ := List.forall_mem_cons.mp costs
      rw [List.mapM_cons]
      refine (head.bind fun value => (ih tail).map).mono ?_
      rw [List.length_cons, Nat.add_mul]
      omega

end Costs

namespace ConstantPool

def ledger : Ledger ConstantPool ClassFileError := ⟨size, fun _ => True, some⟩

theorem intern_costs {entry : Constant} (narrow : entry.width = 1)
    (blamed : ∀ text, entry = .utf8 text → ¬ Brief text → allowed text) :
    Costs ledger allowed 1 (intern entry) := by
  intro pool _
  rw [Ends, intern_run]
  cases pool.index[entry]? with
  | some index => exact ⟨Nat.le_succ _, trivial⟩
  | none =>
      cases refused : obstacle? pool.slots.size entry with
      | none =>
          have grown : (pool.push entry).size = pool.size + 1 := by
            simp only [size, push, Array.size_append, slotsOf_size, narrow]
          exact ⟨Nat.le_of_eq grown, trivial⟩
      | some error =>
          rintro _ ⟨⟩
          rcases (obstacle?_eq_some_iff _ _ _).mp refused with ⟨text, isText, long, isError⟩ | ⟨_, full, isError⟩
          · exact .inr ⟨text, blamed text isText long, long, isError⟩
          · exact .inl ⟨isError, narrow ▸ full⟩

theorem utf8_costs (blamed : ¬ Brief text → allowed text) : Costs ledger allowed 1 (utf8 text) :=
  intern_costs rfl fun _ same => Constant.utf8.inj same ▸ blamed

theorem classRef_costs {name : String} (blamed : ¬ Brief name → allowed name) :
    Costs ledger allowed 2 (classRef name) :=
  (utf8_costs blamed).bind fun _ => intern_costs rfl (by simp)

theorem string_costs (blamed : ¬ Brief text → allowed text) : Costs ledger allowed 2 (string text) :=
  (utf8_costs blamed).bind fun _ => intern_costs rfl (by simp)

theorem memberRef_costs {owner name descriptor : String}
    (blamed : ∀ text ∈ [owner, name, descriptor], ¬ Brief text → allowed text)
    (entry : UInt16 → UInt16 → Constant)
    (isMember : ∀ owner parts, (entry owner parts).width = 1 ∧ ∀ text, entry owner parts ≠ .utf8 text) :
    Costs ledger allowed 6 (do
      let owner ← classRef owner
      let parts ← nameAndType name descriptor
      intern (entry owner parts)) := by
  have named : Costs ledger allowed 3 (nameAndType name descriptor) :=
    (utf8_costs (blamed _ (by simp))).bind fun _ => (utf8_costs (blamed _ (by simp))).bind fun _ =>
      intern_costs rfl (by simp)
  exact (classRef_costs (blamed _ (by simp))).bind fun owner => named.bind fun parts =>
    intern_costs (isMember owner parts).1 fun text same => absurd same ((isMember owner parts).2 text)

end ConstantPool

open ConstantPool (Brief)

theorem Costs.succeeds {cost : Nat} {action : PoolM α}
    (costs : Costs ConstantPool.ledger (fun _ => False) cost action)
    {pool : ConstantPool} (room : pool.size + (cost + budget) ≤ ConstantPool.maxIndex) :
    Ends action pool (fun _ final => final.size + budget ≤ ConstantPool.maxIndex) fun _ _ => False := by
  refine (costs pool trivial).mono (fun _ final grown => ?_) fun error _ limits => ?_
  · have := grown.1
    simp only [ConstantPool.ledger] at this
    omega
  · rcases limits error rfl with ⟨_, full⟩ | ⟨_, never, _⟩
    · simp only [ConstantPool.ledger] at full
      omega
    · exact never

theorem Helper.names_brief (helper : Helper) : Brief helper.spec.name ∧ Brief helper.spec.descriptor := by
  have all : ∀ helper ∈ Helper.all,
      helper.spec.name.utf8ByteSize ≤ 10000 ∧ helper.spec.descriptor.utf8ByteSize ≤ 10000 := by
    decide +kernel
  obtain ⟨name, descriptor⟩ := all helper helper.mem_all
  exact ⟨ConstantPool.brief_of_bytes name, ConstantPool.brief_of_bytes descriptor⟩

theorem Cell.mem_all (cell : Cell) : cell ∈ all := by cases cell <;> decide

theorem Cell.names_brief (cell : Cell) : Brief cell.name ∧ Brief cell.descriptor := by
  have all : ∀ cell ∈ Cell.all,
      cell.name.utf8ByteSize ≤ 10000 ∧ cell.descriptor.utf8ByteSize ≤ 10000 := by
    decide +kernel
  obtain ⟨name, descriptor⟩ := all cell cell.mem_all
  exact ⟨ConstantPool.brief_of_bytes name, ConstantPool.brief_of_bytes descriptor⟩

/-- A class under construction whose pool has `budget` slots left and whose cells are distinct. -/
structure Build.Spares (build : Build) (budget : Nat) : Prop where
  pool : build.pool.size + budget ≤ ConstantPool.maxIndex
  cells : build.library.cells.toList.Nodup

theorem Build.Spares.mono {build : Build} {less : Nat} (spares : build.Spares budget)
    (fewer : less ≤ budget) : build.Spares less :=
  ⟨Nat.le_trans (Nat.add_le_add_left fewer _) spares.pool, spares.cells⟩

/-- A class under construction, of whose cells it may be said that they are distinct. -/
def Build.ledger (distinct : Prop) : Ledger Build CompileError where
  size build := build.pool.size
  holds build := distinct → build.library.cells.toList.Nodup
  limit
    | .classFile cause => some cause
    | _ => none

namespace Costs

open Build (ledger)

variable {cost : Nat}

theorem affords {action : BuildM α} (costs : Costs (ledger True) (fun _ => False) cost action)
    {build : Build} (spares : build.Spares (cost + budget)) :
    Ends action build (fun _ final => final.Spares budget) fun error _ => ∀ cause, error ≠ .classFile cause := by
  have room := spares.pool
  refine (costs build fun _ => spares.cells).mono (fun _ final ⟨grown, cells⟩ => ⟨?_, cells trivial⟩) ?_
  · simp only [ledger] at grown
    omega
  · rintro _ _ limits cause rfl
    rcases limits cause rfl with ⟨_, full⟩ | ⟨_, never, _⟩
    · simp only [ledger] at full
      omega
    · exact never

theorem interned {action : PoolM α} (costs : Costs ConstantPool.ledger allowed cost action) :
    Costs (ledger distinct) allowed cost (Build.interned action) := by
  intro build cells
  rw [Build.ends_interned]
  exact (costs build.pool trivial).mono (fun _ _ grown => ⟨grown.1, cells⟩) fun _ _ limits => limits

theorem stops (error : AssemblyError) :
    Costs (ledger distinct) allowed 0 (throw (.assembly error) : BuildM α) := fun _ _ => nofun

theorem traced (action : TraceM α) : Costs (ledger distinct) allowed 0 (Build.traced action) := by
  intro build cells
  rw [Build.ends_traced]
  exact (ends_any action build.events).mono (fun _ _ _ => ⟨Nat.le_refl _, cells⟩) fun _ _ _ => nofun

theorem report (event : Event) : Costs (ledger distinct) allowed 0 (Build.report event) :=
  fun _ cells => ⟨Nat.le_refl _, cells⟩

theorem request (helper : Helper) : Costs (ledger distinct) allowed 0 (Build.request helper) := by
  rintro ⟨pool, library, events⟩ cells
  have kept : (library.request helper).cells = library.cells := by
    unfold Library.request
    split <;> rfl
  unfold Build.request
  rw [ends_modify]
  by_cases known : library.requests helper
  · simpa only [known, if_true] using ⟨Nat.le_refl _, cells⟩
  · simpa only [known, Bool.false_eq_true, if_false, ledger, kept] using ⟨Nat.le_refl _, cells⟩

theorem register (cell : Cell) : Costs (ledger distinct) allowed 0 (Build.register cell) := by
  refine fun build cells => ⟨Nat.le_refl _, fun isDistinct => ?_⟩
  change (build.library.register cell).cells.toList.Nodup
  unfold Library.register Library.registers
  split
  · exact cells isDistinct
  · rename_i absent
    rw [Array.toList_push]
    refine List.nodup_append.mpr ⟨cells isDistinct, by simp, ?_⟩
    rintro other isCell _ isNew rfl
    rw [List.mem_singleton.mp isNew] at isCell
    exact absent (by simpa using isCell)

end Costs

namespace Insn

def cost : Insn → Nat
  | op _ | branch _ _ | tableSwitch _ _ _ | access _ _ | increment _ _ | newArray _ => 0
  | pushFloat _ | pushInt _ => 1
  | pushText _ | newDup _ | newRefArray _ | newMultiArray _ _ => 2
  | field _ _ | invoke _ _ | call _ | getCell _ | putCell _ => 6

def texts : Insn → List String
  | pushText text => [text]
  | field _ member | invoke _ member => [member.owner, member.name, member.descriptor]
  | newDup className | newRefArray className | newMultiArray className _ => [className]
  | op _ | branch _ _ | tableSwitch _ _ _ | pushFloat _ | pushInt _ | access _ _ | increment _ _
  | newArray _ | call _ | getCell _ | putCell _ => []

theorem cost_le_room (insn : Insn) : insn.cost ≤ insn.room := by
  cases insn <;> simp [cost, room]

theorem announce_costs (insn : Insn) : Costs (Build.ledger distinct) allowed 0 insn.announce := by
  cases insn with
  | call helper => exact .request helper
  | getCell cell | putCell cell => exact .register cell
  | _ => exact .pure ()

theorem constant_costs {owner : String} {insn : Insn} {action : PoolM UInt16}
    (isOwner : ¬ Brief owner → allowed owner) (blamed : ∀ text ∈ insn.texts, ¬ Brief text → allowed text)
    (refers : insn.constantIndex? owner = some action) :
    Costs ConstantPool.ledger allowed insn.cost action := by
  have own {name descriptor : String} (brief : Brief name ∧ Brief descriptor) :
      ∀ text ∈ [owner, name, descriptor], ¬ Brief text → allowed text := by
    simp only [List.forall_mem_cons]
    exact ⟨isOwner, fun long => absurd brief.1 long, fun long => absurd brief.2 long, nofun⟩
  cases insn with
  | op | branch | tableSwitch | access | increment | newArray => cases refers
  | pushFloat value =>
      obtain rfl := constant_float refers
      exact ConstantPool.intern_costs rfl (by simp)
  | pushInt value =>
      obtain rfl := constant_int refers
      exact ConstantPool.intern_costs rfl (by simp)
  | pushText text =>
      cases refers
      exact ConstantPool.string_costs (blamed text (by simp [texts]))
  | field opcode member =>
      cases refers
      exact ConstantPool.memberRef_costs blamed .fieldRef fun _ _ => ⟨rfl, nofun⟩
  | invoke opcode member =>
      cases refers
      exact ConstantPool.memberRef_costs blamed .methodRef fun _ _ => ⟨rfl, nofun⟩
  | newDup name | newRefArray name | newMultiArray name _ =>
      cases refers
      exact ConstantPool.classRef_costs (blamed name (by simp [texts]))
  | call helper =>
      cases refers
      exact ConstantPool.memberRef_costs (own helper.names_brief) .methodRef fun _ _ => ⟨rfl, nofun⟩
  | getCell cell | putCell cell =>
      cases refers
      exact ConstantPool.memberRef_costs (own cell.names_brief) .fieldRef fun _ _ => ⟨rfl, nofun⟩

theorem link_costs {owner : String} {insn : Insn} (isOwner : ¬ Brief owner → allowed owner)
    (blamed : ∀ text ∈ insn.texts, ¬ Brief text → allowed text) :
    Costs (Build.ledger distinct) allowed insn.cost (insn.link owner) := by
  rw [link_eq, ← Nat.zero_add insn.cost]
  refine insn.announce_costs.bind fun _ => ?_
  cases refers : insn.constantIndex? owner with
  | none => exact (Costs.pure _).mono (Nat.zero_le _)
  | some action => exact (Costs.interned (constant_costs isOwner blamed refers)).map

end Insn

def Item.Brief (items : List Item) : Prop :=
  ∀ insn, .insn insn ∈ items → ∀ text ∈ insn.texts, ConstantPool.Brief text

namespace Emission

def ledger (distinct : Prop) (owner : String) : Ledger Emission CompileError where
  size emission := emission.build.pool.size
  holds emission := emission.emitter.header.owner = owner ∧ (Build.ledger distinct).holds emission.build
  limit := (Build.ledger distinct).limit

variable {owner : String}

theorem onBuild_costs {cost : Nat} {action : BuildM α} (costs : Costs (Build.ledger distinct) allowed cost action) :
    Costs (ledger distinct owner) allowed cost (onBuild action) := by
  rintro emission ⟨owned, cells⟩
  rw [ends_onBuild]
  exact (costs emission.build cells).mono (fun _ _ grown => ⟨grown.1, owned, grown.2⟩) fun _ _ limits => limits

theorem emitItem_costs (isOwner : ¬ Brief owner → allowed owner) {item : Item}
    (blamed : ∀ insn, item = .insn insn → ∀ text ∈ insn.texts, ¬ Brief text → allowed text) :
    Costs (ledger distinct owner) allowed (Item.total Insn.cost [item]) (emitItem item) := by
  cases item with
  | insn insn =>
      rintro emission ⟨owned, cells⟩
      rw [emitItem, emit, ends_bind, ends_get, ends_bind, owned]
      exact (onBuild_costs (Insn.link_costs isOwner (blamed insn rfl)) emission ⟨owned, cells⟩).imp
        fun _ _ grown => grown
  | label label =>
      rintro emission ⟨owned, cells⟩
      refine (define_ends label emission).mono ?_ ?_
      · rintro _ final ⟨_, events, rfl⟩
        exact ⟨Nat.le_refl _, owned, cells⟩
      · rintro _ _ ⟨_, rfl, _⟩
        rintro _ ⟨⟩
  | sourceLine line => exact fun _ holds => ⟨Nat.le_refl _, holds⟩
  | request helper => exact onBuild_costs (.request helper)

theorem emitItems_costs (isOwner : ¬ Brief owner → allowed owner) {items : List Item}
    (blamed : ∀ insn, .insn insn ∈ items → ∀ text ∈ insn.texts, ¬ Brief text → allowed text) :
    Costs (ledger distinct owner) allowed (Item.total Insn.cost items) (emitItems items) := by
  induction items with
  | nil => exact .pure ()
  | cons first rest ih =>
      have split := Item.total_append Insn.cost [first] rest
      rw [List.singleton_append] at split
      rw [split]
      refine (emitItem_costs isOwner ?_).bind fun _ => ih fun insn member =>
        blamed insn (List.mem_cons_of_mem _ member)
      rintro insn rfl
      exact blamed insn (List.mem_cons_self ..)

end Emission

namespace Draft

def cost (draft : Draft) : Nat := Item.total Insn.cost draft.items.toList + draft.handlers.size * 2

structure Brief (draft : Draft) : Prop where
  items : Item.Brief draft.items.toList
  handlers : ∀ handler ∈ draft.handlers.toList, ∀ name, handler.className = some name →
    ConstantPool.Brief name

end Draft

namespace Emitter

theorem handlerRow_costs (emitter : Emitter) {handler : Handler}
    (blamed : ∀ name, handler.className = some name → ¬ Brief name → allowed name) :
    Costs (Build.ledger distinct) allowed 2 (emitter.handlerRow handler) := by
  have caught : Costs (Build.ledger distinct) allowed 2 (catchIndex handler) := by
    unfold catchIndex
    cases className : handler.className with
    | none => exact Costs.mono (.pure 0) (Nat.zero_le _)
    | some name => exact .interned (ConstantPool.classRef_costs (blamed name className))
  rcases emitter.handlerRow_cases handler with ⟨_, row⟩ | ⟨label, _, _, row⟩
  · rw [row]
    exact caught.map
  · rw [row]
    exact caught.bind fun _ => .stops _

end Emitter

namespace Draft

theorem assemble_costs (isOwner : ¬ ConstantPool.Brief header.owner → allowed header.owner)
    (items : ∀ insn, .insn insn ∈ draft.items.toList → ∀ text ∈ insn.texts,
      ¬ ConstantPool.Brief text → allowed text) :
    Costs (Build.ledger distinct) allowed (Item.total Insn.cost draft.items.toList) (draft.assemble header) := by
  intro build cells
  rw [ends_assemble]
  exact (Emission.emitItems_costs isOwner items ⟨build, Emitter.new header⟩ ⟨rfl, cells⟩).imp
    fun _ _ grown => ⟨grown.1, grown.2.2⟩

theorem finish_costs (isOwner : ¬ ConstantPool.Brief header.owner → allowed header.owner)
    (items : ∀ insn, .insn insn ∈ draft.items.toList → ∀ text ∈ insn.texts,
      ¬ ConstantPool.Brief text → allowed text)
    (handlers : ∀ handler ∈ draft.handlers.toList, ∀ name, handler.className = some name →
      ¬ ConstantPool.Brief name → allowed name) :
    Costs (Build.ledger distinct) allowed draft.cost (draft.finish header) := by
  rw [cost, ← Array.length_toList]
  exact (assemble_costs isOwner items).bind fun emitter =>
    (Costs.mapM fun handler member => emitter.handlerRow_costs (handlers handler member)).bind fun _ =>
      (Costs.traced _).bind fun _ => (Costs.report _).bind fun _ => .pure _

structure Fit (draft : Draft) : Prop where
  shaped : ∀ insn, .insn insn ∈ draft.items.toList → insn.Shaped
  resolved : draft.Resolved
  short : Item.total Insn.room draft.items.toList ≤ 32767
  brief : draft.Brief

theorem Fit.limited (fit : draft.Fit) {method : String} {error : CompileError}
    (refused : draft.Refused method error) : ∃ cause, error = .classFile cause := by
  have short := fit.short
  rcases refused with limit | ⟨_, _, long⟩ | ⟨_, _, long⟩ | ⟨_, _, repeated⟩ |
    ⟨label, refers, _, undefined⟩
  · exact limit
  · omega
  · omega
  · exact absurd fit.resolved.distinct repeated
  · exact absurd (fit.resolved.defined label refers) undefined

theorem Fit.finish_succeeds (fit : draft.Fit) (isBrief : ConstantPool.Brief header.owner) {build : Build}
    (sound : build.pool.Sound) (spares : build.Spares (draft.cost + budget)) :
    Ends (draft.finish header) build
      (fun unit final => final.pool.Sound ∧ final.Spares budget ∧ unit.header = header)
      (fun _ _ => False) := by
  have costs : Costs (Build.ledger True) (fun _ => False) draft.cost (draft.finish header) :=
    finish_costs (absurd isBrief) (fun insn member text isText => absurd (fit.brief.items insn member text isText))
      fun handler member name isName => absurd (fit.brief.handlers handler member name isName)
  refine ((draft.finish_ends header sound.indexed fit.shaped).and (costs.affords spares)).mono ?_ ?_
  · rintro unit final ⟨⟨grown, _, _, realizes⟩, spares⟩
    exact ⟨grown.sound sound, spares, realizes.headed⟩
  · rintro error _ ⟨refused, notLimit⟩
    obtain ⟨cause, isLimit⟩ := fit.limited refused
    exact notLimit cause isLimit

end Draft

end BasicCompiler
