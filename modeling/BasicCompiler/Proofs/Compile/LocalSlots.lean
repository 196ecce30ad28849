import BasicCompiler.Proofs.Compile.Checks
import BasicCompiler.Proofs.Method.SlotUses
import BasicCompiler.Proofs.Program.Locals

/-!
The slots of locals. While statements are compiled every local has the slot that its place among the
locals gives it, and the code touches slots as the statements touch locals.
-/

namespace BasicCompiler

open Draft Body

variable {holder : Local} {slot : Nat} {draft final : Draft} {usage : Usage}

namespace Initial

def loadOpcode : Initial → Opcode
  | number => Opcode.fload
  | text | null => Opcode.aload
  | int => Opcode.iload

def storeOpcode : Initial → Opcode
  | number => Opcode.fstore
  | text | null => Opcode.astore
  | int => Opcode.istore

end Initial

def Touch.opcode : Touch → Opcode
  | load holder => holder.initial.loadOpcode
  | store holder => holder.initial.storeOpcode

def Usage.use (usage : Usage) (touch : Touch) : SlotUse :=
  ⟨touch.opcode, touch.holder.slotIn usage.locals⟩

theorem VarName.spelling_inj {first second : VarName} (same : first.spelling = second.spelling) :
    first = second := by
  cases first
  cases second
  cases same
  rfl

namespace Local

def key? : Local → Option String
  | scalar name => some name.spelling
  | array name => some s!"{name.spelling}()"
  | limit _ | step _ => none

def Separate : Local → Prop
  | scalar name => ¬ ['(', ')'] <:+ name.spelling.toList
  | array _ | limit _ | step _ => True

instance : DecidablePred Separate
  | scalar name => inferInstanceAs (Decidable (¬ ['(', ')'] <:+ name.spelling.toList))
  | array _ | limit _ | step _ => .isTrue trivial

theorem key?_array (name : VarName) :
    ∃ key, (array name).key? = some key ∧ key.toList = name.spelling.toList ++ ['(', ')'] :=
  ⟨_, rfl, String.toList_append⟩

theorem key?_inj {other : Local} {key : String} (separate : holder.Separate) (separate' : other.Separate)
    (isKey : holder.key? = some key) (isKey' : other.key? = some key) : holder = other := by
  -- An array is found under its name and a pair of parentheses, which no separate variable ends with.
  have mistaken {name array : VarName} (separate : (scalar name).Separate)
      (same : (scalar name).key? = (Local.array array).key?) : False := by
    obtain ⟨key, isKey, suffix⟩ := key?_array array
    obtain rfl : name.spelling = key := Option.some.inj (same.trans isKey)
    exact separate ⟨array.spelling.toList, suffix.symm⟩
  have same := isKey.trans isKey'.symm
  cases holder with
  | scalar name =>
      cases other with
      | scalar name' => exact congrArg _ (VarName.spelling_inj (Option.some.inj same))
      | array name' => exact (mistaken separate same).elim
      | limit | step => cases isKey'
  | array name =>
      cases other with
      | scalar name' => exact (mistaken separate' same.symm).elim
      | array name' =>
          obtain ⟨first, isFirst, spelled⟩ := key?_array name
          obtain ⟨second, isSecond, spelled'⟩ := key?_array name'
          obtain rfl : first = second := Option.some.inj (isFirst.symm.trans (same.trans isSecond))
          have spellings := List.append_cancel_right (spelled.symm.trans spelled')
          exact congrArg _ (VarName.spelling_inj (String.toList_injective spellings))
      | limit | step => cases isKey'
  | limit | step => cases isKey

end Local

/-- A scope has handed out the slots of locals, one after the other. -/
structure Scope.Allots (locals : List Local) (scope : Scope) : Prop where
  next : scope.nextSlot = locals.length + 1
  initials : scope.initials.toList = (locals.zipIdx 1).map fun entry => (entry.2, entry.1.initial)
  named : ∀ {holder : Local} {key : String}, holder.key? = some key → holder.Separate →
    scope.named[key]? = if holder ∈ locals then some (holder.slotIn locals) else none

namespace Scope.Allots

variable {locals : List Local} {scope : Scope} {holder : Local}

theorem slotIn_new (new : holder ∉ locals) : holder.slotIn (locals ++ [holder]) = locals.length + 1 := by
  rw [Local.slotIn, List.idxOf_append_of_notMem new]
  simp

theorem relabel (allots : scope.Allots locals) (nextLabel : Nat) :
    Scope.Allots locals { scope with nextLabel } := ⟨allots.next, allots.initials, allots.named⟩

theorem push (allots : scope.Allots locals) (new : holder ∉ locals) {names : Std.HashMap String Nat}
    (named : ∀ {other : Local} {key : String}, other.key? = some key → other.Separate →
      names[key]? = if other = holder then some (locals.length + 1) else scope.named[key]?) :
    Scope.Allots (locals ++ [holder])
      { scope with
        nextSlot := scope.nextSlot + 1
        named := names
        initials := scope.initials.push (scope.nextSlot, holder.initial) } where
  next := by simp [allots.next]
  initials := by
    rw [Array.toList_push, List.zipIdx_append, List.map_append, allots.initials, allots.next]
    simp [Nat.add_comm]
  named := by
    intro other key isKey separate
    rw [named isKey separate]
    by_cases same : other = holder
    · rw [if_pos same, same, if_pos (by simp), slotIn_new new]
    · rw [if_neg same, allots.named isKey separate]
      by_cases known : other ∈ locals
      · rw [if_pos known, if_pos (by simp [known]), Local.slotIn_of_prefix (List.prefix_append ..) known]
      · rw [if_neg known, if_neg (by simp [known, same])]

theorem slotOf (allots : scope.Allots locals) {key : String} (isKey : holder.key? = some key)
    (separate : holder.Separate) :
    (scope.slotOf key holder.initial).2.Allots (Local.reserve locals holder) ∧
      (scope.slotOf key holder.initial).1 = holder.slotIn (Local.reserve locals holder) := by
  have found := allots.named isKey separate
  unfold Scope.slotOf
  by_cases known : holder ∈ locals
  · rw [if_pos known] at found
    rw [found, Local.reserve_of_mem known]
    exact ⟨allots, rfl⟩
  · rw [if_neg known] at found
    rw [found, Local.reserve_of_notMem known]
    refine ⟨allots.push known fun {other key'} isKey' separate' => ?_, ?_⟩
    -- The new key finds this local only, because another one with that key would be the same.
    · rw [Std.HashMap.getElem?_insert, allots.next]
      by_cases same : key = key'
      · subst same
        rw [if_pos (by simp), if_pos (Local.key?_inj separate' separate isKey' isKey)]
      · rw [if_neg (by simpa using same), if_neg]
        rintro rfl
        exact same (Option.some.inj (isKey.symm.trans isKey'))
    · rw [slotIn_new known]
      exact allots.next

theorem temporary (allots : scope.Allots locals) (unnamed : holder.key? = none) (new : holder ∉ locals) :
    (scope.temporary holder.initial).2.Allots (Local.reserve locals holder) ∧
      (scope.temporary holder.initial).1 = holder.slotIn (Local.reserve locals holder) := by
  rw [Local.reserve_of_notMem new]
  refine ⟨allots.push new fun {other key} isKey _ => ?_, ?_⟩
  · rw [if_neg]
    rintro rfl
    cases unnamed.symm.trans isKey
  · rw [slotIn_new new]
    exact allots.next

end Scope.Allots

structure Draft.Records (usage : Usage) (draft : Draft) : Prop where
  allots : draft.scope.Allots usage.locals
  uses : Item.slotUses draft.items.toList = usage.touches.map usage.use
  known : ∀ touch ∈ usage.touches, touch.holder ∈ usage.locals

/-- Between two drafts code was added that uses no slot, and no slot was handed out. -/
structure Draft.Idles (draft final : Draft) : Prop where
  scope : ∃ nextLabel, final.scope = { draft.scope with nextLabel }
  items : ∃ added, final.items.toList = draft.items.toList ++ added ∧ ∀ item ∈ added, item.slotUse? = none

theorem Draft.Idles.of_items (scope : ∃ nextLabel, final.scope = { draft.scope with nextLabel })
    (items : final.items = draft.items) : draft.Idles final :=
  ⟨scope, [], by rw [items, List.append_nil], by simp⟩

theorem Draft.Idles.trans {middle : Draft} (idles : draft.Idles middle) (idles' : middle.Idles final) :
    draft.Idles final := by
  obtain ⟨⟨label, scope⟩, added, items, unused⟩ := idles
  obtain ⟨⟨label', scope'⟩, added', items', unused'⟩ := idles'
  refine ⟨⟨label', by rw [scope', scope]⟩, added ++ added', ?_, List.forall_mem_append.mpr ⟨unused, unused'⟩⟩
  rw [items', items, List.append_assoc]

def Usage.Holds (usage : Usage) (holder : Local) (slot : Nat) : Prop :=
  holder ∈ usage.locals ∧ slot = holder.slotIn usage.locals

namespace Usage

variable {usage further : Usage}

theorem Holds.mono (holds : usage.Holds holder slot) (longer : usage.locals <+: further.locals) :
    further.Holds holder slot :=
  ⟨longer.subset holds.1, holds.2.trans (Local.slotIn_of_prefix longer holds.1).symm⟩

theorem Holds.touchAll (holds : usage.Holds holder slot) (touches : List Touch) :
    (usage.touchAll touches).Holds holder slot := holds.mono (usage.touchAll_extends touches).locals

theorem map_use (longer : usage.locals <+: further.locals) {touches : List Touch}
    (known : ∀ touch ∈ touches, touch.holder ∈ usage.locals) :
    touches.map further.use = touches.map usage.use := by
  refine List.map_congr_left fun touch member => ?_
  rw [use, use, Local.slotIn_of_prefix longer (known touch member)]

def reserve (usage : Usage) (holder : Local) : Usage :=
  { usage with locals := Local.reserve usage.locals holder }

theorem reserve_touch (usage : Usage) (touch : Touch) :
    (usage.reserve touch.holder).touch touch = usage.touch touch := by
  rw [Usage.touch, Usage.touch, reserve]
  dsimp only
  rw [Local.reserve_of_mem (Local.mem_reserve.mpr (.inr rfl))]

end Usage

namespace Draft.Records

variable {usage : Usage} {draft : Draft}

theorem rescope (records : draft.Records usage) {scope : Scope}
    (allots : scope.Allots (Local.reserve usage.locals holder)) :
    Records (usage.reserve holder) { draft with scope } where
  allots := allots
  uses := records.uses.trans (Usage.map_use (Local.prefix_reserve ..) records.known).symm
  known := fun touch member => Local.mem_reserve.mpr (.inl (records.known touch member))

theorem slotOf (records : draft.Records usage) {key : String} (isKey : holder.key? = some key)
    (separate : holder.Separate) :
    Drafts (Draft.slotOf key holder.initial) draft fun slot final =>
      final.Records (usage.reserve holder) ∧ (usage.reserve holder).Holds holder slot := by
  obtain ⟨allots, isSlot⟩ := records.allots.slotOf isKey separate
  exact ⟨records.rescope allots, Local.mem_reserve.mpr (.inr rfl), isSlot⟩

theorem temporary (records : draft.Records usage) (unnamed : holder.key? = none)
    (new : holder ∉ usage.locals) :
    Drafts (Draft.temporary holder.initial) draft fun slot final =>
      final.Records (usage.reserve holder) ∧ (usage.reserve holder).Holds holder slot := by
  obtain ⟨allots, isSlot⟩ := records.allots.temporary unnamed new
  exact ⟨records.rescope allots, Local.mem_reserve.mpr (.inr rfl), isSlot⟩

theorem access (records : draft.Records usage) (touch : Touch) {opcode : Opcode}
    (isOpcode : touch.opcode = opcode) (holds : usage.Holds touch.holder slot) :
    (draft.add (.insn (.access opcode slot))).Records (usage.touch touch) := by
  have same : (usage.touch touch).locals = usage.locals := Local.reserve_of_mem holds.1
  refine ⟨by rw [same]; exact records.allots, ?_, fun other member => ?_⟩
  · have uses : (usage.touch touch).use = usage.use := by
      funext other
      rw [Usage.use, Usage.use, same]
    rw [uses, add_items, Item.slotUses_append, records.uses, Usage.touch, List.map_append]
    simp [Item.slotUses, Item.slotUse?, Insn.slotUse?, Usage.use, isOpcode, holds.2]
  · rw [same]
    rcases List.mem_append.mp member with earlier | last
    · exact records.known other earlier
    · rw [List.mem_singleton.mp last]
      exact holds.1

theorem extend (records : draft.Records usage) (idles : draft.Idles final) :
    final.Records usage := by
  obtain ⟨⟨label, scope⟩, added, items, unused⟩ := idles
  refine ⟨?_, ?_, records.known⟩
  · rw [scope]
    exact records.allots.relabel label
  · rw [items, Item.slotUses_append, Item.slotUses_eq_nil unused, List.append_nil, records.uses]

end Draft.Records

variable {α β : Type}

def Passive (action : DraftM α) : Prop :=
  ∀ draft : Draft, Drafts action draft fun _ final => draft.Idles final

namespace Passive

theorem pure (value : α) : Passive (Pure.pure value) := fun _ => .of_items ⟨_, rfl⟩ rfl

theorem bind {first : DraftM α} {next : α → DraftM β} (passive : Passive first)
    (passive' : ∀ value, Passive (next value)) : Passive (first >>= next) := by
  intro draft
  rw [drafts_bind]
  refine (passive draft).mono fun value middle idles => ?_
  exact (passive' value middle).mono fun _ _ idles' => idles.trans idles'

theorem addItem {item : Item} (unused : item.slotUse? = none) : Passive (Draft.addItem item) :=
  fun draft => ⟨⟨_, rfl⟩, [item], draft.add_items item, by simpa using unused⟩

theorem emit {insn : Insn} (unused : insn.slotUse? = none) : Passive (Draft.emit insn) := addItem unused

theorem place (label : Label) : Passive (Draft.place label) := addItem rfl

theorem freshLabel (stem : String) : Passive (Draft.freshLabel stem) := fun _ => .of_items ⟨_, rfl⟩ rfl

end Passive

/-- Where the locals `given` have their slots, drafting touches locals, one after the other. -/
def Traces (given : List (Local × Nat)) (touches : List Touch) (action : DraftM α) : Prop :=
  ∀ (usage : Usage) (draft : Draft), draft.Records usage →
    (∀ entry ∈ given, usage.Holds entry.1 entry.2) → (∀ touch ∈ touches, touch.holder.Separate) →
    Drafts action draft fun _ final => final.Records (usage.touchAll touches)

namespace Traces

variable {given : List (Local × Nat)} {touches touches' : List Touch}

theorem bind {first : DraftM α} {next : α → DraftM β} (action : Traces given touches first)
    (action' : ∀ value, Traces given touches' (next value)) :
    Traces given (touches ++ touches') (first >>= next) := by
  intro usage draft records held separate
  obtain ⟨early, late⟩ := List.forall_mem_append.mp separate
  rw [drafts_bind]
  refine (action usage draft records held early).mono fun value middle records' => ?_
  rw [Usage.touchAll_append]
  refine action' value _ middle records' (fun entry member => ?_) late
  exact (held entry member).touchAll touches

theorem after {first : DraftM α} {next : α → DraftM β} (passive : Passive first)
    (action : ∀ value, Traces given touches (next value)) : Traces given touches (first >>= next) := by
  intro usage draft records held separate
  rw [drafts_bind]
  refine (passive draft).mono fun value middle idles => ?_
  exact action value usage middle (records.extend idles) held separate

theorem passive {action : DraftM α} (passive : Passive action) : Traces given [] action := by
  intro usage draft records _ _
  exact (passive draft).mono fun _ _ idles => records.extend idles

theorem access (touch : Touch) {opcode : Opcode} (isOpcode : touch.opcode = opcode)
    (isGiven : (touch.holder, slot) ∈ given) : Traces given [touch] (Draft.emit (.access opcode slot)) :=
  fun _ _ records held _ => records.access touch isOpcode (held _ isGiven)

end Traces

def Loop.Stands (usage : Usage) : Option (VarName × Nat) → Loop → Prop
  | some (control, loop), .counting _ counter limit step _ _ _ =>
    control.kind = .number ∧ usage.Holds (.scalar control) counter ∧ usage.Holds (.limit loop) limit ∧
      usage.Holds (.step loop) step
  | none, .conditional _ _ => True
  | _, _ => False

theorem Loop.Stands.mono {further : Usage} (longer : usage.locals <+: further.locals)
    {entry : Option (VarName × Nat)} {loop : Loop} (stands : loop.Stands usage entry) :
    loop.Stands further entry := by
  cases loop with
  | counting =>
      cases entry with
      | none => exact stands
      | some entry =>
          obtain ⟨number, counter, limit, step⟩ := stands
          exact ⟨number, counter.mono longer, limit.mono longer, step.mono longer⟩
  | conditional => cases entry <;> exact stands

/-- A main method uses slots as a usage says, and its open loops have the slots of their locals. -/
structure Body.Follows (usage : Usage) (body : Body) : Prop where
  records : body.draft.Records usage
  loops : List.Forall₂ (fun entry loop => Loop.Stands usage entry loop) usage.loops body.loops

theorem Body.Follows.redraft {body : Body} (follows : body.Follows usage) {touches : List Touch}
    (records : draft.Records (usage.touchAll touches)) :
    Body.Follows (usage.touchAll touches) { body with draft } where
  records := records
  loops := by
    rw [Usage.touchAll_loops]
    exact follows.loops.imp fun _ _ stands => stands.mono (usage.touchAll_extends touches).locals

theorem Body.Follows.reloop {further : Usage} (records : draft.Records further)
    (longer : usage.locals <+: further.locals) {entries : List (Option (VarName × Nat))} {loops : List Loop}
    (stand : List.Forall₂ (fun entry loop => Loop.Stands usage entry loop) entries loops) (count : Nat)
    (body : Body) :
    Body.Follows { further with loops := entries, count } { body with draft, loops } where
  records := ⟨records.allots, records.uses, records.known⟩
  loops := stand.imp fun _ _ stands => stands.mono longer

/-- Where the locals `given` have their slots, compiling touches locals, one after the other. -/
def Touches (given : List (Local × Nat)) (touches : List Touch) (action : BodyM α) : Prop :=
  ∀ (usage : Usage) (body : Body), body.Follows usage →
    (∀ entry ∈ given, usage.Holds entry.1 entry.2) → (∀ touch ∈ touches, touch.holder.Separate) →
    Ends action body (fun _ final => final.Follows (usage.touchAll touches)) (fun _ _ => True)

namespace Touches

variable {given : List (Local × Nat)} {touches touches' : List Touch}

theorem pure (value : α) : Touches given [] (Pure.pure value : BodyM α) :=
  fun _ _ follows _ _ => follows

theorem throw (error : CompileError) : Touches given touches (throw error : BodyM α) :=
  fun _ _ _ _ _ => trivial

theorem bind {first : BodyM α} {next : α → BodyM β} (action : Touches given touches first)
    (action' : ∀ value, Touches given touches' (next value)) :
    Touches given (touches ++ touches') (first >>= next) := by
  intro usage body follows held separate
  obtain ⟨early, late⟩ := List.forall_mem_append.mp separate
  refine (action usage body follows held early).bind fun value middle follows' => ?_
  rw [Usage.touchAll_append]
  refine action' value _ middle follows' (fun entry member => ?_) late
  exact (held entry member).touchAll touches

theorem after {first : BodyM α} {next : α → BodyM β} (action : Touches given [] first)
    (action' : ∀ value, Touches given touches (next value)) : Touches given touches (first >>= next) :=
  action.bind action'

theorem before {first : BodyM α} {next : α → BodyM β} (action : Touches given touches first)
    (action' : ∀ value, Touches given [] (next value)) : Touches given touches (first >>= next) := by
  have whole := action.bind action'
  rwa [List.append_nil] at whole

theorem lift {action : DraftM α} (traces : Traces given touches action) :
    Touches given touches (liftM action : BodyM α) := by
  intro usage body follows held separate
  rw [ends_lift]
  exact (traces usage body.draft follows.records held separate).mono fun _ _ records =>
    follows.redraft records

theorem passive {action : DraftM α} (passive : Passive action) :
    Touches given [] (liftM action : BodyM α) := lift (.passive passive)

theorem emit {insn : Insn} (unused : insn.slotUse? = none) :
    Touches given [] (liftM (Draft.emit insn) : BodyM Unit) := passive (.emit unused)

theorem place (label : Label) : Touches given [] (liftM (Draft.place label) : BodyM Unit) :=
  passive (.place label)

theorem freshLabel (stem : String) : Touches given [] (liftM (Draft.freshLabel stem) : BodyM Label) :=
  passive (.freshLabel stem)

theorem silent {action : BodyM α} (quiet : ∀ body, Ends action body
    (fun _ final => final.draft = body.draft ∧ final.loops = body.loops) (fun _ _ => True)) :
    Touches given [] action := by
  intro usage body follows _ _
  refine (quiet body).imp ?_
  rintro _ final ⟨draft, loops⟩
  exact ⟨draft ▸ follows.records, loops ▸ follows.loops⟩

theorem require (result : Except CompileError α) : Touches given [] (Body.require result) := by
  cases result with
  | ok value => exact .pure value
  | error error => exact .throw error

theorem arrayShape (name : VarName) (count : Nat) : Touches given [] (Body.arrayShape name count) := by
  refine silent fun body => (arrayShape_ends name count body).mono ?_ (fun _ _ _ => trivial)
  rintro shape _ ⟨_, _, rfl⟩
  exact ⟨rfl, rfl⟩

theorem access (touch : Touch) {opcode : Opcode} (isOpcode : touch.opcode = opcode)
    (isGiven : (touch.holder, slot) ∈ given) :
    Touches given [touch] (liftM (Draft.emit (.access opcode slot)) : BodyM Unit) :=
  lift (.access touch isOpcode isGiven)

theorem slotOf (touch : Touch) {key : String} (isKey : touch.holder.key? = some key)
    {next : Nat → BodyM α}
    (action : ∀ slot, Touches ((touch.holder, slot) :: given) (touch :: touches) (next slot)) :
    Touches given (touch :: touches) (liftM (Draft.slotOf key touch.holder.initial) >>= next) := by
  intro usage body follows held separate
  have longer : usage.locals <+: (usage.reserve touch.holder).locals := Local.prefix_reserve ..
  rw [ends_bind, ends_lift]
  refine (follows.records.slotOf isKey (separate touch (List.mem_cons_self ..))).mono ?_
  rintro slot draft ⟨records, holds⟩
  have reserved : Body.Follows (usage.reserve touch.holder) { body with draft } :=
    ⟨records, follows.loops.imp fun _ _ stands => stands.mono longer⟩
  refine (action slot _ _ reserved ?_ separate).imp (fun _ final follows' => ?_)
  · exact List.forall_mem_cons.mpr ⟨holds, fun entry member => (held entry member).mono longer⟩
  · rw [Usage.touchAll, List.foldl_cons, Usage.reserve_touch] at follows'
    exact follows'

end Touches

end BasicCompiler
