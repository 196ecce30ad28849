import BasicCompiler.Proofs.Compile.SmallPrograms

/-!
The links of a compiled class. Whatever its code refers to in the class itself is there once, and of the
helpers only those are there that its code can reach.
-/

namespace BasicCompiler

variable {part : MethodDraft} {member : MemberRef} {pool : ConstantPool} {method : MethodInfo}
  {helper : Helper} {opcode : Opcode}

namespace Insn

/-- The field or method that an instruction of the class `owner` refers to, and the opcode it does so
with. -/
def reference? (owner : String) : Insn → Option (Opcode × MemberRef)
  | field opcode member | invoke opcode member => some (opcode, member)
  | call helper => some (Opcode.invokestatic, helperRef owner helper)
  | getCell cell => some (Opcode.getstatic, cellRef owner cell)
  | putCell cell => some (Opcode.putstatic, cellRef owner cell)
  | op _ | branch _ _ | tableSwitch _ _ _ | pushFloat _ | pushInt _ | pushText _ | access _ _
  | increment _ _ | newDup _ | newArray _ | newRefArray _ | newMultiArray _ _ => none

end Insn

def Instruction.RefersTo (pool : ConstantPool) (member : MemberRef) (instruction : Instruction) : Prop :=
  ∃ index, instruction.poolIndex = some index ∧
    pool.memberAt index = .ok (member.owner, member.name, member.descriptor)

theorem ConstantPool.entry_of_memberAt {index : UInt16} {entry : Constant} {owner name descriptor : String}
    (found : pool.memberAt index = .ok (owner, name, descriptor)) (entered : pool.lookup index = .ok entry) :
    entry.tag = 9 ∨ entry.tag = 10 := by
  obtain ⟨_, _, _, _, parts, _⟩ := (memberAt_eq_ok_iff _ _ _ _ _).mp found
  rcases (memberPartsAt_eq_ok_iff _ _ _ _).mp parts with isField | isMethod
  · cases entered.symm.trans isField
    exact .inl rfl
  · cases entered.symm.trans isMethod
    exact .inr rfl

namespace Insn

variable {pool : ConstantPool} {owner : String} {target : Label → Nat} {code : Array UInt8}
  {position : Nat} {insn : Insn} {instructions : List Instruction} {instruction : Instruction}
  {member : MemberRef}

theorem Decoded.not_refers (decoded : insn.Decoded pool owner target code position instructions)
    (nothing : insn.reference? owner = none) (isPart : instruction ∈ instructions) :
    ¬ instruction.RefersTo pool member := by
  rintro ⟨index, isIndex, found⟩
  have names := (decoded.operands isPart).2 index isIndex
  have other {entry : Constant} (entered : pool.lookup index = .ok entry)
      (plain : entry.tag ≠ 9 ∧ entry.tag ≠ 10) : False :=
    (ConstantPool.entry_of_memberAt found entered).elim plain.1 plain.2
  cases insn with
  | pushFloat | pushInt => exact other names.2 ⟨nofun, nofun⟩
  | pushText =>
      obtain ⟨_, _, entered, _⟩ := names
      exact other entered ⟨nofun, nofun⟩
  | newDup | newRefArray | newMultiArray =>
      obtain ⟨_, entered, _⟩ := (ConstantPool.classNameAt_eq_ok_iff _ _ _).mp names.2
      exact other entered ⟨nofun, nofun⟩
  | field | invoke | call | getCell | putCell => cases nothing
  | _ => exact names

theorem Decoded.refers (decoded : insn.Decoded pool owner target code position instructions)
    (something : insn.reference? owner = some (opcode, member)) :
    ∃ index, pool.memberAt index = .ok (member.owner, member.name, member.descriptor) ∧
      instructions = [{ position, opcode, tail := 2, poolIndex := some index }] := by
  cases insn with
  | field | invoke | call | getCell | putCell =>
      cases something
      obtain ⟨index, named, parts⟩ := decoded
      exact ⟨index, named.2, parts⟩
  | op | branch | tableSwitch | newArray | access | increment | pushFloat | pushInt | pushText
  | newDup | newRefArray | newMultiArray => cases something

theorem Decoded.reference (decoded : insn.Decoded pool owner target code position instructions)
    (isPart : instruction ∈ instructions) (refers : instruction.RefersTo pool member) :
    insn.reference? owner = some (instruction.opcode, member) := by
  cases isReference : insn.reference? owner with
  | none => exact absurd refers (decoded.not_refers isReference isPart)
  | some reference =>
      obtain ⟨opcode, named⟩ := reference
      obtain ⟨index, found, rfl⟩ := decoded.refers isReference
      rw [List.mem_singleton] at isPart
      subst isPart
      obtain ⟨_, ⟨⟩, found'⟩ := refers
      have same := Except.ok.inj (found.symm.trans found')
      cases named
      cases member
      cases same
      rfl

end Insn

def MethodInfo.Uses (pool : ConstantPool) (method : MethodInfo) (opcode : Opcode)
    (member : MemberRef) : Prop :=
  ∃ code instructions, method.code = some code ∧ Instruction.decode code.bytes = .ok instructions ∧
    ∃ instruction ∈ instructions, instruction.opcode = opcode ∧ instruction.RefersTo pool member

theorem MethodInfo.Completes.uses_iff (completes : method.Completes pool part) :
    method.Uses pool opcode member ↔
      ∃ insn, .insn insn ∈ part.draft.items.toList ∧
        insn.reference? part.header.owner = some (opcode, member) := by
  obtain ⟨unit, ⟨⟨target, instructions, realizes⟩, _⟩, carries⟩ := completes
  obtain ⟨code, isCode, _, _, bytes, _⟩ := carries.code
  have decoded : Instruction.decode code.bytes = .ok instructions := by
    rw [bytes]
    exact realizes.decode
  constructor
  · rintro ⟨code', instructions', isCode', decoded', instruction, isInstruction, rfl, refers⟩
    cases isCode.symm.trans isCode'
    cases decoded.symm.trans decoded'
    obtain ⟨front, insn, back, _, _, parts, _, items, _, isDecoded, _, isPart⟩ :=
      realizes.laid.origin isInstruction
    exact ⟨insn, by simp [items], isDecoded.reference isPart refers⟩
  · rintro ⟨insn, isItem, isReference⟩
    obtain ⟨point, parts, isDecoded, within⟩ := realizes.laid.outcome isItem
    obtain ⟨index, found, rfl⟩ := isDecoded.refers isReference
    exact ⟨code, instructions, isCode, decoded, _, within (List.mem_singleton.mpr rfl), rfl,
      index, rfl, found⟩

namespace Insn

theorem own_reference {owner : String} {insn : Insn} (hosted : Item.Hosted (.insn insn))
    (foreign : owner ∉ hostClasses) (isReference : insn.reference? owner = some (opcode, member))
    (isOwn : member.owner = owner) :
    (∃ helper, insn = .call helper ∧ opcode = Opcode.invokestatic ∧ member = helperRef owner helper) ∨
      ∃ cell, Item.cell? (.insn insn) = some cell ∧
        (opcode = Opcode.getstatic ∨ opcode = Opcode.putstatic) ∧ member = cellRef owner cell := by
  cases insn with
  | field | invoke =>
      cases isReference
      exact absurd (isOwn ▸ hosted) foreign
  | call helper =>
      cases isReference
      exact .inl ⟨helper, rfl, rfl, rfl⟩
  | getCell cell =>
      cases isReference
      exact .inr ⟨cell, rfl, .inl rfl, rfl⟩
  | putCell cell =>
      cases isReference
      exact .inr ⟨cell, rfl, .inr rfl, rfl⟩
  | op | branch | tableSwitch | newArray | access | increment | pushFloat | pushInt | pushText
  | newDup | newRefArray | newMultiArray => cases isReference

end Insn

/-- A field goes by the name and the descriptor that it is referred to by. -/
structure FieldInfo.Named (pool : ConstantPool) (field : FieldInfo) (member : MemberRef) : Prop where
  name : pool.textAt field.nameIndex = .ok member.name
  descriptor : pool.textAt field.descriptorIndex = .ok member.descriptor

def ExactlyOne {α : Type} (kind : α → Prop) (items : List α) : Prop :=
  ∃! place : Nat, ∃ item, items[place]? = some item ∧ kind item

theorem exactlyOne_of_forall₂ {α β γ : Type} {related : α → β → Prop} {items : List α}
    {values : List β} (all : List.Forall₂ related items values) {key : α → γ}
    (distinct : (items.map key).Nodup) {item : α} (member : item ∈ items) {kind : β → Prop}
    (found : ∀ value, related item value → kind value)
    (only : ∀ other value, related other value → kind value → key other = key item) :
    ExactlyOne kind values := by
  obtain ⟨place, bound, isItem⟩ := List.getElem_of_mem member
  have same := all.length_eq
  have holds := (List.forall₂_iff_get.mp all).2
  have bound' : place < values.length := by omega
  refine ⟨place, ⟨values[place], List.getElem?_eq_getElem bound', found _ ?_⟩, ?_⟩
  · rw [← isItem]
    exact holds place bound bound'
  · rintro other ⟨value, isValue, isKind⟩
    obtain ⟨otherBound', rfl⟩ := List.getElem?_eq_some_iff.mp isValue
    have otherBound : other < items.length := by omega
    have keys := only _ _ (holds other otherBound otherBound') isKind
    rw [← isItem] at keys
    have bounds : other < (items.map key).length ∧ place < (items.map key).length := by
      simp only [List.length_map]
      omega
    have places := (distinct.get_inj_iff (i := ⟨other, bounds.1⟩) (j := ⟨place, bounds.2⟩)).mp
      (by simpa using keys)
    exact congrArg Fin.val places

namespace Helper

theorem names_distinct : ("main" :: "<clinit>" :: all.map fun helper => helper.spec.name).Nodup := by
  decide +kernel

theorem name_inj {first second : Helper} (same : first.spec.name = second.spec.name) : first = second :=
  List.inj_on_of_nodup_map names_distinct.of_cons.of_cons first.mem_all second.mem_all same

theorem names_nodup {helpers : List Helper} (distinct : helpers.Nodup) :
    ("main" :: "<clinit>" :: helpers.map fun helper => helper.spec.name).Nodup := by
  obtain ⟨noMain, others⟩ := List.nodup_cons.mp names_distinct
  have noInitializer := (List.nodup_cons.mp others).1
  have within : (helpers.map fun helper => helper.spec.name) ⊆ all.map fun helper => helper.spec.name :=
    List.map_subset _ fun helper _ => helper.mem_all
  refine List.nodup_cons.mpr ⟨fun member => noMain ?_, List.nodup_cons.mpr
    ⟨fun member => noInitializer (within member), ?_⟩⟩
  · exact List.cons_subset_cons _ within member
  · exact distinct.map_on fun _ _ _ _ => name_inj

theorem draft_links (helper : Helper) : ∀ item ∈ helper.draft.items.toList,
    item.Hosted ∧ ∀ other, item.helper? = some other → item = .insn (.call other) := by
  have all : ∀ helper ∈ all, ∀ item ∈ helper.draft.items.toList, item.Hosted ∧
      ∀ other ∈ item.helper?, item = .insn (.call other) := by decide +kernel
  exact all helper helper.mem_all

end Helper

/-- The helpers that a class can reach: those that its main method calls and those that are called by
helpers which it can reach. -/
inductive ClassFile.Reaches (file : ClassFile) (className : String) : Helper → Prop where
  | main {main : MethodInfo} {others : List MethodInfo} {helper : Helper} :
      file.methods = main :: others →
      main.Uses file.pool Opcode.invokestatic (Insn.helperRef className helper) →
      Reaches file className helper
  | inner {outer helper : Helper} {method : MethodInfo} : Reaches file className outer →
      method ∈ file.methods → method.Named file.pool (Insn.helperRef className outer) →
      method.Uses file.pool Opcode.invokestatic (Insn.helperRef className helper) →
      Reaches file className helper

namespace Program

/-- A class whose links are closed, where `body` is the main method and `helpers` are the helpers of the
class. -/
structure Linked (options : Options) (body : Body) (helpers : List Helper) (file : ClassFile) : Prop where
  /-- A method of the class that is called is there once. -/
  calls : ∀ method ∈ file.methods, ∀ member, method.Uses file.pool Opcode.invokestatic member →
    member.owner = options.className → ExactlyOne (·.Named file.pool member) file.methods
  /-- A field of the class that is read or written is there once. -/
  accesses : ∀ method ∈ file.methods, ∀ opcode ∈ [Opcode.getstatic, Opcode.putstatic], ∀ member,
    method.Uses file.pool opcode member → member.owner = options.className →
    ExactlyOne (·.Named file.pool member) file.fields
  names : file.methods.map (fun method => file.pool.textAt method.nameIndex) =
    ("main" :: "<clinit>" :: helpers.map fun helper => helper.spec.name).map .ok
  distinct : ("main" :: "<clinit>" :: helpers.map fun helper => helper.spec.name).Nodup
  /-- Helpers stand in the order of their first request, by the main method or by the helpers before. -/
  order : helpers = (Item.helpers body.draft.items.toList ++ helpers.flatMap fun helper =>
    Item.helpers helper.draft.items.toList).eraseDups
  reached : ∀ helper, helper ∈ helpers ↔ file.Reaches options.className helper
  /-- The main method handles faults exactly if there are helpers. -/
  handles : ∃ main others code, file.methods = main :: others ∧ main.code = some code ∧
    (code.handlers ≠ [] ↔ helpers ≠ [])

variable {options : Options} {data : DataTable} {body : Body} {library : Library} {file : ClassFile}

theorem drafts_cases (isPart : part ∈ drafts options data body library) :
    part = ⟨MainMethod.header options, body.draft⟩ ∨
      part = ⟨ClassInitializer.header options, ClassInitializer.draft data library.cells.toList⟩ ∨
      ∃ helper ∈ library.requested.toList, part = helper.methodDraft options.className := by
  rcases List.mem_cons.mp isPart with rfl | others
  · exact .inl rfl
  · rcases List.mem_cons.mp others with rfl | helpers
    · exact .inr (.inl rfl)
    · obtain ⟨helper, isHelper, rfl⟩ := List.mem_map.mp helpers
      exact .inr (.inr ⟨helper, isHelper, rfl⟩)

theorem drafts_owner (isPart : part ∈ drafts options data body library) :
    part.header.owner = options.className := by
  rcases drafts_cases isPart with rfl | rfl | ⟨helper, _, rfl⟩ <;> rfl

theorem drafts_names : (drafts options data body library).map (fun part => part.header.name) =
    "main" :: "<clinit>" :: library.requested.toList.map fun helper => helper.spec.name := by
  simp only [drafts, List.map_cons, List.map_map]
  rfl

namespace Assembled

variable (assembled : Assembled options data body library file)
include assembled

theorem mem_requested (isPart : part ∈ drafts options data body library)
    (needs : helper ∈ Item.helpers part.draft.items.toList) :
    helper ∈ library.requested.toList := by
  refine assembled.gains.mem_requested.mpr (.inr ?_)
  rw [Item.helpers_append, List.mem_append]
  rcases drafts_cases isPart with rfl | rfl | ⟨outer, isOuter, rfl⟩
  · exact .inl needs
  · rw [ClassInitializer.draft_helpers] at needs
    cases needs
  · obtain ⟨item, isItem, isHelper⟩ := List.mem_filterMap.mp needs
    exact .inr (List.mem_filterMap.mpr ⟨item, List.mem_flatMap.mpr ⟨outer, isOuter, isItem⟩, isHelper⟩)

theorem mem_cells (isPart : part ∈ drafts options data body library) {cell : Cell}
    (uses : cell ∈ Item.cells part.draft.items.toList) :
    cell ∈ library.cells.toList := by
  have gained (isGained : cell ∈ Item.cells (body.draft.items.toList ++
      library.requested.toList.flatMap fun helper => helper.draft.items.toList)) :
      cell ∈ library.cells.toList := assembled.gains.mem_cells.mpr (.inr isGained)
  rw [Item.cells_append, List.mem_append] at gained
  rcases drafts_cases isPart with rfl | rfl | ⟨outer, isOuter, rfl⟩
  · exact gained (.inl uses)
  · exact ClassInitializer.draft_cells data _ cell uses
  · obtain ⟨item, isItem, isCell⟩ := List.mem_filterMap.mp uses
    exact gained (.inr (List.mem_filterMap.mpr
      ⟨item, List.mem_flatMap.mpr ⟨outer, isOuter, isItem⟩, isCell⟩))

theorem names_nodup : ((drafts options data body library).map fun part => part.header.name).Nodup := by
  rw [drafts_names]
  exact Helper.names_nodup assembled.gains.distinct.requested

theorem names : file.methods.map (fun method => file.pool.textAt method.nameIndex) =
    ("main" :: "<clinit>" :: library.requested.toList.map fun helper => helper.spec.name).map .ok := by
  have named : List.Forall₂ (fun (method : MethodInfo) (part : MethodDraft) =>
      file.pool.textAt method.nameIndex = .ok part.header.name) file.methods
      (drafts options data body library) :=
    assembled.methods.flip.imp fun _ _ completes => MethodInfo.Completes.named completes |>.1
  rw [← drafts_names, List.map_map, ← List.forall₂_eq_eq_eq, List.forall₂_map_left_iff,
    List.forall₂_map_right_iff]
  exact named

theorem one_method (isPart : part ∈ drafts options data body library)
    (name : member.name = part.header.name) (descriptor : member.descriptor = part.header.descriptor) :
    ExactlyOne (·.Named file.pool member) file.methods := by
  refine exactlyOne_of_forall₂ assembled.methods assembled.names_nodup isPart ?_ ?_
  · exact fun method completes => ⟨name ▸ completes.named.1, descriptor ▸ completes.named.2⟩
  · intro other method completes named
    exact (Except.ok.inj (completes.named.1.symm.trans named.name)).trans name

theorem one_field {cell : Cell} (isCell : cell ∈ library.cells.toList)
    (isMember : member = Insn.cellRef options.className cell) :
    ExactlyOne (·.Named file.pool member) file.fields := by
  have names : (Cell.all.map Cell.name).Nodup := by decide
  have distinct : (library.cells.toList.map Cell.name).Nodup :=
    assembled.gains.distinct.cells.map_on fun first _ second _ =>
      List.inj_on_of_nodup_map names first.mem_all second.mem_all
  subst isMember
  refine exactlyOne_of_forall₂ assembled.fields distinct isCell ?_ ?_
  · exact fun field named => ⟨named.name, named.descriptor⟩
  · exact fun other field named named' => Except.ok.inj (named.name.symm.trans named'.name)

theorem completes_of_named (isHelper : helper ∈ library.requested.toList) (isMethod : method ∈ file.methods)
    (named : method.Named file.pool member) (name : member.name = helper.spec.name) :
    method.Completes file.pool (helper.methodDraft options.className) := by
  obtain ⟨part, isPart, completes⟩ := exists_of_forall₂ assembled.methods isMethod
  have isDraft : helper.methodDraft options.className ∈ drafts options data body library :=
    List.mem_cons_of_mem _ (List.mem_cons_of_mem _ (List.mem_map_of_mem isHelper))
  have same : part.header.name = (helper.methodDraft options.className).header.name :=
    (Except.ok.inj (completes.named.1.symm.trans named.name)).trans name
  rw [← List.inj_on_of_nodup_map assembled.names_nodup isPart isDraft same]
  exact completes

theorem helper_method (isHelper : helper ∈ library.requested.toList) :
    ∃ method ∈ file.methods, method.Completes file.pool (helper.methodDraft options.className) :=
  exists_of_forall₂ assembled.methods.flip
    (List.mem_cons_of_mem _ (List.mem_cons_of_mem _ (List.mem_map_of_mem isHelper)))

end Assembled

section Hosted

variable {surroundings : Surroundings} {program : Program} {through : Body} {exit rest : List Item}
  {unknown : Label}

theorem drafts_hosted (contents : MainMethod.Contents surroundings program through body exit rest unknown)
    (isPart : part ∈ drafts options data body library) {item : Item}
    (isItem : item ∈ part.draft.items.toList) : item.Hosted := by
  rcases drafts_cases isPart with rfl | rfl | ⟨helper, _, rfl⟩
  · exact contents.hosted isItem
  · exact (ClassInitializer.allows_of_mem isItem).hosted
  · exact (helper.draft_links item isItem).1

theorem uses_helper_iff (contents : MainMethod.Contents surroundings program through body exit rest unknown)
    (foreign : options.className ∉ hostClasses) (isPart : part ∈ drafts options data body library)
    (completes : method.Completes pool part) :
    method.Uses pool Opcode.invokestatic (Insn.helperRef options.className helper) ↔
      .insn (.call helper) ∈ part.draft.items.toList := by
  rw [completes.uses_iff, drafts_owner isPart]
  constructor
  · rintro ⟨insn, isItem, isReference⟩
    have hosted := drafts_hosted contents isPart isItem
    rcases Insn.own_reference hosted foreign isReference rfl with
      ⟨other, rfl, _, same⟩ | ⟨_, _, isField | isField, _⟩
    · rw [Helper.name_inj (congrArg MemberRef.name same)]
      exact isItem
    · exact absurd isField (by decide)
    · exact absurd isField (by decide)
  · exact fun isItem => ⟨_, isItem, rfl⟩

theorem Assembled.reaches_iff
    (contents : MainMethod.Contents surroundings program through body exit rest unknown)
    (foreign : options.className ∉ hostClasses)
    (assembled : Assembled options data body library file) (helper : Helper) :
    helper ∈ library.requested.toList ↔ file.Reaches options.className helper := by
  obtain ⟨main, others, isMain, _, methods⟩ := List.forall₂_cons_left_iff.mp assembled.methods
  have mainPart : ⟨MainMethod.header options, body.draft⟩ ∈ drafts options data body library :=
    List.mem_cons_self ..
  have helperPart {outer : Helper} (isOuter : outer ∈ library.requested.toList) :
      outer.methodDraft options.className ∈ drafts options data body library :=
    List.mem_cons_of_mem _ (List.mem_cons_of_mem _ (List.mem_map_of_mem isOuter))
  constructor
  · intro requested
    have needed := assembled.needed helper requested
    clear requested
    suffices both : helper ∈ library.requested.toList ∧ file.Reaches options.className helper from both.2
    induction needed with
    | root isRoot =>
        refine ⟨assembled.mem_requested mainPart isRoot, .main methods ?_⟩
        exact (uses_helper_iff contents foreign mainPart isMain).mpr (contents.calls_helper isRoot)
    | @inner outer inner _ isNeeded ih =>
        obtain ⟨isOuter, reached⟩ := ih
        obtain ⟨method, isMethod, completes⟩ := assembled.helper_method isOuter
        refine ⟨assembled.mem_requested (helperPart isOuter) isNeeded,
          .inner reached isMethod completes.named ?_⟩
        obtain ⟨item, isItem, isInner⟩ := List.mem_filterMap.mp isNeeded
        have isCall := (outer.draft_links item isItem).2 inner isInner
        exact (uses_helper_iff contents foreign (helperPart isOuter) completes).mpr (isCall ▸ isItem)
  · intro reached
    have called {part : MethodDraft} (isPart : part ∈ drafts options data body library) {other : Helper}
        (isCall : .insn (.call other) ∈ part.draft.items.toList) : other ∈ library.requested.toList :=
      assembled.mem_requested isPart (List.mem_filterMap.mpr ⟨_, isCall, rfl⟩)
    induction reached with
    | main methods' uses =>
        cases methods.symm.trans methods'
        exact called mainPart ((uses_helper_iff contents foreign mainPart isMain).mp uses)
    | inner _ isMethod named uses isOuter =>
        have completes := assembled.completes_of_named isOuter isMethod named rfl
        exact called (helperPart isOuter)
          ((uses_helper_iff contents foreign (helperPart isOuter) completes).mp uses)

theorem Assembled.handles
    (contents : MainMethod.Contents surroundings program through body exit rest unknown)
    (assembled : Assembled options data body library file) :
    ∃ main others code, file.methods = main :: others ∧ main.code = some code ∧
      (code.handlers ≠ [] ↔ library.requested.toList ≠ []) := by
  obtain ⟨main, others, isMain, _, methods⟩ := List.forall₂_cons_left_iff.mp assembled.methods
  obtain ⟨unit, ⟨⟨target, instructions, realizes⟩, _⟩, carries⟩ := isMain
  obtain ⟨code, isCode, _, _, _, rows⟩ := carries.code
  refine ⟨main, others, code, methods, isCode, not_congr ?_⟩
  have rowsLength := realizes.handlers.length_eq
  have requested : library.requested.toList = [] ↔ Item.helpers body.draft.items.toList = [] := by
    constructor
    · intro none
      refine List.eq_nil_iff_forall_not_mem.mpr fun helper isHelper => ?_
      have isRequested := assembled.mem_requested (List.mem_cons_self ..) isHelper
      rw [none] at isRequested
      cases isRequested
    · intro none
      refine List.eq_nil_iff_forall_not_mem.mpr fun helper isHelper => ?_
      have needed := assembled.needed helper isHelper
      rw [none] at needed
      clear isHelper
      induction needed with
      | root isRoot => cases isRoot
      | inner _ _ ih => exact ih
  rw [requested, rows, ← List.length_eq_zero_iff, ← rowsLength, contents.closes.handlers]
  split <;> simp_all

end Hosted

theorem Built.linked {program : Program} {lines : LineSet} (built : Built options program file lines body)
    (foreign : options.className ∉ hostClasses) : ∃ helpers, Linked options body helpers file := by
  obtain ⟨through, exit, rest, unknown, contents⟩ := built.contents
  obtain ⟨library, assembled⟩ := built.assembled
  have distinct := assembled.gains.distinct
  refine ⟨library.requested.toList, ?_, ?_, ?_, Helper.names_nodup distinct.requested, ?_,
    assembled.reaches_iff contents foreign, assembled.handles contents⟩
  · intro method isMethod member uses isOwn
    obtain ⟨part, isPart, completes⟩ := exists_of_forall₂ assembled.methods isMethod
    obtain ⟨insn, isItem, isReference⟩ := completes.uses_iff.mp uses
    rw [drafts_owner isPart] at isReference
    rcases Insn.own_reference (drafts_hosted contents isPart isItem) foreign isReference isOwn with
      ⟨helper, rfl, _, rfl⟩ | ⟨_, _, isField | isField, _⟩
    · have requested := assembled.mem_requested isPart (List.mem_filterMap.mpr ⟨_, isItem, rfl⟩)
      exact assembled.one_method
        (List.mem_cons_of_mem _ (List.mem_cons_of_mem _ (List.mem_map_of_mem requested))) rfl rfl
    · exact absurd isField (by decide)
    · exact absurd isField (by decide)
  · intro method isMethod opcode isAccess member uses isOwn
    obtain ⟨part, isPart, completes⟩ := exists_of_forall₂ assembled.methods isMethod
    obtain ⟨insn, isItem, isReference⟩ := completes.uses_iff.mp uses
    rw [drafts_owner isPart] at isReference
    rcases Insn.own_reference (drafts_hosted contents isPart isItem) foreign isReference isOwn with
      ⟨_, _, rfl, _⟩ | ⟨cell, isCell, _, isMember⟩
    · exact absurd isAccess (by decide)
    · have registered := assembled.mem_cells isPart (List.mem_filterMap.mpr ⟨_, isItem, isCell⟩)
      exact assembled.one_field registered isMember
  · exact assembled.names
  · have requested := assembled.gains.requested
    rw [Item.helpers_append, Item.helpers, Item.helpers, List.filterMap_flatMap] at requested
    exact requested

/-- A compiled class is closed under its links, unless it goes by the name of a class of the host. -/
theorem compile_links (options : Options) (program : Program) (file : ClassFile)
    (foreign : options.className ∉ hostClasses) (compiled : compile options program = .ok file) :
    ∃ lines body helpers, LineSet.scan program = .ok lines ∧
      (MainMethod.compile ⟨lines, DataTable.scan program, options.lineNumbers⟩ program).run
        (Body.empty MainMethod.descriptor) = (.ok (), body) ∧
      Linked options body helpers file := by
  obtain ⟨lines, body, built⟩ := built_of_compile compiled
  obtain ⟨helpers, linked⟩ := built.linked foreign
  exact ⟨lines, body, helpers, built.scanned, built.compiled, linked⟩

theorem menu_links :
    ∃ file, compile {} menu = .ok file ∧ "Main" ∉ hostClasses ∧
      ∃ lines body helpers, LineSet.scan menu = .ok lines ∧
        (MainMethod.compile ⟨lines, DataTable.scan menu, false⟩ menu).run
          (Body.empty MainMethod.descriptor) = (.ok (), body) ∧
        Linked {} body helpers file := by
  obtain ⟨file, compiled⟩ := menu_compiles false
  have foreign : "Main" ∉ hostClasses := by decide
  exact ⟨file, compiled, foreign, compile_links {} menu file foreign compiled⟩

end Program

end BasicCompiler
