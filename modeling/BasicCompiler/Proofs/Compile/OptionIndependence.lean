import BasicCompiler.Proofs.ClassFile.References
import BasicCompiler.Proofs.Compile.LineMarks
import BasicCompiler.Proofs.Compile.SmallPrograms

/-!
What the options have no part in. Two classes of a program that have the same name have the same methods
with the same code, and the same fields; their pools have the same constants wherever the code or an
exception table names one.
-/

namespace BasicCompiler

/-- The indices in an entry. -/
def Constant.references (entry : Constant) : List UInt16 := entry.needs.map Prod.fst

namespace ConstantPool

/-- Two pools have the same constant at an index, made of the same constants. -/
inductive Agree (pool pool' : ConstantPool) : UInt16 → Prop where
  | made {index : UInt16} {entry : Constant} : pool.lookup index = .ok entry →
      pool'.lookup index = .ok entry → (∀ part ∈ entry.references, Agree pool pool' part) →
      Agree pool pool' index

def Whole (pool : ConstantPool) (index : UInt16) : Prop := Agree pool pool index

theorem Whole.agree {shared pool pool' : ConstantPool} {index : UInt16} (whole : shared.Whole index)
    (grown : shared.Extends pool) (grown' : shared.Extends pool') : pool.Agree pool' index := by
  induction whole with
  | made found _ _ ih => exact .made (grown.kept found) (grown'.kept found) ih

variable {pool : ConstantPool} {index : UInt16}

theorem whole_of_lookup {entry : Constant} (found : pool.lookup index = .ok entry)
    (parts : ∀ part ∈ entry.references, pool.Whole part) : pool.Whole index :=
  .made found found parts

theorem whole_of_text {text : String} (found : pool.textAt index = .ok text) : pool.Whole index :=
  whole_of_lookup ((textAt_eq_ok_iff _ _ _).mp found) (by simp [Constant.references, Constant.needs])

theorem whole_of_class {name : String} (found : pool.classNameAt index = .ok name) : pool.Whole index := by
  obtain ⟨text, isClass, named⟩ := (classNameAt_eq_ok_iff _ _ _).mp found
  have text := whole_of_text ((textAt_eq_ok_iff _ _ _).mpr named)
  exact whole_of_lookup isClass (by simpa [Constant.references, Constant.needs] using text)

theorem whole_of_member {owner name descriptor : String}
    (found : pool.memberAt index = .ok (owner, name, descriptor)) : pool.Whole index := by
  obtain ⟨first, second, nameText, descriptorText, parts, both, owned, named, described⟩ :=
    (memberAt_eq_ok_iff _ _ _ _ _).mp found
  have owner := whole_of_class owned
  have pair : pool.Whole second :=
    whole_of_lookup both
      (by simp [Constant.references, Constant.needs, whole_of_text named, whole_of_text described])
  rcases (memberPartsAt_eq_ok_iff _ _ _ _).mp parts with isField | isMethod
  · exact whole_of_lookup isField (by simp [Constant.references, Constant.needs, owner, pair])
  · exact whole_of_lookup isMethod (by simp [Constant.references, Constant.needs, owner, pair])

def AgreeIn (pool pool' : ConstantPool) (instructions : List Instruction) : Prop :=
  ∀ instruction ∈ instructions, ∀ index, instruction.poolIndex = some index → pool.Agree pool' index

/-- Two pools have the same constants wherever the code or the exception table of a method names one. -/
structure AgreeOn (pool pool' : ConstantPool) (code : Array UInt8) (handlers : List HandlerRow) : Prop where
  operands : ∃ instructions, Instruction.decode code = .ok instructions ∧ pool.AgreeIn pool' instructions
  catches : ∀ row ∈ handlers, pool.Agree pool' row.catchType

theorem AgreeOn.extended {shared pool pool' : ConstantPool} {code : Array UInt8}
    {handlers : List HandlerRow} (whole : shared.AgreeOn shared code handlers)
    (grown : shared.Extends pool) (grown' : shared.Extends pool') : pool.AgreeOn pool' code handlers := by
  obtain ⟨⟨instructions, decoded, operands⟩, catches⟩ := whole
  refine ⟨⟨instructions, decoded, fun instruction member index isIndex => ?_⟩, fun row isRow => ?_⟩
  · exact Whole.agree (operands instruction member index isIndex) grown grown'
  · exact Whole.agree (catches row isRow) grown grown'

end ConstantPool

namespace Insn

variable {pool : ConstantPool} {owner : String} {target : Label → Nat} {code : Array UInt8}
  {position : Nat} {instructions : List Instruction}

theorem Decoded.whole {insn : Insn} (decoded : insn.Decoded pool owner target code position instructions) :
    pool.AgreeIn pool instructions := by
  intro instruction isPart index isIndex
  have names := (decoded.operands isPart).2 index isIndex
  cases insn with
  | pushFloat | pushInt =>
      exact ConstantPool.whole_of_lookup names.2 (by simp [Constant.references, Constant.needs])
  | pushText =>
      obtain ⟨_, content, found, isText⟩ := names
      exact ConstantPool.whole_of_lookup found
        (by simpa [Constant.references, Constant.needs] using ConstantPool.whole_of_text isText)
  | newDup | newRefArray | newMultiArray => exact ConstantPool.whole_of_class names.2
  | field | invoke | call | getCell | putCell => exact ConstantPool.whole_of_member names.2.2
  | op | branch | tableSwitch | access | increment | newArray => exact names.elim

end Insn

theorem Laid.whole {pool : ConstantPool} {owner : String} {target : Label → Nat} {code : Array UInt8}
    {position stop : Nat} {items : List Item} {instructions : List Instruction}
    (laid : Laid pool owner target code position items instructions stop) :
    pool.AgreeIn pool instructions := by
  intro instruction member
  obtain ⟨_, _, _, _, _, _, _, _, _, decoded, _, isPart⟩ := laid.origin member
  exact decoded.whole instruction isPart

theorem MethodUnit.Finishes.agreeOn {pool : ConstantPool} {draft : Draft} {header : MethodHeader}
    {unit : MethodUnit} {frame : Frame} (finishes : unit.Finishes pool draft header)
    (certified : draft.Certified frame) : pool.AgreeOn pool unit.code unit.handlers := by
  obtain ⟨⟨target, instructions, realizes⟩, _⟩ := finishes
  refine ⟨⟨instructions, realizes.decode, realizes.laid.whole⟩, ?_⟩
  intro row isRow
  obtain ⟨handler, isHandler, _, stands⟩ := realizes.handler_of_row isRow
  obtain ⟨name, isName⟩ := Option.ne_none_iff_exists'.mp (certified.handled handler isHandler).1
  exact ConstantPool.whole_of_class (stands.catches name isName)

/-- Two codes are the same where they are run: they may differ in the stack that they ask for and in
their source lines. -/
structure CodeAttribute.Agrees (pool pool' : ConstantPool) (code code' : CodeAttribute) : Prop where
  bytes : code.bytes = code'.bytes
  handlers : code.handlers = code'.handlers
  locals : code.maxLocals = code'.maxLocals
  constants : pool.AgreeOn pool' code.bytes code.handlers

/-- Two methods have the same name and descriptor and run the same code. -/
structure MethodInfo.Agrees (pool pool' : ConstantPool) (method method' : MethodInfo) : Prop where
  name : ∃ name, pool.textAt method.nameIndex = .ok name ∧ pool'.textAt method'.nameIndex = .ok name
  descriptor : ∃ descriptor, pool.textAt method.descriptorIndex = .ok descriptor ∧
    pool'.textAt method'.descriptorIndex = .ok descriptor
  code : ∃ code code', method.code = some code ∧ method'.code = some code' ∧ code.Agrees pool pool' code'

structure FieldInfo.Agrees (pool pool' : ConstantPool) (field field' : FieldInfo) : Prop where
  name : ∃ name, pool.textAt field.nameIndex = .ok name ∧ pool'.textAt field'.nameIndex = .ok name
  descriptor : ∃ descriptor, pool.textAt field.descriptorIndex = .ok descriptor ∧
    pool'.textAt field'.descriptorIndex = .ok descriptor

theorem MethodInfo.Carries.agrees {pool pool' : ConstantPool} {unit unit' : MethodUnit}
    {method method' : MethodInfo} (carries : method.Carries pool unit)
    (carries' : method'.Carries pool' unit') (same : unit.plain = unit'.plain)
    (constants : pool.AgreeOn pool' unit.code unit.handlers) : method.Agrees pool pool' method' := by
  obtain ⟨code, isCode, _, locals, bytes, handlers⟩ := carries.code
  obtain ⟨code', isCode', _, locals', bytes', handlers'⟩ := carries'.code
  have sameName : unit.header.name = unit'.header.name := congrArg (·.header.name) same
  have sameDescriptor : unit.header.descriptor = unit'.header.descriptor :=
    congrArg (·.header.descriptor) same
  refine ⟨⟨_, carries.name, sameName ▸ carries'.name⟩,
    ⟨_, carries.descriptor, sameDescriptor ▸ carries'.descriptor⟩,
    code, code', isCode, isCode', ?_, ?_, ?_, ?_⟩
  · rw [bytes, bytes']
    exact congrArg (·.code) same
  · rw [handlers, handlers']
    exact congrArg (·.handlers) same
  · rw [locals, locals']
    exact congrArg (·.maxLocals) same
  · rw [bytes, handlers]
    exact constants

def Options.plain (options : Options) : Options := { className := options.className, maxStack := 0 }

theorem MainMethod.build_plain (options : Options) (lines : LineSet) (data : DataTable)
    (program : Program) :
    MainMethod.build options.plain ⟨lines, data, false⟩ program =
      MethodUnit.plain <$> MainMethod.build options ⟨lines, data, options.lineNumbers⟩ program := by
  have unmarks := compile_unmarks lines data options.lineNumbers program (Body.empty descriptor)
  have start : (Body.empty descriptor).unmarked = Body.empty descriptor := rfl
  have headed : header options.plain = (header options).plain := rfl
  rw [start] at unmarks
  unfold MainMethod.build
  rw [unmarks, headed]
  rcases (compile ⟨lines, data, options.lineNumbers⟩ program).run (Body.empty descriptor) with
    ⟨error | _, body⟩
  · change (body.draft.unmarked.assemble (header options).plain >>= fun _ => throw error) =
      MethodUnit.plain <$> (body.draft.assemble (header options) >>= fun _ => throw error)
    rw [Draft.assemble_plain, map_bind, bind_map_left]
    rfl
  · exact body.draft.finish_plain (header options)

/-- The methods of a class without the stack bound and the source lines of its main method. -/
def ClassUnits.plain (units : ClassUnits) : ClassUnits := { units with main := units.main.plain }

theorem ClassUnits.all_plain {units units' : ClassUnits} (same : units.plain = units'.plain) :
    List.Forall₂ (fun unit unit' => MethodUnit.plain unit = MethodUnit.plain unit') units.all units'.all := by
  obtain ⟨main, initializer, helpers⟩ := units
  obtain ⟨main', initializer', helpers'⟩ := units'
  obtain ⟨sameMain, rfl, rfl⟩ := ClassUnits.mk.inj same
  exact .cons sameMain (.cons rfl (List.forall₂_same.mpr fun _ _ => rfl))

namespace Program

theorem units_plain (options : Options) (program : Program) :
    units options.plain program = ClassUnits.plain <$> units options program := by
  have initializer (data : DataTable) :
      ClassInitializer.build options.plain data = ClassInitializer.build options data := rfl
  have className : options.plain.className = options.className := rfl
  have unmarked : options.plain.lineNumbers = false := rfl
  unfold units
  rw [className, unmarked]
  cases LineSet.scan program with
  | error error => rfl
  | ok lines =>
      simp only [MainMethod.build_plain, initializer, map_bind, bind_map_left, map_pure]
      rfl

theorem Completed.agreeOn {options : Options} {program : Program} {units : ClassUnits} {build : Build}
    {lines : LineSet} {body : Body} (completed : Completed options program units build lines body) :
    ∀ unit ∈ units.all, build.pool.AgreeOn build.pool unit.code unit.handlers := by
  obtain ⟨pieces, last, drafted⟩ := (MainMethod.compile_drafted _ program).of_run completed.compiled
  intro unit isUnit
  obtain ⟨part, isPart, finishes⟩ := exists_of_forall₂ completed.methods isUnit
  simp only [drafts, List.mem_cons, List.mem_map] at isPart
  rcases isPart with rfl | rfl | ⟨helper, _, rfl⟩
  · exact finishes.agreeOn drafted.certified
  · exact finishes.agreeOn (ClassInitializer.draft_certified _ _).1
  · exact finishes.agreeOn helper.draft_certified

theorem compile_units {options : Options} {program : Program} {file : ClassFile}
    (compiled : compile options program = .ok file) :
    ∃ methods build, (units options program).run .empty = (.ok methods, build) ∧
      build.pool.Extends file.pool ∧
      List.Forall₂ (fun unit method => MethodInfo.Carries file.pool unit method) methods.all file.methods ∧
      List.Forall₂ (fun cell field => FieldInfo.Names file.pool cell field)
        build.library.cells.toList file.fields ∧
      ∀ unit ∈ methods.all, build.pool.AgreeOn build.pool unit.code unit.handlers := by
  have ran : (Program.build options program).run .empty =
      (.ok file, ((Program.build options program).run .empty).2) := Prod.ext compiled rfl
  rw [build_eq_units] at ran
  obtain ⟨methods, build, finished, rest⟩ := run_bind ran
  obtain ⟨lines, body, completed⟩ :=
    (units_ends options program ConstantPool.empty_sound rfl).of_run finished
  obtain ⟨assembled, final, ranClass, reported⟩ := run_bind rest
  obtain rfl : assembled = file := by
    obtain ⟨_, _, _, returned⟩ := run_bind reported
    exact Except.ok.inj (congrArg Prod.fst returned)
  obtain ⟨grown, _, _, carries, names⟩ :=
    (assembleClass_ends options methods.all completed.sound).of_run ranClass
  exact ⟨methods, build, finished, grown, carries, names, completed.agreeOn⟩

/-- Classes of one program that have the same name have the same methods, which run the same code, and
the same fields, whatever else their options say. -/
theorem compile_independent_of_options (options options' : Options) (program : Program)
    (file file' : ClassFile) (named : options.className = options'.className)
    (compiled : compile options program = .ok file) (compiled' : compile options' program = .ok file') :
    List.Forall₂ (fun method method' => MethodInfo.Agrees file.pool file'.pool method method')
      file.methods file'.methods ∧
    List.Forall₂ (fun field field' => FieldInfo.Agrees file.pool file'.pool field field')
      file.fields file'.fields := by
  obtain ⟨methods, build, ran, grown, carries, names, constants⟩ := compile_units compiled
  obtain ⟨methods', build', ran', grown', carries', names', _⟩ := compile_units compiled'
  have samePlain : options.plain = options'.plain := by rw [Options.plain, Options.plain, named]
  have plain : (units options.plain program).run .empty = (.ok methods.plain, build) := by
    rw [units_plain, run_map, ran]
    rfl
  have plain' : (units options.plain program).run .empty = (.ok methods'.plain, build') := by
    rw [samePlain, units_plain, run_map, ran']
    rfl
  obtain ⟨sameMethods, rfl⟩ := Prod.mk.inj (plain.symm.trans plain')
  have matched := ClassUnits.all_plain (Except.ok.inj sameMethods)
  constructor
  · have shared := (List.forall₂_and_left _ _).mpr ⟨constants, carries⟩
    refine (forall₂_compose (forall₂_compose shared.flip matched) carries').imp ?_
    rintro method method' ⟨unit', ⟨unit, ⟨whole, holds⟩, same⟩, holds'⟩
    exact holds.agrees holds' same (whole.extended grown grown')
  · refine (forall₂_compose names.flip names').imp ?_
    rintro field field' ⟨cell, isCell, isCell'⟩
    exact ⟨⟨_, isCell.name, isCell'.name⟩, ⟨_, isCell.descriptor, isCell'.descriptor⟩⟩

def unusual : Options where
  superClass := "java/lang/Thread"
  maxStack := 9
  lineNumbers := true
  majorVersion := 52

theorem menu_independent_of_options :
    ∃ file file', compile {} menu = .ok file ∧ compile unusual menu = .ok file' ∧
      List.Forall₂ (fun method method' => MethodInfo.Agrees file.pool file'.pool method method')
        file.methods file'.methods ∧
      List.Forall₂ (fun field field' => FieldInfo.Agrees file.pool file'.pool field field')
        file.fields file'.fields := by
  obtain ⟨file, compiled⟩ := menu_compiles false
  obtain ⟨file', compiled'⟩ : ∃ file, compile unusual menu = .ok file :=
    compile_succeeds unusual (ClassFile.brief_of_fixed (by simp [unusual, ClassFile.fixedNames]))
      (ConstantPool.brief_of_bytes (by decide)) menu_valid (by decide +kernel)
  exact ⟨file, file', compiled, compiled',
    compile_independent_of_options {} unusual menu file file' rfl compiled compiled'⟩

end Program

end BasicCompiler
