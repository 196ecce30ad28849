import BasicCompiler.Proofs.Compile.Initializer
import BasicCompiler.Proofs.Compile.MainTyping
import BasicCompiler.Proofs.Library.Flush

/-!
How the compilation of a program ends: with a class whose methods are what their drafts say, or with
an error that one of its steps explains.
-/

namespace BasicCompiler

variable {build : Build} {pool extended : ConstantPool} {options : Options} {program : Program}

theorem ConstantPool.Adds.mapM {α β : Type} {action : α → PoolM β}
    {result : α → β → ConstantPool → Prop} (adds : ∀ item, Adds (action item) (result item))
    (mono : ∀ {item value} {pool extended : ConstantPool}, pool.Extends extended →
      result item value pool → result item value extended) (items : List α) :
    Adds (items.mapM action) (fun values pool =>
      List.Forall₂ (fun item value => result item value pool) items values) := by
  induction items with
  | nil => exact (Adds.pure []).imp fun _ _ isNil => isNil ▸ .nil
  | cons first rest ih =>
      rw [List.mapM_cons]
      refine (adds first).bind fun value => ih.bind fun values => ?_
      refine (Adds.pure (value :: values)).imp ?_
      rintro _ final rfl later grown others earlier grown' found
      exact .cons (mono grown' found) (others.imp fun _ _ known => mono grown known)

/-- The table of lines of a method has the given rows and goes by its name. Without rows there is
none. -/
def LineTable.Lists (pool : ConstantPool) (rows : List LineRow) (lines : Option LineTable) : Prop :=
  match lines with
  | none => rows = []
  | some table => pool.textAt table.nameIndex = .ok ClassFile.lineTableName ∧ table.rows = rows

theorem LineTable.Lists.mono {rows : List LineRow} {lines : Option LineTable}
    (grown : pool.Extends extended) (lists : Lists pool rows lines) :
    Lists extended rows lines := by
  cases lines with
  | none => exact lists
  | some table => exact ⟨grown.textAt lists.1, lists.2⟩

structure MethodInfo.Carries (pool : ConstantPool) (unit : MethodUnit) (method : MethodInfo) : Prop where
  name : pool.textAt method.nameIndex = .ok unit.header.name
  descriptor : pool.textAt method.descriptorIndex = .ok unit.header.descriptor
  code : ∃ code, method.code = some code ∧ code.maxStack = unit.header.maxStack ∧
    code.maxLocals = unit.maxLocals ∧ code.bytes = unit.code ∧ code.handlers = unit.handlers
  attributes : ∀ code, method.code = some code →
    pool.textAt code.nameIndex = .ok ClassFile.codeName ∧ LineTable.Lists pool unit.lines code.lines

theorem MethodInfo.Carries.mono {unit : MethodUnit} {method : MethodInfo} (grown : pool.Extends extended)
    (carries : method.Carries pool unit) :
    method.Carries extended unit where
  name := grown.textAt carries.name
  descriptor := grown.textAt carries.descriptor
  code := carries.code
  attributes code isCode := by
    obtain ⟨named, lists⟩ := carries.attributes code isCode
    exact ⟨grown.textAt named, lists.mono grown⟩

theorem MethodUnit.toMethodInfo_adds (unit : MethodUnit) :
    ConstantPool.Adds unit.toMethodInfo (fun method pool => method.Carries pool unit) := by
  have named (lines : Option LineTable) : ConstantPool.Adds (do
      let nameIndex ← ConstantPool.utf8 unit.header.name
      let descriptorIndex ← ConstantPool.utf8 unit.header.descriptor
      let codeIndex ← ConstantPool.utf8 ClassFile.codeName
      return ({
        access := unit.header.access
        nameIndex, descriptorIndex
        code := some {
          nameIndex := codeIndex
          maxStack := unit.header.maxStack
          maxLocals := unit.maxLocals
          bytes := unit.code
          handlers := unit.handlers
          lines } } : MethodInfo))
      (fun method pool => LineTable.Lists pool unit.lines lines → method.Carries pool unit) := by
    refine (ConstantPool.utf8_adds _).bind fun nameIndex => ?_
    refine (ConstantPool.utf8_adds _).bind fun descriptorIndex => ?_
    refine (ConstantPool.utf8_adds _).bind fun codeIndex => (ConstantPool.Adds.pure _).imp ?_
    rintro _ final rfl _ grown₁ coded middle grown described earlier grown' named lists
    refine ⟨grown'.textAt named, grown.textAt described, ⟨_, rfl, rfl, rfl, rfl, rfl⟩, ?_⟩
    rintro _ ⟨⟩
    exact ⟨grown₁.textAt coded, lists⟩
  unfold toMethodInfo
  split
  · rename_i noLines
    exact (named none).imp fun _ _ carries => carries (List.isEmpty_iff.mp noLines)
  · refine (ConstantPool.utf8_adds _).bind fun nameIndex => ?_
    exact (named _).imp fun _ _ carries _ grown tabled => carries ⟨grown.textAt tabled, rfl⟩

def MethodInfo.Realizes (pool : ConstantPool) (draft : Draft) (header : MethodHeader)
    (method : MethodInfo) : Prop :=
  ∃ unit target instructions,
    MethodUnit.Realizes pool draft header target instructions unit ∧ method.Carries pool unit

/-- A method that was finished from a draft, with a row for every line that the draft marks. -/
structure MethodUnit.Finishes (pool : ConstantPool) (draft : Draft) (header : MethodHeader)
    (unit : MethodUnit) : Prop where
  spells : ∃ target instructions, unit.Spells pool draft header target instructions
  lines : unit.lines.length = (Item.sourceLines draft.items.toList).length

theorem MethodUnit.Finishes.mono {draft : Draft} {header : MethodHeader} {unit : MethodUnit}
    (grown : pool.Extends extended) (finishes : unit.Finishes pool draft header) :
    unit.Finishes extended draft header := by
  obtain ⟨⟨target, instructions, spells⟩, lines⟩ := finishes
  exact ⟨⟨target, instructions, spells.mono grown⟩, lines⟩

theorem Draft.finish_finishes (draft : Draft) (header : MethodHeader) (sound : build.pool.Sound)
    (distinct : build.library.Distinct) (shaped : ∀ insn, .insn insn ∈ draft.items.toList → insn.Shaped) :
    Ends (draft.finish header) build
      (fun unit final => build.pool.Extends final.pool ∧ unit.Finishes final.pool draft header ∧
        build.library.Gains draft.items.toList final.library)
      (fun error _ => draft.Refused header.name error) := by
  have both := (draft.finish_ends header sound.indexed shaped).and (draft.finish_draws header distinct)
  refine both.mono ?_ (fun _ _ ⟨refused, _⟩ => refused)
  rintro unit final ⟨⟨grown, spells⟩, gains, lines⟩
  exact ⟨grown, ⟨spells, lines⟩, gains⟩

structure MethodDraft where
  header : MethodHeader
  draft : Draft

def MethodInfo.Completes (pool : ConstantPool) (part : MethodDraft) (method : MethodInfo) : Prop :=
  ∃ unit, MethodUnit.Finishes pool part.draft part.header unit ∧ method.Carries pool unit

theorem MethodInfo.Completes.realizes {part : MethodDraft} {method : MethodInfo}
    (completes : method.Completes pool part) : method.Realizes pool part.draft part.header := by
  obtain ⟨unit, ⟨⟨target, instructions, spells⟩, _⟩, carries⟩ := completes
  exact ⟨unit, target, instructions, spells.toRealizes, carries⟩

/-- A method goes by the name and the descriptor that it is referred to by. -/
structure MethodInfo.Named (pool : ConstantPool) (method : MethodInfo) (member : MemberRef) : Prop where
  name : pool.textAt method.nameIndex = .ok member.name
  descriptor : pool.textAt method.descriptorIndex = .ok member.descriptor

theorem MethodInfo.Completes.named {part : MethodDraft} {method : MethodInfo}
    (completes : method.Completes pool part) :
    method.Named pool ⟨part.header.owner, part.header.name, part.header.descriptor⟩ := by
  obtain ⟨unit, ⟨⟨target, instructions, spells⟩, _⟩, carries⟩ := completes
  exact spells.headed ▸ ⟨carries.name, carries.descriptor⟩

namespace Helper

/-- A helper that is needed: by code that asks for it or by the code of one that is needed. -/
inductive Needed (roots : List Helper) : Helper → Prop where
  | root {helper : Helper} : helper ∈ roots → Needed roots helper
  | inner {outer helper : Helper} : Needed roots outer →
      helper ∈ Item.helpers outer.draft.items.toList → Needed roots helper

theorem Needed.mono {roots roots' : List Helper} (within : ∀ helper ∈ roots, helper ∈ roots')
    {helper : Helper} (needed : helper.Needed roots) : helper.Needed roots' := by
  induction needed with
  | root member => exact .root (within _ member)
  | inner _ calls ih => exact .inner ih calls

def methodDraft (owner : String) (helper : Helper) : MethodDraft :=
  ⟨helper.header owner, helper.draft⟩

theorem draft_shaped (helper : Helper) (insn : Insn) (member : .insn insn ∈ helper.draft.items.toList) :
    insn.Shaped :=
  helper.draft_certified.shaped insn member

end Helper

namespace Library

/-- A library from which the helpers from an index on have been assembled, those included that these
helpers needed in turn. -/
structure Flushed (owner : String) (roots : List Helper) (next : Nat) (build final : Build)
    (units : List MethodUnit) : Prop where
  grown : build.pool.Extends final.pool
  units : List.Forall₂ (fun helper unit =>
    MethodUnit.Finishes final.pool helper.draft (helper.header owner) unit)
    (final.library.requested.toList.drop next) units
  gains : build.library.Gains ((final.library.requested.toList.drop next).flatMap fun helper =>
    helper.draft.items.toList) final.library
  needed : ∀ helper ∈ final.library.requested.toList, helper.Needed roots

theorem Drains.flushed {owner : String} {roots : List Helper} {next : Nat} {final : Build}
    {result : Except CompileError (List MethodUnit)} (drains : Drains owner next build result final)
    (sound : build.pool.Sound) (distinct : build.library.Distinct)
    (needed : ∀ helper ∈ build.library.requested.toList, helper.Needed roots) :
    (∀ units, result = .ok units → Flushed owner roots next build final units) ∧
      ∀ error, result = .error error →
        ∃ helper : Helper, helper.draft.Refused helper.spec.name error := by
  induction drains with
  | @done next build past =>
      have none : build.library.requested.toList.drop next = [] :=
        List.drop_eq_nil_of_le (by simpa using past)
      refine ⟨?_, by rintro _ ⟨⟩⟩
      rintro _ ⟨⟩
      refine ⟨.refl _, by rw [none]; exact .nil, ?_, needed⟩
      rw [none]
      exact .nothing distinct rfl rfl
  | @failed next build final helper error found ran =>
      have refused := helper.draft.finish_finishes (helper.header owner) sound distinct
        helper.draft_shaped
      rw [Ends, ran] at refused
      refine ⟨by rintro _ ⟨⟩, ?_⟩
      rintro _ ⟨⟩
      exact ⟨helper, refused⟩
  | @helper next build middle final helper unit result found ran _ ih =>
      obtain ⟨grown, finishes, gains⟩ := (helper.draft.finish_finishes (helper.header owner) sound
        distinct helper.draft_shaped).of_run ran
      have member : helper ∈ build.library.requested.toList :=
        Array.mem_toList_iff.mpr (Array.mem_of_getElem? found)
      have later := ih (grown.sound sound) gains.distinct fun other isRequested => by
        rcases gains.mem_requested.mp isRequested with known | new
        · exact needed other known
        · exact .inner (needed helper member) new
      cases result with
      | error error =>
          refine ⟨by rintro _ ⟨⟩, ?_⟩
          rintro _ ⟨⟩
          exact later.2 error rfl
      | ok units =>
          refine ⟨?_, by rintro _ ⟨⟩⟩
          rintro _ ⟨⟩
          have flushed := later.1 units rfl
          have kept := (gains.keeps distinct).trans (flushed.gains.keeps gains.distinct)
          have split := drop_requested (requested_kept kept found)
          refine ⟨grown.trans flushed.grown, ?_, ?_, flushed.needed⟩
          · rw [split]
            exact .cons (finishes.mono flushed.grown) flushed.units
          · rw [split, List.flatMap_cons]
            exact gains.trans flushed.gains

theorem flush_ends (owner : String) (sound : build.pool.Sound) (distinct : build.library.Distinct) :
    Ends (flush owner) build
      (fun units final => Flushed owner build.library.requested.toList 0 build final units)
      (fun error _ => ∃ helper : Helper, helper.draft.Refused helper.spec.name error) := by
  rw [flush, ends_bind]
  refine (flushFrom_drains owner Helper.all.length 0 distinct (Nat.le_refl _)).mono (fun _ _ drains => ?_)
    (fun error _ drains => (drains.flushed sound distinct fun _ => .root).2 error rfl)
  obtain ⟨grown, units, gains, needed⟩ := (drains.flushed sound distinct fun _ => .root).1 _ rfl
  exact ⟨grown, units, gains, needed⟩

end Library

structure FieldInfo.Names (pool : ConstantPool) (cell : Cell) (field : FieldInfo) : Prop where
  name : pool.textAt field.nameIndex = .ok cell.name
  descriptor : pool.textAt field.descriptorIndex = .ok cell.descriptor

namespace Program

def drafts (options : Options) (data : DataTable) (body : Body) (library : Library) :
    List MethodDraft :=
  ⟨MainMethod.header options, body.draft⟩ ::
    ⟨ClassInitializer.header options, ClassInitializer.draft data library.cells.toList⟩ ::
    library.requested.toList.map (Helper.methodDraft options.className)

/-- A class that was put together from its drafts and from the library that they need. -/
structure Assembled (options : Options) (data : DataTable) (body : Body) (library : Library)
    (file : ClassFile) : Prop where
  sound : file.pool.Sound
  version : file.majorVersion = options.majorVersion
  interfaces : file.interfaces = []
  methods : List.Forall₂ (fun part method => MethodInfo.Completes file.pool part method)
    (drafts options data body library) file.methods
  fields : List.Forall₂ (fun cell field => FieldInfo.Names file.pool cell field)
    library.cells.toList file.fields
  gains : Library.empty.Gains (body.draft.items.toList ++
    library.requested.toList.flatMap fun helper => helper.draft.items.toList) library
  needed : ∀ helper ∈ library.requested.toList,
    helper.Needed (Item.helpers body.draft.items.toList)

/-- A compiled class and the main method it was compiled from. -/
structure Built (options : Options) (program : Program) (file : ClassFile) (lines : LineSet)
    (body : Body) : Prop where
  scanned : LineSet.scan program = .ok lines
  compiled : (MainMethod.compile ⟨lines, DataTable.scan program, options.lineNumbers⟩ program).run
    (Body.empty MainMethod.descriptor) = (.ok (), body)
  assembled : ∃ library, Assembled options (DataTable.scan program) body library file

theorem Built.methods {file : ClassFile} {lines : LineSet} {body : Body}
    (built : Built options program file lines body) :
    ∃ main initializer helpers cells, file.methods = main :: initializer :: helpers ∧
      main.Completes file.pool ⟨MainMethod.header options, body.draft⟩ ∧
      initializer.Completes file.pool
        ⟨ClassInitializer.header options, ClassInitializer.draft (DataTable.scan program) cells⟩ ∧
      ∀ method ∈ helpers, ∃ helper : Helper,
        method.Completes file.pool (helper.methodDraft options.className) := by
  obtain ⟨library, assembled⟩ := built.assembled
  obtain ⟨main, others, isMain, areOthers, methods⟩ := List.forall₂_cons_left_iff.mp assembled.methods
  obtain ⟨initializer, helpers, isInitializer, areHelpers, rest⟩ :=
    List.forall₂_cons_left_iff.mp areOthers
  refine ⟨main, initializer, helpers, library.cells.toList, by rw [methods, rest], isMain,
    isInitializer, ?_⟩
  intro method isMethod
  obtain ⟨part, isPart, completes⟩ := exists_of_forall₂ areHelpers isMethod
  obtain ⟨helper, _, rfl⟩ := List.mem_map.mp isPart
  exact ⟨helper, completes⟩

inductive Fails (options : Options) (program : Program) (error : CompileError) : Prop where
  | lines : LineSet.scan program = .error error → Fails options program error
  /-- A statement is refused. -/
  | statement {lines : LineSet} {body : Body} : LineSet.scan program = .ok lines →
      (MainMethod.compile ⟨lines, DataTable.scan program, options.lineNumbers⟩ program).run
        (Body.empty MainMethod.descriptor) = (.error error, body) →
      Fails options program error
  /-- The code in front of a statement that is refused cannot be assembled. -/
  | front {lines : LineSet} {body : Body} {cause : CompileError} : LineSet.scan program = .ok lines →
      (MainMethod.compile ⟨lines, DataTable.scan program, options.lineNumbers⟩ program).run
        (Body.empty MainMethod.descriptor) = (.error cause, body) →
      Emission.Refused "main" body.draft.items.toList error → Fails options program error
  | main {lines : LineSet} {body : Body} : LineSet.scan program = .ok lines →
      (MainMethod.compile ⟨lines, DataTable.scan program, options.lineNumbers⟩ program).run
        (Body.empty MainMethod.descriptor) = (.ok (), body) →
      body.draft.Refused "main" error → Fails options program error
  | initializer {cells : List Cell} :
      (ClassInitializer.draft (DataTable.scan program) cells).Refused "<clinit>" error →
      Fails options program error
  | helper {helper : Helper} : helper.draft.Refused helper.spec.name error →
      Fails options program error
  | limit {cause : ClassFileError} : error = .classFile cause → Fails options program error

end Program

theorem ClassFile.ofPool_ends (thisName superName : String) (pool : ConstantPool) :
    Ends (ofPool thisName superName) pool
      (fun file final => pool.Extends final ∧ file.pool = final ∧ file.interfaces = [])
      (fun _ _ => True) := by
  rw [ofPool, ends_bind]
  refine (ConstantPool.classRef_adds thisName pool).mono ?_ (fun _ _ _ => trivial)
  rintro thisClass middle ⟨grown, _⟩
  rw [ends_bind]
  refine (ConstantPool.classRef_adds superName middle).mono ?_ (fun _ _ _ => trivial)
  rintro superClass final ⟨grown', _⟩
  exact ⟨grown.trans grown', rfl, rfl⟩

theorem FieldInfo.Names.mono {cell : Cell} {field : FieldInfo} (grown : pool.Extends extended)
    (names : field.Names pool cell) : field.Names extended cell :=
  ⟨grown.textAt names.name, grown.textAt names.descriptor⟩

theorem Program.fieldOf_adds (cell : Cell) :
    ConstantPool.Adds (fieldOf cell) (fun field pool => field.Names pool cell) := by
  refine (ConstantPool.utf8_adds _).bind fun nameIndex => ?_
  refine (ConstantPool.utf8_adds _).bind fun descriptorIndex => (ConstantPool.Adds.pure _).imp ?_
  rintro _ final rfl _ grown described earlier grown' named
  exact ⟨grown'.textAt named, grown.textAt described⟩

theorem Program.assembleClass_ends (options : Options) (units : List MethodUnit) (sound : build.pool.Sound) :
    Ends (assembleClass options units) build
      (fun file _ => build.pool.Extends file.pool ∧ file.majorVersion = options.majorVersion ∧
        file.interfaces = [] ∧
        List.Forall₂ (fun unit method => MethodInfo.Carries file.pool unit method) units file.methods ∧
        List.Forall₂ (fun cell field => FieldInfo.Names file.pool cell field)
          build.library.cells.toList file.fields)
      (fun error _ => ∃ cause, error = .classFile cause) := by
  rw [assembleClass, ends_bind, Build.ends_interned]
  refine (ConstantPool.Adds.mapM MethodUnit.toMethodInfo_adds MethodInfo.Carries.mono units
    build.pool).mono ?_ (fun error _ _ => ⟨error, rfl⟩)
  rintro methods pool ⟨grown, carries⟩
  rw [ends_bind, ends_get, ends_bind, Build.ends_interned]
  refine (ConstantPool.Adds.mapM Program.fieldOf_adds FieldInfo.Names.mono _ pool).mono ?_
    (fun error _ _ => ⟨error, rfl⟩)
  rintro fields pool' ⟨grown', named⟩
  rw [ends_bind, Build.ends_interned]
  refine (ClassFile.ofPool_ends _ _ pool').mono ?_ (fun error _ _ => ⟨error, rfl⟩)
  rintro file final ⟨grown'', isPool, noInterfaces⟩
  have later := grown'.trans grown''
  refine ⟨?_, rfl, noInterfaces, ?_, ?_⟩
  · change build.pool.Extends file.pool
    rw [isPool]
    exact grown.trans later
  · change List.Forall₂ _ units methods
    refine (carries sound.indexed).imp fun _ _ known => ?_
    change MethodInfo.Carries file.pool _ _
    rw [isPool]
    exact known.mono later
  · change List.Forall₂ _ _ fields
    refine (named (grown.indexed sound.indexed)).imp fun _ _ known => ?_
    change FieldInfo.Names file.pool _ _
    rw [isPool]
    exact known.mono grown''

theorem MainMethod.build_ends (options : Options) (surroundings : Surroundings) (program : Program)
    (build : Build) (sound : build.pool.Sound) (distinct : build.library.Distinct) :
    Ends (MainMethod.build options surroundings program) build
      (fun unit final => build.pool.Extends final.pool ∧ ∃ body,
        (compile surroundings program).run (Body.empty descriptor) = (.ok (), body) ∧
        unit.Finishes final.pool body.draft (header options) ∧
        build.library.Gains body.draft.items.toList final.library)
      (fun error _ =>
        (∃ body, (compile surroundings program).run (Body.empty descriptor) = (.error error, body)) ∨
        (∃ cause body,
          (compile surroundings program).run (Body.empty descriptor) = (.error cause, body) ∧
          Emission.Refused "main" body.draft.items.toList error) ∨
        (∃ body, (compile surroundings program).run (Body.empty descriptor) = (.ok (), body) ∧
          body.draft.Refused "main" error)) := by
  have drafted := compile_drafted surroundings program
  unfold Ends at drafted
  unfold MainMethod.build
  generalize (compile surroundings program).run (Body.empty descriptor) = outcome at drafted ⊢
  rcases outcome with ⟨error | _, body⟩
  · dsimp only
    rw [ends_bind]
    refine (body.draft.assemble_ends (header options) sound.indexed).mono ?_ ?_
    · intro emitter final _
      exact .inl ⟨body, rfl⟩
    · intro error _ refused
      exact .inr (.inl ⟨_, body, rfl, refused⟩)
  · obtain ⟨pieces, last, drafted⟩ := drafted
    refine (body.draft.finish_finishes (header options) sound distinct drafted.shaped).mono ?_ ?_
    · rintro unit final ⟨grown, finishes, gains⟩
      exact ⟨grown, body, rfl, finishes, gains⟩
    · intro error _ refused
      exact .inr (.inr ⟨body, rfl, refused⟩)

theorem ClassInitializer.build_ends (options : Options) (data : DataTable) (sound : build.pool.Sound)
    (distinct : build.library.Distinct) :
    Ends (ClassInitializer.build options data) build
      (fun unit final => build.pool.Extends final.pool ∧
        unit.Finishes final.pool (draft data build.library.cells.toList) (header options) ∧
        final.library = build.library)
      (fun error _ => ∃ cells, (draft data cells).Refused "<clinit>" error) := by
  rw [ClassInitializer.build, ends_bind, ends_get]
  refine ((draft data build.library.cells.toList).finish_finishes (header options) sound distinct
    (draft_certified data _).1.shaped).mono ?_ (fun error _ refused => ⟨_, refused⟩)
  rintro unit final ⟨grown, finishes, gains⟩
  exact ⟨grown, finishes, gains.unchanged distinct (draft_helpers data _) (draft_cells data _)⟩

structure ClassUnits where
  main : MethodUnit
  initializer : MethodUnit
  helpers : List MethodUnit

def ClassUnits.all (units : ClassUnits) : List MethodUnit :=
  units.main :: units.initializer :: units.helpers

namespace Program

def units (options : Options) (program : Program) : BuildM ClassUnits := do
  Build.report (.compiling program.length options.className)
  match LineSet.scan program with
  | .error error => throw error
  | .ok lines =>
    let data := DataTable.scan program
    let main ← MainMethod.build options ⟨lines, data, options.lineNumbers⟩ program
    let helpers ← Library.flush options.className
    let initializer ← ClassInitializer.build options data
    return ⟨main, initializer, helpers⟩

theorem build_eq_units (options : Options) (program : Program) :
    Program.build options program = (do
      let units ← units options program
      let file ← assembleClass options units.all
      Build.report
        (.classAssembled options.className file.methods.length file.fields.length file.pool.size)
      return file) := by
  unfold Program.build units
  simp only [bind_assoc]
  cases LineSet.scan program with
  | error error => rfl
  | ok lines => simp only [bind_assoc, pure_bind, ClassUnits.all]

/-- The methods of a program are finished from their drafts. -/
structure Completed (options : Options) (program : Program) (units : ClassUnits) (build : Build)
    (lines : LineSet) (body : Body) : Prop where
  scanned : LineSet.scan program = .ok lines
  compiled : (MainMethod.compile ⟨lines, DataTable.scan program, options.lineNumbers⟩ program).run
    (Body.empty MainMethod.descriptor) = (.ok (), body)
  sound : build.pool.Sound
  methods : List.Forall₂ (fun part unit => MethodUnit.Finishes build.pool part.draft part.header unit)
    (drafts options (DataTable.scan program) body build.library) units.all
  gains : Library.empty.Gains (body.draft.items.toList ++
    build.library.requested.toList.flatMap fun helper => helper.draft.items.toList) build.library
  needed : ∀ helper ∈ build.library.requested.toList,
    helper.Needed (Item.helpers body.draft.items.toList)

theorem units_ends (options : Options) (program : Program) (sound : build.pool.Sound)
    (fresh : build.library = .empty) :
    Ends (units options program) build
      (fun units final => ∃ lines body, Completed options program units final lines body)
      (fun error _ => Fails options program error) := by
  have distinct : build.library.Distinct := fresh ▸ Library.empty_distinct
  rw [units, ends_bind, Build.report, ends_modify]
  cases scanned : LineSet.scan program with
  | error error => exact .lines scanned
  | ok lines =>
      dsimp only
      rw [ends_bind]
      refine (MainMethod.build_ends options _ program ⟨build.pool, build.library,
        build.events.push (.compiling program.length options.className)⟩ sound distinct).mono ?_ ?_
      · rintro main afterMain ⟨grown, body, compiled, finishes, gains⟩
        have sound := grown.sound sound
        rw [ends_bind]
        refine (Library.flush_ends options.className sound gains.distinct).mono ?_
          (fun _ _ refused => refused.elim fun _ => Fails.helper)
        rintro helpers afterHelpers flushed
        have sound := flushed.grown.sound sound
        have distinct' := flushed.gains.distinct
        rw [ends_bind]
        refine (ClassInitializer.build_ends options (DataTable.scan program) sound distinct').mono ?_
          (fun _ _ refused => refused.elim fun _ => Fails.initializer)
        rintro initializer final ⟨grown', finishes', same⟩
        rw [fresh] at gains
        refine ⟨lines, body, scanned, compiled, grown'.sound sound, ?_, ?_, ?_⟩
        · rw [same]
          refine .cons (finishes.mono (flushed.grown.trans grown')) (.cons finishes' ?_)
          rw [List.forall₂_map_left_iff]
          exact flushed.units.imp fun _ _ finishes => finishes.mono grown'
        · rw [same]
          exact gains.trans flushed.gains
        · rw [same]
          intro helper member
          refine (flushed.needed helper member).mono fun other isRoot => ?_
          exact (gains.mem_requested.mp isRoot).resolve_left (by simp [Library.empty])
      · rintro error _ (⟨body, refused⟩ | ⟨cause, body, refused, unassembled⟩ | ⟨body, compiled, refused⟩)
        · exact .statement scanned refused
        · exact .front scanned refused unassembled
        · exact .main scanned compiled refused

theorem build_ends (options : Options) (program : Program) (sound : build.pool.Sound)
    (fresh : build.library = .empty) :
    Ends (Program.build options program) build
      (fun file _ => ∃ lines body, Built options program file lines body)
      (fun error _ => Fails options program error) := by
  rw [build_eq_units, ends_bind]
  refine (units_ends options program sound fresh).imp ?_
  rintro units middle ⟨lines, body, completed⟩
  rw [ends_bind]
  refine (assembleClass_ends options units.all completed.sound).mono ?_
    (fun _ _ limited => limited.elim fun _ => Fails.limit)
  rintro file final ⟨toFile, version, interfaces, carries, named⟩
  refine ⟨lines, body, completed.scanned, completed.compiled, middle.library,
    toFile.sound completed.sound, version, interfaces, ?_, named, completed.gains, completed.needed⟩
  exact forall₂_compose (completed.methods.imp fun _ _ finishes => finishes.mono toFile) carries

/-- A program is compiled into a class that is built from its drafts, or it fails for a reason. -/
theorem compile_outcome (options : Options) (program : Program) :
    match compile options program with
    | .ok file => ∃ lines body, Built options program file lines body
    | .error error => Fails options program error := by
  have ends : Ends (Program.build options program) .empty
      (fun file _ => ∃ lines body, Built options program file lines body)
      (fun error _ => Fails options program error) :=
    build_ends options program ConstantPool.empty_sound rfl
  unfold Ends at ends
  unfold compile compileTraced
  generalize (Program.build options program).run .empty = outcome at ends
  rcases outcome with ⟨result | result, build⟩ <;> exact ends

theorem built_of_compile {file : ClassFile} (compiled : compile options program = .ok file) :
    ∃ lines body, Built options program file lines body := by
  have outcome := compile_outcome options program
  rwa [compiled] at outcome

theorem fails_of_compile {error : CompileError} (failed : compile options program = .error error) :
    Fails options program error := by
  have outcome := compile_outcome options program
  rwa [failed] at outcome

end Program

end BasicCompiler
