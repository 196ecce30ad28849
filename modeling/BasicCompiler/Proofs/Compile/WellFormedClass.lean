import BasicCompiler.Proofs.Compile.SmallPrograms

/-!
Compiled classes are well formed.
-/

namespace BasicCompiler

theorem MethodUnit.Realizes.insnCount_le {pool : ConstantPool} {draft : Draft} {header : MethodHeader}
    {target : Label → Nat} {instructions : List Instruction} {unit : MethodUnit}
    (realizes : unit.Realizes pool draft header target instructions) : draft.insnCount ≤ 65535 := by
  have counted := realizes.laid.count_le
  have length := realizes.laid.decodes.length_le
  have size := realizes.size
  have isCount : draft.insnCount = Item.count draft.items.toList := rfl
  omega

theorem MethodInfo.Realizes.insnCount_le {pool : ConstantPool} {draft : Draft} {header : MethodHeader}
    {method : MethodInfo} (realizes : method.Realizes pool draft header) : draft.insnCount ≤ 65535 := by
  obtain ⟨unit, target, instructions, realizes, _⟩ := realizes
  exact realizes.insnCount_le

theorem MethodInfo.Realizes.wellFormed {pool : ConstantPool} {draft : Draft} {header : MethodHeader}
    {method : MethodInfo} {frame : Frame} (realizes : method.Realizes pool draft header)
    (certified : draft.Certified frame) (few : draft.scope.nextSlot ≤ 65535) :
    ∃ code instructions, method.code = some code ∧ code.WellFormed pool instructions := by
  obtain ⟨unit, target, instructions, realizes, carries⟩ := realizes
  obtain ⟨code, isCode, _, locals, bytes, rows⟩ := carries.code
  exact ⟨code, instructions, isCode, realizes.wellFormed certified few bytes locals rows⟩

namespace Program

theorem Built.drafted {options : Options} {program : Program} {file : ClassFile} {lines : LineSet}
    {body : Body} (built : Built options program file lines body) :
    ∃ pieces last, MainMethod.Drafted ⟨lines, DataTable.scan program, options.lineNumbers⟩ program
      body pieces last :=
  (MainMethod.compile_drafted _ program).of_run built.compiled

/-- The slots that a finished main method has handed out are counted by sixteen bits. -/
theorem Built.nextSlot_le {options : Options} {program : Program} {file : ClassFile} {lines : LineSet}
    {body : Body} (built : Built options program file lines body) : body.draft.scope.nextSlot ≤ 65535 := by
  obtain ⟨main, _, _, _, _, isMain, _⟩ := built.methods
  obtain ⟨pieces, last, drafted⟩ := built.drafted
  exact Nat.le_trans drafted.few isMain.realizes.insnCount_le

/-- Every method of a compiled class has well-formed code. -/
theorem compile_wellFormed (options : Options) (program : Program) (file : ClassFile)
    (compiled : compile options program = .ok file) :
    ∃ main initializer helpers, file.methods = main :: initializer :: helpers ∧
      main.Named file.pool ⟨options.className, "main", MainMethod.descriptor⟩ ∧
      initializer.Named file.pool ⟨options.className, "<clinit>", ClassInitializer.descriptor⟩ ∧
      (∀ method ∈ helpers, ∃ helper, method.Named file.pool (Insn.helperRef options.className helper)) ∧
      ∀ method ∈ file.methods, ∃ code instructions,
        method.code = some code ∧ code.WellFormed file.pool instructions := by
  obtain ⟨lines, body, built⟩ := built_of_compile compiled
  obtain ⟨main, initializer, helpers, cells, methods, isMain, isInitializer, areHelpers⟩ := built.methods
  obtain ⟨pieces, last, drafted⟩ := built.drafted
  have prepared := ClassInitializer.draft_certified (DataTable.scan program) cells
  refine ⟨main, initializer, helpers, methods, isMain.named, isInitializer.named,
    fun method isMethod => (areHelpers method isMethod).imp fun _ isHelper => isHelper.named, ?_⟩
  rw [methods, List.forall_mem_cons, List.forall_mem_cons]
  refine ⟨isMain.realizes.wellFormed drafted.certified built.nextSlot_le,
    isInitializer.realizes.wellFormed prepared.1
      (Nat.le_trans prepared.2 isInitializer.realizes.insnCount_le), ?_⟩
  intro method isMethod
  obtain ⟨helper, isHelper⟩ := areHelpers method isMethod
  have few := (Helper.all_certify helper helper.mem_all).2
  exact isHelper.realizes.wellFormed helper.draft_certified (Nat.le_trans few (by decide))

theorem menu_wellFormed :
    ∃ file, compile {} menu = .ok file ∧
      ∃ main initializer helpers, file.methods = main :: initializer :: helpers ∧
        main.Named file.pool ⟨"Main", "main", "([Ljava/lang/String;)V"⟩ ∧
        initializer.Named file.pool ⟨"Main", "<clinit>", "()V"⟩ ∧
        (∀ method ∈ helpers, ∃ helper, method.Named file.pool (Insn.helperRef "Main" helper)) ∧
        ∀ method ∈ file.methods, ∃ code instructions,
          method.code = some code ∧ code.WellFormed file.pool instructions := by
  obtain ⟨file, compiled⟩ := menu_compiles false
  exact ⟨file, compiled, compile_wellFormed {} menu file compiled⟩

end Program

end BasicCompiler
