import Mathlib.Algebra.GroupWithZero.Nat
import Mathlib.Algebra.Order.BigOperators.Group.List
import Mathlib.Algebra.Order.Group.Nat
import BasicCompiler.Proofs.Compile.Acceptance
import BasicCompiler.Proofs.Compile.MainContents
import BasicCompiler.Proofs.Compile.ResolvedClass

/-!
Valid programs that are small enough are compiled. Nothing but the limits of a class file can refuse a
valid program, and a small program stays within them: its code and its texts are at most a constant
factor larger than its statements, and the helpers are fixed.
-/

namespace BasicCompiler

open ConstantPool (Brief)

variable {α β : Type}

namespace DataTable

def weight (table : DataTable) : Nat :=
  (table.items.toList.map fun item => 1 + item.text.length).sum

theorem addItems_weight (table : DataTable) (line : Option LineNumber) (texts : List String) :
    (table.addItems line texts).weight = table.weight + (texts.map fun text => 1 + text.length).sum := by
  unfold addItems
  induction texts generalizing table with
  | nil => rfl
  | cons first rest ih =>
      rw [List.foldl_cons, ih]
      simp only [weight, Array.toList_push, List.map_append, List.map_cons, List.map_nil,
        List.sum_append, List.sum_cons, List.sum_nil]
      omega

mutual

theorem scanStmt_weight (stmt : Stmt) (state : Option LineNumber × DataTable) :
    (scanStmt stmt state).2.weight ≤ state.2.weight + stmt.size := by
  cases stmt with
  | data texts =>
      rw [scanStmt, addItems_weight, Stmt.size]
      omega
  | conditional condition thenBody elseBody =>
      have first := scanStmts_weight thenBody state
      have second := scanStmts_weight elseBody (scanStmts thenBody state)
      rw [scanStmt, Stmt.size]
      omega
  | _ =>
      rw [scanStmt]
      exact Nat.le_add_right _ _

theorem scanStmts_weight (stmts : List Stmt) (state : Option LineNumber × DataTable) :
    (scanStmts stmts state).2.weight ≤ state.2.weight + Stmt.sizes stmts := by
  cases stmts with
  | nil => exact Nat.le_add_right _ _
  | cons first rest =>
      have one := scanStmt_weight first state
      have others := scanStmts_weight rest (scanStmt first state)
      rw [scanStmts, Stmt.sizes]
      omega

end

theorem scan_weight (program : Program) : (scan program).weight ≤ Stmt.sizes program := by
  have whole := scanStmts_weight program (none, empty)
  rwa [show (none, empty).2.weight = 0 from rfl, Nat.zero_add] at whole

theorem entriesAfter_length (texts : List String) (offset : Nat) (done : List DataEntry) :
    (entriesAfter texts offset done).length = done.length + texts.length := by
  induction texts generalizing offset done with
  | nil => simp [entriesAfter]
  | cons first rest ih =>
      rw [entriesAfter, ih, List.length_cons, List.length_cons]
      omega

theorem lengthChars_length (length : Nat) : (lengthChars length).length ≤ 2 :=
  List.length_filterMap_le _ _

theorem texts_length (table : DataTable) :
    table.joined.length + table.lengthsText.length ≤ 2 * table.weight := by
  have lengths (entries : List DataEntry) :
      (entries.flatMap fun entry => lengthChars entry.length).length ≤ 2 * entries.length := by
    induction entries with
    | nil => simp
    | cons first rest ih =>
        have head := lengthChars_length first.length
        simp only [List.flatMap_cons, List.length_append, List.length_cons]
        omega
  have counted := lengths table.entries
  have entries : table.entries.length = table.items.toList.length := by
    simp [DataTable.entries, entriesAfter_length]
  have joined : table.joined.length + table.items.toList.length = table.weight := by
    unfold DataTable.joined weight
    rw [String.length_join, List.map_map]
    induction table.items.toList with
    | nil => rfl
    | cons first rest ih =>
        simp only [List.map_cons, List.sum_cons, List.length_cons, Function.comp] at ih ⊢
        omega
  simp only [lengthsText, String.length_ofList]
  omega

end DataTable

theorem sum_le_of_nodup [DecidableEq α] {some all : List α} (distinct : some.Nodup) (within : some ⊆ all)
    (amount : α → Nat) : (some.map amount).sum ≤ (all.map amount).sum := by
  obtain ⟨chosen, permuted, sublist⟩ := List.subperm_of_subset distinct within
  rw [← (permuted.map amount).sum_eq]
  exact (sublist.map amount).sum_le_sum fun _ _ => Nat.zero_le _

namespace Stmt

mutual

theorem calls_length_one (stmt : Stmt) : (calls [stmt]).length ≤ stmt.size := by
  cases stmt with
  | conditional condition thenBody elseBody =>
      have first := calls_length thenBody
      have second := calls_length elseBody
      rw [calls_conditional, List.length_append, size]
      omega
  | gosub line => exact Nat.le_refl 1
  | onGosub selector targets =>
      refine Nat.le_trans (List.length_filter_le _ _) ?_
      simp only [inlinedAll, inlined, List.append_nil, List.length_singleton, size]
      omega
  | _ => exact Nat.zero_le _

theorem calls_length (stmts : List Stmt) : (calls stmts).length ≤ sizes stmts := by
  cases stmts with
  | nil => exact Nat.le_refl 0
  | cons first rest =>
      have one := calls_length_one first
      have others := calls_length rest
      rw [calls_cons, List.length_append, sizes]
      omega

end

end Stmt

/-- A computation that succeeds with a good value if the pool has room for `cost` slots more. -/
def Delivers (good : α → Prop) (cost : Nat) (action : BuildM α) : Prop :=
  ∀ (build : Build) (budget : Nat), build.pool.Sound → build.Spares (cost + budget) →
    Ends action build (fun value final => final.pool.Sound ∧ final.Spares budget ∧ good value)
      (fun _ _ => False)

namespace Delivers

variable {good : α → Prop} {good' : β → Prop} {cost cost' : Nat}

theorem pure {value : α} (isGood : good value) : Delivers good 0 (Pure.pure value) :=
  fun _ _ sound spares => ⟨sound, spares.mono (by omega), isGood⟩

theorem bind {first : BuildM α} {next : α → BuildM β} (delivers : Delivers good cost first)
    (delivers' : ∀ value, good value → Delivers good' cost' (next value)) :
    Delivers good' (cost + cost') (first >>= next) := by
  intro build budget sound spares
  rw [Nat.add_assoc] at spares
  refine (delivers build _ sound spares).bind ?_
  rintro value middle ⟨sound, spares, isGood⟩
  exact delivers' value isGood middle budget sound spares

theorem mono {action : BuildM α} (delivers : Delivers good cost action) (cheaper : cost ≤ cost') :
    Delivers good cost' action :=
  fun build budget sound spares =>
    delivers build budget sound (spares.mono (Nat.add_le_add_right cheaper budget))

theorem report (event : Event) : Delivers (fun _ => True) 0 (Build.report event) :=
  fun _ _ sound spares => ⟨sound, ⟨(spares.mono (Nat.le_add_left _ _)).pool, spares.cells⟩, trivial⟩

end Delivers

def ClassFile.fixedNames : List String :=
  [codeName, lineTableName, "main", MainMethod.descriptor, "<clinit>", ClassInitializer.descriptor,
    FlowCode.faultClass, "Main", "java/lang/Object"]

theorem ClassFile.brief_of_fixed {name : String} (isFixed : name ∈ fixedNames) : Brief name := by
  have short : ∀ name ∈ fixedNames, name.utf8ByteSize ≤ 10000 := by decide +kernel
  exact ConstantPool.brief_of_bytes (short name isFixed)

def MethodHeader.Brief (header : MethodHeader) : Prop :=
  ConstantPool.Brief header.name ∧ ConstantPool.Brief header.descriptor

theorem Draft.Fit.delivers {draft : Draft} (fit : draft.Fit) (header : MethodHeader)
    (isBrief : ConstantPool.Brief header.owner) (named : header.Brief) :
    Delivers (fun unit => unit.header.Brief) draft.cost (draft.finish header) := by
  intro build budget sound spares
  refine (fit.finish_succeeds isBrief sound spares).imp ?_
  rintro unit final ⟨sound, spares, rfl⟩
  exact ⟨sound, spares, named⟩

theorem Draft.cost_le (draft : Draft) :
    draft.cost ≤ Item.total Insn.load draft.items.toList + draft.handlers.size * 2 := by
  have rooms := Item.total_le Insn.cost_le_room draft.items.toList
  have loads := Item.total_le Insn.room_le_load draft.items.toList
  unfold cost
  omega

def Item.texts : Item → List String
  | .insn instruction => instruction.texts
  | .label _ | .sourceLine _ | .request _ => []

namespace Helper

theorem draft_fit (helper : Helper) : helper.draft.Fit ∧ helper.draft.cost ≤ 361 := by
  have small : ∀ helper ∈ all, Item.total Insn.room helper.draft.items.toList ≤ 32767 ∧
      helper.draft.cost ≤ 361 ∧
      (∀ item ∈ helper.draft.items.toList, ∀ text ∈ item.texts, text.utf8ByteSize ≤ 10000) ∧
      ∀ handler ∈ helper.draft.handlers.toList, ∀ name ∈ handler.className,
        name.utf8ByteSize ≤ 10000 := by
    decide +kernel
  obtain ⟨short, cheap, texts, named⟩ := small helper helper.mem_all
  refine ⟨⟨helper.draft_shaped, helper.draft_resolved, short, ?_, ?_⟩, cheap⟩
  · exact fun insn member text isText => ConstantPool.brief_of_bytes (texts _ member text isText)
  · exact fun handler member name isName => ConstantPool.brief_of_bytes (named handler member name isName)

theorem finish_delivers (helper : Helper) {owner : String} (isBrief : Brief owner) :
    Delivers (fun unit => unit.header.Brief) 361 (helper.draft.finish (helper.header owner)) :=
  (helper.draft_fit.1.delivers (helper.header owner) isBrief helper.names_brief).mono helper.draft_fit.2

theorem finish_empty (helper : Helper) {owner : String} (isBrief : Brief owner) :
    Ends (helper.draft.finish (helper.header owner)) .empty (fun _ _ => True) (fun _ _ => False) := by
  have spares : Build.Spares .empty (361 + 0) := ⟨by decide, .nil⟩
  exact (helper.finish_delivers isBrief .empty 0 ConstantPool.empty_sound spares).mono
    (fun _ _ _ => trivial) (fun _ _ failed => failed)

end Helper

namespace Library

variable {owner : String}

theorem flushFrom_delivers (isBrief : Brief owner) (remaining next : Nat) :
    Delivers (fun units => units.length ≤ remaining ∧ ∀ unit ∈ units, unit.header.Brief)
      (361 * remaining) (flushFrom owner remaining next) := by
  induction remaining generalizing next with
  | zero => exact .pure (by simp)
  | succ remaining ih =>
      intro build budget sound spares
      rw [flushFrom, ends_bind, ends_get]
      cases build.library.requested[next]? with
      | none => exact ⟨sound, spares.mono (by omega), by simp⟩
      | some helper =>
          refine ((helper.finish_delivers isBrief).bind fun unit named => (ih (next + 1)).bind fun units others =>
            Delivers.pure ?_) build budget sound (spares.mono (by omega))
          exact ⟨Nat.succ_le_succ others.1, List.forall_mem_cons.mpr ⟨named, others.2⟩⟩

theorem flush_delivers (isBrief : Brief owner) :
    Delivers (fun units => units.length ≤ Helper.all.length ∧ ∀ unit ∈ units, unit.header.Brief)
      (361 * Helper.all.length) (flush owner) :=
  ((flushFrom_delivers isBrief _ 0).bind fun _ good => (Delivers.report _).bind fun _ _ =>
    .pure good).mono (by omega)

end Library

namespace ClassInitializer

theorem draft_fit (data : DataTable) {cells : List Cell} (distinct : cells.Nodup)
    (few : data.weight ≤ 80) :
    (draft data cells).Fit ∧ (draft data cells).cost ≤ 19572 := by
  have grows := draft_grows data cells
  have whole := sum_le_of_nodup distinct (fun cell _ => cell.mem_all) (CellCode.preparation data)
  have texts := data.texts_length
  have total : (Cell.all.map (CellCode.preparation data)).sum =
      114 * data.joined.length + 114 * data.lengthsText.length + 1326 := by
    simp only [Cell.all, CellCode.preparation, List.map_cons, List.map_nil, List.sum_cons, List.sum_nil]
    omega
  have start : (Draft.empty descriptor).load = 0 := rfl
  have unhandled : (draft data cells).handlers = #[] := grows.handlers
  have load : Item.total Insn.load (draft data cells).items.toList ≤ 19572 := by
    have bound := grows.load
    rw [start, Draft.load] at bound
    omega
  refine ⟨Draft.fit_of_load (draft_certified data cells).1.shaped (draft_resolved data cells) (by omega)
    (by simp [unhandled]), ?_⟩
  have cost := (draft data cells).cost_le
  rw [unhandled] at cost
  exact Nat.le_trans cost load

theorem build_delivers {options : Options} (isBrief : Brief options.className) {data : DataTable}
    (few : data.weight ≤ 80) :
    Delivers (fun unit => unit.header.Brief) 19572 (ClassInitializer.build options data) := by
  intro build budget sound spares
  obtain ⟨fit, cheap⟩ := draft_fit data spares.cells few
  have name : Brief "<clinit>" := ClassFile.brief_of_fixed (by simp [ClassFile.fixedNames])
  have type : Brief descriptor := ClassFile.brief_of_fixed (by simp [ClassFile.fixedNames])
  have named : (header options).Brief := ⟨name, type⟩
  rw [ClassInitializer.build, ends_bind, ends_get]
  exact (fit.delivers (header options) isBrief named).mono cheap build budget sound spares

end ClassInitializer

namespace MainMethod

theorem build_delivers {options : Options} (isBrief : Brief options.className) {program : Program}
    (valid : program.Valid) (small : Stmt.sizes program ≤ 80) {lines : LineSet} (data : DataTable)
    (holds : lines.Holds (Stmt.markers program)) :
    Delivers (fun unit => unit.header.Brief) 10472
      (MainMethod.build options ⟨lines, data, options.lineNumbers⟩ program) := by
  have accepts := compile_accepts ⟨lines, data, options.lineNumbers⟩ program valid.distinctLines holds
  have all := (compile_contents ⟨lines, data, options.lineNumbers⟩ program).and
    ((compile_drafted ⟨lines, data, options.lineNumbers⟩ program).and
    (compile_resolved ⟨lines, data, options.lineNumbers⟩ program valid.distinctLines holds))
  unfold Ends at accepts all
  unfold MainMethod.build
  generalize (compile ⟨lines, data, options.lineNumbers⟩ program).run (Body.empty descriptor) = outcome
    at accepts all
  rcases outcome with ⟨error | _, body⟩
  · exact absurd valid accepts
  · obtain ⟨⟨through, exit, rest, unknown, contents⟩, ⟨pieces, last, drafted⟩, resolved⟩ := all
    have load := contents.load_le
    have calls := Stmt.calls_length program
    have handlers : body.draft.handlers.toList = [] ∨ body.draft.handlers.toList = [faultRow] := by
      rw [contents.closes.handlers]
      split
      · exact .inl rfl
      · exact .inr rfl
    have fit : body.draft.Fit := by
      refine Draft.fit_of_load drafted.shaped resolved (by omega) ?_
      intro handler member name isName
      rcases handlers with none | one
      · rw [none] at member
        cases member
      · rw [one, List.mem_singleton] at member
        subst member
        cases isName
        exact ClassFile.brief_of_fixed (by simp [ClassFile.fixedNames])
    have cheap : body.draft.cost ≤ 10472 := by
      have cost := body.draft.cost_le
      have few : body.draft.handlers.size ≤ 1 := by
        rw [← Array.length_toList]
        rcases handlers with none | one
        · simp [none]
        · simp [one]
      omega
    have name : Brief "main" := ClassFile.brief_of_fixed (by simp [ClassFile.fixedNames])
    have type : Brief descriptor := ClassFile.brief_of_fixed (by simp [ClassFile.fixedNames])
    have named : (header options).Brief := ⟨name, type⟩
    exact (fit.delivers (header options) isBrief named).mono cheap

end MainMethod

theorem MethodUnit.toMethodInfo_costs {unit : MethodUnit} (named : unit.header.Brief) :
    Costs ConstantPool.ledger (fun _ => False) 4 unit.toMethodInfo := by
  have code : Brief ClassFile.codeName := ClassFile.brief_of_fixed (by simp [ClassFile.fixedNames])
  have table : Brief ClassFile.lineTableName := ClassFile.brief_of_fixed (by simp [ClassFile.fixedNames])
  have rest (lines : Option LineTable) : Costs ConstantPool.ledger (fun _ => False) 3 (do
      let nameIndex ← ConstantPool.utf8 unit.header.name
      let descriptorIndex ← ConstantPool.utf8 unit.header.descriptor
      let codeIndex ← ConstantPool.utf8 ClassFile.codeName
      return ({ access := unit.header.access, nameIndex, descriptorIndex
                code := some { nameIndex := codeIndex, maxStack := unit.header.maxStack
                               maxLocals := unit.maxLocals, bytes := unit.code
                               handlers := unit.handlers, lines } } : MethodInfo)) :=
    (ConstantPool.utf8_costs (absurd named.1)).bind fun _ => (ConstantPool.utf8_costs (absurd named.2)).bind fun _ =>
      (ConstantPool.utf8_costs (absurd code)).bind fun _ => .pure _
  unfold MethodUnit.toMethodInfo
  split
  · exact (rest none).mono (by omega)
  · exact (ConstantPool.utf8_costs (absurd table)).bind fun index => rest (some ⟨index, unit.lines⟩)

namespace Program

theorem fieldOf_costs (cell : Cell) : Costs ConstantPool.ledger (fun _ => False) 2 (fieldOf cell) :=
  (ConstantPool.utf8_costs (absurd cell.names_brief.1)).bind fun _ =>
    (ConstantPool.utf8_costs (absurd cell.names_brief.2)).bind fun _ => .pure _

theorem assembleClass_succeeds {options : Options} (isBrief : Brief options.className)
    (isBrief' : Brief options.superClass) {units : List MethodUnit}
    (named : ∀ unit ∈ units, unit.header.Brief) {build : Build}
    (spares : build.Spares (units.length * 4 + 20)) :
    Ends (assembleClass options units) build (fun _ _ => True) (fun _ _ => False) := by
  have few : build.library.cells.toList.length ≤ 8 :=
    (List.subperm_of_subset spares.cells fun cell _ => cell.mem_all).length_le
  rw [assembleClass, ends_bind, Build.ends_interned]
  refine ((Costs.mapM fun unit member => MethodUnit.toMethodInfo_costs (named unit member)).succeeds
    spares.pool).imp ?_
  rintro methods pool within
  rw [ends_bind, ends_get, ends_bind, Build.ends_interned]
  have room : pool.size + (build.library.cells.toList.length * 2 + (2 + (2 + 0))) ≤
      ConstantPool.maxIndex := by omega
  refine ((Costs.mapM fun cell _ => fieldOf_costs cell).succeeds room).imp ?_
  rintro fields pool' within'
  rw [ends_bind, Build.ends_interned, ClassFile.ofPool, ends_bind]
  refine ((ConstantPool.classRef_costs (absurd isBrief)).succeeds within').imp ?_
  rintro thisClass pool'' within''
  rw [ends_bind]
  exact ((ConstantPool.classRef_costs (absurd isBrief')).succeeds within'').imp fun _ _ _ => trivial

/-- A valid program that is small is compiled. -/
theorem compile_succeeds (options : Options) (isBrief : Brief options.className)
    (isBrief' : Brief options.superClass) {program : Program} (valid : program.Valid)
    (small : Stmt.sizes program ≤ 80) : ∃ file, compile options program = .ok file := by
  have ends : Ends (Program.build options program) .empty (fun _ _ => True) (fun _ _ => False) := by
    have marked := LineSet.scan_holds program
    have few := Nat.le_trans (DataTable.scan_weight program) small
    have empty : Build.Spares .empty (0 + (10472 + (361 * Helper.all.length + (19572 +
        ((Helper.all.length + 2) * 4 + 20))))) := ⟨by decide, .nil⟩
    unfold Program.build
    refine (Delivers.report _ _ _ ConstantPool.empty_sound empty).bind ?_
    rintro _ started ⟨sound, spares, _⟩
    cases scanned : LineSet.scan program with
    | error error =>
        rw [scanned] at marked
        exact absurd valid.distinctLines marked.2
    | ok lines =>
        rw [scanned] at marked
        dsimp only
        rw [ends_bind]
        refine (MainMethod.build_delivers isBrief valid small _ marked.2 _ _ sound spares).imp ?_
        rintro main afterMain ⟨sound, spares, isMain⟩
        rw [ends_bind]
        refine (Library.flush_delivers isBrief _ _ sound spares).imp ?_
        rintro helpers afterHelpers ⟨sound, spares, areFew, areHelpers⟩
        rw [ends_bind]
        refine (ClassInitializer.build_delivers isBrief few _ _ sound spares).imp ?_
        rintro initializer afterInitializer ⟨_, spares, isInitializer⟩
        rw [ends_bind]
        refine (assembleClass_succeeds isBrief isBrief' ?_ (spares.mono ?_)).imp (fun _ _ _ => trivial)
        · exact List.forall_mem_cons.mpr ⟨isMain, List.forall_mem_cons.mpr ⟨isInitializer, areHelpers⟩⟩
        · simp only [List.length_cons]
          omega
  unfold Ends at ends
  unfold compile compileTraced
  generalize (Program.build options program).run .empty = outcome at ends
  rcases outcome with ⟨error | file, build⟩
  · exact ends.elim
  · exact ⟨file, rfl⟩

theorem compile_succeeds_as_main (lineNumbers : Bool) {program : Program} (valid : program.Valid)
    (small : Stmt.sizes program ≤ 80) : ∃ file, compile { lineNumbers } program = .ok file := by
  have name : Brief "Main" := ClassFile.brief_of_fixed (by simp [ClassFile.fixedNames])
  have super : Brief "java/lang/Object" := ClassFile.brief_of_fixed (by simp [ClassFile.fixedNames])
  exact compile_succeeds { lineNumbers } name super valid small

def menu : Program :=
  let choice : VarName := ⟨"K"⟩
  [.line 10, .gosub 40, .onGoto (.scalar choice) [10, 30],
    .line 30, .finish,
    .line 40, .forLoop choice (.number .one) (.number .ten) none,
    .conditional (.scalar choice) [.onGosub (.scalar choice) [50, 60, 50]] [.goto 30],
    .next [choice], .returnFromSub,
    .line 50, .print [.expr (.text "HELLO"), .comma],
    .line 60, .data ["7"], .read [.scalar choice], .returnFromSub]

theorem menu_valid : menu.Valid := by
  have number : VarName.kind ⟨"K"⟩ = .number := by decide
  have choice : (Expr.scalar ⟨"K"⟩).HasKind .number := by
    rw [← number]
    exact .scalar _
  have all : Stmt.inlinedAll menu = [.line 10, .gosub 40, .onGoto (.scalar ⟨"K"⟩) [10, 30], .line 30,
      .finish, .line 40, .forLoop ⟨"K"⟩ (.number .one) (.number .ten) none,
      .conditional (.scalar ⟨"K"⟩) [.onGosub (.scalar ⟨"K"⟩) [50, 60, 50]] [.goto 30],
      .onGosub (.scalar ⟨"K"⟩) [50, 60, 50], .goto 30, .next [⟨"K"⟩], .returnFromSub, .line 50,
      .print [.expr (.text "HELLO"), .comma], .line 60, .data ["7"], .read [.scalar ⟨"K"⟩],
      .returnFromSub] := rfl
  have marked : Stmt.markers menu = [10, 30, 40, 50, 60] := rfl
  refine ⟨by rw [marked]; decide, ?_, ?_, ?_, ?_⟩
  · rw [all, marked]
    simp [Stmt.targets]
  · rw [all]
    simp only [List.forall_mem_cons, Stmt.WellKinded, choice, number, true_and]
    refine ⟨⟨.number _, .number _, by simp⟩, ⟨⟨_, .text _⟩, trivial, by simp⟩, ⟨?_, by simp⟩, by simp⟩
    exact Expr.HasKind.scalar _
  · rw [all]
    intro use member
    cases member
  · have closed : LoopMark.Nested (.forLoop ⟨"K"⟩ :: ([] ++ [LoopMark.next (some ⟨"K"⟩)])) := .pair rfl .nil .nil
    exact closed

theorem menu_compiles (lineNumbers : Bool) : ∃ file, compile { lineNumbers } menu = .ok file :=
  compile_succeeds_as_main lineNumbers menu_valid (by decide +kernel)

end Program

end BasicCompiler
