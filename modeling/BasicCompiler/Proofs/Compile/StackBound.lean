import BasicCompiler.Proofs.Compile.DisciplinedClass
import BasicCompiler.Proofs.Compile.MainContents
import BasicCompiler.Proofs.Method.Reached

/-!
The stack bound that a main method declares is an option of the compiler. It suffices for the programs
whose statements need no more slots than it grants, and for no others.
-/

namespace BasicCompiler

open Instruction

/-- The code of an assignment, which has no gaps. -/
theorem Stmt.compileAll_assign {surroundings : Surroundings} (assigned : Variable) (value : Expr) :
    Ends (compileAll surroundings [.assign assigned value]) MainMethod.opened
      (fun _ final => ∃ items slots,
        final.draft.items.toList = MainMethod.opened.draft.items.toList ++ items ∧
        Climbs ⟨slots, none, MainMethod.stackOf, false⟩ (some []) items (some [])
          (assigned.height value.height))
      (fun _ _ => True) := by
  obtain ⟨piece, opens⟩ := MainMethod.opened_paves
  have stands : MainMethod.opened.draft.At
      (MainMethod.region false MainMethod.opened.draft.items.toList (some [])) (some []) 0 :=
    ⟨⟨[], 0, (List.append_nil _).symm, .nil, rfl⟩, opens.fits.sound, opens.fits.handlers⟩
  rw [compileAll, ends_bind]
  refine (compileAssign_moves assigned value _ _ stands).imp ?_
  rintro _ final ⟨⟨⟨items, height, appended, climbs, isPeak⟩, _⟩, _⟩
  have entered : (MainMethod.region false MainMethod.opened.draft.items.toList (some [])).base = 0 := rfl
  have left : flowHeight (some []) = 0 := rfl
  exact ⟨items, _, appended, climbs.congr (by omega)⟩

namespace MethodInfo.Realizes

variable {pool : ConstantPool} {header : MethodHeader} {method : MethodInfo}
  {surroundings : Surroundings} {body : Body} {pieces : List (List Item)} {last : List Item}
  {owner : String} {target : Label → Nat} {code : CodeAttribute} {instructions : List Instruction}

/-- A run gets to the first statement, and finds an empty stack there. -/
theorem main_begins {program : Program}
    (drafted : MainMethod.Drafted surroundings program body pieces last)
    (compiled : (MainMethod.compile surroundings program).run (Body.empty MainMethod.descriptor) =
      (.ok (), body))
    (laid : Laid pool owner target code.bytes 0 body.draft.items.toList instructions code.bytes.size) :
    ∃ front start, Laid pool owner target code.bytes 0 MainMethod.opened.draft.items.toList front start ∧
      code.Reached pool instructions start [] := by
  obtain ⟨height, _, climbs⟩ : MainMethod.Low
      ⟨body.draft.scope.nextSlot, none, MainMethod.stackOf, false⟩ (some []) _ _ :=
    MainMethod.initializers_low drafted.sound.initial
  obtain ⟨statements, items⟩ := (MainMethod.compile_framed surroundings program).of_run compiled
  rw [items] at laid
  change Laid pool owner target code.bytes 0 ([Item.insn (.branch Opcode.goto MainLabel.init)] ++
    ([Item.label MainLabel.body] ++ (statements ++ ([Item.label MainLabel.init] ++
      (body.draft.scope.initializers.map Item.insn ++ [Item.insn (.branch Opcode.goto MainLabel.body)])))))
    instructions code.bytes.size at laid
  obtain ⟨first, _, _, all, jump, laid⟩ := laid.split
  obtain ⟨_, _, start, rfl, isBody, laid⟩ := laid.split
  obtain ⟨_, _, _, rfl, _, laid⟩ := laid.split
  obtain ⟨_, _, _, rfl, isInit, laid⟩ := laid.split
  obtain ⟨_, _, _, rfl, values, jump'⟩ := laid.split
  refine ⟨_, start, jump.append isBody, ?_⟩
  obtain ⟨isBody, rfl⟩ := isBody.labelled
  obtain ⟨isInit, rfl⟩ := isInit.labelled
  have toInit : code.Reached pool instructions _ [] :=
    jump.goes (by simp +contextual [all]) CodeAttribute.reached_transfers .start
  rw [isInit] at toInit
  have initialized := (climbs.passed rfl values (by simp +contextual [all])
    CodeAttribute.reached_transfers rfl toInit rfl).1
  have toBody := jump'.goes (by simp +contextual [all]) CodeAttribute.reached_transfers initialized
  rwa [isBody] at toBody

theorem main_climbs {assigned : Variable} {value : Expr}
    (drafted : MainMethod.Drafted surroundings [.assign assigned value] body pieces last)
    (compiled : (MainMethod.compile surroundings [.assign assigned value]).run
      (Body.empty MainMethod.descriptor) = (.ok (), body))
    (realizes : method.Realizes pool body.draft header) {limit : Nat}
    (low : limit < assigned.height value.height) :
    ∃ code instructions, method.code = some code ∧ code.maxStack = header.maxStack ∧
      decode code.bytes = .ok instructions ∧
      ∃ position stack, code.Reached pool instructions position stack ∧ limit < stack.height := by
  obtain ⟨code, instructions, target, stackAt, isCode, maxStack, disciplined, rests, _⟩ :=
    realizes.main_profiled drafted compiled
  refine ⟨code, instructions, isCode, maxStack, disciplined.decoded, ?_⟩
  obtain ⟨front, start, before, reached⟩ := main_begins drafted compiled rests.laid
  obtain ⟨through, exit, rest, unknown, contents⟩ := (MainMethod.compile_contents _ _).of_run compiled
  obtain ⟨items, slots, appended, climbs⟩ :=
    (Stmt.compileAll_assign assigned value).of_run contents.ran
  have laid := rests.laid
  rw [contents.closes.items, appended, List.append_assoc, List.append_assoc, List.append_assoc] at laid
  obtain ⟨_, _, _, all, before', laid⟩ := laid.split
  obtain ⟨_, _, _, rfl, stated, _⟩ := laid.split
  obtain ⟨rfl, rfl⟩ := before.unique before'
  have high := (climbs.passed rfl stated (by simp +contextual [all]) CodeAttribute.reached_transfers rfl
    reached rfl).2
  by_contra none
  push Not at none
  exact absurd (high limit none) (Nat.not_le.mpr low)

end MethodInfo.Realizes

namespace Program

def height (program : Program) : Nat := Stmt.heightAll program

/-- The declared bound suffices exactly for the programs that need no more slots. -/
theorem compile_bounds_stack (options : Options) (program : Program) (file : ClassFile)
    (compiled : compile options program = .ok file) (positive : 0 < options.maxStack) :
    ∃ main others code instructions stackAt, file.methods = main :: others ∧
      main.code = some code ∧ code.maxStack = options.maxStack ∧
      code.Disciplined file.pool instructions stackAt ∧
      (∀ position stack, code.Reached file.pool instructions position stack →
        Starts instructions position ∧ stackAt position = stack) ∧
      (code.Bounded file.pool instructions stackAt ↔ program.height ≤ options.maxStack.toNat) ∧
      (program.height ≤ options.maxStack.toNat → ∀ position stack,
        code.Reached file.pool instructions position stack → stack.height ≤ code.maxStack.toNat) := by
  obtain ⟨lines, body, built⟩ := built_of_compile compiled
  obtain ⟨main, initializer, helpers, _, methods, isMain, _⟩ := built.methods
  obtain ⟨pieces, last, drafted⟩ := built.drafted
  have slots : 0 < options.maxStack.toNat := UInt16.lt_iff_toNat_lt.mp positive
  obtain ⟨code, instructions, _, stackAt, isCode, limit, disciplined, _, low, isLow, bounds⟩ :=
    isMain.realizes.main_profiled drafted built.compiled
  have bounded := bounds.trans (show max program.height low ≤ options.maxStack.toNat ↔
    program.height ≤ options.maxStack.toNat by omega)
  refine ⟨main, initializer :: helpers, code, instructions, stackAt, methods, isCode, limit,
    disciplined, fun position stack reached => disciplined.reached reached, bounded, ?_⟩
  intro enough position stack reached
  obtain ⟨⟨instruction, isPart, rfl⟩, rfl⟩ := disciplined.reached reached
  exact (bounded.mpr enough instruction isPart).1

theorem menu_bounds_stack :
    ∃ file, compile {} menu = .ok file ∧ (0 : UInt16) < ({} : Options).maxStack ∧ menu.height = 2 ∧
      ∃ main others code instructions stackAt, file.methods = main :: others ∧
        main.code = some code ∧ code.maxStack = 64 ∧
        code.Disciplined file.pool instructions stackAt ∧
        (∀ position stack, code.Reached file.pool instructions position stack →
          Starts instructions position ∧ stackAt position = stack) ∧
        (code.Bounded file.pool instructions stackAt ↔ menu.height ≤ 64) ∧
        (menu.height ≤ 64 → ∀ position stack,
          code.Reached file.pool instructions position stack → stack.height ≤ code.maxStack.toNat) := by
  obtain ⟨file, compiled⟩ := menu_compiles false
  exact ⟨file, compiled, by decide, by decide, compile_bounds_stack {} menu file compiled (by decide)⟩

end Program

def Expr.nested (name : VarName) : Nat → Expr
  | 0 => .number .one
  | depth + 1 => .element name [nested name depth]

namespace Expr

variable (name : VarName) (depth : Nat)

theorem nested_height : (nested name depth).height = depth + 1 := by
  induction depth with
  | zero => simp [nested, height]
  | succ depth ih =>
      simp only [nested, height, heightThen, ih]
      omega

theorem nested_size : (nested name depth).size = depth + 1 := by
  induction depth with
  | zero => simp [nested, size]
  | succ depth ih =>
      simp only [nested, size, sizes, ih]
      omega

theorem nested_hasKind (number : name.kind = .number) : (nested name depth).HasKind .number := by
  induction depth with
  | zero => exact .number _
  | succ depth ih =>
      rw [← number]
      exact .element name (.cons ih .nil)

theorem nested_arrayUses : ∀ use ∈ (nested name depth).arrayUses, use = (name, 1) := by
  induction depth with
  | zero => simp [nested, arrayUses]
  | succ depth ih =>
      simp only [nested, arrayUses, arrayUsesAll, List.length_singleton, List.append_nil,
        List.forall_mem_cons, true_and]
      exact ih

end Expr

namespace Program

def nesting (depth : Nat) : Program := [.assign (.scalar ⟨"X"⟩) (.nested ⟨"A"⟩ depth)]

theorem nesting_valid (depth : Nat) : (nesting depth).Valid := by
  have all : Stmt.inlinedAll (nesting depth) = nesting depth := rfl
  have number : (Variable.scalar ⟨"X"⟩).kind = .number := by decide
  have uses := Expr.nested_arrayUses ⟨"A"⟩ depth
  refine ⟨List.nodup_nil, ?_, ?_, ?_, ?_⟩
  · rw [all]
    exact List.forall_mem_singleton.mpr nofun
  · rw [all]
    refine List.forall_mem_singleton.mpr ⟨?_, .scalar _⟩
    rw [number]
    exact Expr.nested_hasKind ⟨"A"⟩ depth (by decide)
  · have only : (Stmt.inlinedAll (nesting depth)).flatMap Stmt.arrayUses =
        (Expr.nested ⟨"A"⟩ depth).arrayUses := List.append_nil _
    rw [only]
    intro use member
    refine ⟨.inl (by rw [uses use member]), fun other member' _ => ?_⟩
    rw [uses use member, uses other member']
  · exact .nil

/-- Sixty-four nested elements need a slot more than the default bound. -/
theorem nesting_overflows :
    ∃ file main others code instructions, compile {} (nesting 64) = .ok file ∧
      file.methods = main :: others ∧ main.code = some code ∧
      decode code.bytes = .ok instructions ∧
      ∃ position stack, code.Reached file.pool instructions position stack ∧
        code.maxStack.toNat < stack.height := by
  have size : Stmt.sizes (nesting 64) ≤ 80 := by
    simp only [nesting, Stmt.sizes, Stmt.size, Variable.size, Expr.nested_size]
    decide
  have high : 64 < (Variable.scalar ⟨"X"⟩).height (Expr.nested ⟨"A"⟩ 64).height := by
    rw [Variable.height, Expr.nested_height]
    decide
  obtain ⟨file, compiled⟩ := compile_succeeds_as_main false (nesting_valid 64) size
  obtain ⟨lines, body, built⟩ := built_of_compile compiled
  obtain ⟨main, initializer, helpers, _, methods, isMain, _⟩ := built.methods
  obtain ⟨pieces, last, drafted⟩ := built.drafted
  obtain ⟨code, instructions, isCode, limit, decoded, position, stack, reached, exceeds⟩ :=
    isMain.realizes.main_climbs drafted built.compiled high
  refine ⟨file, main, initializer :: helpers, code, instructions, compiled, methods, isCode, decoded,
    position, stack, reached, ?_⟩
  rw [limit]
  exact exceeds

end Program

end BasicCompiler
