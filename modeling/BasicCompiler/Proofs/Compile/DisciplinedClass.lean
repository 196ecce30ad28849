import BasicCompiler.Proofs.Compile.Evaluations
import BasicCompiler.Proofs.Compile.WellFormedClass
import BasicCompiler.Proofs.Method.Reached

/-!
The code of compiled classes respects the operand stack.
-/

namespace BasicCompiler

open ValueType

/-- The code of an expression has no gaps, and leaves one more value on the stack than it finds there. -/
theorem Expr.compile_pushes {expr : Expr} {before after : Body} (compiled : expr.Compiled before after)
    (sound : before.draft.scope.Sound 1) (handlers : before.draft.handlers = #[]) (stack : StackType) :
    ∃ items slots height, after.draft.items.toList = before.draft.items.toList ++ items ∧
      Climbs ⟨slots, none, MainMethod.stackOf, false⟩ (some stack) items (some (expr.kind.type :: stack))
        height := by
  have stands : before.draft.At (MainMethod.region false before.draft.items.toList (some stack)) (some stack)
      (max (max 0 stack.height) (max 0 stack.height)) :=
    ⟨⟨[], 0, (List.append_nil _).symm, .nil, rfl⟩, sound, handlers⟩
  obtain ⟨⟨⟨items, height, appended, climbs, _⟩, _⟩, _⟩ := (expr.compile_moves stack before _ stands).of_run compiled
  exact ⟨items, _, height, appended, climbs⟩

/-- The code of an expression stands between two positions, and leaves one more value on the stack than
it finds there. -/
structure Expr.Pushes (pool : ConstantPool) (owner : String) (target : Label → Nat) (code : Array UInt8)
    (instructions : List Instruction) (stackAt : Nat → StackType) (expr : Expr) (before after : Body) :
    Prop where
  compiled : expr.Compiled before after
  pushes : ∃ front back start stop,
    Laid pool owner target code 0 before.draft.items.toList front start ∧
    Laid pool owner target code 0 after.draft.items.toList back stop ∧
    Instruction.Starts instructions start ∧ Instruction.Starts instructions stop ∧
    stackAt stop = expr.kind.type :: stackAt start

theorem Expr.Compiled.pushes {expr : Expr} {before after : Body} (compiled : expr.Compiled before after)
    (sound : before.draft.scope.Sound 1) (handlers : before.draft.handlers = #[]) {items : List Item}
    (inside : after.draft.items.toList <+: items) {pool : ConstantPool} {owner : String}
    {target : Label → Nat} {code : CodeAttribute} {instructions : List Instruction}
    {stackAt : Nat → StackType} {stop : Nat}
    (laid : Laid pool owner target code.bytes 0 items instructions stop)
    (disciplined : code.Disciplined pool instructions stackAt) :
    expr.Pushes pool owner target code.bytes instructions stackAt before after := by
  obtain ⟨rest, rfl⟩ := inside
  obtain ⟨first, _, point, rfl, laid, _⟩ := laid.split
  have whole := laid
  obtain ⟨_, _, _, appended, _⟩ := compile_pushes compiled sound handlers []
  rw [appended] at laid
  obtain ⟨front, parts, start, rfl, before', laid⟩ := laid.split
  obtain ⟨_, _, _, appended', climbs⟩ := compile_pushes compiled sound handlers (stackAt start)
  cases List.append_cancel_left (appended.symm.trans appended')
  exact ⟨compiled, _, _, start, point, before', whole, climbs.pushed rfl laid (by simp +contextual) disciplined⟩

/-- The stack is empty where the blocks of a main method start, at its lines and between its
statements, and every expression pushes its value. -/
structure MainMethod.Rests (surroundings : Surroundings) (program : Program) (body : Body)
    (pool : ConstantPool) (owner : String) (target : Label → Nat) (code : Array UInt8)
    (instructions : List Instruction) (stackAt : Nat → StackType) : Prop where
  compiled : (compile surroundings program).run (Body.empty descriptor) = (.ok (), body)
  laid : Laid pool owner target code 0 body.draft.items.toList instructions code.size
  blocks : ∀ label ∈ Item.definitions body.draft.items.toList,
    (label ∈ [MainLabel.init, MainLabel.body, MainLabel.exit, MainLabel.returnDispatch] ∨
      ∃ line, label = LineSet.labelOf line) →
    Instruction.Starts instructions (target label) ∧ stackAt (target label) = []
  places : ∀ place, Stmt.Between surroundings program opened place → ∃ front point,
    Laid pool owner target code 0 place.draft.items.toList front point ∧
    Instruction.Starts instructions point ∧ stackAt point = []
  statements : ∀ stmt ∈ Stmt.inlinedAll program, ∃ site before after,
    Stmt.Occurs surroundings stmt site before after program 0 opened
  expressions : ∀ stmt site before after,
    Stmt.Occurs surroundings stmt site before after program 0 opened →
    Evaluated (Expr.Pushes pool owner target code instructions stackAt) stmt.expressions before after

theorem MainMethod.stackOf_block {label : Label}
    (isBlock : label ∈ [MainLabel.init, MainLabel.body, MainLabel.exit, MainLabel.returnDispatch] ∨
      ∃ line, label = LineSet.labelOf line) : stackOf label = some [] := by
  rcases isBlock with fixed | ⟨line, rfl⟩
  · simp only [List.mem_cons, List.not_mem_nil, or_false] at fixed
    rcases fixed with rfl | rfl | rfl | rfl <;> rfl
  · exact stackOf_line line

namespace MethodInfo.Realizes

variable {pool : ConstantPool} {header : MethodHeader} {method : MethodInfo}

theorem main_profiled {surroundings : Surroundings} {program : Program} {body : Body}
    {pieces : List (List Item)} {last : List Item}
    (drafted : MainMethod.Drafted surroundings program body pieces last)
    (compiled : (MainMethod.compile surroundings program).run (Body.empty MainMethod.descriptor) =
      (.ok (), body))
    (realizes : method.Realizes pool body.draft header) :
    ∃ code instructions target stackAt, method.code = some code ∧ code.maxStack = header.maxStack ∧
      code.Disciplined pool instructions stackAt ∧
      MainMethod.Rests surroundings program body pool header.owner target code.bytes instructions
        stackAt ∧
      ∃ low ≤ 1, (code.Bounded pool instructions stackAt ↔
        max (Stmt.heightAll program) low ≤ header.maxStack.toNat) := by
  obtain ⟨unit, target, instructions, realizes, carries⟩ := realizes
  obtain ⟨code, isCode, limit, _, bytes, rows⟩ := carries.code
  rw [realizes.headed] at limit
  obtain ⟨low, isLow, ends⟩ := drafted.ends
  have laid := realizes.laid
  rw [drafted.items] at laid
  obtain ⟨marks, marked, places⟩ := drafted.climbs.marked ends laid
  rw [← drafted.items] at marked
  have entered (label : Label) (defined : label ∈ Item.definitions body.draft.items.toList)
      (stack : StackType) (typed : MainMethod.stackOf label = some stack) :=
    marked.reached realizes.laid.decodes (marked.labels label defined stack typed)
  have disciplined := realizes.disciplined drafted.certified marked bytes rows
  obtain ⟨through, _, _, _, contents⟩ := (MainMethod.compile_contents _ _).of_run compiled
  have whole : Laid pool header.owner target code.bytes 0 body.draft.items.toList instructions
      code.bytes.size := bytes ▸ realizes.laid
  refine ⟨code, instructions, target, Marked.stackAt marks, isCode, limit, disciplined,
    ⟨compiled, whole, ?_, ?_, ?_, ?_⟩, low, isLow, limit ▸ realizes.bounded_iff marked bytes⟩
  · exact fun label defined isBlock => entered label defined [] (MainMethod.stackOf_block isBlock)
  · intro place isPlace
    obtain ⟨front, back, isFront, items⟩ := drafted.places place isPlace
    obtain ⟨first, point, laidFront, reaches⟩ := places front back isFront
    rw [bytes, items]
    exact ⟨first, point, laidFront, marked.reached realizes.laid.decodes reaches⟩
  · intro stmt member
    obtain ⟨front, back, split⟩ := List.append_of_mem member
    exact ⟨_, Stmt.occurs_of_split program split 0 contents.ran⟩
  · intro stmt site before after occurs
    obtain ⟨ran, _, later⟩ := occurs.compiled contents.ran rfl
    obtain ⟨_, opens⟩ := MainMethod.opened_paves
    refine ((stmt.compile_evaluates before).of_run ran).imp fun expr _ _ lower upper compiled => ?_
    have reached := occurs.reached.trans lower
    exact compiled.pushes (reached.sound 1 opens.fits.sound) (reached.handlers.trans opens.fits.handlers)
      ((upper.trans later.draft).items.trans contents.precedes) whole disciplined

theorem disciplined {draft : Draft} {frame : Frame} (realizes : method.Realizes pool draft header)
    (certified : draft.Certified frame) (limit : frame.limit = some header.maxStack.toNat) :
    ∃ code instructions stackAt, method.code = some code ∧
      code.Disciplined pool instructions stackAt ∧ code.Bounded pool instructions stackAt := by
  obtain ⟨unit, target, instructions, realizes, carries⟩ := realizes
  obtain ⟨code, isCode, stack, _, bytes, rows⟩ := carries.code
  obtain ⟨height, climbs, enough⟩ := certified.typed
  obtain ⟨marks, marked⟩ := climbs.marked realizes.laid
  have low : height ≤ code.maxStack.toNat := enough _ (by rw [limit, stack, realizes.headed])
  exact ⟨code, instructions, Marked.stackAt marks, isCode,
    realizes.disciplined certified marked bytes rows, (realizes.bounded_iff marked bytes).mpr low⟩

end MethodInfo.Realizes

namespace Program

/-- In every method of a compiled class stacks can be assigned to the instructions. -/
theorem compile_disciplined (options : Options) (program : Program) (file : ClassFile)
    (compiled : compile options program = .ok file) :
    ∃ main others, file.methods = main :: others ∧
      (∃ lines body code instructions target stackAt, LineSet.scan program = .ok lines ∧
        main.code = some code ∧ code.Disciplined file.pool instructions stackAt ∧
        MainMethod.Rests ⟨lines, DataTable.scan program, options.lineNumbers⟩ program body file.pool
          options.className target code.bytes instructions stackAt) ∧
      ∀ method ∈ others, ∃ code instructions stackAt, method.code = some code ∧
        code.Disciplined file.pool instructions stackAt ∧
        code.Bounded file.pool instructions stackAt := by
  obtain ⟨lines, body, built⟩ := built_of_compile compiled
  obtain ⟨main, initializer, helpers, cells, methods, isMain, isInitializer, areHelpers⟩ := built.methods
  obtain ⟨pieces, last, drafted⟩ := built.drafted
  obtain ⟨code, instructions, target, stackAt, isCode, _, disciplined, rests, _⟩ :=
    isMain.realizes.main_profiled drafted built.compiled
  refine ⟨main, initializer :: helpers, methods,
    ⟨lines, body, code, instructions, target, stackAt, built.scanned, isCode, disciplined, rests⟩,
    List.forall_mem_cons.mpr ⟨?_, ?_⟩⟩
  · exact isInitializer.realizes.disciplined (ClassInitializer.draft_certified _ cells).1 rfl
  · intro method isMethod
    obtain ⟨helper, isHelper⟩ := areHelpers method isMethod
    exact isHelper.realizes.disciplined helper.draft_certified rfl

theorem menu_disciplined :
    ∃ file, compile {} menu = .ok file ∧ ∃ main others, file.methods = main :: others ∧
      (∃ lines body code instructions target stackAt, LineSet.scan menu = .ok lines ∧
        main.code = some code ∧ code.Disciplined file.pool instructions stackAt ∧
        MainMethod.Rests ⟨lines, DataTable.scan menu, false⟩ menu body file.pool "Main" target
          code.bytes instructions stackAt) ∧
      ∀ method ∈ others, ∃ code instructions stackAt, method.code = some code ∧
        code.Disciplined file.pool instructions stackAt ∧
        code.Bounded file.pool instructions stackAt := by
  obtain ⟨file, compiled⟩ := menu_compiles false
  exact ⟨file, compiled, compile_disciplined {} menu file compiled⟩

end Program

end BasicCompiler
