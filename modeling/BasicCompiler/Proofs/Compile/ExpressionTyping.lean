import BasicCompiler.Proofs.Compile.Checks
import BasicCompiler.Proofs.Compile.Heights

/-!
The code of an expression leaves one more value on the stack than it finds there, whose type follows
from the kind of the expression. On the way the stack gets as high as the expression tells.
-/

namespace BasicCompiler

open ValueType Draft Body

def ValueKind.type : ValueKind → ValueType
  | number => float
  | text => reference

theorem ArrayShape.kind_and_dimensions {kind : ValueKind} {count : Nat} {shape : ArrayShape}
    (isShape : of? kind count = some shape) : shape.kind = kind ∧ shape.dimensions = count := by
  unfold of? at isShape
  split at isShape <;> cases isShape <;> exact ⟨rfl, rfl⟩

theorem ArrayShape.count_pos {kind : ValueKind} {count : Nat} {shape : ArrayShape}
    (isShape : of? kind count = some shape) : 0 < count := by
  rw [Nat.pos_iff_ne_zero]
  rintro rfl
  cases kind <;> cases isShape

def ArrayShape.subscripted (shape : ArrayShape) : StackType :=
  List.replicate shape.dimensions float ++ [reference]

theorem ArrayShape.get_signature (shape : ArrayShape) :
    Descriptor.Signature (Helper.get shape).spec.descriptor shape.subscripted [shape.kind.type] := by
  cases shape <;> decide

namespace StackType

@[simp] theorem height_kind (kind : ValueKind) (stack : StackType) :
    height (kind.type :: stack) = height stack + 1 :=
  height_cons (by cases kind <;> decide) stack

@[simp] theorem height_floats (count : Nat) : height (List.replicate count float) = count := by
  induction count with
  | zero => rfl
  | succ count ih => rw [List.replicate_succ, height_float, ih]

end StackType

namespace MainMethod

/-- The stacks at the labels of a main method. The labels of comparisons, which start with a `c`, are
used nowhere else, and no jump leads to the end of the code whose faults are reported. -/
def stackOf (label : Label) : Option StackType :=
  if label.toList.head? = some 'c' ∨ label = MainLabel.bodyEnd then none
  else if label = MainLabel.handler then some [reference]
  else some []

def region (gaps : Bool) (before : List Item) (entry : Option StackType) : Region where
  before := before
  handlers := #[]
  entry := entry
  parameters := 1
  limit := none
  stackOf := stackOf
  gaps := gaps

theorem numbered_head {stem : String} {first : Char} (isFirst : stem.toList.head? = some first)
    (number : Nat) : (Label.numbered stem number).toList.head? = some first := by
  have spelled : Label.numbered stem number = stem ++ "_" ++ toString number := rfl
  rw [spelled, String.toList_append, String.toList_append, List.append_assoc, List.head?_append,
    isFirst]
  rfl

theorem stackOf_numbered (stem : String) (number : Nat)
    (plain : stem.toList.head?.any (fun first => first != 'c' && first != '_') = true) :
    stackOf (Label.numbered stem number) = some [] := by
  obtain ⟨first, isFirst, others⟩ := (Option.any_eq_true _ _).mp plain
  simp only [Bool.and_eq_true, bne_iff_ne, ne_eq] at others
  have head := numbered_head isFirst number
  have apart {label : Label} (fixed : label.toList.head? = some '_') :
      Label.numbered stem number ≠ label := by
    rintro rfl
    exact others.2 (Option.some.inj (head.symm.trans fixed))
  have reached : ¬ ((Label.numbered stem number).toList.head? = some 'c' ∨
      Label.numbered stem number = MainLabel.bodyEnd) := by
    rintro (choice | isEnd)
    · exact others.1 (Option.some.inj (head.symm.trans choice))
    · exact apart (by decide) isEnd
  rw [stackOf, if_neg reached, if_neg (apart (by decide))]

theorem stackOf_choice {stem : String} (isFirst : stem.toList.head? = some 'c') (number : Nat) :
    stackOf (Label.numbered stem number) = none :=
  if_pos (.inl (numbered_head isFirst number))

theorem stackOf_line (line : LineNumber) : stackOf (LineSet.labelOf line) = some [] := by
  exact stackOf_numbered "line" line.toNat (by decide)

end MainMethod

/-- Compiling an expression only takes new slots: loops and return points stay as they are. -/
structure Body.Keeps (body final : Body) : Prop where
  slots : body.draft.scope.nextSlot ≤ final.draft.scope.nextSlot
  loops : final.loops = body.loops
  returns : final.returns = body.returns
  usesReturn : final.usesReturn = body.usesReturn

namespace Body.Keeps

theorem refl (body : Body) : body.Keeps body := ⟨Nat.le_refl _, rfl, rfl, rfl⟩

theorem trans {first second third : Body} (before : first.Keeps second) (after : second.Keeps third) :
    first.Keeps third :=
  ⟨Nat.le_trans before.slots after.slots, after.loops.trans before.loops, after.returns.trans before.returns,
    after.usesReturn.trans before.usesReturn⟩

theorem draft {body : Body} {draft : Draft}
    (slots : body.draft.scope.nextSlot ≤ draft.scope.nextSlot) : body.Keeps { body with draft } :=
  ⟨slots, rfl, rfl, rfl⟩

end Body.Keeps

section

variable {gaps : Bool} {before : List Item} {entry : Option StackType}

/-- Code of a main method that takes the stack from `stack` to `after`, if it is compiled at all, and
gets no higher than `height` unless the stack was higher before. -/
def Moves (gaps : Bool) (before : List Item) (entry : Option StackType) (action : BodyM Unit)
    (stack after : StackType) (height : Nat) : Prop :=
  ∀ (body : Body) (peak : Nat), body.draft.At (MainMethod.region gaps before entry) (some stack) peak →
    Ends action body
      (fun _ final => final.draft.At (MainMethod.region gaps before entry) (some after) (max peak height) ∧
        body.Keeps final)
      (fun _ _ => True)

namespace Moves

variable {stack middle after : StackType} {height height' : Nat} {action first next : BodyM Unit}

theorem congr (moves : Moves gaps before entry action stack after height)
    (same : max stack.height height = max stack.height height') :
    Moves gaps before entry action stack after height' := by
  intro body peak stands
  have low := stands.low
  refine (moves body peak stands).imp ?_
  exact fun _ _ ⟨stands', keeps⟩ => ⟨stands'.congr (by omega), keeps⟩

theorem nothing : Moves gaps before entry (pure ()) stack stack 0 :=
  fun body _ stands => ⟨stands.congr (Nat.max_zero _).symm, .refl body⟩

theorem follow {body : Body} {peak : Nat} {success : Unit → Body → Prop}
    (moves : Moves gaps before entry first stack middle height)
    (stands : body.draft.At (MainMethod.region gaps before entry) (some stack) peak)
    (rest : ∀ final : Body,
      final.draft.At (MainMethod.region gaps before entry) (some middle) (max peak height) →
      body.Keeps final → Ends next final success (fun _ _ => True)) :
    Ends (do first; next) body success (fun _ _ => True) := by
  rw [ends_bind]
  exact (moves body peak stands).imp (fun _ final ⟨stands', keeps⟩ => rest final stands' keeps)

theorem bind (moves : Moves gaps before entry first stack middle height)
    (moves' : Moves gaps before entry next middle after height') :
    Moves gaps before entry (do first; next) stack after (max height height') := by
  intro body peak stands
  refine moves.follow stands fun between stands' keeps => ?_
  refine (moves' between _ stands').imp ?_
  rintro _ final ⟨stands'', keeps'⟩
  exact ⟨stands''.congr (Nat.max_assoc ..), keeps.trans keeps'⟩

theorem expect {expr : Expr} {place : Place} {expected : ValueKind}
    (moves : expr.kind = expected → Moves gaps before entry next stack after height) :
    Moves gaps before entry (do expr.expect place expected; next) stack after height := by
  intro body peak stands
  rw [ends_bind, ends_expect]
  split
  · rename_i isExpected
    exact moves isExpected body peak stands
  · trivial

theorem checked {expr : Expr} {place : Place} {expected : ValueKind}
    (moves : Moves gaps before entry expr.compile stack (expr.kind.type :: stack) height)
    (moves' : Moves gaps before entry next (expected.type :: stack) after height') :
    Moves gaps before entry (do expr.expect place expected; expr.compile; next) stack after
      (max height height') :=
  .expect fun isExpected => (isExpected ▸ moves).bind moves'

theorem draft {action : DraftM Unit}
    (drafts : ∀ (draft : Draft) (peak : Nat),
      draft.At (MainMethod.region gaps before entry) (some stack) peak →
      Drafts action draft fun _ final =>
        final.At (MainMethod.region gaps before entry) (some after) (max peak height) ∧
          draft.scope.nextSlot ≤ final.scope.nextSlot) :
    Moves gaps before entry (liftM action) stack after height := by
  intro body peak stands
  rw [ends_lift]
  refine (drafts body.draft peak stands).mono ?_
  rintro _ final ⟨stands', slots⟩
  exact ⟨stands', .draft slots⟩

theorem emit {insn : Insn} (shaped : insn.Shaped) (executes : insn.execute stack = some after)
    (others : insn.slot? = none ∧ insn.labels = [] ∧ insn.continues = true) :
    Moves gaps before entry (liftM (Draft.emit insn)) stack after after.height :=
  .draft fun _ _ stands => ⟨stands.plain insn shaped executes others, Nat.le_refl _⟩

theorem op (opcode : Opcode) (popped pushed : StackType)
    (effect : opcode.shape = .plain 0 ∧ opcode.continues = true ∧ opcode.Replaces popped pushed) :
    Moves gaps before entry (liftM (Draft.op opcode)) (popped ++ stack) (pushed ++ stack)
      (pushed ++ stack).height :=
  .emit effect.1 (effect.2.2.execute stack) ⟨rfl, rfl, effect.2.1⟩

theorem call (helper : Helper) (parameters result : StackType)
    (signature : Descriptor.Signature helper.spec.descriptor parameters result) :
    Moves gaps before entry (liftM (Draft.call helper)) (parameters ++ stack) (result ++ stack)
      (result ++ stack).height :=
  .emit trivial (signature.invoke [] stack) ⟨rfl, rfl, rfl⟩

end Moves

namespace Expr

variable {stack : StackType} {peak : Nat}

theorem pushScalar_moves (name : VarName) :
    Moves gaps before entry (liftM (pushScalar name)) stack (name.kind.type :: stack)
      (stack.height + 1) := by
  refine .draft fun draft peak stands => ?_
  have named := stands.slotOf name.spelling (initialOf name.kind)
  have within := (stands.sound.slotOf name.spelling (initialOf name.kind)).2
  unfold pushScalar scalarSlot
  rw [drafts_bind, drafts_slotOf]
  generalize name.kind = kind at named within ⊢
  cases kind with
  | number =>
      exact ⟨.congr (named.access Opcode.fload _ [] [float] (by decide) within.1) (by simp), within.2⟩
  | text =>
      exact ⟨.congr (named.access Opcode.aload _ [] [reference] (by decide) within.1) (by simp),
        within.2⟩

theorem combine_moves (operator : BinaryOp) (left : Expr) :
    Moves gaps before entry (liftM (combine operator left))
      ((operandKind operator left).type :: (operandKind operator left).type :: stack)
      ((operandKind operator left).type :: stack) (stack.height + 1) := by
  by_cases joined : joins operator left
  · have isText : operandKind operator left = .text := if_pos joined
    rw [isText, combine, if_pos joined]
    exact .congr (.call .concat [reference, reference] [reference] (by decide)) (by simp)
  · have isNumber : operandKind operator left = .number := if_neg joined
    have numbers : Moves gaps before entry (liftM (combine operator left)) (float :: float :: stack)
        (float :: stack) (StackType.height (float :: stack)) := by
      rw [combine, if_neg joined]
      cases operator with
      | add => exact .op Opcode.fadd [float, float] [float] (by decide)
      | sub => exact .op Opcode.fsub [float, float] [float] (by decide)
      | mul => exact .op Opcode.fmul [float, float] [float] (by decide)
      | div => exact .call .divide [float, float] [float] (by decide)
      | intDiv => exact .call .intDiv [float, float] [float] (by decide)
      | mod => exact .call .mod [float, float] [float] (by decide)
      | pow => exact .call .power [float, float] [float] (by decide)
      | and => exact .call .and [float, float] [float] (by decide)
      | or => exact .call .or [float, float] [float] (by decide)
      | xor => exact .call .xor [float, float] [float] (by decide)
    rw [isNumber]
    exact numbers.congr (by simp)

theorem choice_at {draft : Draft} (operator : CompareOp)
    (stands : draft.At (MainMethod.region gaps before entry) (some (int :: stack)) peak) :
    Drafts (do
      let holds ← freshLabel "cmp_true"
      let done ← freshLabel "cmp_done"
      branch operator.branch holds
      Draft.op Opcode.fconst0
      goto done
      place holds
      pushFloat .negativeOne
      place done) draft fun _ final =>
      final.At (MainMethod.region gaps before entry) (some (float :: stack)) peak ∧
        draft.scope.nextSlot ≤ final.scope.nextSlot := by
  have effect : operator.branch.shape = .branch ∧ operator.branch.continues = true ∧
      operator.branch.Replaces [int] [] := by
    cases operator <;> decide
  have labelled := (stands.freshLabel "cmp_true").freshLabel "cmp_done"
  simp only [drafts_bind, drafts_freshLabel, Draft.branch, Draft.op, Draft.goto, Draft.pushFloat,
    drafts_emit, drafts_place]
  refine ⟨labelled.choice operator.branch _ _ .negativeOne effect ?_ ?_, Nat.le_refl _⟩
  · exact MainMethod.stackOf_choice (by decide) _
  · exact MainMethod.stackOf_choice (by decide) _

theorem compareValues_moves (operator : CompareOp) (kind : ValueKind) :
    Moves gaps before entry (liftM (compareValues operator kind)) (kind.type :: kind.type :: stack)
      (float :: stack) (stack.height + 1) := by
  refine .draft fun draft peak stands => ?_
  cases kind with
  | text =>
      exact choice_at operator
        (.congr (stands.call .textCompare [reference, reference] [int] (by decide)) (by simp))
  | number =>
      have effect : operator.comparison.shape = .plain 0 ∧ operator.comparison.continues = true ∧
          operator.comparison.Replaces [float, float] [int] := by
        cases operator <;> decide
      exact choice_at operator
        (.congr (stands.op operator.comparison [float, float] [int] effect) (by simp))

theorem pushArray_ends (name : VarName) (count : Nat) {body : Body}
    (stands : body.draft.At (MainMethod.region gaps before entry) (some stack) peak) :
    Ends (pushArray name count) body
      (fun shape final => ArrayShape.of? name.kind count = some shape ∧
        final.draft.At (MainMethod.region gaps before entry) (some (reference :: stack))
          (max peak (stack.height + 2)) ∧ body.Keeps final)
      (fun _ _ => True) := by
  unfold pushArray
  rw [ends_bind]
  refine (arrayShape_ends name count body).mono ?_ (fun _ _ _ => trivial)
  rintro shape _ ⟨isShape, _, rfl⟩
  have named := stands.slotOf s!"{name.spelling}()" .null
  have within := (stands.sound.slotOf s!"{name.spelling}()" .null).2
  have signature : Descriptor.Signature (Helper.auto shape).spec.descriptor [reference] [reference] := by
    cases shape <;> decide
  have loaded := named.access Opcode.aload _ [] [reference] (by decide) within.1
  have present : Draft.At _ (some (reference :: stack)) _ _ :=
    loaded.call (.auto shape) [reference] [reference] signature
  have stored := present.dup.access Opcode.astore _ [reference] [] (by decide) within.1
  simp only [ends_bind, ends_lift, ends_pure, arraySlot, drafts_slotOf, Draft.aload, Draft.call,
    Draft.op, Draft.astore, drafts_emit]
  refine ⟨isShape, stored.congr ?_, within.2, rfl, rfl, rfl⟩
  simp only [List.nil_append, List.cons_append, StackType.height_reference]
  omega

def operands (function : Builtin) (kinds : List ValueKind) : StackType :=
  (((function.parameters kinds).take kinds.length).map ValueKind.type).reverse

theorem helper_signature (function : Builtin) (kinds : List ValueKind)
    (accepted : kinds.length ∈ function.arities) (drawn : function = .rnd → kinds ≠ [])
    (filled : function = .stringFill → kinds.drop 1 = [.text]) :
    Descriptor.Signature (function.helper kinds.length).spec.descriptor (operands function kinds)
      [function.kind.type] := by
  unfold operands
  cases function with
  | stringFill =>
      have count : kinds.length = 2 := by simpa [Builtin.arities] using accepted
      simp only [Builtin.parameters, filled rfl, count]
      decide
  | rnd =>
      have count : kinds.length = 1 := by
        have nonempty := List.length_pos_iff.mpr (drawn rfl)
        simp only [Builtin.arities, List.mem_cons, List.not_mem_nil, or_false] at accepted
        omega
      simp only [Builtin.parameters, count]
      decide
  | mid | instr =>
      simp only [Builtin.arities, List.mem_cons, List.not_mem_nil, or_false] at accepted
      rcases accepted with count | count <;> simp only [Builtin.parameters, count] <;> decide
  | _ =>
      simp only [Builtin.arities, List.mem_cons, List.not_mem_nil, or_false] at accepted
      simp only [Builtin.parameters, accepted]
      decide

theorem callBuiltin_moves (function : Builtin) (arguments : List Expr)
    (accepted : arguments.length ∈ function.arities) :
    Moves gaps before entry (liftM (callBuiltin function arguments))
      (operands function (arguments.map kind) ++ stack) (function.kind.type :: stack)
      (stack.height + 1) := by
  have count : (arguments.map kind).length = arguments.length := List.length_map ..
  unfold callBuiltin
  by_cases drawn : function = .rnd ∧ arguments.isEmpty
  · obtain ⟨rfl, isEmpty⟩ := drawn
    obtain rfl := List.isEmpty_iff.mp isEmpty
    exact .congr (Moves.bind (.op Opcode.fconst1 [] [float] (by decide))
      (.call .rnd [float] [float] (by decide))) (by simp)
  rw [if_neg drawn]
  by_cases coded : function = .stringFill ∧ (arguments.map kind).drop 1 = [.number]
  · obtain ⟨rfl, isCode⟩ := coded
    have two : arguments.length = 2 := by simpa [Builtin.arities] using accepted
    have found : operands .stringFill (arguments.map kind) = [float, float] := by
      simp only [operands, Builtin.parameters, isCode, count, two]
      rfl
    rw [found, if_pos ⟨rfl, isCode⟩]
    exact .congr (Moves.bind (.call .chr [float] [reference] (by decide))
      (.call .stringFill [reference, float] [reference] (by decide))) (by simp)
  rw [if_neg coded]
  have signature := helper_signature function (arguments.map kind) (count ▸ accepted)
    (fun isRnd none => drawn ⟨isRnd, by simpa using none⟩) ?_
  · rw [count] at signature
    exact .congr (.call _ _ [function.kind.type] signature) (by simp)
  · rintro rfl
    have two : arguments.length = 2 := by simpa [Builtin.arities] using accepted
    obtain ⟨first, second, rfl⟩ := List.length_eq_two.mp two
    cases isKind : second.kind with
    | text => simp [isKind]
    | number => exact absurd ⟨rfl, by simp [isKind]⟩ coded

theorem kind_binary (operator : BinaryOp) (left right : Expr) :
    (binary operator left right).kind = operandKind operator left := by
  unfold operandKind joins
  cases operator with
  | add => cases isKind : left.kind <;> simp [kind, isKind]
  | sub | mul | div | intDiv | mod | pow | and | or | xor => rfl

mutual

theorem compile_moves (expr : Expr) (stack : StackType) :
    Moves gaps before entry expr.compile stack (expr.kind.type :: stack) (stack.height + expr.height) := by
  cases expr with
  | number value =>
      rw [compile, height]
      exact .draft fun _ _ stands => ⟨stands.pushFloat value, Nat.le_refl _⟩
  | text value =>
      rw [compile, height]
      exact .draft fun _ _ stands => ⟨stands.pushText value, Nat.le_refl _⟩
  | scalar name =>
      rw [compile, height]
      exact pushScalar_moves name
  | element name subscripts =>
      intro body peak stands
      rw [compile, ends_bind]
      refine (pushArray_ends name subscripts.length stands).imp ?_
      rintro shape middle ⟨isShape, stands', keeps⟩
      obtain ⟨sameKind, sameCount⟩ := ArrayShape.kind_and_dimensions isShape
      have signature := shape.get_signature
      rw [ArrayShape.subscripted, sameKind, sameCount] at signature
      have fetches := @Moves.call gaps before entry stack (.get shape) _ [name.kind.type] signature
      rw [List.append_assoc] at fetches
      have fetched := (compileNumbers_moves (.subscript name) subscripts (reference :: stack)).bind
        fetches
      refine (fetched middle _ stands').imp ?_
      rintro _ final ⟨stands'', keeps'⟩
      have some := ArrayShape.count_pos isShape
      have deep := length_le_heightThen subscripts
      refine ⟨stands''.congr ?_, keeps.trans keeps'⟩
      simp only [height, StackType.height_append, StackType.height_reference, StackType.height_kind,
        StackType.height_nil]
      omega
  | unary operator operand =>
      have positive := operand.height_pos
      cases operator with
      | neg =>
          rw [compile, height]
          refine .congr ((compile_moves operand stack).checked
            (.op Opcode.fneg [float] [float] (by decide))) ?_
          rw [StackType.height_append, StackType.height_float, StackType.height_nil]
          omega
      | not =>
          rw [compile, height]
          refine .congr ((compile_moves operand stack).checked
            (.call .not [float] [float] (by decide))) ?_
          rw [StackType.height_append, StackType.height_float, StackType.height_nil]
          omega
  | binary operator left right =>
      rw [compile, kind_binary operator left right, height]
      refine .congr ((compile_moves left stack).checked
        ((compile_moves right ((operandKind operator left).type :: stack)).checked
          (combine_moves operator left))) ?_
      rw [StackType.height_kind]
      omega
  | compare operator left right =>
      rw [compile, height]
      refine .congr ((compile_moves left stack).bind
        ((compile_moves right (left.kind.type :: stack)).checked
          (compareValues_moves operator left.kind))) ?_
      rw [StackType.height_kind]
      omega
  | call function arguments =>
      intro body peak stands
      rw [compile, height, ends_bind, ends_checkArity]
      split
      · rename_i accepted
        have pushed := compileArguments_moves function 1 (function.parameters (arguments.map kind))
          arguments stack (length_le_parameters accepted)
        rw [← List.length_map kind] at pushed
        refine (pushed.bind (callBuiltin_moves function arguments accepted)).congr ?_ body peak stands
        omega
      · trivial

theorem compileNumbers_moves (place : Place) (exprs : List Expr) (stack : StackType) :
    Moves gaps before entry (compileNumbers place exprs) stack (List.replicate exprs.length float ++ stack)
      (stack.height + heightThen 0 exprs) := by
  cases exprs with
  | nil => exact .congr .nothing (by simp [heightThen])
  | cons first rest =>
      rw [compileNumbers, List.length_cons, List.replicate_succ', List.append_assoc]
      refine .congr ((compile_moves first stack).checked
        (compileNumbers_moves place rest (float :: stack))) ?_
      rw [heightThen, StackType.height_float]
      omega

theorem compileArguments_moves (function : Builtin) (position : Nat) (kinds : List ValueKind)
    (exprs : List Expr) (stack : StackType) (enough : exprs.length ≤ kinds.length) :
    Moves gaps before entry (compileArguments function position kinds exprs) stack
      (((kinds.take exprs.length).map ValueKind.type).reverse ++ stack)
      (stack.height + heightThen 0 exprs) := by
  cases exprs with
  | nil =>
      cases kinds <;> exact .congr .nothing (by simp [heightThen])
  | cons first rest =>
      cases kinds with
      | nil => simp at enough
      | cons kind kinds =>
          rw [compileArguments, List.length_cons, List.take_succ_cons, List.map_cons, List.reverse_cons,
            List.append_assoc]
          refine .congr ((compile_moves first stack).checked (compileArguments_moves function
            (position + 1) kinds rest (kind.type :: stack) (by simpa using enough))) ?_
          rw [heightThen, StackType.height_kind]
          omega

end

end Expr

end

end BasicCompiler
