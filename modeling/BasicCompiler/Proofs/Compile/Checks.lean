import BasicCompiler.Proofs.Compile.Rules
import BasicCompiler.Proofs.Program.Validity

/-!
What the checks along the way ask of a program. A piece of code is compiled if and only if its demand is
met by what was compiled before it, and demands add up.
-/

namespace BasicCompiler

open Body

theorem ArrayShape.of?_eq_none_iff {kind : ValueKind} {count : Nat} :
    of? kind count = none ↔ ¬ (count = 1 ∨ count = 2) := by
  cases kind <;> rcases count with _ | _ | _ | count <;> simp [of?]

/-- What the compilation of a piece of code asks for: that values have their kinds, that lines are
defined, that arrays are used as before and that loops are closed. -/
structure Demand where
  kinds : Prop
  targets : List LineNumber
  uses : List (VarName × Nat)
  marks : List LoopMark

def Loop.mark : Loop → LoopMark
  | counting control _ _ _ _ _ _ => .forLoop control
  | conditional _ _ => .whileLoop

/-- A main method that has seen the uses of arrays and the open loops. -/
structure Body.Reflects (uses : List (VarName × Nat)) (opened : List LoopMark) (body : Body) : Prop where
  consistent : ConsistentUses uses
  dimensions : ∀ name count, body.dimensions[name]? = some count ↔ (name, count) ∈ uses
  loops : body.loops.map Loop.mark = opened

namespace Demand

def values (kinds : Prop) (uses : List (VarName × Nat)) : Demand := ⟨kinds, [], uses, []⟩

def andThen (first second : Demand) : Demand where
  kinds := first.kinds ∧ second.kinds
  targets := first.targets ++ second.targets
  uses := first.uses ++ second.uses
  marks := first.marks ++ second.marks

@[simp] theorem nothing_andThen (demand : Demand) : (values True []).andThen demand = demand := by
  simp [andThen, values]

@[simp] theorem andThen_nothing (demand : Demand) : demand.andThen (values True []) = demand := by
  simp [andThen, values]

/-- A demand that is met after the given uses of arrays, where it changes the open loops. -/
structure Met (lines : LineSet) (uses : List (VarName × Nat)) (opened final : List LoopMark)
    (demand : Demand) : Prop where
  kinds : demand.kinds
  targets : ∀ line ∈ demand.targets, lines.contains line = true
  uses : ConsistentUses (uses ++ demand.uses)
  marks : LoopMark.run opened demand.marks = some final

theorem met_andThen {lines : LineSet} {uses : List (VarName × Nat)} {opened final : List LoopMark}
    {first second : Demand} :
    (first.andThen second).Met lines uses opened final ↔
      ∃ middle, first.Met lines uses opened middle ∧
        second.Met lines (uses ++ first.uses) middle final := by
  constructor
  · rintro ⟨⟨kinds, kinds'⟩, targets, consistent, ran⟩
    obtain ⟨middle, ran, ran'⟩ := Option.bind_eq_some_iff.mp ((LoopMark.run_append ..).symm.trans ran)
    obtain ⟨known, known'⟩ := List.forall_mem_append.mp targets
    have grouped : ConsistentUses (uses ++ first.uses ++ second.uses) := by
      rwa [List.append_assoc]
    exact ⟨middle, ⟨kinds, known, grouped.mono (List.subset_append_left _ _), ran⟩,
      ⟨kinds', known', grouped, ran'⟩⟩
  · rintro ⟨middle, ⟨kinds, known, _, ran⟩, ⟨kinds', known', consistent, ran'⟩⟩
    refine ⟨⟨kinds, kinds'⟩, List.forall_mem_append.mpr ⟨known, known'⟩, ?_, ?_⟩
    · rwa [List.append_assoc] at consistent
    · exact (LoopMark.run_append ..).trans (Option.bind_eq_some_iff.mpr ⟨middle, ran, ran'⟩)

end Demand

def Checks {α : Type} (lines : LineSet) (demand : Demand) (action : BodyM α) : Prop :=
  ∀ uses opened (body : Body), body.Reflects uses opened → Ends action body
    (fun _ final => ∃ opened', demand.Met lines uses opened opened' ∧
      final.Reflects (uses ++ demand.uses) opened')
    (fun _ _ => ∀ opened', ¬ demand.Met lines uses opened opened')

namespace Checks

variable {α β : Type} {lines : LineSet} {demand first second : Demand} {kinds kinds' : Prop}
  {uses uses' : List (VarName × Nat)}

theorem bind {action : BodyM α} {next : α → BodyM β} (checks : Checks lines first action)
    (checks' : first.kinds → ∀ value, Checks lines second (next value)) :
    Checks lines (first.andThen second) (action >>= next) := by
  intro uses opened body reflects
  rw [ends_bind]
  refine (checks uses opened body reflects).mono ?_ ?_
  · rintro value middle ⟨opened', met, reflects⟩
    refine (checks' met.kinds value _ _ middle reflects).mono ?_ ?_
    · rintro _ final ⟨opened'', met', reflects⟩
      refine ⟨opened'', Demand.met_andThen.mpr ⟨opened', met, met'⟩, ?_⟩
      rwa [List.append_assoc] at reflects
    · intro _ _ unmet opened'' whole
      obtain ⟨found, met', later⟩ := Demand.met_andThen.mp whole
      obtain rfl := Option.some.inj (met'.marks.symm.trans met.marks)
      exact unmet opened'' later
  · intro _ _ unmet opened'' whole
    obtain ⟨found, met, _⟩ := Demand.met_andThen.mp whole
    exact unmet found met

theorem congr {action : BodyM α} (checks : Checks lines (.values kinds uses) action)
    (same : kinds ↔ kinds') (sameUses : uses = uses') : Checks lines (.values kinds' uses') action := by
  rwa [← sameUses, ← propext same]

theorem bindValues {action : BodyM α} {next : α → BodyM β}
    (checks : Checks lines (.values kinds uses) action)
    (checks' : kinds → ∀ value, Checks lines (.values kinds' uses') (next value)) :
    Checks lines (.values (kinds ∧ kinds') (uses ++ uses')) (action >>= next) :=
  checks.bind checks'

theorem quiet {action : BodyM α} (keeps : ∀ body, Ends action body
    (fun _ final => final.dimensions = body.dimensions ∧ final.loops = body.loops)
    (fun _ _ => False)) : Checks lines (.values True []) action := by
  intro uses opened body reflects
  refine (keeps body).mono ?_ (fun _ _ never => never.elim)
  rintro _ final ⟨dimensions, loops⟩
  have same : uses ++ (Demand.values True []).uses = uses := List.append_nil uses
  refine ⟨opened, ⟨trivial, by simp [Demand.values], same.symm ▸ reflects.consistent, rfl⟩, ?_⟩
  rw [same]
  exact ⟨reflects.consistent, by rw [dimensions]; exact reflects.dimensions,
    by rw [loops]; exact reflects.loops⟩

theorem lift (action : DraftM α) : Checks lines (.values True []) (liftM action : BodyM α) :=
  .quiet fun _ => ⟨rfl, rfl⟩

theorem afterLift {action : DraftM α} {next : α → BodyM β}
    (checks : ∀ value, Checks lines demand (next value)) :
    Checks lines demand ((liftM action : BodyM α) >>= next) := by
  simpa using (Checks.lift action).bind fun _ => checks

theorem thenLift {action : BodyM α} {next : α → DraftM β} (checks : Checks lines demand action) :
    Checks lines demand (action >>= fun value => liftM (next value)) := by
  simpa using checks.bind fun _ value => Checks.lift (next value)

theorem pure (value : α) : Checks lines (.values True []) (Pure.pure value : BodyM α) :=
  .quiet fun _ => ⟨rfl, rfl⟩

theorem test {action : BodyM α} {condition : Prop} [Decidable condition] (value : α)
    (error : CompileError)
    (unfolds : ∀ body success failure, Ends action body success failure ↔
      if condition then success value body else failure error body)
    (quiet : demand.uses = [] ∧ demand.marks = [])
    (means : condition ↔ demand.kinds ∧ ∀ line ∈ demand.targets, lines.contains line = true) :
    Checks lines demand action := by
  intro uses opened body reflects
  rw [unfolds]
  split
  · rename_i holds
    obtain ⟨kinds, targets⟩ := means.mp holds
    have same : uses ++ demand.uses = uses := by rw [quiet.1, List.append_nil]
    refine ⟨opened, ⟨kinds, targets, ?_, ?_⟩, ?_⟩
    · rw [same]
      exact reflects.consistent
    · rw [quiet.2]
      rfl
    · rwa [same]
  · rename_i fails
    exact fun _ met => fails (means.mpr ⟨met.kinds, met.targets⟩)

theorem expect (place : Place) (expected : ValueKind) (expr : Expr) :
    Checks lines (.values (expr.kind = expected) []) (expr.expect place expected) :=
  .test () _ (ends_expect place expected expr) ⟨rfl, rfl⟩ (by simp [Demand.values])

theorem checkArity (function : Builtin) (count : Nat) :
    Checks lines (.values (count ∈ function.arities) []) (Expr.checkArity function count) :=
  .test () _ (ends_checkArity function count) ⟨rfl, rfl⟩ (by simp [Demand.values])

theorem requireLabel (line : LineNumber) :
    Checks lines ⟨True, [line], [], []⟩ (Body.require (lines.label line)) :=
  .test _ _ (ends_requireLabel lines line) ⟨rfl, rfl⟩ (by simp)

theorem arrayShape (name : VarName) (count : Nat) :
    Checks lines (.values True [(name, count)]) (Body.arrayShape name count) := by
  intro uses opened body reflects
  have extended : ConsistentUses (uses ++ [(name, count)]) ↔ _ :=
    consistentUses_snoc reflects.consistent
  refine (arrayShape_ends name count body).mono ?_ ?_
  · rintro shape _ ⟨isShape, agrees, rfl⟩
    have isCount : count = 1 ∨ count = 2 := by
      by_contra wrong
      rw [ArrayShape.of?_eq_none_iff.mpr wrong] at isShape
      cases isShape
    have sameCount (known : Nat) (member : (name, known) ∈ uses) : known = count :=
      agrees known ((reflects.dimensions name known).mpr member)
    have consistent := extended.mpr ⟨isCount, sameCount⟩
    refine ⟨opened, ⟨trivial, by simp [Demand.values], consistent, rfl⟩, consistent, ?_, reflects.loops⟩
    intro name' count'
    simp only [Demand.values, Std.HashMap.getElem?_insert, List.mem_append, List.mem_singleton,
      Prod.mk.injEq, beq_iff_eq]
    by_cases same : name = name'
    · subst same
      rw [if_pos rfl, Option.some.injEq]
      constructor
      · rintro rfl
        exact .inr ⟨rfl, rfl⟩
      · rintro (earlier | ⟨_, rfl⟩)
        · exact (sameCount count' earlier).symm
        · rfl
    · rw [if_neg same, reflects.dimensions]
      exact ⟨.inl, fun found => found.resolve_right fun ⟨isName, _⟩ => same isName.symm⟩
  · rintro error _ ⟨rfl, _, wrong⟩ opened' met
    obtain ⟨isCount, agrees⟩ := extended.mp met.uses
    rcases wrong with unshaped | ⟨known, isKnown, different⟩
    · exact ArrayShape.of?_eq_none_iff.mp unshaped isCount
    · exact different (agrees known ((reflects.dimensions name known).mp isKnown))

end Checks

namespace Expr

variable {lines : LineSet}

@[simp] theorem hasKind_element {name : VarName} {subscripts : List Expr} {kind : ValueKind} :
    (element name subscripts).HasKind kind ↔
      HaveKinds subscripts (.replicate subscripts.length .number) ∧ name.kind = kind :=
  ⟨fun typed => by cases typed with | element _ numbers => exact ⟨numbers, rfl⟩,
    fun ⟨numbers, isKind⟩ => isKind ▸ .element name numbers⟩

theorem wellKinded_binary {operator : BinaryOp} {left right : Expr} :
    (binary operator left right).HasKind (binary operator left right).kind ↔
      left.HasKind (operandKind operator left) ∧ right.HasKind (operandKind operator left) := by
  by_cases isSum : operator = .add
  · subst isSum
    have same : operandKind .add left = left.kind := by
      cases kind : left.kind <;> simp [operandKind, joins, kind]
    rw [same, kind]
    generalize left.kind = kind
    constructor
    · intro typed
      cases typed with
      | sum isLeft isRight => exact ⟨isLeft, isRight⟩
      | binary isOther => exact absurd rfl isOther
    · exact fun ⟨isLeft, isRight⟩ => .sum isLeft isRight
  · have isNumber : operandKind operator left = .number := by simp [operandKind, joins, isSum]
    have isKind : (binary operator left right).kind = .number := by cases operator <;> simp_all [kind]
    rw [isNumber, isKind]
    constructor
    · intro typed
      cases typed with
      | sum => exact absurd rfl isSum
      | binary _ isLeft isRight => exact ⟨isLeft, isRight⟩
    · exact fun ⟨isLeft, isRight⟩ => .binary isSum isLeft isRight

theorem wellKinded_compare {operator : CompareOp} {left right : Expr} :
    (compare operator left right).HasKind .number ↔
      left.HasKind left.kind ∧ right.HasKind left.kind := by
  constructor
  · intro typed
    cases typed with
    | compare _ isLeft isRight => exact isLeft.kind_eq.symm ▸ ⟨isLeft, isRight⟩
  · exact fun ⟨isLeft, isRight⟩ => .compare operator isLeft isRight

theorem hasKind_call {function : Builtin} {arguments : List Expr} :
    (call function arguments).HasKind function.kind ↔
      ∃ signature ∈ function.signatures, HaveKinds arguments signature := by
  constructor
  · generalize function.kind = kind
    intro typed
    cases typed with
    | call isSignature typed => exact ⟨_, isSignature, typed⟩
  · exact fun ⟨_, isSignature, typed⟩ => .call isSignature typed

theorem wellKinded_call {function : Builtin} {arguments : List Expr} :
    (call function arguments).HasKind function.kind ↔
      arguments.length ∈ function.arities ∧
        HaveKinds arguments ((function.parameters (arguments.map kind)).take arguments.length) := by
  rw [hasKind_call]
  cases function with
  | stringFill =>
      rcases arguments with _ | ⟨first, _ | ⟨second, _ | ⟨third, rest⟩⟩⟩
      · simp [Builtin.signatures, Builtin.arities]
      · simp [Builtin.signatures, Builtin.arities]
      · have eitherKind : second.HasKind second.kind ↔ second.HasKind .number ∨ second.HasKind .text := by
          constructor
          · intro typed
            cases isKind : second.kind <;> rw [isKind] at typed
            · exact .inl typed
            · exact .inr typed
          · rintro (typed | typed) <;> exact typed.kind_eq.symm ▸ typed
        simp [Builtin.signatures, Builtin.arities, Builtin.parameters, eitherKind, and_or_left]
      · simp [Builtin.signatures, Builtin.arities]
  | _ =>
      rcases arguments with _ | ⟨first, _ | ⟨second, _ | ⟨third, _ | ⟨fourth, rest⟩⟩⟩⟩ <;>
        simp [Builtin.signatures, Builtin.arities, Builtin.parameters]

theorem length_le_parameters {function : Builtin} {arguments : List Expr}
    (accepted : arguments.length ∈ function.arities) :
    arguments.length ≤ (function.parameters (arguments.map kind)).length := by
  rw [← List.length_map kind] at accepted ⊢
  cases function <;>
    simp only [Builtin.arities, List.mem_cons, List.not_mem_nil, or_false] at accepted <;>
    simp only [Builtin.parameters, List.length_cons, List.length_nil, List.length_drop] <;>
    first
    | omega
    | split <;> simp only [List.length_cons, List.length_nil] <;> omega

theorem pushArray_checks (name : VarName) (count : Nat) :
    Checks lines (.values True [(name, count)]) (pushArray name count) :=
  ((Checks.arrayShape name count).bindValues fun _ _ => .afterLift fun _ => .afterLift fun _ =>
    .afterLift fun _ => .afterLift fun _ => .afterLift fun _ => .pure _).congr (by simp) rfl

mutual

theorem compile_checks (expr : Expr) :
    Checks lines (.values (expr.HasKind expr.kind) expr.arrayUses) expr.compile := by
  cases expr with
  | number value => exact (Checks.lift _).congr ⟨fun _ => .number value, fun _ => trivial⟩ rfl
  | text value => exact (Checks.lift _).congr ⟨fun _ => .text value, fun _ => trivial⟩ rfl
  | scalar name => exact (Checks.lift _).congr ⟨fun _ => .scalar name, fun _ => trivial⟩ rfl
  | element name subscripts =>
      rw [compile]
      refine ((pushArray_checks name _).bindValues fun _ shape =>
        .thenLift (compileNumbers_checks (.subscript name) subscripts)).congr ?_ rfl
      simp [kind]
  | unary operator operand =>
      have means : operand.kind = .number ∧ operand.HasKind operand.kind ↔
          (unary operator operand).HasKind .number := by
        rw [← hasKind_iff]
        exact ⟨.unary operator, fun typed => by cases typed; assumption⟩
      cases operator with
      | neg | not =>
          rw [compile]
          exact ((Checks.expect _ _ operand).bindValues fun _ _ =>
            .thenLift (compile_checks operand)).congr means rfl
  | binary operator left right =>
      rw [compile]
      refine ((Checks.expect _ _ left).bindValues fun _ _ => (compile_checks left).bindValues fun _ _ =>
        (Checks.expect _ _ right).bindValues fun _ _ => .thenLift (compile_checks right)).congr ?_ rfl
      rw [wellKinded_binary, ← and_assoc, ← hasKind_iff, ← hasKind_iff]
  | compare operator left right =>
      rw [compile]
      refine ((compile_checks left).bindValues fun _ _ => (Checks.expect _ _ right).bindValues fun _ _ =>
        .thenLift (compile_checks right)).congr ?_ rfl
      rw [kind, wellKinded_compare, ← hasKind_iff]
  | call function arguments =>
      rw [compile]
      refine ((Checks.checkArity function _).bindValues fun accepted _ =>
        .thenLift (compileArguments_checks function 1 _ arguments (length_le_parameters accepted))).congr
        ?_ rfl
      rw [kind, wellKinded_call]

theorem compileNumbers_checks (place : Place) (exprs : List Expr) :
    Checks lines (.values (HaveKinds exprs (.replicate exprs.length .number)) (arrayUsesAll exprs))
      (compileNumbers place exprs) := by
  cases exprs with
  | nil => exact (Checks.pure ()).congr (by simp) rfl
  | cons first rest =>
      rw [compileNumbers]
      refine ((Checks.expect place .number first).bindValues fun _ _ =>
        (compile_checks first).bindValues fun _ _ => compileNumbers_checks place rest).congr ?_ rfl
      rw [List.length_cons, List.replicate_succ, haveKinds_cons, ← and_assoc, ← hasKind_iff]

theorem compileArguments_checks (function : Builtin) (position : Nat) (kinds : List ValueKind)
    (exprs : List Expr) (enough : exprs.length ≤ kinds.length) :
    Checks lines (.values (HaveKinds exprs (kinds.take exprs.length)) (arrayUsesAll exprs))
      (compileArguments function position kinds exprs) := by
  cases exprs with
  | nil =>
      have nothing : compileArguments function position kinds [] = pure () := by
        cases kinds <;> rfl
      rw [nothing]
      exact (Checks.pure ()).congr (by simp) rfl
  | cons first rest =>
      cases kinds with
      | nil => cases enough
      | cons kind kinds =>
          rw [compileArguments]
          refine ((Checks.expect _ kind first).bindValues fun _ _ =>
            (compile_checks first).bindValues fun _ _ =>
              compileArguments_checks function (position + 1) kinds rest ?_).congr ?_ rfl
          · simpa using enough
          · rw [List.length_cons, List.take_succ_cons, haveKinds_cons, ← and_assoc, ← hasKind_iff]

end

theorem compileNumber_checks (place : Place) (expr : Expr) :
    Checks lines (.values (expr.HasKind .number) expr.arrayUses) (expr.compileNumber place) :=
  ((Checks.expect place .number expr).bindValues fun _ _ => compile_checks expr).congr
    hasKind_iff.symm rfl

end Expr

end BasicCompiler
