import Mathlib.Data.List.Nodup
import BasicCompiler.Compile.Body
import BasicCompiler.Proofs.Program.Statements

/-!
The locals of a program: its variables, its arrays, and the limits and steps of its loops. They are
listed in the order of their first use, together with every load and store in the order of the code.
-/

namespace BasicCompiler

open Stmt

/-- What a main method keeps in a local slot. Loops that count are numbered in the order in which they
are opened. -/
inductive Local where
  | scalar (name : VarName)
  | array (name : VarName)
  | limit (loop : Nat)
  | step (loop : Nat)
  deriving DecidableEq, Repr

namespace Local

def initial : Local → Initial
  | scalar name => Body.initialOf name.kind
  | array _ => .null
  | limit _ | step _ => .number

def loop? : Local → Option Nat
  | limit loop | step loop => some loop
  | scalar _ | array _ => none

def reserve (locals : List Local) (holder : Local) : List Local :=
  if holder ∈ locals then locals else locals ++ [holder]

def slotIn (locals : List Local) (holder : Local) : Nat := locals.idxOf holder + 1

section Reserve

variable {locals more : List Local} {holder other : Local}

theorem reserve_of_mem (member : holder ∈ locals) : reserve locals holder = locals := if_pos member

theorem reserve_of_notMem (new : holder ∉ locals) : reserve locals holder = locals ++ [holder] :=
  if_neg new

theorem prefix_reserve (locals : List Local) (holder : Local) : locals <+: reserve locals holder := by
  unfold reserve
  split
  · exact List.prefix_rfl
  · exact List.prefix_append ..

theorem mem_reserve : other ∈ reserve locals holder ↔ other ∈ locals ∨ other = holder := by
  by_cases known : holder ∈ locals
  · rw [reserve_of_mem known, or_iff_left_of_imp]
    rintro rfl
    exact known
  · rw [reserve_of_notMem known, List.mem_append, List.mem_singleton]

theorem nodup_reserve (distinct : locals.Nodup) (holder : Local) : (reserve locals holder).Nodup := by
  by_cases known : holder ∈ locals
  · rwa [reserve_of_mem known]
  · rw [reserve_of_notMem known]
    exact List.nodup_append.mpr ⟨distinct, List.nodup_singleton _, by
      rintro _ member _ last rfl
      exact known (List.mem_singleton.mp last ▸ member)⟩

theorem slotIn_of_prefix (longer : locals <+: more) (member : holder ∈ locals) :
    slotIn more holder = slotIn locals holder := by
  rw [slotIn, slotIn, longer.idxOf_eq_of_mem member]

theorem slotIn_inj (member : holder ∈ locals) :
    slotIn locals holder = slotIn locals other ↔ holder = other := by
  rw [slotIn, slotIn, Nat.add_right_cancel_iff, List.idxOf_inj member]

theorem zipIdx_eq (distinct : locals.Nodup) :
    locals.zipIdx 1 = locals.map fun holder => (holder, slotIn locals holder) := by
  refine List.ext_getElem (by simp) fun place inside _ => ?_
  rw [List.length_zipIdx] at inside
  rw [List.getElem_zipIdx, List.getElem_map, slotIn, distinct.idxOf_getElem place inside, Nat.add_comm]

theorem map_slotIn (distinct : locals.Nodup) :
    locals.map (slotIn locals) = List.range' 1 locals.length := by
  have slots := congrArg (List.map Prod.snd) (zipIdx_eq distinct)
  rw [List.zipIdx_map_snd, List.map_map] at slots
  exact slots.symm

end Reserve

end Local

inductive Touch where
  | load (holder : Local)
  | store (holder : Local)
  deriving DecidableEq, Repr

def Touch.holder : Touch → Local
  | load holder | store holder => holder

namespace Expr

mutual

/-- The locals that an expression touches. An array is stored where it is used, since its first use
allocates it. -/
def touches : Expr → List Touch
  | number _ | text _ => []
  | scalar name => [.load (.scalar name)]
  | element name subscripts => [.load (.array name), .store (.array name)] ++ touchesAll subscripts
  | unary _ operand => operand.touches
  | binary _ left right | compare _ left right => left.touches ++ right.touches
  | call _ arguments => touchesAll arguments

def touchesAll : List Expr → List Touch
  | [] => []
  | first :: rest => first.touches ++ touchesAll rest

end

end Expr

def Variable.storing (value : List Touch) : Variable → List Touch
  | scalar name => value ++ [.store (.scalar name)]
  | element name subscripts =>
    [.load (.array name), .store (.array name)] ++ Expr.touchesAll subscripts ++ value

def ArrayBounds.touches (array : ArrayBounds) : List Touch :=
  [.load (.array array.name)] ++ Expr.touchesAll array.bounds ++ [.store (.array array.name)]

def PrintItem.touches : PrintItem → List Touch
  | expr value | tab value | spc value => value.touches
  | comma | semicolon => []

def Touch.opening (control : VarName) (first last : Expr) (step : Option Expr) (loop : Nat) : List Touch :=
  first.touches ++ [.store (.scalar control)] ++ last.touches ++ [.store (.limit loop)] ++
    (step.elim [] Expr.touches ++ [.store (.step loop)])

/-- The locals that a loop touches where it is closed: its variable is advanced by the step and compared
with the limit, upwards or downwards. -/
def Touch.closing (control : VarName) (loop : Nat) : List Touch :=
  [.load (.scalar control), .load (.step loop), .store (.scalar control), .load (.step loop),
    .load (.scalar control), .load (.limit loop), .load (.scalar control), .load (.limit loop)]

structure Usage where
  /-- The locals in the order of their first use. -/
  locals : List Local
  touches : List Touch
  /-- The open loops, innermost first. One that counts has a variable and a number. -/
  loops : List (Option (VarName × Nat))
  /-- The number of loops that count. -/
  count : Nat

namespace Usage

def empty : Usage := ⟨[], [], [], 0⟩

def touch (usage : Usage) (use : Touch) : Usage :=
  { usage with locals := Local.reserve usage.locals use.holder, touches := usage.touches ++ [use] }

def touchAll (usage : Usage) (uses : List Touch) : Usage := uses.foldl touch usage

def openLoop (usage : Usage) (loop : Option (VarName × Nat)) : Usage :=
  { usage with loops := loop :: usage.loops }

def closeCounting (usage : Usage) : Usage :=
  match usage.loops with
  | some (control, loop) :: rest => { usage with loops := rest }.touchAll (Touch.closing control loop)
  | _ => usage

def closeAll : Nat → Usage → Usage
  | 0, usage => usage
  | count + 1, usage => closeAll count usage.closeCounting

def note (usage : Usage) : Stmt → Usage
  | .assign target value => usage.touchAll (target.storing value.touches)
  | .dim arrays => usage.touchAll (arrays.flatMap ArrayBounds.touches)
  | .print items => usage.touchAll (items.flatMap PrintItem.touches)
  | .input _ targets | .read targets => usage.touchAll (targets.flatMap (Variable.storing []))
  | .onGoto selector _ | .onGosub selector _ => usage.touchAll selector.touches
  | .conditional condition _ _ => usage.touchAll condition.touches
  | .forLoop control first last step =>
    { (usage.touchAll (Touch.opening control first last step usage.count)).openLoop
        (some (control, usage.count)) with count := usage.count + 1 }
  | .next controls => usage.closeAll (max 1 controls.length)
  | .whileLoop condition => (usage.touchAll condition.touches).openLoop none
  | .wend => { usage with loops := usage.loops.tail }
  | .line _ | .goto _ | .gosub _ | .returnFromSub | .data _ | .restore _ | .remark _ | .finish
  | .stop => usage

def noteAll (usage : Usage) (stmts : List Stmt) : Usage := (inlinedAll stmts).foldl note usage

end Usage

def Program.usage (program : Program) : Usage := Usage.empty.noteAll program

def Stmt.opensCounting : Stmt → Bool
  | .forLoop _ _ _ _ => true
  | _ => false

namespace Usage

/-- A usage after further touches. It keeps the locals, and therefore their slots. -/
structure Extends (usage further : Usage) : Prop where
  locals : usage.locals <+: further.locals
  distinct : usage.locals.Nodup → further.locals.Nodup
  known : (∀ use ∈ usage.touches, use.holder ∈ usage.locals) →
    ∀ use ∈ further.touches, use.holder ∈ further.locals

namespace Extends

variable {usage middle further : Usage}

theorem refl (usage : Usage) : usage.Extends usage := ⟨List.prefix_rfl, id, id⟩

theorem trans (first : usage.Extends middle) (second : middle.Extends further) : usage.Extends further :=
  ⟨first.locals.trans second.locals, second.distinct ∘ first.distinct, second.known ∘ first.known⟩

theorem reloop (longer : usage.Extends further) (loops : List (Option (VarName × Nat))) (count : Nat) :
    usage.Extends { further with loops, count } :=
  ⟨longer.locals, longer.distinct, longer.known⟩

end Extends

theorem touch_extends (usage : Usage) (use : Touch) : usage.Extends (usage.touch use) where
  locals := Local.prefix_reserve ..
  distinct := fun distinct => Local.nodup_reserve distinct _
  known := by
    intro known other member
    rw [touch, List.mem_append, List.mem_singleton] at member
    rcases member with earlier | rfl
    · exact Local.mem_reserve.mpr (.inl (known other earlier))
    · exact Local.mem_reserve.mpr (.inr rfl)

theorem touchAll_append (usage : Usage) (first second : List Touch) :
    usage.touchAll (first ++ second) = (usage.touchAll first).touchAll second := List.foldl_append

theorem touchAll_extends (usage : Usage) (uses : List Touch) : usage.Extends (usage.touchAll uses) := by
  induction uses generalizing usage with
  | nil => exact .refl usage
  | cons use rest ih => exact (usage.touch_extends use).trans (ih (usage.touch use))

@[simp] theorem touchAll_loops (usage : Usage) (uses : List Touch) :
    (usage.touchAll uses).loops = usage.loops := by
  induction uses generalizing usage with
  | nil => rfl
  | cons use rest ih => exact ih (usage.touch use)

@[simp] theorem touchAll_count (usage : Usage) (uses : List Touch) :
    (usage.touchAll uses).count = usage.count := by
  induction uses generalizing usage with
  | nil => rfl
  | cons use rest ih => exact ih (usage.touch use)

theorem mem_touchAll {usage : Usage} {uses : List Touch} {holder : Local}
    (member : holder ∈ (usage.touchAll uses).locals) :
    holder ∈ usage.locals ∨ ∃ use ∈ uses, use.holder = holder := by
  induction uses generalizing usage with
  | nil => exact .inl member
  | cons use rest ih =>
      rcases ih member with earlier | ⟨later, isLater, isHolder⟩
      · rcases Local.mem_reserve.mp earlier with known | rfl
        · exact .inl known
        · exact .inr ⟨use, List.mem_cons_self .., rfl⟩
      · exact .inr ⟨later, List.mem_cons_of_mem _ isLater, isHolder⟩

theorem mem_of_touch {usage : Usage} {uses : List Touch} {use : Touch} (member : use ∈ uses) :
    use.holder ∈ (usage.touchAll uses).locals := by
  induction uses generalizing usage with
  | nil => cases member
  | cons first rest ih =>
      rcases List.mem_cons.mp member with rfl | later
      · exact ((usage.touch use).touchAll_extends rest).locals.subset (Local.mem_reserve.mpr (.inr rfl))
      · exact ih later

theorem closeCounting_extends (usage : Usage) : usage.Extends usage.closeCounting := by
  unfold closeCounting
  split
  · exact ((Extends.refl usage).reloop _ _).trans (touchAll_extends _ _)
  · exact .refl usage

theorem closeAll_extends (count : Nat) (usage : Usage) : usage.Extends (usage.closeAll count) := by
  induction count generalizing usage with
  | zero => exact .refl usage
  | succ count ih => exact usage.closeCounting_extends.trans (ih _)

theorem note_extends (usage : Usage) (stmt : Stmt) : usage.Extends (usage.note stmt) := by
  cases stmt with
  | assign | dim | print | input | read | onGoto | onGosub | conditional => exact usage.touchAll_extends _
  | forLoop | whileLoop => exact (usage.touchAll_extends _).reloop _ _
  | next controls => exact closeAll_extends _ usage
  | wend => exact (Extends.refl usage).reloop _ _
  | line | goto | gosub | returnFromSub | data | restore | remark | finish | stop => exact .refl usage

theorem foldl_note_extends (stmts : List Stmt) (usage : Usage) : usage.Extends (stmts.foldl note usage) := by
  induction stmts generalizing usage with
  | nil => exact .refl usage
  | cons stmt rest ih => exact (usage.note_extends stmt).trans (ih (usage.note stmt))

theorem noteAll_extends (usage : Usage) (stmts : List Stmt) : usage.Extends (usage.noteAll stmts) :=
  foldl_note_extends (inlinedAll stmts) usage

theorem closeCounting_count (usage : Usage) : usage.closeCounting.count = usage.count := by
  unfold closeCounting
  split
  · exact touchAll_count ..
  · rfl

theorem closeAll_count (count : Nat) (usage : Usage) : (usage.closeAll count).count = usage.count := by
  induction count generalizing usage with
  | zero => rfl
  | succ count ih => exact (ih _).trans usage.closeCounting_count

theorem note_count (usage : Usage) (stmt : Stmt) :
    (usage.note stmt).count = usage.count + if stmt.opensCounting then 1 else 0 := by
  cases stmt with
  | assign | dim | print | input | read | onGoto | onGosub | conditional | whileLoop =>
      exact touchAll_count ..
  | next controls => exact closeAll_count _ usage
  | forLoop | wend | line | goto | gosub | returnFromSub | data | restore | remark | finish | stop => rfl

theorem foldl_note_count (stmts : List Stmt) (usage : Usage) :
    (stmts.foldl note usage).count = usage.count + stmts.countP opensCounting := by
  induction stmts generalizing usage with
  | nil => rfl
  | cons stmt rest ih =>
      rw [List.foldl_cons, ih, note_count, List.countP_cons]
      omega

theorem noteAll_append (usage : Usage) (front back : List Stmt) :
    usage.noteAll (front ++ back) = (usage.noteAll front).noteAll back := by
  rw [noteAll, inlinedAll_append, List.foldl_append]
  rfl

theorem noteAll_conditional (usage : Usage) (condition : Expr) (thenBody elseBody : List Stmt) :
    usage.noteAll [.conditional condition thenBody elseBody] =
      ((usage.touchAll condition.touches).noteAll thenBody).noteAll elseBody := by
  rw [noteAll, inlinedAll_conditional, List.foldl_cons, List.foldl_append]
  rfl

end Usage

def Touch.Unnumbered (uses : List Touch) : Prop := ∀ use ∈ uses, use.holder.loop? = none

theorem Touch.Unnumbered.append {first second : List Touch} (unnumbered : Unnumbered first)
    (unnumbered' : Unnumbered second) : Unnumbered (first ++ second) :=
  List.forall_mem_append.mpr ⟨unnumbered, unnumbered'⟩

theorem Touch.Unnumbered.flatMap {α : Type} {touches : α → List Touch} (items : List α)
    (unnumbered : ∀ item, Unnumbered (touches item)) : Unnumbered (items.flatMap touches) := by
  intro use member
  obtain ⟨item, _, isUse⟩ := List.mem_flatMap.mp member
  exact unnumbered item use isUse

theorem Touch.Unnumbered.apart {uses : List Touch} (unnumbered : Unnumbered uses) {holder : Local}
    {loop : Nat} (isLoop : holder.loop? = some loop) : ∀ use ∈ uses, use.holder ≠ holder := by
  rintro use member rfl
  rw [unnumbered use member] at isLoop
  cases isLoop

namespace Expr

open Touch

mutual

theorem touches_unnumbered (expr : Expr) : Unnumbered expr.touches := by
  cases expr with
  | number | text => simp [touches, Unnumbered]
  | scalar => simp [touches, Unnumbered, Touch.holder, Local.loop?]
  | element name subscripts =>
      have allocated : Unnumbered [.load (.array name), .store (.array name)] := by
        simp [Unnumbered, Touch.holder, Local.loop?]
      rw [touches]
      exact allocated.append (touchesAll_unnumbered subscripts)
  | unary _ operand =>
      rw [touches]
      exact touches_unnumbered operand
  | binary _ left right | compare _ left right =>
      rw [touches]
      exact (touches_unnumbered left).append (touches_unnumbered right)
  | call _ arguments =>
      rw [touches]
      exact touchesAll_unnumbered arguments

theorem touchesAll_unnumbered (exprs : List Expr) : Unnumbered (touchesAll exprs) := by
  cases exprs with
  | nil => simp [touchesAll, Unnumbered]
  | cons first rest =>
      rw [touchesAll]
      exact (touches_unnumbered first).append (touchesAll_unnumbered rest)

end

end Expr

namespace Touch

theorem Unnumbered.storing {value : List Touch} (unnumbered : Unnumbered value) (target : Variable) :
    Unnumbered (target.storing value) := by
  cases target with
  | scalar name => exact unnumbered.append (by simp [Unnumbered, holder, Local.loop?])
  | element name subscripts =>
      have allocated : Unnumbered [.load (.array name), .store (.array name)] := by
        simp [Unnumbered, holder, Local.loop?]
      exact (allocated.append (Expr.touchesAll_unnumbered subscripts)).append unnumbered

theorem bounds_unnumbered (array : ArrayBounds) : Unnumbered array.touches := by
  have single (use : Touch) (isArray : use.holder = .array array.name) : Unnumbered [use] := by
    simp [Unnumbered, isArray, Local.loop?]
  exact ((single _ rfl).append (Expr.touchesAll_unnumbered array.bounds)).append (single _ rfl)

theorem printItem_unnumbered (item : PrintItem) : Unnumbered item.touches := by
  cases item with
  | expr value | tab value | spc value => exact value.touches_unnumbered
  | comma | semicolon => simp [PrintItem.touches, Unnumbered]

theorem step_unnumbered (step : Option Expr) : Unnumbered (step.elim [] Expr.touches) := by
  cases step with
  | none => simp [Unnumbered]
  | some step => exact step.touches_unnumbered

theorem opening_loop {control : VarName} {first last : Expr} {step : Option Expr} {loop other : Nat}
    {use : Touch} (member : use ∈ opening control first last step loop)
    (isLoop : use.holder.loop? = some other) : other ≤ loop := by
  have unnumbered {uses : List Touch} (none : Unnumbered uses) (member : use ∈ uses) : other ≤ loop :=
    absurd rfl (none.apart isLoop use member)
  simp only [opening, List.mem_append, List.mem_singleton] at member
  rcases member with (((inFirst | rfl) | inLast) | rfl) | inStep | rfl
  · exact unnumbered first.touches_unnumbered inFirst
  · cases isLoop
  · exact unnumbered last.touches_unnumbered inLast
  · cases isLoop
    exact Nat.le_refl loop
  · exact unnumbered (step_unnumbered step) inStep
  · cases isLoop
    exact Nat.le_refl loop

end Touch

namespace Usage

/-- Every loop that counts has a limit and a step of its own, and those that come later have none yet. -/
structure Numbered (usage : Usage) : Prop where
  loops : ∀ control loop, some (control, loop) ∈ usage.loops → loop < usage.count
  locals : ∀ {holder loop}, holder ∈ usage.locals → holder.loop? = some loop → loop < usage.count
  held : ∀ loop < usage.count, .limit loop ∈ usage.locals ∧ .step loop ∈ usage.locals

namespace Numbered

variable {usage : Usage}

theorem empty : Usage.empty.Numbered where
  loops := by simp [Usage.empty]
  locals := by simp [Usage.empty]
  held := by simp [Usage.empty]

theorem touchAll (numbered : usage.Numbered) {uses : List Touch}
    (fits : ∀ use ∈ uses, ∀ loop, use.holder.loop? = some loop → loop < usage.count) :
    (usage.touchAll uses).Numbered where
  loops := by
    rw [touchAll_loops, touchAll_count]
    exact numbered.loops
  locals := by
    intro holder loop member isLoop
    rw [touchAll_count]
    rcases mem_touchAll member with known | ⟨use, isUse, rfl⟩
    · exact numbered.locals known isLoop
    · exact fits use isUse loop isLoop
  held := by
    intro loop counted
    rw [touchAll_count] at counted
    have kept := (usage.touchAll_extends uses).locals.subset
    exact ⟨kept (numbered.held loop counted).1, kept (numbered.held loop counted).2⟩

theorem new (numbered : usage.Numbered) {uses : List Touch} {holder : Local}
    (isLoop : holder.loop? = some usage.count) (apart : ∀ use ∈ uses, use.holder ≠ holder) :
    holder ∉ (usage.touchAll uses).locals := by
  intro member
  rcases mem_touchAll member with known | ⟨use, isUse, isHolder⟩
  · exact Nat.lt_irrefl _ (numbered.locals known isLoop)
  · exact apart use isUse isHolder

theorem unnumbered (numbered : usage.Numbered) {uses : List Touch} (unnumbered : Touch.Unnumbered uses) :
    (usage.touchAll uses).Numbered := by
  refine numbered.touchAll fun use member loop isLoop => ?_
  rw [unnumbered use member] at isLoop
  cases isLoop

theorem reloop (numbered : usage.Numbered) {loops : List (Option (VarName × Nat))}
    (known : ∀ control loop, some (control, loop) ∈ loops → loop < usage.count) :
    Numbered { usage with loops } :=
  ⟨known, numbered.locals, numbered.held⟩

theorem closeCounting (numbered : usage.Numbered) : usage.closeCounting.Numbered := by
  unfold Usage.closeCounting
  split
  · rename_i control loop rest isLoops
    have counted : loop < usage.count := numbered.loops control loop (by simp [isLoops])
    have left : Numbered { usage with loops := rest } :=
      numbered.reloop fun control loop member => numbered.loops control loop (by simp [isLoops, member])
    refine left.touchAll fun use member other isOther => ?_
    simp only [Touch.closing, List.mem_cons, List.not_mem_nil, or_false] at member
    rcases member with rfl | rfl | rfl | rfl | rfl | rfl | rfl | rfl <;> cases isOther <;> exact counted
  · exact numbered

theorem closeAll (numbered : usage.Numbered) (count : Nat) : (usage.closeAll count).Numbered := by
  induction count generalizing usage with
  | zero => exact numbered
  | succ count ih => exact ih numbered.closeCounting

theorem forLoop (numbered : usage.Numbered) (control : VarName) (first last : Expr) (step : Option Expr) :
    (usage.note (.forLoop control first last step)).Numbered := by
  let uses := Touch.opening control first last step usage.count
  have kept := (usage.touchAll_extends uses).locals.subset
  have limit : Touch.store (.limit usage.count) ∈ uses := by simp [uses, Touch.opening]
  have stepped : Touch.store (.step usage.count) ∈ uses := by simp [uses, Touch.opening]
  refine ⟨fun control loop member => ?_, fun {holder loop} member isLoop => ?_, fun loop counted => ?_⟩
  -- The new loop is the innermost one, and it alone touches its limit and its step.
  · change _ ∈ some (_, usage.count) :: (usage.touchAll uses).loops at member
    rw [touchAll_loops, List.mem_cons] at member
    rcases member with newest | earlier
    · cases newest
      exact Nat.lt_succ_self _
    · exact Nat.lt_succ_of_lt (numbered.loops control loop earlier)
  · rcases mem_touchAll member with known | ⟨use, isUse, rfl⟩
    · exact Nat.lt_succ_of_lt (numbered.locals known isLoop)
    · exact Nat.lt_succ_of_le (Touch.opening_loop isUse isLoop)
  · rcases Nat.lt_succ_iff_lt_or_eq.mp counted with earlier | rfl
    · exact ⟨kept (numbered.held loop earlier).1, kept (numbered.held loop earlier).2⟩
    · exact ⟨mem_of_touch limit, mem_of_touch stepped⟩

theorem note (numbered : usage.Numbered) (stmt : Stmt) : (usage.note stmt).Numbered := by
  cases stmt with
  | assign target value => exact numbered.unnumbered (value.touches_unnumbered.storing target)
  | dim arrays => exact numbered.unnumbered (.flatMap arrays Touch.bounds_unnumbered)
  | print items => exact numbered.unnumbered (.flatMap items Touch.printItem_unnumbered)
  | input _ targets | read targets =>
      have none : Touch.Unnumbered [] := by simp [Touch.Unnumbered]
      exact numbered.unnumbered (.flatMap targets none.storing)
  | onGoto expr | onGosub expr | conditional expr => exact numbered.unnumbered expr.touches_unnumbered
  | forLoop control first last step => exact numbered.forLoop control first last step
  | next controls => exact numbered.closeAll _
  | whileLoop condition =>
      have touched := numbered.unnumbered condition.touches_unnumbered
      refine touched.reloop fun control loop member => touched.loops control loop ?_
      simpa using member
  | wend =>
      exact numbered.reloop fun control loop member =>
        numbered.loops control loop (List.mem_of_mem_tail member)
  | line | goto | gosub | returnFromSub | data | restore | remark | finish | stop => exact numbered

theorem foldl_note (numbered : usage.Numbered) (stmts : List Stmt) :
    (stmts.foldl Usage.note usage).Numbered := by
  induction stmts generalizing usage with
  | nil => exact numbered
  | cons stmt rest ih => exact ih (numbered.note stmt)

theorem noteAll (numbered : usage.Numbered) (stmts : List Stmt) : (usage.noteAll stmts).Numbered :=
  numbered.foldl_note (inlinedAll stmts)

end Numbered

end Usage

namespace Program

variable (program : Program)

theorem usage_distinct : program.usage.locals.Nodup :=
  (Usage.empty.noteAll_extends program).distinct List.nodup_nil

theorem usage_known : ∀ use ∈ program.usage.touches, use.holder ∈ program.usage.locals :=
  (Usage.empty.noteAll_extends program).known (by simp [Usage.empty])

theorem usage_held : ∀ loop < (inlinedAll program).countP opensCounting,
    .limit loop ∈ program.usage.locals ∧ .step loop ∈ program.usage.locals := by
  intro loop counted
  refine (Usage.Numbered.empty.noteAll program).held loop ?_
  rw [Usage.noteAll, Usage.foldl_note_count]
  simpa [Usage.empty] using counted

end Program

end BasicCompiler
