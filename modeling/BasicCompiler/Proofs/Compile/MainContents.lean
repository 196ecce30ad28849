import BasicCompiler.Proofs.Compile.ClassLayout
import BasicCompiler.Proofs.Compile.Inventory

/-!
What the code of a main method is made of: the code of the statements, the exit, the dispatch of
returns, the report of faults and the first values of the slots.
-/

namespace BasicCompiler

open Draft Body

/-- What the code around the statements holds. It uses objects of the host, but no cells, marks no lines
and enters no subroutine. -/
def Item.Closing : Item → Prop
  | .insn (.field opcode member) | .insn (.invoke opcode member) =>
    member.owner ∈ hostClasses ∧ opcode ≠ Opcode.invokestatic
  | .insn (.call helper) => helper ≠ .gosubPush
  | .insn (.tableSwitch _ _ _) | .insn (.getCell _) | .insn (.putCell _) | .sourceLine _
  | .request _ => False
  | _ => True

def Item.Quiet (item : Item) : Prop := item.Closing ∧ item.helper? = none

theorem Item.Quiet.simple {insn : Insn} (simple : insn.isSimple = true) : Item.Quiet (.insn insn) := by
  cases insn with
  | op | branch | pushFloat | pushInt | access | increment | newArray => exact ⟨trivial, rfl⟩
  | tableSwitch | pushText | field | invoke | newDup | newRefArray | newMultiArray | call | getCell
  | putCell => cases simple

theorem Item.Ordinary.hosted {item : Item} {usesReturn : Bool} (ordinary : item.Ordinary usesReturn) :
    item.Hosted := by
  cases item with
  | insn insn =>
      cases insn with
      | field | invoke => exact ordinary.elim
      | _ => trivial
  | label | sourceLine | request => trivial

theorem Item.Closing.hosted {item : Item} (closing : item.Closing) :
    item.Hosted ∧ item.line? = none := by
  cases item with
  | insn insn =>
      cases insn with
      | getCell | putCell => exact closing.elim
      | field | invoke => exact ⟨closing.1, rfl⟩
      | _ => exact ⟨trivial, rfl⟩
  | label => exact ⟨trivial, rfl⟩
  | sourceLine | request => exact closing.elim

theorem Scope.initializers_load (scope : Scope) :
    (∀ item ∈ scope.initializers.map Item.insn, item.Quiet) ∧
      Item.total Insn.load (scope.initializers.map Item.insn) = 12 * scope.initials.size := by
  unfold initializers
  rw [← Array.length_toList]
  induction scope.initials.toList with
  | nil => simp [Item.total]
  | cons entry rest ih =>
      obtain ⟨slot, initial⟩ := entry
      have single : (∀ item ∈ (initializer slot initial).map Item.insn, item.Quiet) ∧
          Item.total Insn.load ((initializer slot initial).map Item.insn) = 12 := by
        cases initial with
        | number | null | int =>
            exact ⟨by simp [initializer, Item.Quiet, Item.Closing, Item.helper?], rfl⟩
        | text =>
            have empty : (Insn.pushText "").load = 6 := by decide +kernel
            have store : (Insn.access Opcode.astore slot).load = 6 := rfl
            exact ⟨by simp [initializer, Item.Quiet, Item.Closing, Item.helper?],
              by simp [initializer, Item.total, empty, store]⟩
      rw [List.flatMap_cons, List.map_append, Item.total_append, List.length_cons, single.2, ih.2]
      exact ⟨List.forall_mem_append.mpr ⟨single.1, ih.1⟩, by omega⟩

namespace MainMethod

/-- A main method after the code that follows its statements. -/
structure Closes (through body : Body) (exit rest : List Item) (unknown : Label) : Prop where
  returns : body.returns = through.returns
  usesReturn : body.usesReturn = through.usesReturn
  items : body.draft.items.toList =
    through.draft.items.toList ++ exit ++ dispatchOf through unknown ++ rest
  exit : ∀ item ∈ exit, item.Quiet
  rest : ∀ item ∈ rest, item.Closing
  handlers : body.draft.handlers.toList =
    if Item.helpers body.draft.items.toList = [] then [] else [faultRow]
  load : Item.total Insn.load body.draft.items.toList ≤
    through.draft.load + 4 * through.returns.size + 544

/-- The code of a main method around its statements, where `values` gives the slots their first values. -/
def framed (statements : List Item) (values : List Insn) : List Item :=
  .insn (.branch Opcode.goto MainLabel.init) :: .label MainLabel.body ::
    (statements ++ .label MainLabel.init ::
      (values.map Item.insn ++ [.insn (.branch Opcode.goto MainLabel.body)]))

theorem Closed.framed {through body : Body} {statements : List Item} (closed : Closed through body)
    (items : through.draft.items.toList = opened.draft.items.toList ++ statements) :
    body.draft.items.toList =
      framed (statements ++ closingItems through) body.draft.scope.initializers := by
  obtain ⟨nextLabel, scope⟩ := closed.scope
  rw [closed.items, scope]
  generalize closingItems through = closing
  rw [items]
  simp [MainMethod.framed, openingItems, opened, Draft.empty, Scope.initializers]

theorem compile_framed (surroundings : Surroundings) (program : Program) :
    Ends (compile surroundings program) (Body.empty descriptor)
      (fun _ body => ∃ statements,
        body.draft.items.toList = framed statements body.draft.scope.initializers)
      (fun _ _ => True) := by
  refine compile_ends ((Stmt.compileAll_advances program).ends opened) (fun _ _ _ _ _ => trivial) ?_
  intro through body advances _ _ closed
  obtain ⟨statements, items, _⟩ := advances.grows.items
  exact ⟨statements ++ closingItems through, closed.framed items⟩

theorem dispatchItems_load (targets : List Label) (unknown : Label) :
    Item.total Insn.load (dispatchItems targets unknown) ≤ 4 * targets.length + 200 := by
  have message : (Insn.pushText Fault.returnWithoutGosub.message).load ≤ 150 := by decide +kernel
  have single : (Insn.call .gosubPop).load = 6 ∧ (Insn.op Opcode.pop).load = 6 ∧
      (Insn.call .fault).load = 6 ∧ (Insn.op Opcode.athrow).load = 6 := by decide
  have switch : (Insn.tableSwitch 0 targets unknown).load = 16 + 4 * targets.length := rfl
  unfold dispatchItems
  split <;> simp only [Item.total_append, Item.total, single, switch] <;> omega

theorem dispatchOf_load (body : Body) (unknown : Label) :
    Item.total Insn.load (dispatchOf body unknown) ≤ 4 * body.returns.size + 200 := by
  unfold dispatchOf
  split
  · exact dispatchItems_load _ unknown
  · simp [Item.total]

theorem Quiet.helpers_eq {items : List Item} (quiet : ∀ item ∈ items, item.Quiet) :
    Item.helpers items = [] :=
  List.filterMap_eq_nil_iff.mpr fun item member => (quiet item member).2

theorem exitItems_quiet (helpers : List Helper) : (∀ item ∈ exitItems helpers, item.Quiet) ∧
    Item.total Insn.load (exitItems helpers) ≤ 166 := by
  unfold exitItems flushItems
  split
  · exact ⟨by simp [Item.Quiet, Item.Closing, Item.helper?], by decide +kernel⟩
  · exact ⟨by simp [Item.Quiet, Item.Closing, Item.helper?]; decide, by decide +kernel⟩

theorem reportItems_closing (helpers : List Helper) : (∀ item ∈ reportItems helpers, item.Closing) ∧
    Item.total Insn.load (reportItems helpers) ≤ 172 := by
  unfold reportItems flushItems
  split
  · exact ⟨nofun, Nat.zero_le _⟩
  · exact ⟨by simp [Item.Closing]; decide, by decide +kernel⟩

theorem openingItems_quiet (scope : Scope) : (∀ item ∈ openingItems scope, item.Quiet) ∧
    Item.total Insn.load (openingItems scope) = 12 * scope.initials.size + 6 := by
  obtain ⟨quiet, load⟩ := scope.initializers_load
  have jump : (Insn.branch Opcode.goto MainLabel.body).load = 6 := rfl
  refine ⟨List.forall_mem_cons.mpr ⟨⟨trivial, rfl⟩, List.forall_mem_append.mpr ⟨quiet, ?_⟩⟩, ?_⟩
  · exact List.forall_mem_singleton.mpr (.simple rfl)
  · simp only [openingItems, Item.total, Item.total_append, load, jump]

theorem Closed.closes {through body : Body} (closed : Closed through body)
    (unhandled : through.draft.handlers = #[]) : ∃ exit rest, Closes through body exit rest (unknownOf through) := by
  obtain ⟨exitQuiet, exitLoad⟩ := exitItems_quiet (Item.helpers through.draft.items.toList)
  obtain ⟨reportClosing, reportLoad⟩ := reportItems_closing (helpersOf through)
  obtain ⟨openingQuiet, openingLoad⟩ := openingItems_quiet through.draft.scope
  have dispatch := dispatchOf_load through (unknownOf through)
  refine ⟨_, .label MainLabel.bodyEnd :: (reportItems (helpersOf through) ++ openingItems through.draft.scope),
    closed.returns, closed.usesReturn, ?_, exitQuiet, ?_, ?_, ?_⟩
  · rw [closed.items, closingItems]
    simp only [List.append_assoc, List.cons_append]
  · refine List.forall_mem_cons.mpr ⟨trivial, List.forall_mem_append.mpr ⟨reportClosing, ?_⟩⟩
    exact fun item member => (openingQuiet item member).1
  · have helpers : Item.helpers body.draft.items.toList =
        helpersOf through ++ Item.helpers (reportItems (helpersOf through)) := by
      rw [closed.items, closingItems, helpersOf]
      simp only [Item.helpers_append, List.append_assoc, Quiet.helpers_eq exitQuiet, List.nil_append,
        Quiet.helpers_eq openingQuiet, List.append_nil]
      rfl
    rw [closed.handlers, helpers, unhandled, reportItems]
    cases isEmpty : helpersOf through with
    | nil => rfl
    | cons => rfl
  · simp only [closed.items, closingItems, Draft.load, Item.total_append, Item.total]
    omega

/-- What the code of a main method is made of, where `through` is the method after its statements. -/
structure Contents (surroundings : Surroundings) (program : Program) (through body : Body)
    (exit rest : List Item) (unknown : Label) : Prop where
  ran : (Stmt.compileAll surroundings program).run opened = (.ok (), through)
  advances : opened.Advances (Stmt.marked surroundings program) (Stmt.calls program).length
    (120 * Stmt.sizes program) through
  closes : Closes through body exit rest unknown

theorem Contents.precedes {surroundings : Surroundings} {program : Program} {through body : Body}
    {exit rest : List Item} {unknown : Label}
    (contents : Contents surroundings program through body exit rest unknown) :
    through.draft.items.toList <+: body.draft.items.toList :=
  ⟨exit ++ (dispatchOf through unknown ++ rest), by simp [contents.closes.items]⟩

theorem compile_contents (surroundings : Surroundings) (program : Program) :
    Ends (compile surroundings program) (Body.empty descriptor)
      (fun _ body => ∃ through exit rest unknown,
        Contents surroundings program through body exit rest unknown)
      (fun _ _ => True) := by
  refine compile_ends ((Stmt.compileAll_advances program).ends opened) (fun _ _ _ _ _ => trivial) ?_
  intro through body advances ran _ closed
  obtain ⟨exit, rest, closes⟩ := closed.closes advances.grows.handlers
  exact ⟨through, exit, rest, unknownOf through, ran, advances, closes⟩

theorem dispatch_cases {body : Body} {unknown : Label} {item : Item}
    (member : item ∈ dispatchOf body unknown) :
    item.Closing ∨ item = .insn (.tableSwitch 0 body.returns.targets.toList unknown) := by
  unfold dispatchOf at member
  split at member
  · unfold dispatchItems at member
    split at member <;>
      simp only [List.mem_cons, List.not_mem_nil, or_false, List.cons_append, List.nil_append] at member
    · rcases member with rfl | rfl | rfl | rfl | rfl | rfl <;> simp [Item.Closing]
    · rcases member with rfl | rfl | rfl | rfl | rfl | rfl | rfl <;> simp [Item.Closing]
  · cases member

namespace Contents

variable {surroundings : Surroundings} {program : Program} {through body : Body}
  {exit rest : List Item} {unknown : Label}

theorem statements (contents : Contents surroundings program through body exit rest unknown) :
    ∀ item ∈ through.draft.items.toList, item.Ordinary body.usesReturn := by
  obtain ⟨added, items, ordinary⟩ := contents.advances.grows.items
  rw [← contents.closes.usesReturn] at ordinary
  rw [items]
  refine List.forall_mem_append.mpr ⟨?_, ordinary⟩
  simp [opened, Draft.empty, Item.Ordinary, Item.Plain]

theorem cases_of_mem (contents : Contents surroundings program through body exit rest unknown)
    {item : Item} (member : item ∈ body.draft.items.toList) :
    item.Ordinary body.usesReturn ∨ item.Closing ∨
      item = .insn (.tableSwitch 0 body.returns.targets.toList unknown) := by
  rw [contents.closes.items, List.mem_append, List.mem_append, List.mem_append] at member
  rcases member with ((stated | exited) | dispatched) | last
  · exact .inl (contents.statements item stated)
  · exact .inr (.inl (contents.closes.exit item exited).1)
  · rw [contents.closes.returns]
    exact .inr (dispatch_cases dispatched)
  · exact .inr (.inl (contents.closes.rest item last))

theorem hosted (contents : Contents surroundings program through body exit rest unknown)
    {item : Item} (member : item ∈ body.draft.items.toList) : item.Hosted := by
  rcases contents.cases_of_mem member with ordinary | closing | rfl
  · exact ordinary.hosted
  · exact closing.hosted.1
  · trivial

theorem calls_helper (contents : Contents surroundings program through body exit rest unknown)
    {helper : Helper} (needs : helper ∈ Item.helpers body.draft.items.toList) :
    .insn (.call helper) ∈ body.draft.items.toList := by
  obtain ⟨item, member, isHelper⟩ := List.mem_filterMap.mp needs
  cases item with
  | insn insn =>
      cases insn with
      | call other =>
          cases isHelper
          exact member
      | _ => cases isHelper
  | label | sourceLine => cases isHelper
  | request other =>
      cases isHelper
      rcases contents.cases_of_mem member with ⟨rfl, uses⟩ | closing | isSwitch
      · have dispatched : Item.insn (.call .gosubPop) ∈ dispatchOf through unknown := by
          rw [contents.closes.usesReturn] at uses
          simp [dispatchOf, dispatchItems, uses]
        rw [contents.closes.items]
        exact List.mem_append_left _ (List.mem_append_right _ dispatched)
      · exact closing.elim
      · cases isSwitch

theorem sourceLines_eq (contents : Contents surroundings program through body exit rest unknown) :
    Item.sourceLines body.draft.items.toList = Stmt.marked surroundings program := by
  have quiet {items : List Item} (closing : ∀ item ∈ items, item.Closing ∨
      item = .insn (.tableSwitch 0 through.returns.targets.toList unknown)) : Item.sourceLines items = [] := by
    refine List.filterMap_eq_nil_iff.mpr fun item member => ?_
    rcases closing item member with isClosing | rfl
    · exact isClosing.hosted.2
    · rfl
  have exits := quiet fun item member => .inl (contents.closes.exit item member).1
  have dispatches := quiet fun item member => dispatch_cases member
  have ends := quiet fun item member => .inl (contents.closes.rest item member)
  rw [contents.closes.items, Item.sourceLines_append, Item.sourceLines_append, Item.sourceLines_append,
    exits, dispatches, ends, contents.advances.lines]
  simp [opened, Draft.empty, Item.sourceLines, Item.line?]

theorem load_le (contents : Contents surroundings program through body exit rest unknown) :
    Item.total Insn.load body.draft.items.toList ≤
      120 * Stmt.sizes program + 4 * (Stmt.calls program).length + 550 := by
  have load := contents.closes.load
  have stated := contents.advances.grows.load
  have returns := contents.advances.returns_size
  have start : opened.draft.load = 6 := by decide +kernel
  have none : opened.returns.size = 0 := rfl
  omega

theorem returns_size (contents : Contents surroundings program through body exit rest unknown) :
    body.returns.size = (Stmt.calls program).length := by
  rw [contents.closes.returns, contents.advances.returns_size]
  exact Nat.zero_add _

end Contents

end MainMethod

theorem Program.Built.contents {options : Options} {program : Program} {file : ClassFile} {lines : LineSet}
    {body : Body} (built : Built options program file lines body) :
    ∃ through exit rest unknown, MainMethod.Contents
      ⟨lines, DataTable.scan program, options.lineNumbers⟩ program through body exit rest unknown :=
  (MainMethod.compile_contents _ program).of_run built.compiled

end BasicCompiler
