import BasicCompiler.Proofs.Compile.Inventory

/-!
The statements of a program where they are compiled, those inside of conditionals too, with the number
of calls of subroutines that are compiled before them, and the code that those of them have which jump.
-/

namespace BasicCompiler

open Draft Body

/-- A main method that is compiled further keeps its code and its return points. -/
structure Body.Precedes (body final : Body) : Prop where
  draft : body.draft.Precedes final.draft
  returns : body.returns.targets.toList <+: final.returns.targets.toList

namespace Body.Precedes

variable {body middle final : Body}

theorem trans (first : body.Precedes middle) (second : middle.Precedes final) : body.Precedes final :=
  ⟨first.draft.trans second.draft, first.returns.trans second.returns⟩

theorem at_cases (precedes : body.Precedes final) {place : Nat} {item : Item}
    (isItem : final.draft.items.toList[place]? = some item) :
    body.draft.items.toList[place]? = some item ∨ body.draft.items.toList.length ≤ place := by
  obtain ⟨added, items⟩ := precedes.draft.items
  rcases Nat.lt_or_ge place body.draft.items.toList.length with inside | beyond
  · rw [← items, List.getElem?_append_left inside] at isItem
    exact .inl isItem
  · exact .inr beyond

theorem of_advances {lines : List LineNumber} {sites cost : Nat}
    (advances : body.Advances lines sites cost final) : body.Precedes final := by
  obtain ⟨returns, _, targets⟩ := advances.returns
  exact ⟨advances.grows.precedes, ⟨returns, targets.symm⟩⟩

end Body.Precedes

section Runs

variable {α : Type} {lines : List LineNumber} {sites cost : Nat} {action : BodyM α} {body final : Body}
  {value : α}

theorem Advances.of_run (advances : Advances lines sites cost action)
    (ran : action.run body = (.ok value, final)) : body.Advances lines sites cost final :=
  (advances.ends body).of_run ran

theorem Advances.precedes (advances : Advances lines sites cost action)
    (ran : action.run body = (.ok value, final)) : body.Precedes final :=
  .of_advances (advances.of_run ran)

theorem Advances.no_entry (advances : Advances lines 0 cost action)
    (ran : action.run body = (.ok value, final)) {place : Nat}
    (beyond : body.draft.items.toList.length ≤ place) :
    final.draft.items.toList[place]? ≠ some (.insn (.call .gosubPush)) := by
  intro entry
  have advanced := advances.of_run ran
  obtain ⟨added, items, _⟩ := advanced.grows.items
  have entries := advanced.entries rfl
  rw [items, Item.entries_append, Nat.add_eq_left] at entries
  rw [items, List.getElem?_append_right beyond] at entry
  exact List.count_eq_zero.mp entries (List.mem_of_getElem? entry)

theorem Spends.returns (spends : Spends cost action) (ran : action.run body = (.ok value, final)) :
    final.returns = body.returns :=
  ((spends.ends body).of_run ran).1

end Runs

namespace Stmt

/-- A statement of a list, or of the arms of one, is compiled from one state of a main method to another.
`sites` calls of subroutines are compiled before the list and `site` before the statement. -/
inductive Occurs (surroundings : Surroundings) (stmt : Stmt) (site : Nat) (before after : Body) :
    List Stmt → Nat → Body → Prop where
  | here {rest : List Stmt} : (compile surroundings stmt).run before = (.ok (), after) →
      Occurs surroundings stmt site before after (stmt :: rest) site before
  | thenArm {condition : Expr} {thenBody elseBody rest : List Stmt} {sites : Nat} {body middle : Body}
      {labels : Label × Label} :
      (enterThen condition elseBody).run body = (.ok labels, middle) →
      Occurs surroundings stmt site before after thenBody sites middle →
      Occurs surroundings stmt site before after (.conditional condition thenBody elseBody :: rest) sites
        body
  | elseArm {condition : Expr} {thenBody elseBody rest : List Stmt} {sites : Nat}
      {body entered left middle : Body} {done otherwise : Label} :
      (enterThen condition elseBody).run body = (.ok (done, otherwise), entered) →
      (compileAll surroundings thenBody).run entered = (.ok (), left) →
      (enterElse done otherwise).run left = (.ok (), middle) →
      Occurs surroundings stmt site before after elseBody (sites + (calls thenBody).length) middle →
      Occurs surroundings stmt site before after (.conditional condition thenBody elseBody :: rest) sites
        body
  | later {first : Stmt} {rest : List Stmt} {sites : Nat} {body middle : Body} :
      (compile surroundings first).run body = (.ok (), middle) →
      Occurs surroundings stmt site before after rest (sites + (calls [first]).length) middle →
      Occurs surroundings stmt site before after (first :: rest) sites body

variable {surroundings : Surroundings}

theorem run_conditional {condition : Expr} {thenBody elseBody : List Stmt} {body final : Body}
    (ran : (compile surroundings (.conditional condition thenBody elseBody)).run body = (.ok (), final)) :
    ∃ done otherwise entered left, (enterThen condition elseBody).run body = (.ok (done, otherwise), entered) ∧
      (compileAll surroundings thenBody).run entered = (.ok (), left) ∧
      ((elseBody = [] ∧ (place done : BodyM Unit).run left = (.ok (), final)) ∨
        ∃ middle through, (enterElse done otherwise).run left = (.ok (), middle) ∧
          (compileAll surroundings elseBody).run middle = (.ok (), through) ∧
          (place done : BodyM Unit).run through = (.ok (), final)) := by
  rw [compile_conditional] at ran
  obtain ⟨⟨done, otherwise⟩, entered, ran₁, ran⟩ := run_bind ran
  obtain ⟨_, left, ran₂, ran⟩ := run_bind ran
  refine ⟨done, otherwise, entered, left, ran₁, ran₂, ?_⟩
  cases elseBody with
  | nil => exact .inl ⟨rfl, ran⟩
  | cons first rest =>
      obtain ⟨_, middle, ran₃, ran⟩ := run_bind ran
      obtain ⟨_, through, ran₄, ran⟩ := run_bind ran
      exact .inr ⟨middle, through, ran₃, ran₄, ran⟩

theorem place_precedes {label : Label} {body final : Body}
    (ran : (place label : BodyM Unit).run body = (.ok (), final)) : body.Precedes final :=
  (Spends.place label).advances.precedes ran

theorem enterElse_precedes {done otherwise : Label} {body final : Body}
    (ran : (enterElse done otherwise).run body = (.ok (), final)) : body.Precedes final :=
  (enterElse_spends done otherwise).advances.precedes ran

theorem compileAll_precedes {stmts : List Stmt} {body final : Body}
    (ran : (compileAll surroundings stmts).run body = (.ok (), final)) : body.Precedes final :=
  (compileAll_advances stmts).precedes ran

theorem Occurs.compiled {stmt : Stmt} {site sites : Nat} {before after body final : Body}
    {stmts : List Stmt} (occurs : Occurs surroundings stmt site before after stmts sites body)
    (ran : (compileAll surroundings stmts).run body = (.ok (), final)) (counted : body.returns.size = sites) :
    (compile surroundings stmt).run before = (.ok (), after) ∧ before.returns.size = site ∧
      after.Precedes final := by
  induction occurs generalizing final with
  | @here rest compiled =>
      obtain ⟨_, middle, ran₁, ran₂⟩ := run_bind ran
      cases compiled.symm.trans ran₁
      exact ⟨compiled, counted, compileAll_precedes ran₂⟩
  | @thenArm condition thenBody elseBody rest sites body middle labels entered occurs ih =>
      obtain ⟨_, through, ran₁, ran₂⟩ := run_bind ran
      obtain ⟨done, otherwise, entered', left, ran₃, ran₄, arms⟩ := run_conditional ran₁
      cases entered.symm.trans ran₃
      have sameReturns := (enterThen_spends condition elseBody).returns entered
      obtain ⟨compiled, isSite, precedes⟩ := ih ran₄ (by rw [sameReturns, counted])
      refine ⟨compiled, isSite, precedes.trans (Body.Precedes.trans ?_ (compileAll_precedes ran₂))⟩
      rcases arms with ⟨_, placed⟩ | ⟨turned, ended, ran₅, ran₆, placed⟩
      · exact place_precedes placed
      · exact (enterElse_precedes ran₅).trans ((compileAll_precedes ran₆).trans (place_precedes placed))
  | @elseArm condition thenBody elseBody rest sites body entered left middle done otherwise enters thens
      turns occurs ih =>
      obtain ⟨_, through, ran₁, ran₂⟩ := run_bind ran
      obtain ⟨done', otherwise', entered', left', ran₃, ran₄, arms⟩ := run_conditional ran₁
      cases enters.symm.trans ran₃
      cases thens.symm.trans ran₄
      rcases arms with ⟨rfl, _⟩ | ⟨turned, ended, ran₅, ran₆, placed⟩
      · cases occurs
      · cases turns.symm.trans ran₅
        have sameReturns := (enterThen_spends condition elseBody).returns enters
        have advanced := ((compileAll_advances thenBody).of_run thens).returns_size
        have sameReturns' := (enterElse_spends done otherwise).returns turns
        obtain ⟨compiled, isSite, precedes⟩ := ih ran₆ (by
          rw [sameReturns', advanced, sameReturns, counted])
        exact ⟨compiled, isSite, precedes.trans ((place_precedes placed).trans (compileAll_precedes ran₂))⟩
  | @later first rest sites body middle compiled occurs ih =>
      obtain ⟨_, middle', ran₁, ran₂⟩ := run_bind ran
      cases compiled.symm.trans ran₁
      have advanced := ((compile_advances first).of_run compiled).returns_size
      exact ih ran₂ (by rw [advanced, counted])

theorem calls_length_eq (stmts : List Stmt) : (calls stmts).length = (inlinedAll stmts).countP isCall :=
  List.countP_eq_length_filter.symm

theorem split_of_append {front back first second : List Stmt} {stmt : Stmt}
    (split : first ++ second = front ++ stmt :: back) :
    (∃ rest, first = front ++ stmt :: rest) ∨ ∃ rest, front = first ++ rest ∧ second = rest ++ stmt :: back := by
  rcases List.append_eq_append_iff.mp split with ⟨rest, isFront, isSecond⟩ | ⟨rest, isFirst, isBack⟩
  · exact .inr ⟨rest, isFront, isSecond⟩
  · cases rest with
    | nil => exact .inr ⟨[], by simpa using isFirst.symm, isBack.symm⟩
    | cons first' rest =>
        obtain ⟨rfl, _⟩ := List.cons.inj isBack
        exact .inl ⟨rest, isFirst⟩

mutual

theorem occurs_inside (first : Stmt) (rest : List Stmt) {stmt : Stmt} {front back : List Stmt}
    (split : inlined first = front ++ stmt :: back) (sites : Nat) {body middle : Body}
    (ran : (compile surroundings first).run body = (.ok (), middle)) :
    ∃ before after, Occurs surroundings stmt (sites + front.countP isCall) before after (first :: rest) sites
      body := by
  have alone (single : [first] = front ++ stmt :: back) : ∃ before after,
      Occurs surroundings stmt (sites + front.countP isCall) before after (first :: rest) sites body := by
    cases front with
    | nil =>
        obtain ⟨rfl, _⟩ := List.cons.inj single
        exact ⟨body, middle, .here ran⟩
    | cons _ others =>
        have none := (List.cons.inj single).2
        simp at none
  cases first with
  | conditional condition thenBody elseBody =>
      obtain ⟨done, otherwise, entered, left, ran₁, ran₂, arms⟩ := run_conditional ran
      rw [inlined] at split
      cases front with
      | nil =>
          obtain ⟨rfl, _⟩ := List.cons.inj split
          exact ⟨body, middle, .here ran⟩
      | cons whole others =>
          obtain ⟨rfl, inner⟩ := List.cons.inj split
          rw [List.countP_cons_of_neg (by simp [isCall])]
          rcases split_of_append inner with ⟨more, inThen⟩ | ⟨more, rfl, inElse⟩
          · obtain ⟨before, after, occurs⟩ := occurs_of_split thenBody inThen sites ran₂
            exact ⟨before, after, .thenArm ran₁ occurs⟩
          · rcases arms with ⟨rfl, _⟩ | ⟨turned, ended, ran₃, ran₄, _⟩
            · simp [inlinedAll] at inElse
            · obtain ⟨before, after, occurs⟩ :=
                occurs_of_split elseBody inElse (sites + (calls thenBody).length) ran₄
              rw [List.countP_append, ← calls_length_eq, ← Nat.add_assoc]
              exact ⟨before, after, .elseArm ran₁ ran₂ ran₃ occurs⟩
  | _ => exact alone split

theorem occurs_of_split (stmts : List Stmt) {stmt : Stmt} {front back : List Stmt}
    (split : inlinedAll stmts = front ++ stmt :: back) (sites : Nat) {body final : Body}
    (ran : (compileAll surroundings stmts).run body = (.ok (), final)) :
    ∃ before after, Occurs surroundings stmt (sites + front.countP isCall) before after stmts sites body := by
  cases stmts with
  | nil => simp [inlinedAll] at split
  | cons first rest =>
      obtain ⟨_, middle, ran₁, ran₂⟩ := run_bind ran
      rcases split_of_append split with ⟨more, inFirst⟩ | ⟨more, rfl, inRest⟩
      · exact occurs_inside first rest inFirst sites ran₁
      · obtain ⟨before, after, occurs⟩ := occurs_of_split rest inRest (sites + (calls [first]).length) ran₂
        have counted : (calls [first]).length = (inlined first).countP isCall := by
          rw [calls_length_eq, inlinedAll, inlinedAll, List.append_nil]
        rw [List.countP_append, ← counted, ← Nat.add_assoc]
        exact ⟨before, after, .later ran₁ occurs⟩

end

def CallAt (surroundings : Surroundings) (place : Nat) (stmts : List Stmt) (sites : Nat) (body : Body) :
    Prop :=
  ∃ stmt site before after, stmt.isCall = true ∧
    Occurs surroundings stmt site before after stmts sites body ∧
    before.draft.items.toList.length ≤ place ∧ place < after.draft.items.toList.length

mutual

theorem callAt_inside (first : Stmt) (rest : List Stmt) (sites : Nat) {body middle : Body}
    (ran : (compile surroundings first).run body = (.ok (), middle)) {place : Nat}
    (beyond : body.draft.items.toList.length ≤ place)
    (entry : middle.draft.items.toList[place]? = some (.insn (.call .gosubPush))) :
    CallAt surroundings place (first :: rest) sites body := by
  have alone (single : inlined first = [first]) : CallAt surroundings place (first :: rest) sites body := by
    cases isCalling : first.isCall with
    | true =>
        obtain ⟨inside, _⟩ := List.getElem?_eq_some_iff.mp entry
        exact ⟨first, sites, body, middle, isCalling, .here ran, beyond, inside⟩
    | false =>
        have none : (calls [first]).length = 0 := by
          simp [calls_length_eq, inlinedAll, single, isCalling]
        have advances : Advances _ _ _ (compile surroundings first) := compile_advances first
        rw [none] at advances
        exact absurd entry (advances.no_entry ran beyond)
  cases first with
  | conditional condition thenBody elseBody =>
      obtain ⟨done, otherwise, entered, left, ran₁, ran₂, arms⟩ := run_conditional ran
      have inThen (entry' : left.draft.items.toList[place]? = some (.insn (.call .gosubPush))) :
          CallAt surroundings place (.conditional condition thenBody elseBody :: rest) sites body := by
        rcases (compileAll_precedes ran₂).at_cases entry' with tested | inArm
        · exact absurd tested ((enterThen_spends condition elseBody).advances.no_entry ran₁ beyond)
        · obtain ⟨stmt, site, before, after, isCalling, occurs, held⟩ :=
            callAt_of_entry thenBody sites ran₂ inArm entry'
          exact ⟨stmt, site, before, after, isCalling, .thenArm ran₁ occurs, held⟩
      rcases arms with ⟨rfl, ran₃⟩ | ⟨turned, ended, ran₃, ran₄, ran₅⟩
      · rcases (place_precedes ran₃).at_cases entry with here | last
        · exact inThen here
        · exact absurd entry ((Spends.place done).advances.no_entry ran₃ last)
      · rcases (place_precedes ran₅).at_cases entry with entry' | last
        · rcases (compileAll_precedes ran₄).at_cases entry' with turning | inArm
          · rcases (enterElse_precedes ran₃).at_cases turning with here | between
            · exact inThen here
            · exact absurd turning ((enterElse_spends done otherwise).advances.no_entry ran₃ between)
          · obtain ⟨stmt, site, before, after, isCalling, occurs, held⟩ :=
              callAt_of_entry elseBody (sites + (calls thenBody).length) ran₄ inArm entry'
            exact ⟨stmt, site, before, after, isCalling, .elseArm ran₁ ran₂ ran₃ occurs, held⟩
        · exact absurd entry ((Spends.place done).advances.no_entry ran₅ last)
  | _ => exact alone rfl

theorem callAt_of_entry (stmts : List Stmt) (sites : Nat) {body final : Body}
    (ran : (compileAll surroundings stmts).run body = (.ok (), final)) {place : Nat}
    (beyond : body.draft.items.toList.length ≤ place)
    (entry : final.draft.items.toList[place]? = some (.insn (.call .gosubPush))) :
    CallAt surroundings place stmts sites body := by
  cases stmts with
  | nil => exact absurd entry ((Spends.pure ()).advances.no_entry ran beyond)
  | cons first rest =>
      obtain ⟨_, middle, ran₁, ran₂⟩ := run_bind ran
      rcases (compileAll_precedes ran₂).at_cases entry with here | later
      · exact callAt_inside first rest sites ran₁ beyond here
      · obtain ⟨stmt, site, before, after, isCalling, occurs, held⟩ :=
          callAt_of_entry rest (sites + (calls [first]).length) ran₂ later entry
        exact ⟨stmt, site, before, after, isCalling, .later ran₁ occurs, held⟩

end

section Code

variable {before after : Body}

theorem line_items {number : LineNumber}
    (ran : (compile surroundings (.line number)).run before = (.ok (), after)) :
    ∃ notes, after.draft.items.toList =
        before.draft.items.toList ++ Item.label (LineSet.labelOf number) :: notes ∧
      ∀ item ∈ notes, item = .sourceLine number := by
  have ends : Ends (compile surroundings (.line number)) before (fun _ after => ∃ notes,
      after.draft.items.toList =
        before.draft.items.toList ++ Item.label (LineSet.labelOf number) :: notes ∧
      ∀ item ∈ notes, item = .sourceLine number) (fun _ _ => True) := by
    rw [compile, ends_lift, compileLine, drafts_bind, drafts_place]
    split
    · rw [drafts_addItem]
      exact ⟨[.sourceLine number], by simp, by simp⟩
    · rw [drafts_pure]
      exact ⟨[], by simp, by simp⟩
  exact ends.of_run ran

theorem goto_items {line : LineNumber}
    (ran : (compile surroundings (.goto line)).run before = (.ok (), after)) :
    after.draft.items.toList =
      before.draft.items.toList ++ [Item.insn (.branch Opcode.goto (LineSet.labelOf line))] := by
  have ends : Ends (compile surroundings (.goto line)) before (fun _ after => after.draft.items.toList =
      before.draft.items.toList ++ [Item.insn (.branch Opcode.goto (LineSet.labelOf line))])
      (fun _ _ => True) := by
    rw [compile, compileGoto, ends_bind, ends_requireLabel]
    split
    · exact add_items _ _
    · trivial
  exact ends.of_run ran

def entryItems (site : Nat) (target : Label) : List Item :=
  [.insn (.pushInt (Int32.ofNat site)), .insn (.call .gosubPush), .insn (.branch Opcode.goto target)]

theorem drafts_enterSub (site : Nat) (target : Label) (draft : Draft) (post : Unit → Draft → Prop) :
    Drafts (enterSub site target) draft post ↔
      post () (((draft.add (.insn (.pushInt (Int32.ofNat site)))).add (.insn (.call .gosubPush))).add
        (.insn (.branch Opcode.goto target))) := Iff.rfl

theorem gosub_items {line : LineNumber}
    (ran : (compile surroundings (.gosub line)).run before = (.ok (), after)) :
    ∃ back, after.returns.targets.toList = before.returns.targets.toList ++ [back] ∧
      after.draft.items.toList = before.draft.items.toList ++
        (entryItems before.returns.size (LineSet.labelOf line) ++ [Item.label back]) := by
  have ends : Ends (compile surroundings (.gosub line)) before (fun _ after => ∃ back,
      after.returns.targets.toList = before.returns.targets.toList ++ [back] ∧
      after.draft.items.toList = before.draft.items.toList ++
        (entryItems before.returns.size (LineSet.labelOf line) ++ [Item.label back])) (fun _ _ => True) := by
    rw [compile, compileGosub, ends_bind, ends_requireLabel]
    split
    · rw [ends_bind, ends_lift, drafts_freshLabel, ends_bind, ends_addReturn, ends_bind, ends_lift,
        drafts_enterSub, ends_lift, drafts_place]
      exact ⟨_, Array.toList_push, by simp [entryItems]⟩
    · trivial
  exact ends.of_run ran

theorem compileSelector_items (selector : Expr) (body : Body) :
    Ends (compileSelector selector) body
      (fun _ final => final.returns = body.returns ∧
        ∃ choice, final.draft.items.toList = body.draft.items.toList ++ choice ∧
          ∀ item ∈ choice, item.Plain)
      (fun _ _ => True) := by
  refine ((compileSelector_codes selector).spends.ends body).imp ?_
  rintro _ final ⟨returns, _, grows⟩
  exact ⟨returns, grows.items⟩

theorem onGoto_items {selector : Expr} {numbers : List LineNumber} (some : numbers ≠ [])
    (ran : (compile surroundings (.onGoto selector numbers)).run before = (.ok (), after)) :
    ∃ choice next, after.draft.items.toList = before.draft.items.toList ++ (choice ++
      [Item.insn (.tableSwitch 1 (numbers.map LineSet.labelOf) next), .label next]) := by
  have ends : Ends (compile surroundings (.onGoto selector numbers)) before (fun _ after =>
      ∃ choice next, after.draft.items.toList = before.draft.items.toList ++ (choice ++
        [Item.insn (.tableSwitch 1 (numbers.map LineSet.labelOf) next), .label next])) (fun _ _ => True) := by
    rw [compile, compileOnGoto, ends_bind, ends_requireLabels]
    split
    · refine (compileSelector_items selector before).bind ?_
      rintro _ middle ⟨_, choice, items, _⟩
      rw [if_neg (by simpa using some), ends_bind, ends_lift, drafts_freshLabel, ends_bind, ends_lift,
        drafts_emit, ends_lift, drafts_place]
      exact ⟨choice, _, by simp [items]; rfl⟩
    · trivial
  exact ends.of_run ran

def stubItems (site : Nat) : List Label → List Label → List Item
  | stub :: stubs, target :: targets =>
    .label stub :: (entryItems site target ++ stubItems site stubs targets)
  | _, _ => []

theorem enterSubs_items (site : Nat) (stubs targets : List Label) (draft : Draft) :
    Drafts (enterSubs site stubs targets) draft fun _ final =>
      final.items.toList = draft.items.toList ++ stubItems site stubs targets := by
  induction targets generalizing stubs draft with
  | nil => cases stubs <;> exact (List.append_nil _).symm
  | cons target rest ih =>
      cases stubs with
      | nil => exact (List.append_nil _).symm
      | cons stub stubs =>
          rw [enterSubs, drafts_bind, drafts_place, drafts_bind, drafts_enterSub]
          refine (ih stubs _).mono fun _ final items => ?_
          rw [items]
          simp [stubItems, entryItems]

theorem onGosub_items {selector : Expr} {numbers : List LineNumber} (some : numbers ≠ [])
    (ran : (compile surroundings (.onGosub selector numbers)).run before = (.ok (), after)) :
    ∃ choice stubs back, (∀ item ∈ choice, item.Plain) ∧ stubs.length = numbers.length ∧
      after.returns.targets.toList = before.returns.targets.toList ++ [back] ∧
      after.draft.items.toList = before.draft.items.toList ++ (choice ++
        Item.insn (.tableSwitch 1 stubs back) ::
          (stubItems before.returns.size stubs (numbers.map LineSet.labelOf) ++ [Item.label back])) := by
  have ends : Ends (compile surroundings (.onGosub selector numbers)) before (fun _ after =>
      ∃ choice stubs back, (∀ item ∈ choice, item.Plain) ∧ stubs.length = numbers.length ∧
        after.returns.targets.toList = before.returns.targets.toList ++ [back] ∧
        after.draft.items.toList = before.draft.items.toList ++ (choice ++
          Item.insn (.tableSwitch 1 stubs back) ::
            (stubItems before.returns.size stubs (numbers.map LineSet.labelOf) ++ [Item.label back])))
      (fun _ _ => True) := by
    have fresh (draft : Draft) : Drafts (freshLabels "on_gosub" (numbers.map LineSet.labelOf)) draft
        fun stubs final => stubs.length = numbers.length ∧ final.items = draft.items := by
      rw [drafts_freshLabels]
      simp
    rw [compile, compileOnGosub, ends_bind, ends_requireLabels]
    split
    · refine (compileSelector_items selector before).bind ?_
      rintro _ middle ⟨returns, choice, items, plain⟩
      rw [if_neg (by simpa using some), ends_bind, ends_lift, drafts_freshLabel, ends_bind, ends_addReturn,
        ends_bind, ends_lift]
      refine (fresh _).mono ?_
      rintro stubs drafted ⟨length, sameItems⟩
      rw [ends_bind, ends_lift, drafts_emit, ends_bind, ends_lift]
      refine (enterSubs_items _ _ _ _).mono fun _ entered entries => ?_
      rw [ends_lift, drafts_place]
      refine ⟨choice, stubs, Label.numbered "gosub_return" middle.draft.scope.nextLabel, plain, length, ?_, ?_⟩
      · rw [returns, Array.toList_push]
      · rw [add_items, entries, add_items, sameItems, items, returns]
        simp only [List.append_assoc, List.cons_append, List.nil_append]
    · trivial
  exact ends.of_run ran

end Code

end Stmt

end BasicCompiler
