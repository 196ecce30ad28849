import Mathlib.Data.List.Forall2

/-!
Computations that may fail and keep the state they have reached.
-/

namespace BasicCompiler

variable {ε σ α β : Type} {start final : σ} {success success' : α → σ → Prop}
  {failure failure' : ε → σ → Prop}

/-- Started in a state, a computation ends as `success` says of its value or as `failure` says of its
error. -/
def Ends (action : ExceptT ε (StateM σ) α) (start : σ) (success : α → σ → Prop)
    (failure : ε → σ → Prop) : Prop :=
  match action.run start with
  | (.ok value, final) => success value final
  | (.error error, final) => failure error final

theorem ends_bind (first : ExceptT ε (StateM σ) α) (next : α → ExceptT ε (StateM σ) β)
    (start : σ) (success : β → σ → Prop) (failure : ε → σ → Prop) :
    Ends (first >>= next) start success failure ↔
      Ends first start (fun value middle => Ends (next value) middle success failure) failure := by
  change (match ExceptT.bindCont next (first.run start).1 (first.run start).2 with
    | (.ok value, final) => success value final
    | (.error error, final) => failure error final) ↔ _
  unfold Ends
  generalize first.run start = outcome
  rcases outcome with ⟨result | result, middle⟩ <;> rfl

theorem ends_pure (value : α) (start : σ) (success : α → σ → Prop) (failure : ε → σ → Prop) :
    Ends (pure value) start success failure ↔ success value start := Iff.rfl

theorem ends_get (start : σ) (success : σ → σ → Prop) (failure : ε → σ → Prop) :
    Ends get start success failure ↔ success start start := Iff.rfl

theorem ends_modify (change : σ → σ) (start : σ) (success : PUnit → σ → Prop)
    (failure : ε → σ → Prop) :
    Ends (modify change) start success failure ↔ success ⟨⟩ (change start) := Iff.rfl

section

variable {action first : ExceptT ε (StateM σ) α} {next : α → ExceptT ε (StateM σ) β}
  {value : α}

theorem Ends.mono (ends : Ends action start success failure)
    (onSuccess : ∀ value final, success value final → success' value final)
    (onFailure : ∀ error final, failure error final → failure' error final) :
    Ends action start success' failure' := by
  unfold Ends at ends ⊢
  generalize action.run start = outcome at ends ⊢
  rcases outcome with ⟨result | result, final⟩
  · exact onFailure _ _ ends
  · exact onSuccess _ _ ends

theorem Ends.imp (ends : Ends action start success failure)
    (implies : ∀ value final, success value final → success' value final) :
    Ends action start success' failure :=
  ends.mono implies fun _ _ failed => failed

theorem Ends.bind {between : α → σ → Prop} {success : β → σ → Prop} (ends : Ends first start between failure)
    (later : ∀ value middle, between value middle → Ends (next value) middle success failure) :
    Ends (first >>= next) start success failure := by
  rw [ends_bind]
  exact ends.imp later

theorem Ends.and (ends : Ends action start success failure)
    (ends' : Ends action start success' failure') :
    Ends action start (fun value final => success value final ∧ success' value final)
      (fun error final => failure error final ∧ failure' error final) := by
  unfold Ends at ends ends' ⊢
  generalize action.run start = outcome at ends ends' ⊢
  rcases outcome with ⟨result | result, final⟩ <;> exact ⟨ends, ends'⟩

theorem Ends.of_run (ends : Ends action start success failure) (ran : action.run start = (.ok value, final)) :
    success value final := by
  rwa [Ends, ran] at ends

theorem Ends.reached {good : σ → Prop}
    (ends : Ends action start (fun _ final => good final) fun _ final => good final) :
    good (action.run start).2 := by
  unfold Ends at ends
  generalize action.run start = outcome at ends ⊢
  rcases outcome with ⟨error | value, final⟩ <;> exact ends

theorem Ends.exists_run (ends : Ends action start success fun _ _ => False) :
    ∃ value final, action.run start = (.ok value, final) ∧ success value final := by
  unfold Ends at ends
  generalize action.run start = outcome at ends ⊢
  rcases outcome with ⟨error | value, final⟩
  · exact ends.elim
  · exact ⟨value, final, rfl, ends⟩

theorem Ends.result {success : α → Prop} {failure : ε → Prop}
    (ends : Ends action start (fun value _ => success value) fun error _ => failure error) :
    (∃ value, (action.run start).1 = .ok value ∧ success value) ∨
      ∃ error, (action.run start).1 = .error error ∧ failure error := by
  unfold Ends at ends
  generalize action.run start = outcome at ends ⊢
  rcases outcome with ⟨error | value, final⟩
  · exact .inr ⟨error, rfl, ends⟩
  · exact .inl ⟨value, rfl, ends⟩

theorem ends_any (action : ExceptT ε (StateM σ) α) (start : σ) :
    Ends action start (fun _ _ => True) (fun _ _ => True) := by
  unfold Ends
  rcases action.run start with ⟨error | value, final⟩ <;> trivial

theorem Ends.run_eq
    (ends : Ends action start (fun found reached => found = value ∧ reached = final) fun _ _ => False) :
    action.run start = (.ok value, final) := by
  obtain ⟨_, _, ran, rfl, rfl⟩ := ends.exists_run
  exact ran

theorem run_bind {value : β} (ran : (first >>= next).run start = (.ok value, final)) :
    ∃ between middle, first.run start = (.ok between, middle) ∧
      (next between).run middle = (.ok value, final) := by
  change ExceptT.bindCont next (first.run start).1 (first.run start).2 = _ at ran
  generalize first.run start = outcome at ran ⊢
  rcases outcome with ⟨error | between, middle⟩
  · cases ran
  · exact ⟨between, middle, rfl, ran⟩

theorem exists_run_bind {good : β → σ → Prop} :
    (∃ value final, (first >>= next).run start = (.ok value, final) ∧ good value final) ↔
      ∃ between middle, first.run start = (.ok between, middle) ∧
        ∃ value final, (next between).run middle = (.ok value, final) ∧ good value final := by
  constructor
  · rintro ⟨value, final, ran, isGood⟩
    obtain ⟨between, middle, ranFirst, ranNext⟩ := run_bind ran
    exact ⟨between, middle, ranFirst, value, final, ranNext, isGood⟩
  · rintro ⟨between, middle, ranFirst, value, final, ranNext, isGood⟩
    refine ⟨value, final, ?_, isGood⟩
    change ExceptT.bindCont next (first.run start).1 (first.run start).2 = _
    rw [ranFirst]
    exact ranNext

theorem Ends.outcome (ends : Ends action start success failure) :
    Ends action start
      (fun value final => success value final ∧ action.run start = (.ok value, final)) failure := by
  unfold Ends at ends ⊢
  generalize action.run start = outcome at ends ⊢
  rcases outcome with ⟨result | result, final⟩
  · exact ends
  · exact ⟨ends, rfl⟩

end

/-- Computations that run one after the other, where each step of the state keeps what was said of the
values before it. -/
theorem ends_mapM {action : α → ExceptT ε (StateM σ) β} (step : σ → σ → Prop) {result : α → β → σ → Prop}
    (stays : ∀ state, step state state)
    (follows : ∀ {first second third}, step first second → step second third → step first third)
    (keeps : ∀ {item value first second}, result item value first → step first second → result item value second)
    (items : List α) (start : σ)
    (each : ∀ item ∈ items, ∀ state, step start state →
      Ends (action item) state (fun value final => step state final ∧ result item value final) failure) :
    Ends (items.mapM action) start
      (fun values final => step start final ∧
        List.Forall₂ (fun item value => result item value final) items values) failure := by
  induction items generalizing start with
  | nil => exact ⟨stays start, .nil⟩
  | cons item rest ih =>
      rw [List.mapM_cons, ends_bind]
      refine (each item (List.mem_cons_self ..) start (stays start)).mono ?_ (fun _ _ failed => failed)
      rintro value middle ⟨reached, holds⟩
      rw [ends_bind]
      refine (ih middle fun other member state later =>
        each other (List.mem_cons_of_mem _ member) state (follows reached later)).mono ?_
        (fun _ _ failed => failed)
      rintro values final ⟨later, allHold⟩
      exact ⟨follows reached later, .cons (keeps holds later) allHold⟩

theorem exists_of_forall₂ {related : α → β → Prop} {items : List α} {values : List β}
    (all : List.Forall₂ related items values) {value : β} (member : value ∈ values) :
    ∃ item ∈ items, related item value := by
  induction all with
  | nil => cases member
  | @cons first _ _ _ holds _ ih =>
      rcases List.mem_cons.mp member with rfl | later
      · exact ⟨first, List.mem_cons_self .., holds⟩
      · obtain ⟨item, isItem, found⟩ := ih later
        exact ⟨item, List.mem_cons_of_mem _ isItem, found⟩

theorem forall₂_compose {γ : Type} {first : α → β → Prop} {second : β → γ → Prop} {items : List α}
    {middles : List β} {values : List γ} (firsts : List.Forall₂ first items middles)
    (seconds : List.Forall₂ second middles values) :
    List.Forall₂ (fun item value => ∃ middle, first item middle ∧ second middle value) items values := by
  induction firsts generalizing values with
  | nil =>
      cases seconds
      exact .nil
  | cons holds _ ih =>
      cases seconds with
      | cons holds' others => exact .cons ⟨_, holds, holds'⟩ (ih others)

theorem exists_forall₂_middle {γ : Type} {first : α → β → Prop} {second : β → γ → Prop} {items : List α}
    {values : List γ}
    (both : List.Forall₂ (fun item value => ∃ middle, first item middle ∧ second middle value) items values) :
    ∃ middles, List.Forall₂ first items middles ∧ List.Forall₂ second middles values := by
  induction both with
  | nil => exact ⟨[], .nil, .nil⟩
  | cons holds _ ih =>
      obtain ⟨middle, isFirst, isSecond⟩ := holds
      obtain ⟨middles, firsts, seconds⟩ := ih
      exact ⟨middle :: middles, .cons isFirst firsts, .cons isSecond seconds⟩

end BasicCompiler
