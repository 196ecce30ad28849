import BasicCompiler.Program.Lines
import BasicCompiler.Proofs.Method.Drafting
import BasicCompiler.Proofs.Method.Layout

/-!
An account of the labels of a method that is being drafted: which ones stand in the code, which ones
are still owed, and which ones code may refer to. Labels are numbered one after the other, so none is
handed out twice.
-/

namespace BasicCompiler

namespace Label

theorem numbered_toList (stem : String) (number : Nat) :
    (numbered stem number).toList = stem.toList ++ '_' :: Nat.toDigits 10 number := by
  have spelled : numbered stem number = stem ++ "_" ++ toString number := rfl
  have digits : (toString number).toList = Nat.toDigits 10 number := by
    simp [toString, Nat.repr]
  rw [spelled, String.toList_append, String.toList_append, digits, List.append_assoc]
  rfl

theorem separated {stem stem' digits digits' : List Char} (plain : '_' ∉ digits)
    (plain' : '_' ∉ digits') (same : stem ++ '_' :: digits = stem' ++ '_' :: digits') :
    stem = stem' ∧ digits = digits' := by
  rcases List.append_eq_append_iff.mp same with ⟨between, isStem, rest⟩ | ⟨between, isStem, rest⟩
  · cases between with
    | nil => exact ⟨by simpa using isStem.symm, (List.cons.inj rest).2⟩
    | cons first more => exact absurd (by simp [(List.cons.inj rest).2]) plain
  · cases between with
    | nil => exact ⟨by simpa using isStem, (List.cons.inj rest).2.symm⟩
    | cons first more => exact absurd (by simp [(List.cons.inj rest).2]) plain'

theorem numbered_inj {stem stem' : String} {number number' : Nat}
    (same : numbered stem number = numbered stem' number') : stem = stem' ∧ number = number' := by
  have lists := congrArg String.toList same
  rw [numbered_toList, numbered_toList] at lists
  obtain ⟨stems, digits⟩ :=
    separated Nat.underscore_not_in_toDigits Nat.underscore_not_in_toDigits lists
  refine ⟨String.toList_inj.mp stems, ?_⟩
  have read := congrArg (Nat.ofDigitChars 10 · 0) digits
  simpa only [Nat.ofDigitChars_ten_toDigits] using read

def Below (bound : Nat) (label : Label) : Prop :=
  ∀ stem number, stem ≠ "line" → bound ≤ number → label ≠ numbered stem number

theorem Below.mono {bound bound' : Nat} {label : Label} (below : label.Below bound)
    (more : bound ≤ bound') : label.Below bound' :=
  fun stem number isStem late => below stem number isStem (Nat.le_trans more late)

theorem numbered_below {stem : String} {number bound : Nat} (early : number < bound) :
    (numbered stem number).Below bound := by
  intro stem' number' _ late same
  have := (numbered_inj same).2
  omega

theorem labelOf_below (line : LineNumber) (bound : Nat) : (LineSet.labelOf line).Below bound := by
  intro stem number isStem _ same
  have numbered : numbered "line" line.toNat = numbered stem number := same
  exact isStem (numbered_inj numbered).1.symm

theorem fixed_ne {label : Label} (fixed : label.toList.getLast?.all (fun last => !last.isDigit) = true)
    (stem : String) (number : Nat) : label ≠ numbered stem number := by
  rintro rfl
  obtain ⟨last, isLast⟩ := Option.ne_none_iff_exists'.mp
    (mt List.getLast?_eq_none_iff.mp (Nat.toDigits_ne_nil (b := 10) (n := number)))
  have isDigit := Nat.isDigit_of_mem_toDigits (by decide) (by decide) (List.mem_of_getLast? isLast)
  have ending : (numbered stem number).toList.getLast? = some last := by
    rw [numbered_toList, List.getLast?_append, List.getLast?_cons, isLast]
    rfl
  simp [ending, isDigit] at fixed

end Label

def Draft.definitions (draft : Draft) : List Label := Item.definitions draft.items.toList

namespace Draft

@[simp] theorem definitions_add (draft : Draft) (item : Item) :
    (draft.add item).definitions = draft.definitions ++ item.defined := by
  simp [definitions, Item.definitions]

theorem mem_references_add {draft : Draft} {item : Item} {label : Label} :
    label ∈ (draft.add item).references ↔ label ∈ draft.references ∨ label ∈ item.jumps := by
  simp only [references, Item.references, add_items, add_handlers, List.flatMap_append, List.mem_append,
    List.flatMap_singleton]
  exact or_right_comm

/-- No label of a draft is defined twice, and all that it refers to are defined. -/
structure Resolved (draft : Draft) : Prop where
  distinct : draft.definitions.Nodup
  defined : ∀ label ∈ draft.references, label ∈ draft.definitions

/-- The account of a draft. Besides the labels that it defines there are those that it owes and those
that it may still define. Only labels of the first two kinds are known, which means that code may jump
to them. -/
structure Tallied (owed spare known : List Label) (draft : Draft) : Prop where
  distinct : (draft.definitions ++ (owed ++ spare)).Nodup
  below : ∀ label ∈ draft.definitions ++ (owed ++ spare), label.Below draft.scope.nextLabel
  refers : ∀ label ∈ draft.references ++ known, label ∈ draft.definitions ++ owed

namespace Tallied

variable {owed spare known : List Label} {draft : Draft}

theorem nodup (tallied : draft.Tallied owed spare known) : draft.definitions.Nodup :=
  (List.nodup_append.mp tallied.distinct).1

theorem knows (tallied : draft.Tallied owed spare known) {label : Label} (isKnown : label ∈ known) :
    label ∈ draft.definitions ++ owed :=
  tallied.refers label (List.mem_append_right _ isKnown)

theorem rescope {scope : Scope} (tallied : draft.Tallied owed spare known)
    (same : scope.nextLabel = draft.scope.nextLabel) :
    Tallied owed spare known { draft with scope } :=
  ⟨tallied.distinct, by rw [same]; exact tallied.below, tallied.refers⟩

theorem perm {owed' spare' : List Label} (tallied : draft.Tallied owed spare known)
    (same : owed.Perm owed') (same' : spare.Perm spare') : draft.Tallied owed' spare' known where
  distinct := ((List.Perm.refl _).append (same.append same')).nodup_iff.mp tallied.distinct
  below := by
    intro label member
    refine tallied.below label ?_
    simpa only [List.mem_append, same.mem_iff, same'.mem_iff] using member
  refers := by
    intro label member
    simpa only [List.mem_append, same.mem_iff] using tallied.refers label member

theorem forget {known' : List Label} (tallied : draft.Tallied owed spare known)
    (fewer : ∀ label ∈ known', label ∈ known) : draft.Tallied owed spare known' where
  distinct := tallied.distinct
  below := tallied.below
  refers := by
    intro label member
    rcases List.mem_append.mp member with isJump | isKnown
    · exact tallied.refers label (List.mem_append_left _ isJump)
    · exact tallied.knows (fewer label isKnown)

theorem claim {label : Label} (tallied : draft.Tallied owed (label :: spare) known) :
    draft.Tallied (label :: owed) spare (label :: known) := by
  obtain ⟨distinct, below, refers⟩ := tallied
  have moved : (draft.definitions ++ (owed ++ label :: spare)).Perm
      (draft.definitions ++ (label :: owed ++ spare)) := .append_left _ List.perm_middle
  refine ⟨moved.nodup_iff.mp distinct, fun other member => below other (moved.mem_iff.mpr member), ?_⟩
  intro other member
  rcases List.mem_cons.mp (List.perm_middle.mem_iff.mp member) with rfl | earlier
  · simp
  · exact List.perm_middle.mem_iff.mpr (List.mem_cons_of_mem _ (refers other earlier))

theorem item (item : Item) (tallied : draft.Tallied owed spare known) (silent : item.defined = [])
    (jumps : ∀ label ∈ item.jumps, label ∈ known) : (draft.add item).Tallied owed spare known := by
  constructor
  · simpa [silent] using tallied.distinct
  · simpa [silent] using tallied.below
  · intro label member
    rw [definitions_add, silent, List.append_nil]
    rw [List.mem_append, mem_references_add] at member
    rcases member with (earlier | here) | isKnown
    · exact tallied.refers label (List.mem_append_left _ earlier)
    · exact tallied.knows (jumps label here)
    · exact tallied.knows isKnown

theorem insn (insn : Insn) (tallied : draft.Tallied owed spare known)
    (jumps : ∀ label ∈ insn.labels, label ∈ known) :
    (draft.add (.insn insn)).Tallied owed spare known :=
  tallied.item (.insn insn) rfl jumps

theorem label (label : Label) (tallied : draft.Tallied (label :: owed) spare known) :
    (draft.add (.label label)).Tallied owed spare known := by
  obtain ⟨distinct, below, refers⟩ := tallied
  constructor
  · simpa [Item.defined, List.append_assoc] using distinct
  · simpa [Item.defined, List.append_assoc] using below
  · simpa [Item.defined, Item.jumps, List.append_assoc, mem_references_add] using refers

theorem handler (handler : Handler) (tallied : draft.Tallied owed spare known)
    (labels : ∀ label ∈ handler.labels, label ∈ known) :
    Tallied owed spare known { draft with handlers := draft.handlers.push handler } := by
  refine ⟨tallied.distinct, tallied.below, fun label member => ?_⟩
  simp only [references, Array.toList_push, List.flatMap_append, List.flatMap_singleton,
    List.mem_append] at member
  rcases member with (isJump | earlier | here) | isKnown
  · exact tallied.refers label (by simp [references, isJump])
  · exact tallied.refers label (List.mem_append_left _ (List.mem_append_right _ earlier))
  · exact tallied.knows (labels label here)
  · exact tallied.knows isKnown

theorem resolved (tallied : draft.Tallied [] spare known) : draft.Resolved where
  distinct := tallied.nodup
  defined := fun label member => by
    simpa using tallied.refers label (List.mem_append_left _ member)

theorem freshLabel (stem : String) (tallied : draft.Tallied owed spare known)
    (isStem : stem ≠ "line") :
    Drafts (Draft.freshLabel stem) draft fun label final =>
      final.Tallied (label :: owed) spare (label :: known) := by
  rw [drafts_freshLabel]
  obtain ⟨distinct, below, refers⟩ := tallied
  have new : Label.numbered stem draft.scope.nextLabel ∉ draft.definitions ++ (owed ++ spare) :=
    fun member => below _ member stem _ isStem (Nat.le_refl _) rfl
  constructor
  · exact (List.perm_middle.nodup_iff).mpr (List.nodup_cons.mpr ⟨new, distinct⟩)
  · intro label member
    rcases List.mem_cons.mp (List.perm_middle.mem_iff.mp member) with rfl | earlier
    · exact Label.numbered_below (Nat.lt_succ_self _)
    · exact (below label earlier).mono (Nat.le_succ _)
  · intro label member
    rcases List.mem_cons.mp (List.perm_middle.mem_iff.mp member) with rfl | earlier
    · simp
    · exact List.perm_middle.mem_iff.mpr (List.mem_cons_of_mem _ (refers label earlier))

end Tallied

end Draft

def Balances {α : Type} (action : DraftM α) : Prop :=
  ∀ owed spare known (draft : Draft), draft.Tallied owed spare known →
    Drafts action draft fun _ final => final.Tallied owed spare known

namespace Balances

variable {α β : Type}

theorem pure (value : α) : Balances (Pure.pure value) := fun _ _ _ _ tallied => tallied

theorem bind {first : DraftM α} {next : α → DraftM β} (balances : Balances first)
    (balances' : ∀ value, Balances (next value)) : Balances (first >>= next) := by
  intro owed spare known draft tallied
  rw [drafts_bind]
  refine (balances owed spare known draft tallied).mono ?_
  intro value middle tallied'
  exact balances' value owed spare known middle tallied'

theorem emit {insn : Insn} (plain : insn.labels = []) : Balances (Draft.emit insn) :=
  fun _ _ _ _ tallied => tallied.insn insn (by simp [plain])

theorem temporary (initial : Initial) : Balances (Draft.temporary initial) :=
  fun _ _ _ _ tallied => tallied.rescope rfl

theorem slotOf (name : String) (initial : Initial) : Balances (Draft.slotOf name initial) := by
  intro owed spare known draft tallied
  refine tallied.rescope ?_
  split <;> rfl

end Balances

end BasicCompiler
