import BasicCompiler.Proofs.Method.Drafting
import BasicCompiler.Proofs.Method.OpenMethod

/-!
Distances of branches. A branch reaches its label where both stand in a piece of code of at most 32767
bytes, so code that is made of such pieces has no branch that is out of range.
-/

namespace BasicCompiler

variable {label : Label} {opcode : Opcode}

namespace Patch

variable {method : String} {labels : Std.HashMap Label Nat}

theorem fault?_short {target : Nat} (known : labels[label]? = some target) (position base : Nat) :
    fault? method labels ⟨position, some base, .short, label⟩ =
      if -32768 ≤ (target : Int) - base ∧ (target : Int) - base ≤ 32767 then none
      else some (.branchOutOfRange method label) := by
  unfold fault?
  rw [known]
  dsimp only [Buffer.encodeOffset?]
  split <;> simp_all

theorem fault?_near {patch : Patch} {target base : Nat} (known : labels[patch.label]? = some target)
    (isBase : patch.base = some base) (near : ((target : Int) - base).natAbs ≤ 32767) :
    patch.fault? method labels = none := by
  obtain ⟨position, found, width, label⟩ := patch
  dsimp only at isBase known
  subst isBase
  cases width with
  | short => rw [fault?_short known, if_pos (by omega)]
  | wide => simp [fault?, known, Buffer.encodeOffset?]

end Patch

namespace Fragment

theorem Denotes.branch {pool : ConstantPool} {owner : String} {fragment : Fragment}
    (denotes : fragment.Denotes pool owner (.branch opcode label)) :
    ∃ written, fragment = .branch written label := by
  cases fragment with
  | bytes content => cases denotes.labels
  | branch written target =>
      cases denotes.labels
      exact ⟨written, rfl⟩
  | tableSwitch low targets default =>
      have size := denotes.size 0
      simp only [Fragment.size, raw, List.length_cons, List.length_append, blank_length,
        BigEndian.encode32_length, Insn.room] at size
      omega

end Fragment

namespace Placed

variable {pool : ConstantPool} {owner : String} {labels : Std.HashMap Label Nat} {position : Nat}
  {items items' : List Item} {fragments : List Fragment} {method : String}

theorem label_iff : Placed pool owner labels position (.label label :: items) fragments ↔
    labels[label]? = some position ∧ Placed pool owner labels position items fragments := by
  refine ⟨fun placed => ?_, fun ⟨here, placed⟩ => .label here placed⟩
  cases placed with
  | label here placed => exact ⟨here, placed⟩

theorem jump (placed : Placed pool owner labels position (.insn (.branch opcode label) :: items) fragments) :
    ∃ written later, fragments = .branch written label :: later ∧
      Placed pool owner labels (position + 3) items later := by
  cases placed with
  | insn denotes placed =>
      obtain ⟨written, rfl⟩ := denotes.branch
      exact ⟨written, _, rfl, placed⟩

theorem jumps {count : Nat}
    (placed : Placed pool owner labels position
      (List.replicate count (Item.insn (.branch opcode label)) ++ items) fragments) :
    ∃ later, Fragment.stop position fragments = Fragment.stop (position + 3 * count) later ∧
      Placed pool owner labels (position + 3 * count) items later := by
  induction count generalizing position fragments with
  | zero => exact ⟨fragments, rfl, placed⟩
  | succ count ih =>
      obtain ⟨written, rest, rfl, others⟩ := Placed.jump placed
      obtain ⟨later, stop, isLater⟩ := ih others
      have next : position + 3 + 3 * count = position + 3 * (count + 1) := by omega
      rw [next] at stop isLater
      exact ⟨later, stop, isLater⟩

theorem target_within (placed : Placed pool owner labels position items fragments)
    (member : label ∈ Item.definitions items) :
    ∃ target, labels[label]? = some target ∧ position ≤ target ∧
      target ≤ Fragment.stop position fragments := by
  induction placed with
  | nil => cases member
  | insn _ _ ih =>
      obtain ⟨target, known, above, below⟩ := ih member
      exact ⟨target, known, Nat.le_trans (Nat.le_add_right _ _) above, below⟩
  | label here later ih =>
      rcases List.mem_cons.mp member with rfl | other
      · exact ⟨_, here, Nat.le_refl _, Fragment.le_stop _ _⟩
      · exact ih other
  | sourceLine _ ih => exact ih member
  | request _ ih => exact ih member

theorem no_patches (placed : Placed pool owner labels position items fragments)
    (plain : Item.references items = []) : Fragment.spread Fragment.patches position fragments = [] := by
  rw [← List.map_eq_nil_iff (f := Patch.label), Fragment.spread_labels, placed.labels_eq, plain]

/-- Between two places at most 32767 bytes apart all branches are in range. -/
theorem faultless (placed : Placed pool owner labels position items fragments) (low : Nat) {high : Nat}
    (targets : ∀ label ∈ Item.references items,
      ∃ target, labels[label]? = some target ∧ low ≤ target ∧ target ≤ high)
    (after : low ≤ position) (before : Fragment.stop position fragments ≤ high)
    (short : high ≤ low + 32767) :
    (Fragment.spread Fragment.patches position fragments).findSome? (Patch.fault? method labels) =
      none := by
  rw [List.findSome?_eq_none_iff]
  intro patch member
  obtain ⟨base, isBase, above, below⟩ := Fragment.spread_base member
  have refers : patch.label ∈ Item.references items := by
    rw [← placed.labels_eq, ← Fragment.spread_labels position]
    exact List.mem_map_of_mem member
  obtain ⟨target, known, least, most⟩ := targets patch.label refers
  exact Patch.fault?_near known isBase (by omega)

end Placed

/-- Items that are made of pieces of at most 32767 bytes whose jumps stay inside. -/
inductive Item.Compact : List Item → Prop where
  | nil : Compact []
  | piece {piece rest : List Item} : Item.total Insn.room piece ≤ 32767 →
      (∀ label ∈ references piece, label ∈ definitions piece) → Compact rest → Compact (piece ++ rest)

namespace Item.Compact

variable {items items' : List Item}

theorem append (compact : Compact items) (compact' : Compact items') : Compact (items ++ items') := by
  induction compact with
  | nil => exact compact'
  | piece short inside _ ih =>
      rw [List.append_assoc]
      exact .piece short inside ih

theorem single (short : Item.total Insn.room items ≤ 32767)
    (inside : ∀ label ∈ references items, label ∈ definitions items) : Compact items := by
  rw [← List.append_nil items]
  exact .piece short inside .nil

theorem insn {insn : Insn} (plain : insn.labels = []) : Compact [.insn insn] := by
  refine single ?_ ?_
  · cases insn with
    | tableSwitch low targets default => cases plain
    | _ => simp [total, Insn.room]
  · simp [references, jumps, plain]

theorem insns {insns : List Insn} (plain : ∀ insn ∈ insns, insn.labels = []) :
    Compact (insns.map Item.insn) := by
  induction insns with
  | nil => exact .nil
  | cons first rest ih =>
      obtain ⟨here, later⟩ := List.forall_mem_cons.mp plain
      exact (insn here).append (ih later)

theorem faultless (compact : Compact items) {pool : ConstantPool} {owner method : String}
    {labels : Std.HashMap Label Nat} {position : Nat} {fragments : List Fragment}
    (placed : Placed pool owner labels position items fragments) :
    (Fragment.spread Fragment.patches position fragments).findSome? (Patch.fault? method labels) =
      none := by
  induction compact generalizing position fragments with
  | nil =>
      cases placed
      rfl
  | piece short inside _ ih =>
      obtain ⟨first, second, rfl, here, later⟩ := placed.split
      have size := here.stop_le
      rw [Fragment.spread_append, List.findSome?_append, ih later, Option.or_none]
      exact here.faultless _ (fun label refers => here.target_within (inside label refers)) (Nat.le_refl _)
        (Nat.le_refl _) (by omega)

end Item.Compact

def Compacts {α : Type} (action : DraftM α) : Prop :=
  ∀ draft : Draft, Drafts action draft fun _ final =>
    ∃ added, final.items.toList = draft.items.toList ++ added ∧ Item.Compact added

namespace Compacts

variable {α β : Type}

theorem pure (value : α) : Compacts (Pure.pure value) := fun _ => ⟨[], (List.append_nil _).symm, .nil⟩

theorem bind {first : DraftM α} {next : α → DraftM β} (compacts : Compacts first)
    (compacts' : ∀ value, Compacts (next value)) : Compacts (first >>= next) := by
  intro draft
  rw [drafts_bind]
  refine (compacts draft).mono ?_
  rintro value middle ⟨added, items, compact⟩
  refine (compacts' value middle).mono ?_
  rintro _ final ⟨more, items', compact'⟩
  exact ⟨added ++ more, by rw [items', items, List.append_assoc], compact.append compact'⟩

theorem emit {insn : Insn} (plain : insn.labels = []) : Compacts (Draft.emit insn) := fun draft =>
  ⟨[.insn insn], Draft.add_items draft _, .insn plain⟩

end Compacts

end BasicCompiler
