import BasicCompiler.Library.Code
import BasicCompiler.Proofs.Execution.Blocks

/-!
How the helper that fills texts runs. It returns copies of the first character of a text, as many as a number
between `0` and `255` says.
-/

namespace BasicCompiler

open Process

theorem Single.truncate_ofInt {count : Nat} (small : count < 256) :
    (Single.ofInt count).truncate = word count := by
  have all : ∀ count : Nat, count < 256 → (Single.ofInt count).truncate = word count := by decide +kernel
  exact all count small

namespace TextCode.StringFill

abbrev label (stem : String) (number : Nat) : Label := Label.numbered stem number

def raise (fault : Fault) : List Item :=
  [.insn (.pushText fault.message), .insn (.call .fault), .insn (.op Opcode.athrow)]

def range : List Item :=
  [.insn (.access Opcode.fload 0), .insn (.op Opcode.f2i), .insn (.access Opcode.istore 2),
    .insn (.access Opcode.iload 2), .insn (.pushInt 0), .insn (.branch Opcode.ificmplt (label "range_bad" 0)),
    .insn (.access Opcode.iload 2), .insn (.pushInt 255),
    .insn (.branch Opcode.ificmpgt (label "range_bad" 0)), .insn (.branch Opcode.goto (label "range_ok" 1)),
    .label (label "range_bad" 0)] ++ raise .stringLengthOutOfRange

def fill : List Insn :=
  [.access Opcode.iload 2, .newArray ElementType.char, .access Opcode.astore 3, .access Opcode.aload 3,
    .access Opcode.aload 1, .op Opcode.iconst0, PlatformMethod.charAt.insn, PlatformMethod.fillChars.insn,
    .newDup Draft.stringClass, .access Opcode.aload 3, PlatformMethod.textOfChars.insn]

def notEmpty : List Item :=
  [.insn (.access Opcode.aload 1), .insn PlatformMethod.textLength.insn,
    .insn (.branch Opcode.ifne (label "filled" 2))] ++ raise .stringEmptyFill

theorem draft_items : Helper.stringFill.draft.items.toList =
    range ++ Item.label (label "range_ok" 1) :: (notEmpty ++
      Item.label (label "filled" 2) :: (fill.map .insn ++ [Item.insn (.op Opcode.areturn)])) := by
  rfl

variable {environment : Environment} {target : Label → Nat} {goal : State → Prop} {caller : Caller}
  {callers : List Caller} {unit : MethodUnit} {heap : Heap} {created : Nat}

open Environment Course

theorem runs_entry {count : Nat} (small : count < 256) {first : UInt16} {others : List UInt16}
    (short : (first :: others).length < lengthLimit)
    (stands : environment.StandsAt target unit.code 0 Helper.stringFill.draft.items.toList)
    (onwards : ∀ heap' created', environment.Runs goal (.running caller.code caller.position
      ⟨.text (List.replicate count first) :: caller.stack, caller.locals, heap', created'⟩ callers)) :
    environment.Runs goal (.entry unit [.float (Single.ofInt count), .text (first :: others)] heap created
      (caller :: callers)) := by
  rw [draft_items] at stands
  have count_toInt : (word count).toInt = count := word_toInt (Nat.lt_trans small (by decide))
  have count_toNat : (word count).toNatClampNeg = count := word_toNat (Nat.lt_trans small (by decide))
  refine runs_of_leads stands (leads_block [.access Opcode.fload 0, .op Opcode.f2i, .access Opcode.istore 2]
    ⟨[], Function.update (fun slot => [Process.Value.float (Single.ofInt count), .text (first :: others)][slot]?) 2
      (some (.int (word count))), heap, created⟩ ?_ ?_)
  · simp [Single.truncate_ofInt small]
  refine leads_branch [.access Opcode.iload 2, .pushInt 0] [.int 0, .int (word count)] (by simp)
    (decide?_pair rfl _ _ _) (fun below => ?_) fun _ => ?_
  · simp only [count_toInt, decide_eq_true_eq, show (0 : Int32).toInt = 0 from rfl] at below
    omega
  refine leads_branch [.access Opcode.iload 2, .pushInt 255] [.int 255, .int (word count)] (by simp)
    (decide?_pair rfl _ _ _) (fun above => ?_) fun _ => ?_
  · simp only [count_toInt, decide_eq_true_eq, show (255 : Int32).toInt = 255 from rfl] at above
    omega
  refine leads_goto ?_
  refine leads_branch [.access Opcode.aload 1, PlatformMethod.textLength.insn]
    [.int (word (first :: others).length)] (by simp [PlatformMethod.call, Data.result]) rfl
    (fun _ => ?_) (fun none => ?_) _ stands.behind
  · have unit_toNat : (word first.toNat).toNatClampNeg = first.toNat :=
      word_toNat (Nat.lt_trans first.toNat_lt (by decide))
    refine leads_block fill
      ⟨[.text (List.replicate count first)], Function.update (Function.update
        (fun slot => [Process.Value.float (Single.ofInt count), .text (first :: others)][slot]?) 2
          (some (.int (word count)))) 3 (some (.chars heap.chars.length)),
        { heap with chars := heap.chars ++ [List.replicate count first] }, created + 1⟩ ?_ ?_ _ stands.behind.behind
    · simp [fill, PlatformMethod.call, PlatformMethod.construct, Data.result, count_toInt, count_toNat,
        unit_toNat]
    · exact leads_return [] (.text (List.replicate count first)) rfl (by simp) (onwards _ _)
  · rw [word_toInt short, List.length_cons] at none
    omega

end TextCode.StringFill

end BasicCompiler
