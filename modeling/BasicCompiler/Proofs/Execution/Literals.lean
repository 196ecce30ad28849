import BasicCompiler.Proofs.ClassFile.Normalization
import BasicCompiler.Proofs.Execution.Fetch

/-!
The code that pushes a literal. Whatever pool it is linked against, what the code loads is the literal:
an integer as it is, a number with all its bits, and a text.
-/

namespace BasicCompiler

open Instruction

namespace ConstantPool

variable {pool extended : ConstantPool} {index : UInt16}

/-- The pools there are: the empty one, those that are read, and what operations make of them. -/
inductive Reachable : ConstantPool → Prop
  | start : Reachable empty
  | read {bytes rest : List UInt8} {pool : ConstantPool} : read.run bytes = .ok (pool, rest) →
      Reachable pool
  | step {pool : ConstantPool} (operation : Operation) : Reachable pool →
      Reachable (pool.step operation)

theorem Fills.indexed {remaining : Nat} {entries : List Constant} (fills : Fills remaining entries)
    (indexed : pool.Indexed) (room : pool.size + remaining < 65535) :
    (entries.foldl push pool).Indexed := by
  induction fills generalizing pool with
  | done => exact indexed
  | @entry remaining first rest fills ih =>
      have wide := first.width_pos
      have small : pool.slots.size + 1 < 65536 := by
        simp only [ConstantPool.size] at room
        omega
      have size : (pool.push first).size = pool.size + first.width := by
        simp only [ConstantPool.size, push, Array.size_append, slotsOf_size]
      by_cases fits : first.width ≤ remaining + 1
      · exact ih (indexed.push small) (by omega)
      -- Only the last entry can pass the end.
      · have none : remaining + 1 - first.width = 0 := by omega
        rw [none] at fills
        rw [fills.eq_nil]
        exact indexed.push small

theorem Reachable.indexed (reachable : pool.Reachable) : pool.Indexed := by
  induction reachable with
  | start => exact empty_sound.indexed
  | read ran =>
      obtain ⟨_, _, declared, entries, _, _, taken, _⟩ := read_takes.of_run ran
      have bound : declared.toNat < 65536 := declared.toNat_lt
      rw [taken.lists.pushed]
      exact taken.fills.indexed empty_sound.indexed (by simp [ConstantPool.size, ConstantPool.empty]; omega)
  | step operation _ ih => exact (step_extends _ operation).indexed ih

end ConstantPool

namespace Literal

variable {pool : ConstantPool} {literal : Literal}

def insn : Literal → Insn
  | int value => .pushInt value
  | float value => .pushFloat value
  | text value => .pushText value

theorem fragment_eq_bytes (literal : Literal) (index : Option UInt16) :
    ∃ bytes, literal.insn.fragment index = .bytes bytes := by
  cases literal <;> cases index <;> exact ⟨_, rfl⟩

theorem link_bytes (owner : String) (literal : Literal) (build : Build) :
    Ends (literal.insn.link owner) build (fun fragment _ => ∃ bytes, fragment = .bytes bytes)
      (fun _ _ => True) := by
  have silent : literal.insn.announce = pure () := by cases literal <;> rfl
  rw [Insn.link_eq, silent, pure_bind]
  cases refers : literal.insn.constantIndex? owner with
  | none => exact literal.fragment_eq_bytes none
  | some action =>
      dsimp only
      rw [ends_bind, Build.ends_interned]
      exact (Insn.constant_adds refers build.pool).mono (fun index _ _ => literal.fragment_eq_bytes index)
        (fun _ _ _ => trivial)

end Literal

/-- Whatever the pool holds and however full it is, where the code of a literal can be written at all it
is one instruction behind the code so far, and what that pushes is the literal. -/
theorem Emission.emit_pushes_literal (emission : Emission) (literal : Literal)
    (reachable : emission.build.pool.Reachable) :
    Ends (emit literal.insn) emission
      (fun _ final =>
        emission.emitter.buffer.bytes.toList <+: final.emitter.buffer.bytes.toList ∧
        Operation.fetch final.build.pool final.emitter.buffer.bytes emission.emitter.position =
          some (.push literal, final.emitter.position))
      (fun _ _ => True) := by
  rw [emit, ends_bind, ends_get, ends_bind, ends_onBuild]
  refine ((Insn.link_adds _ literal.insn emission.build).and (literal.link_bytes _ _)).mono ?_
    (fun _ _ _ => trivial)
  rintro _ build ⟨⟨_, denotes⟩, bytes, rfl⟩
  have denotes := denotes reachable.indexed
  rw [ends_modify]
  have appends := Buffer.append_appends emission.emitter.buffer (.bytes bytes)
  have written : Holds (emission.emitter.buffer.append (.bytes bytes)).bytes emission.emitter.position
      bytes := by
    have whole := holds_toList (emission.emitter.buffer.append (.bytes bytes)).bytes
    rw [appends.bytes, holds_append, Nat.zero_add, Array.length_toList] at whole
    exact whole.2
  have shaped : literal.insn.Shaped := by cases literal <;> trivial
  obtain ⟨instructions, decoded, decodes⟩ := denotes.decodes shaped (fun _ => 0) _ _ trivial written
  have fetches := decoded.fetches shaped decodes (denotes.told (fun _ => 0) _ _ written)
    (denotes.immediate (fun _ => 0) _ _ written)
  have pushes : literal.insn.operations emission.emitter.header.owner (fun _ => 0) = [.push literal] := by
    cases literal <;> rfl
  rw [pushes] at fetches
  obtain ⟨_, fetched, rfl⟩ := fetches
  refine ⟨⟨bytes, appends.bytes.symm⟩, fetched.trans ?_⟩
  have size := congrArg List.length appends.bytes
  rw [Array.length_toList, List.length_append, Array.length_toList] at size
  exact congrArg (fun stop => some (Operation.push literal, stop)) size.symm

theorem Emission.negative_zero_pushed :
    let start : Emission := ⟨.empty, .new ⟨"Main", "zero", "()F", 9, 1⟩⟩
    ∃ final, (emit (.pushFloat ⟨0x80000000⟩)).run start = (.ok (), final) ∧
      Operation.fetch final.build.pool final.emitter.buffer.bytes 0 =
        some (.push (.float ⟨0x80000000⟩), final.emitter.position) := by
  intro start
  have ends := emit_pushes_literal start (.float ⟨0x80000000⟩) .start
  have written : Ends (emit (.pushFloat ⟨0x80000000⟩)) start (fun _ _ => True) fun _ _ => False := by
    simp only [emit, ends_bind, ends_get, ends_onBuild, Insn.link, Insn.linkFloat]
    rw [if_neg (by decide), if_neg (by decide), if_neg (by decide), ends_bind, Build.ends_interned]
    simp only [ends_pure, ends_modify]
    simp [start, Ends, ConstantPool.float, ConstantPool.intern_run, Build.empty, ConstantPool.empty,
      ConstantPool.obstacle?, Constant.width, ConstantPool.maxIndex]
  obtain ⟨_, final, ran, _⟩ := written.exists_run
  exact ⟨final, ran, (ends.of_run ran).2⟩

end BasicCompiler
