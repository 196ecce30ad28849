import BasicCompiler.Proofs.Compile.LinkedClass
import BasicCompiler.Proofs.Execution.Blocks

/-!
The methods of a compiled class as execution finds them. A helper that is found has all helpers that it needs
beside it, and the items of their drafts stand in their code.
-/

namespace BasicCompiler

open Process

def Process.Environment.Holds (environment : Environment) (helper : Helper) : Prop :=
  ∃ unit target, environment.method? (Insn.helperRef environment.owner helper) = some unit ∧
    environment.StandsAt target unit.code 0 helper.draft.items.toList

theorem MethodUnit.Finishes.headed {pool : ConstantPool} {draft : Draft} {header : MethodHeader}
    {unit : MethodUnit} (finishes : unit.Finishes pool draft header) : unit.header = header := by
  obtain ⟨target, instructions, spells⟩ := finishes.spells
  exact spells.headed

namespace Program

theorem method?_of_part {environment : Environment} {parts : List MethodDraft}
    (finished : List.Forall₂ (fun part unit =>
      MethodUnit.Finishes environment.pool part.draft part.header unit) parts environment.units)
    (distinct : (parts.map fun part => part.header.name).Nodup) {part : MethodDraft} (member : part ∈ parts) :
    ∃ unit, environment.method? ⟨environment.owner, part.header.name, part.header.descriptor⟩ = some unit ∧
      MethodUnit.Finishes environment.pool part.draft part.header unit := by
  unfold Environment.method?
  generalize environment.units = units at finished
  induction finished with
  | nil => cases member
  | @cons first unit parts units finishes _ ih =>
      obtain ⟨fresh, others⟩ := List.nodup_cons.mp distinct
      rcases List.mem_cons.mp member with rfl | later
      · refine ⟨unit, List.find?_cons_of_pos ?_, finishes⟩
        simp [finishes.headed]
      · have differs : part.header.name ≠ unit.header.name := by
          rw [finishes.headed]
          exact fun same => fresh (List.mem_map.mpr ⟨part, later, same⟩)
        obtain ⟨found, isFound, isFinished⟩ := ih others later
        refine ⟨found, (List.find?_cons_of_neg ?_).trans isFound, isFinished⟩
        simp [differs]

variable {options : Options} {data : DataTable} {body : Body} {library : Library} {helper : Helper}

theorem mem_drafts (member : helper ∈ library.requested.toList) :
    helper.methodDraft options.className ∈ drafts options data body library :=
  List.mem_cons_of_mem _ (List.mem_cons_of_mem _ (List.mem_map_of_mem member))

theorem requested_of_named {part : MethodDraft} (isPart : part ∈ drafts options data body library)
    (named : part.header.name = helper.spec.name) : helper ∈ library.requested.toList := by
  have fresh := Helper.names_distinct
  have known : part.header.name ∈ Helper.all.map fun helper => helper.spec.name :=
    named ▸ List.mem_map_of_mem helper.mem_all
  rcases drafts_cases isPart with rfl | rfl | ⟨other, isOther, rfl⟩
  · exact absurd (List.mem_cons_of_mem _ known) (List.nodup_cons.mp fresh).1
  · exact absurd known (List.nodup_cons.mp fresh.of_cons).1
  · rwa [← Helper.name_inj named]

theorem Built.exists_units {program : Program} {file : ClassFile} {lines : LineSet}
    (built : Built options program file lines body) :
    ∃ units, List.Forall₂ (fun unit method => MethodInfo.Carries file.pool unit method) units file.methods ∧
      ∀ environment : Environment, environment.owner = options.className → environment.pool = file.pool →
        environment.units = units → ∀ method ∈ file.methods,
          method.Named file.pool (Insn.helperRef options.className helper) →
          ∀ other : Helper, other.Needed [helper] → environment.Holds other := by
  obtain ⟨library, assembled⟩ := built.assembled
  obtain ⟨units, finished, carried⟩ := exists_forall₂_middle assembled.methods
  refine ⟨units, carried, ?_⟩
  rintro environment isOwner isPool rfl method isMethod named other needed
  rw [← isPool] at finished
  have isRequested : other ∈ library.requested.toList := by
    induction needed with
    | root member =>
        obtain ⟨part, isPart, completes⟩ := exists_of_forall₂ assembled.methods isMethod
        have name := Except.ok.inj (completes.named.1.symm.trans named.name)
        exact requested_of_named isPart (List.mem_singleton.mp member ▸ name)
    | inner _ calls ih => exact assembled.mem_requested (mem_drafts ih) calls
  obtain ⟨unit, found, finishes⟩ := method?_of_part finished assembled.names_nodup (mem_drafts isRequested)
  obtain ⟨target, instructions, spells⟩ := finishes.spells
  have stands := spells.stands other.draft_shaped
  refine ⟨unit, target, found, ?_⟩
  rwa [Environment.StandsAt, isOwner]

end Program

end BasicCompiler
