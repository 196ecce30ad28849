import BasicCompiler.Proofs.Compile.SmallPrograms
import BasicCompiler.Proofs.Method.Replay

/-!
The assembly of the requested helpers can be repeated: it gives the same methods again, and the class does
not change any more.
-/

namespace BasicCompiler

variable {owner : String} {next : Nat} {build final : Build} {units : List MethodUnit}
  {result : Except CompileError (List MethodUnit)}

namespace Emission

theorem emitItems_header (items : List Item) (emission : Emission) :
    Ends (emitItems items) emission (fun _ final => final.emitter.header = emission.emitter.header)
      (fun _ _ => True) := by
  induction items generalizing emission with
  | nil => rfl
  | cons item rest ih =>
      have first : Ends (emitItem item) emission
          (fun _ middle => middle.emitter.header = emission.emitter.header) (fun _ _ => True) := by
        cases item with
        | insn insn =>
            rw [emitItem, emit, ends_bind, ends_get, ends_bind, ends_onBuild]
            exact (ends_any _ _).imp (fun _ _ _ => rfl)
        | label label =>
            refine (define_ends label emission).mono ?_ (fun _ _ _ => trivial)
            rintro _ _ ⟨_, _, rfl⟩
            rfl
        | sourceLine line => rfl
        | request helper =>
            rw [emitItem, ends_onBuild]
            exact (ends_any _ _).imp (fun _ _ _ => rfl)
      refine first.bind fun _ middle same => ?_
      exact (ih middle).imp (fun _ _ same' => same'.trans same)

end Emission

theorem Draft.finish_header (draft : Draft) (header : MethodHeader) (build : Build) :
    Ends (draft.finish header) build (fun unit _ => unit.header = header) (fun _ _ => True) := by
  have assembled : Ends (draft.assemble header) build (fun emitter _ => emitter.header = header)
      (fun _ _ => True) := by
    rw [ends_assemble]
    exact Emission.emitItems_header _ _
  refine assembled.bind fun emitter middle same => ?_
  refine (ends_any _ middle).bind fun rows _ _ => (ends_any _ _).bind fun code _ _ => ?_
  exact same

namespace Library

/-- Where nothing fails there is a method for each requested helper, and what was requested in between is
what these helpers need. -/
theorem Drains.complete (drains : Drains owner next build result final) (distinct : build.library.Distinct)
    (succeeds : result = .ok units) :
    build.library.Gains ((final.library.requested.toList.drop next).flatMap fun helper =>
        helper.draft.items.toList) final.library ∧
      units.map MethodUnit.header = (final.library.requested.toList.drop next).map (·.header owner) := by
  induction drains generalizing units with
  | done past =>
      cases succeeds
      rw [List.drop_eq_nil_of_le (by simpa using past)]
      exact ⟨.nothing distinct rfl rfl, rfl⟩
  | failed => cases succeeds
  | @helper next build middle final helper unit result found ran _ ih =>
      cases result with
      | error => cases succeeds
      | ok others =>
          cases succeeds
          have gains := ((helper.draft.finish_draws (helper.header owner) distinct).of_run ran).1
          have headed := (helper.draft.finish_header (helper.header owner) build).of_run ran
          obtain ⟨gains', headers⟩ := ih gains.distinct rfl
          have kept := (gains.keeps distinct).trans (gains'.keeps gains.distinct)
          rw [drop_requested (requested_kept kept found)]
          exact ⟨gains.trans gains', by rw [List.map_cons, List.map_cons, headed, headers]⟩

/-- Helpers that were assembled are assembled again from a class that has all that they need. -/
theorem flushFrom_replays (owner : String) (remaining next : Nat) (build : Build) :
    Ends (flushFrom owner remaining next) build
      (fun units final => build.contents ≤ final.contents ∧
        ∀ later : Build, later.library.requested = final.library.requested →
          final.contents ≤ later.contents →
          Ends (flushFrom owner remaining next) later
            (fun found again => found = units ∧ again.contents = later.contents) fun _ _ => False)
      (fun _ _ => True) := by
  induction remaining generalizing next build with
  | zero => exact ⟨le_refl _, fun _ _ _ => ⟨rfl, rfl⟩⟩
  | succ remaining ih =>
      rw [flushFrom, ends_bind, ends_get]
      cases found : build.library.requested[next]? with
      | none =>
          refine ⟨le_refl _, fun later same _ => ?_⟩
          rw [ends_bind, ends_get, same, found]
          exact ⟨rfl, rfl⟩
      | some helper =>
          refine (helper.draft.finish_replays (helper.header owner) build).bind ?_
          rintro unit middle ⟨grown, again⟩
          refine (ih (next + 1) middle).bind ?_
          rintro units final ⟨grown', again'⟩
          refine ⟨grown.trans grown', fun later same knows => ?_⟩
          have stays : final.library.requested[next]? = some helper :=
            requested_kept (grown.trans grown').2.1 found
          rw [ends_bind, ends_get, same, stays]
          refine (again later rfl (grown'.trans knows)).bind ?_
          rintro _ once ⟨rfl, sameOnce, _⟩
          have libraries : once.library = later.library := congrArg Prod.snd sameOnce
          refine (again' once (by rw [libraries, same]) (sameOnce ▸ knows)).bind ?_
          rintro _ twice ⟨rfl, sameTwice⟩
          exact ⟨rfl, sameTwice.trans sameOnce⟩

theorem flush_drains (owner : String) (distinct : build.library.Distinct) :
    Ends (flush owner) build
      (fun units final => ∃ reached, final.contents = reached.contents ∧
        Drains owner 0 build (.ok units) reached ∧
        ∀ later : Build, later.contents = reached.contents →
          Ends (flush owner) later (fun found again => found = units ∧ again.contents = later.contents)
            fun _ _ => False)
      (fun error final => Drains owner 0 build (.error error) final) := by
  have drained := flushFrom_drains owner Helper.all.length 0 distinct (Nat.le_refl _)
  rw [flush, ends_bind]
  refine (drained.and (flushFrom_replays owner Helper.all.length 0 build)).mono ?_
    (fun _ _ failed => failed.1)
  rintro units reached ⟨drains, _, again⟩
  refine ⟨reached, rfl, drains, fun later same => ?_⟩
  have libraries : later.library = reached.library := congrArg Prod.snd same
  exact (again later (by rw [libraries]) same.ge).bind fun _ _ ends => ends

theorem foldl_request_gains {library : Library} (distinct : library.Distinct) (helpers : List Helper) :
    library.Gains (helpers.map .request) (helpers.foldl request library) := by
  induction helpers generalizing library with
  | nil => exact .nothing distinct rfl rfl
  | cons first rest ih =>
      have gains : library.Gains [.request first] (library.request first) :=
        request_gains distinct rfl rfl
      exact gains.trans (ih gains.distinct)

/-- Whatever pool a class starts with and whatever helpers it requests, in any order and any number of
times, the helpers are assembled until one fails or none is left. Where none fails there is one method for
each helper, in the order of the first requests, and assembling them again gives the same methods and
leaves the class as it is. -/
theorem flush_repeatable (pool : ConstantPool) (owner : String) (helpers : List Helper)
    (events : Array Event) :
    let start : Build := ⟨pool, helpers.foldl request empty, events⟩
    (∃ result final, Drains owner 0 start result final ∧ ((flush owner).run start).1 = result ∧
      ((flush owner).run start).2.contents = final.contents) ∧
    ∀ units final, (flush owner).run start = (.ok units, final) →
      let flushed := final.library.requested.toList
      flushed.Nodup ∧
      flushed = (helpers ++ flushed.flatMap fun helper => Item.helpers helper.draft.items.toList).eraseDups ∧
      units.map MethodUnit.header = flushed.map (·.header owner) ∧
      ∀ log, ∃ log', (flush owner).run ⟨final.pool, final.library, log⟩ =
        (.ok units, ⟨final.pool, final.library, log'⟩) := by
  intro start
  have requested := foldl_request_gains empty_distinct helpers
  have distinct : start.library.Distinct := requested.distinct
  have ends := flush_drains owner distinct
  constructor
  · rcases ran : (flush owner).run start with ⟨error | units, final⟩
    all_goals rw [Ends, ran] at ends
    · exact ⟨_, final, ends, rfl, rfl⟩
    · obtain ⟨reached, same, drains, _⟩ := ends
      exact ⟨_, reached, drains, rfl, same⟩
  · intro units final ran flushed
    obtain ⟨reached, same, drains, repeats⟩ := ends.of_run ran
    have libraries : final.library = reached.library := congrArg Prod.snd same
    obtain ⟨gains, headers⟩ := drains.complete distinct rfl
    rw [← libraries, List.drop_zero] at gains headers
    refine ⟨gains.distinct.requested, ?_, headers, ?_⟩
    · have asked : Item.helpers (helpers.map .request) = helpers := by
        rw [Item.helpers, List.filterMap_map]
        exact List.filterMap_some
      have whole := (requested.trans gains).requested
      rw [Item.helpers_append, asked] at whole
      simpa [empty, Item.helpers, List.filterMap_flatMap] using whole
    · intro log
      obtain ⟨_, ⟨_, _, log'⟩, ran', rfl, contents⟩ :=
        (repeats ⟨final.pool, final.library, log⟩ same).exists_run
      cases contents
      exact ⟨log', ran'⟩

theorem catalogue_flushed_again : ∃ units final,
    (flush "Main").run ⟨.empty, Helper.all.foldl request empty, #[]⟩ = (.ok units, final) ∧
      ∃ log, (flush "Main").run ⟨final.pool, final.library, #[]⟩ =
        (.ok units, ⟨final.pool, final.library, log⟩) := by
  have isBrief : ConstantPool.Brief "Main" := ClassFile.brief_of_fixed (by simp [ClassFile.fixedNames])
  have room : ConstantPool.empty.size + (361 * Helper.all.length + 0) ≤ ConstantPool.maxIndex := by
    decide
  have distinct := (foldl_request_gains empty_distinct Helper.all).distinct
  have repeats := flush_repeatable .empty "Main" Helper.all #[]
  generalize Helper.all.foldl request empty = library at distinct repeats ⊢
  have ends := flush_delivers isBrief ⟨.empty, library, #[]⟩ 0 ConstantPool.empty_sound
    ⟨room, distinct.cells⟩
  obtain ⟨units, final, ran, _⟩ := ends.exists_run
  obtain ⟨_, _, _, again⟩ := repeats.2 units final ran
  exact ⟨units, final, ran, again #[]⟩

end Library

end BasicCompiler
