import BasicCompiler.Proofs.ClassFile.PoolHistory

/-!
The entries of a pool that refer to others. An operation interns the parts of an entry before the entry
itself, so every reference leads to an entry of the right kind further up, and what an index was handed
out for can be read back from it for good.
-/

namespace BasicCompiler

namespace Constant

inductive Kind where
  | value | text | classRef | nameAndType | other
  deriving DecidableEq

def kind : Constant → Kind
  | utf8 _ => .text
  | integer _ | float _ | long _ | double _ => .value
  | classRef _ => .classRef
  | nameAndType _ _ => .nameAndType
  | string _ | fieldRef _ _ | methodRef _ _ => .other

/-- The indices in an entry, with the kinds of the entries that they have to lead to. -/
def needs : Constant → List (UInt16 × Kind)
  | classRef text | string text => [(text, .text)]
  | nameAndType name descriptor => [(name, .text), (descriptor, .text)]
  | fieldRef owner member | methodRef owner member => [(owner, .classRef), (member, .nameAndType)]
  | utf8 _ | integer _ | float _ | long _ | double _ => []

end Constant

namespace ConstantPool

variable {pool extended : ConstantPool} {entry : Constant}

def Resolves (pool : ConstantPool) (part : UInt16 × Constant.Kind) : Prop :=
  ∃ target, pool.lookup part.1 = .ok target ∧ target.kind = part.2

theorem Extends.resolves (grown : pool.Extends extended) {part : UInt16 × Constant.Kind}
    (resolves : pool.Resolves part) : extended.Resolves part := by
  obtain ⟨target, found, isKind⟩ := resolves
  exact ⟨target, grown.kept found, isKind⟩

/-- Every reference leads to an entry of the kind it needs, at a smaller index. -/
def Linked (pool : ConstantPool) : Prop :=
  ∀ index entry, pool.lookup index = .ok entry → ∀ part ∈ entry.needs,
    part.1 < index ∧ pool.Resolves part

theorem empty_linked : empty.Linked := by
  intro index entry found
  obtain ⟨position, _, slot⟩ := (lookup_eq_ok_iff _ _ _).mp found
  simp [empty] at slot

theorem Linked.push (linked : pool.Linked) (room : pool.slots.size + entry.width ≤ maxIndex)
    (resolved : ∀ part ∈ entry.needs, pool.Resolves part) : (pool.push entry).Linked := by
  have later {part : UInt16 × Constant.Kind} (resolves : pool.Resolves part) :
      (pool.push entry).Resolves part := by
    obtain ⟨target, found, isKind⟩ := resolves
    exact ⟨target, push_kept pool entry found, isKind⟩
  intro index found isFound part member
  rcases (push_lookup_iff room index found).mp isFound with old | ⟨rfl, rfl⟩
  · obtain ⟨smaller, resolves⟩ := linked index found old part member
    exact ⟨smaller, later resolves⟩
  -- The index of a new entry is larger than every index under which something is found.
  · obtain ⟨target, present, _⟩ := resolved part member
    obtain ⟨position, isIndex, slot⟩ := (lookup_eq_ok_iff _ _ _).mp present
    obtain ⟨inside, _⟩ := Array.getElem?_eq_some_iff.mp slot
    have wide := found.width_pos
    simp only [maxIndex] at room
    refine ⟨?_, later (resolved part member)⟩
    rw [UInt16.lt_iff_toNat_lt, UInt16.toNat_ofNat', Nat.mod_eq_of_lt (by omega)]
    omega

/-- A computation leaves a linked pool, and what it hands out leads to an entry of a kind. -/
def Links (pool : ConstantPool) (action : PoolM UInt16) (kind : Constant.Kind) : Prop :=
  Ends action pool
    (fun index final => pool.Extends final ∧ final.Linked ∧ final.Resolves (index, kind))
    (fun _ final => final.Linked)

theorem intern_links (sound : pool.Sound) (linked : pool.Linked)
    (resolved : ∀ part ∈ entry.needs, pool.Resolves part) :
    pool.Links (intern entry) entry.kind := by
  unfold Links Ends
  rw [intern_run]
  cases known : pool.index[entry]? with
  | some index => exact ⟨.refl pool, linked, entry, sound.indexed entry index known, rfl⟩
  | none =>
      cases free : obstacle? pool.slots.size entry with
      | some error => exact linked
      | none =>
          have room := obstacle?_eq_none free
          have brief (text : String) (isText : entry = .utf8 text) : Brief text :=
            brief_of_obstacle? (isText ▸ free)
          exact ⟨push_extends pool entry room brief, linked.push room resolved, entry,
            push_lookup pool entry room, rfl⟩

theorem Links.bind {first : PoolM UInt16} {next : UInt16 → PoolM UInt16} {kind kind' : Constant.Kind}
    (links : pool.Links first kind) (sound : pool.Sound)
    (linksNext : ∀ {index : UInt16} {middle : ConstantPool}, middle.Sound → middle.Linked →
      pool.Extends middle → middle.Resolves (index, kind) → middle.Links (next index) kind') :
    pool.Links (first >>= next) kind' := by
  refine Ends.bind links ?_
  rintro index middle ⟨grown, linked, resolves⟩
  refine (linksNext (grown.sound sound) linked grown resolves).imp ?_
  rintro last final ⟨grown', result⟩
  exact ⟨grown.trans grown', result⟩

variable (sound : pool.Sound) (linked : pool.Linked)

include sound linked

theorem utf8_links (text : String) : pool.Links (utf8 text) .text :=
  intern_links sound linked (by simp [Constant.needs])

theorem classRef_links (name : String) : pool.Links (classRef name) .classRef :=
  (utf8_links sound linked name).bind sound fun sound linked _ text =>
    intern_links sound linked (by simpa [Constant.needs] using text)

theorem string_links (text : String) : pool.Links (string text) .other :=
  (utf8_links sound linked text).bind sound fun sound linked _ content =>
    intern_links sound linked (by simpa [Constant.needs] using content)

theorem nameAndType_links (name descriptor : String) :
    pool.Links (nameAndType name descriptor) .nameAndType :=
  (utf8_links sound linked name).bind sound fun sound linked _ named =>
    (utf8_links sound linked descriptor).bind sound fun sound linked grown typed =>
      intern_links sound linked (by simpa [Constant.needs] using ⟨grown.resolves named, typed⟩)

theorem memberRef_links {entry : UInt16 → UInt16 → Constant} (owner name descriptor : String)
    (isMember : ∀ ownerIndex member, (entry ownerIndex member).needs =
      [(ownerIndex, .classRef), (member, .nameAndType)])
    (isOther : ∀ ownerIndex member, (entry ownerIndex member).kind = .other) :
    pool.Links (do
      let ownerIndex ← classRef owner
      let member ← nameAndType name descriptor
      intern (entry ownerIndex member)) .other := by
  refine (classRef_links sound linked owner).bind sound fun {ownerIndex _} sound linked _ owned => ?_
  refine (nameAndType_links sound linked name descriptor).bind sound
    fun {member _} sound linked grown both => ?_
  rw [← isOther ownerIndex member]
  exact intern_links sound linked (by simpa [isMember] using ⟨grown.resolves owned, both⟩)

omit sound linked

/-- An operation that is given names and values, and no indices of other entries. -/
def Operation.Typed : Operation → Prop
  | single entry => entry.needs = []
  | classRef _ | string _ | nameAndType _ _ | fieldRef _ _ _ | methodRef _ _ _ => True

theorem step_linked (sound : pool.Sound) (linked : pool.Linked) {operation : Operation}
    (typed : operation.Typed) : (pool.step operation).Linked := by
  have links : ∃ kind, pool.Links operation.action kind := by
    cases operation with
    | single entry =>
        have none : entry.needs = [] := typed
        exact ⟨_, intern_links sound linked (by simp [none])⟩
    | classRef name => exact ⟨_, classRef_links sound linked name⟩
    | string text => exact ⟨_, string_links sound linked text⟩
    | nameAndType name descriptor => exact ⟨_, nameAndType_links sound linked name descriptor⟩
    | fieldRef owner name descriptor | methodRef owner name descriptor =>
        exact ⟨_, memberRef_links sound linked owner name descriptor (fun _ _ => rfl) fun _ _ => rfl⟩
  obtain ⟨kind, links⟩ := links
  exact (Ends.mono links (fun _ _ ends => ends.2.1) fun _ _ failed => failed).reached

theorem foldl_step_linked (sound : pool.Sound) (linked : pool.Linked) {operations : List Operation}
    (typed : ∀ operation ∈ operations, operation.Typed) : (operations.foldl step pool).Linked := by
  induction operations generalizing pool with
  | nil => exact linked
  | cons first rest ih =>
      obtain ⟨typedFirst, typedRest⟩ := List.forall_mem_cons.mp typed
      exact ih ((step_extends pool first).sound sound) (step_linked sound linked typedFirst) typedRest

/-- After any operations on names and values, failed ones included, every reference of the pool leads to
an entry of the right kind at a smaller index. The index that a class, a field or a method gets reads back
as its names after any operations that follow. -/
theorem references_resolved (operations later : List Operation)
    (typed : ∀ operation ∈ operations, operation.Typed) :
    (after operations).Linked ∧
    (∀ name index final, (classRef name).run (after operations) = (.ok index, final) →
      (later.foldl step final).classNameAt index = .ok name) ∧
    (∀ owner name descriptor index final,
      ((fieldRef owner name descriptor).run (after operations) = (.ok index, final) ∨
        (methodRef owner name descriptor).run (after operations) = (.ok index, final)) →
      (later.foldl step final).memberAt index = .ok (owner, name, descriptor)) := by
  have indexed := (after_sound operations).indexed
  refine ⟨foldl_step_linked empty_sound empty_linked typed, ?_, ?_⟩
  · intro name index final ran
    have named := ((classRef_adds name (after operations)).of_run ran).2 indexed
    exact (foldl_step_extends later final).classNameAt named
  · intro owner name descriptor index final ran
    have named : final.memberAt index = .ok (owner, name, descriptor) := by
      rcases ran with ran | ran
      · exact (((fieldRef_adds owner name descriptor (after operations)).of_run ran).2 indexed).2
      · exact (((methodRef_adds owner name descriptor (after operations)).of_run ran).2 indexed).2
    exact (foldl_step_extends later final).memberAt named

theorem method_reference_resolved :
    let pool := after [.single (.long 7), .single (.utf8 "A")]
    pool.Linked ∧ ∃ index final, (methodRef "A" "A" "A").run pool = (.ok index, final) ∧
      (final.step (.string "A")).memberAt index = .ok ("A", "A", "A") := by
  have resolved := references_resolved [.single (.long 7), .single (.utf8 "A")] [.string "A"]
    (by simp [Operation.Typed, Constant.needs])
  have short : (ModifiedUtf8.encode "A").length = 1 := by decide
  have made : Ends (methodRef "A" "A" "A") (after [.single (.long 7), .single (.utf8 "A")])
      (fun index _ => index = 6) fun _ _ => False := by
    simp only [methodRef, nameAndType, classRef, utf8, ends_bind]
    simp [Ends, after, step, Operation.action, empty, push, intern_run, short, obstacle?,
      slotsOf, Constant.width, maxIndex, maxTextLength]
  generalize after [.single (.long 7), .single (.utf8 "A")] = pool at resolved made
  obtain ⟨linked, _, members⟩ := resolved
  obtain ⟨index, final, ran, _⟩ := made.exists_run
  exact ⟨linked, index, final, ran, members _ _ _ _ _ (.inr ran)⟩

end ConstantPool

end BasicCompiler
