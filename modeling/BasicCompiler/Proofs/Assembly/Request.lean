import Mathlib.Algebra.GroupWithZero.Nat
import Mathlib.Data.Int.Basic
import BasicCompiler.Proofs.Assembly.Resolve
import BasicCompiler.Proofs.Bytes.BigEndian

/-!
Code assembled by requests. Labels may be defined before or after the fields that refer to them, fields
of both widths are filled in over the same bytes, and a field may be requested for bytes that were written
long before. The main statement says what finishing gives for every such sequence: the fault of the first
field that cannot be filled in, or the written bytes with the distance to its label in each field and
nothing else changed.
-/

namespace BasicCompiler

variable {patch : Patch} {stop : Nat}

def Patch.Inside (patch : Patch) (size : Nat) : Prop :=
  patch.position + Buffer.fieldSize patch.width ≤ size

namespace BigEndian

def value (bytes : List UInt8) : Nat :=
  bytes.foldl (fun total byte => total * 256 + byte.toNat) 0

def signed (bytes : List UInt8) : Int :=
  Int.bmod (value bytes) (256 ^ bytes.length)

theorem value_encode16 (word : UInt16) : value (encode16 word) = word.toNat := by
  have spelled := congrArg UInt16.toNat (decode16_encode16 word)
  rw [decode16_toNat] at spelled
  simpa [value, encode16] using spelled

theorem value_encode32 (word : UInt32) : value (encode32 word) = word.toNat := by
  have spelled := congrArg UInt32.toNat (decode32_encode32 word)
  rw [decode32_toNat] at spelled
  simpa [value, encode32] using spelled

theorem signed_encode16 {number : Int} (least : -32768 ≤ number) (greatest : number ≤ 32767) :
    signed (encode16 (Int16.ofInt number).toUInt16) = number := by
  have word : ((Int16.ofInt number).toUInt16.toNat : Int).bmod 65536 = (Int16.ofInt number).toInt :=
    (BitVec.toInt_eq_toNat_bmod _).symm
  rw [signed, value_encode16, encode16_length]
  exact word.trans (Int16.toInt_ofInt_of_le least (by omega))

theorem signed_encode32 {number : Int} (least : -2147483648 ≤ number) (greatest : number ≤ 2147483647) :
    signed (encode32 (Int32.ofInt number).toUInt32) = number := by
  have word : ((Int32.ofInt number).toUInt32.toNat : Int).bmod 4294967296 = (Int32.ofInt number).toInt :=
    (BitVec.toInt_eq_toNat_bmod _).symm
  rw [signed, value_encode32, encode32_length]
  exact word.trans (Int32.toInt_ofInt_of_le least (by omega))

end BigEndian

/-- What can be asked of a buffer while code is assembled in it. -/
inductive Request where
  | write (content : List UInt8)
  | define (label : Label)
  | here (label : Label)
  | there (position : Nat) (label : Label)
  | wide (base : Nat) (label : Label)
  | align
  deriving DecidableEq, Repr

namespace Request

def perform (buffer : Buffer) : Request → Buffer
  | write content => buffer.write content
  | define label => (buffer.define label).2
  | here label => buffer.reserveShort label
  | there position label => buffer.patchAt position label
  | wide base label => buffer.reserveWide base label
  | align => buffer.align

def content (position : Nat) : Request → List UInt8
  | write content => content
  | define _ => []
  | here _ => [0, 0]
  | there _ _ => []
  | wide _ _ => [0, 0, 0, 0]
  | align => List.replicate ((4 - position % 4) % 4) 0

def shortField (position : Nat) (label : Label) : Patch :=
  ⟨position, if position = 0 then none else some (position - 1), .short, label⟩

def fields (position : Nat) : Request → List Patch
  | here label => [shortField position label]
  | there field label => [shortField field label]
  | wide base label => [⟨position, some base, .wide, label⟩]
  | _ => []

def places (position : Nat) : Request → List (Label × Nat)
  | define label => [(label, position)]
  | _ => []

/-- A field that is requested later stands on written bytes, and no distance is counted from a position
that is not reached. -/
def Fits (position : Nat) : Request → Prop
  | there field _ => field + 2 ≤ position
  | wide base _ => base ≤ position
  | _ => True

def spread {α : Type} (part : Nat → Request → List α) : Nat → List Request → List α
  | _, [] => []
  | position, first :: rest =>
    part position first ++ spread part (position + (first.content position).length) rest

def AllFit : Nat → List Request → Prop
  | _, [] => True
  | position, first :: rest =>
    first.Fits position ∧ AllFit (position + (first.content position).length) rest

def labels (requests : List Request) : List Label :=
  (spread places 0 requests).map Prod.fst

section

variable {position : Nat} {requests : List Request}

theorem spread_content_length (position : Nat) (first : Request) (rest : List Request) :
    (spread content position (first :: rest)).length =
      (first.content position).length +
        (spread content (position + (first.content position).length) rest).length := by
  rw [spread, List.length_append]

/-- Each of the parts comes from one request, at a position inside of what is written. -/
theorem mem_spread {α : Type} {part : Nat → Request → List α} {value : α} (fits : AllFit position requests)
    (member : value ∈ spread part position requests) :
    ∃ (request : Request) (place : Nat), value ∈ part place request ∧ request.Fits place ∧
      place + (request.content place).length ≤ position + (spread content position requests).length := by
  induction requests generalizing position with
  | nil => cases member
  | cons first rest ih =>
      rw [spread_content_length, ← Nat.add_assoc]
      rcases List.mem_append.mp member with here | later
      · exact ⟨first, position, here, fits.1, Nat.le_add_right _ _⟩
      · exact ih fits.2 later

def Counted (stop : Nat) (patch : Patch) : Prop :=
  match patch.width with
  | .short => patch.base = if patch.position = 0 then none else some (patch.position - 1)
  | .wide => ∃ base ≤ stop, patch.base = some base

theorem fields_placed {request : Request} (fits : request.Fits position)
    (within : position + (request.content position).length ≤ stop)
    (member : patch ∈ request.fields position) : patch.Inside stop ∧ Counted stop patch := by
  have reached : position ≤ stop := Nat.le_trans (Nat.le_add_right _ _) within
  cases request with
  | here label =>
      rw [List.mem_singleton.mp member]
      exact ⟨within, rfl⟩
  | there field label =>
      rw [List.mem_singleton.mp member]
      exact ⟨Nat.le_trans fits reached, rfl⟩
  | wide base label =>
      rw [List.mem_singleton.mp member]
      exact ⟨within, base, Nat.le_trans fits reached, rfl⟩
  | _ => cases member

theorem spread_fields_placed (fits : AllFit 0 requests) (member : patch ∈ spread fields 0 requests) :
    patch.Inside (spread content 0 requests).length ∧ Counted (spread content 0 requests).length patch := by
  obtain ⟨request, position, here, fitsHere, within⟩ := mem_spread fits member
  rw [Nat.zero_add] at within
  exact fields_placed fitsHere within here

theorem spread_places_le {place : Label × Nat} (fits : AllFit 0 requests)
    (member : place ∈ spread places 0 requests) : place.2 ≤ (spread content 0 requests).length := by
  obtain ⟨request, position, here, _, within⟩ := mem_spread fits member
  rw [Nat.zero_add] at within
  cases request with
  | define label =>
      rw [List.mem_singleton.mp here]
      exact within
  | _ => cases here

end

theorem perform_appends (buffer : Buffer) (request : Request) :
    (request.perform buffer).bytes.toList =
        buffer.bytes.toList ++ request.content buffer.position ∧
      (request.perform buffer).patches.toList =
        buffer.patches.toList ++ request.fields buffer.position ∧
      (request.perform buffer).method = buffer.method ∧
      (request.perform buffer).limit = buffer.limit := by
  cases request <;>
    simp [perform, content, fields, shortField, Buffer.write, Buffer.define, Buffer.reserveShort,
      Buffer.patchAt, Buffer.reserveWide, Buffer.align, Buffer.addPatch]

theorem perform_position (buffer : Buffer) (request : Request) :
    (request.perform buffer).position =
      buffer.position + (request.content buffer.position).length := by
  have size := congrArg List.length (perform_appends buffer request).1
  simpa [Buffer.position] using size

theorem perform_labels (buffer : Buffer) (request : Request) (label : Label) :
    (request.perform buffer).labels[label]? =
      if label ∈ (request.places buffer.position).map Prod.fst then some buffer.position
      else buffer.labels[label]? := by
  cases request with
  | define name =>
      simp only [perform, Buffer.define, places, Std.HashMap.getElem?_insert, List.map_cons, List.map_nil,
        List.mem_singleton, beq_iff_eq]
      simp only [eq_comm]
  | _ => rfl

end Request

namespace Buffer

def performAll (buffer : Buffer) (requests : List Request) : Buffer :=
  requests.foldl Request.perform buffer

theorem performAll_cons (buffer : Buffer) (first : Request) (rest : List Request) :
    buffer.performAll (first :: rest) = (first.perform buffer).performAll rest := rfl

theorem performAll_appends (buffer : Buffer) (requests : List Request) :
    (buffer.performAll requests).bytes.toList =
        buffer.bytes.toList ++ Request.spread Request.content buffer.position requests ∧
      (buffer.performAll requests).patches.toList =
        buffer.patches.toList ++ Request.spread Request.fields buffer.position requests ∧
      (buffer.performAll requests).method = buffer.method ∧
      (buffer.performAll requests).limit = buffer.limit := by
  induction requests generalizing buffer with
  | nil => simp [performAll, Request.spread]
  | cons first rest ih =>
      obtain ⟨bytes, patches, method, limit⟩ := Request.perform_appends buffer first
      obtain ⟨bytes', patches', method', limit'⟩ := ih (first.perform buffer)
      rw [Request.perform_position] at bytes' patches'
      rw [performAll_cons]
      refine ⟨?_, ?_, method'.trans method, limit'.trans limit⟩
      · rw [bytes', bytes, Request.spread, List.append_assoc]
      · rw [patches', patches, Request.spread, List.append_assoc]

theorem performAll_labels {buffer : Buffer} {requests : List Request}
    (once : ((Request.spread Request.places buffer.position requests).map Prod.fst).Nodup)
    (label : Label) (target : Nat) :
    (buffer.performAll requests).labels[label]? = some target ↔
      (label, target) ∈ Request.spread Request.places buffer.position requests ∨
        (label ∉ (Request.spread Request.places buffer.position requests).map Prod.fst ∧
          buffer.labels[label]? = some target) := by
  induction requests generalizing buffer with
  | nil => simp [performAll, Request.spread]
  | cons first rest ih =>
      rw [Request.spread, List.map_append, List.nodup_append] at once
      obtain ⟨_, onceLater, apart⟩ := once
      rw [← Request.perform_position] at onceLater
      rw [performAll_cons, ih onceLater, Request.perform_labels, Request.perform_position,
        Request.spread]
      rw [← Request.perform_position] at apart ⊢
      generalize Request.spread Request.places (first.perform buffer).position rest = later at apart ⊢
      cases first with
      | define name =>
          -- the label of this request is not defined again later
          have fresh : ∀ place ∈ later, place.1 ≠ name := fun place member same =>
            apart name (by simp [Request.places]) place.1 (List.mem_map_of_mem member) same.symm
          grind [Request.places]
      | _ => simp [Request.places]

end Buffer

def Patch.Covers (patch : Patch) (index : Nat) : Prop :=
  patch.position ≤ index ∧ index < patch.position + Buffer.fieldSize patch.width

def Patch.Apart (first second : Patch) : Prop :=
  first.position + Buffer.fieldSize first.width ≤ second.position ∨
    second.position + Buffer.fieldSize second.width ≤ first.position

def Patch.slice (patch : Patch) (code : Array UInt8) : List UInt8 :=
  (code.toList.drop patch.position).take (Buffer.fieldSize patch.width)

namespace Buffer

theorem slice_congr {first second : Array UInt8}
    (same : ∀ index, patch.Covers index → first[index]? = second[index]?) :
    patch.slice first = patch.slice second := by
  apply List.ext_getElem?
  intro index
  simp only [Patch.slice, List.getElem?_take, List.getElem?_drop, Array.getElem?_toList]
  split
  · rename_i below
    exact same _ ⟨Nat.le_add_right _ _, by omega⟩
  · rfl

/-- What finishing makes of the bytes: each field holds its distance, and the rest is kept. -/
structure Completes (labels : Std.HashMap Label Nat) (patches : List Patch) (bytes code : Array UInt8) :
    Prop where
  size : code.size = bytes.size
  filled : ∀ patch ∈ patches, Filled labels patch (patch.slice code)
  kept : ∀ index, (∀ patch ∈ patches, ¬patch.Covers index) → code[index]? = bytes[index]?

theorem resolve_completes (method : String) (labels : Std.HashMap Label Nat) {bytes : Array UInt8}
    (inside : patch.Inside bytes.size) (events : Array Event) :
    Ends (resolve method labels patch bytes) events
      (fun patched _ => patch.fault? method labels = none ∧ Completes labels [patch] bytes patched)
      (fun error _ => patch.fault? method labels = some error) := by
  let before := bytes.toList.take patch.position
  let after := bytes.toList.drop (patch.position + fieldSize patch.width)
  have beforeLength : before.length = patch.position := by
    unfold Patch.Inside at inside
    simp only [before, List.length_take, Array.length_toList]
    omega
  have sliceLength : (patch.slice bytes).length = fieldSize patch.width := by
    unfold Patch.Inside at inside
    simp only [Patch.slice, List.length_take, List.length_drop, Array.length_toList]
    omega
  have whole : bytes.toList = before ++ (patch.slice bytes ++ after) := by
    simp only [before, after, Patch.slice, ← List.drop_drop, List.take_append_drop]
  refine (resolve_ends whole beforeLength.symm sliceLength events).imp ?_
  rintro patched _ ⟨sound, content, filled, patchedIs⟩
  have contentLength : content.length = fieldSize patch.width := by
    obtain ⟨_, base, _, encoded⟩ := filled
    exact encodeOffset?_length encoded
  refine ⟨sound, ?_, ?_, ?_⟩
  · rw [← Array.length_toList, ← Array.length_toList, patchedIs, whole]
    simp only [List.length_append, contentLength, sliceLength]
  · intro other member
    rw [List.mem_singleton.mp member]
    have sliceIs : patch.slice patched = content := by
      rw [Patch.slice, patchedIs, ← beforeLength, List.drop_left, ← contentLength, List.take_left]
    rwa [sliceIs]
  · intro index outside
    have apart := outside patch (List.mem_singleton_self patch)
    unfold Patch.Covers at apart
    rw [← Array.getElem?_toList, ← Array.getElem?_toList, patchedIs, whole]
    grind

theorem resolveAll_completes (method : String) (labels : Std.HashMap Label Nat) {patches : List Patch}
    {bytes : Array UInt8} (inside : ∀ patch ∈ patches, patch.Inside bytes.size)
    (apart : patches.Pairwise Patch.Apart) (events : Array Event) :
    Ends (resolveAll method labels patches bytes) events
      (fun code _ => patches.findSome? (Patch.fault? method labels) = none ∧
        Completes labels patches bytes code)
      (fun error _ => patches.findSome? (Patch.fault? method labels) = some error) := by
  induction patches generalizing bytes events with
  | nil => exact ⟨rfl, rfl, by simp, by simp⟩
  | cons patch rest ih =>
      obtain ⟨here, later⟩ := List.forall_mem_cons.mp inside
      obtain ⟨apartHere, apartLater⟩ := List.pairwise_cons.mp apart
      rw [resolveAll, ends_bind, List.findSome?_cons]
      refine (resolve_completes method labels here events).mono ?_ fun _ _ fault => by rw [fault]
      rintro patched events' ⟨soundHere, first⟩
      rw [soundHere]
      refine (ih (first.size ▸ later) apartLater events').imp ?_
      rintro code _ ⟨sound, others⟩
      refine ⟨sound, others.size.trans first.size, ?_, ?_⟩
      · refine List.forall_mem_cons.mpr ⟨?_, others.filled⟩
        -- the later fields do not touch this one
        have untouched : patch.slice code = patch.slice patched := by
          apply slice_congr
          intro index covered
          apply others.kept
          intro other member coveredToo
          have separate := apartHere other member
          unfold Patch.Apart at separate
          unfold Patch.Covers at covered coveredToo
          omega
        rw [untouched]
        exact first.filled patch (List.mem_singleton_self patch)
      · intro index outside
        obtain ⟨outsideHere, outsideLater⟩ := List.forall_mem_cons.mp outside
        rw [others.kept index outsideLater, first.kept index (by simpa using outsideHere)]

end Buffer

/-- Why a field is refused, where `places` are the labels of the code with their positions. -/
inductive Patch.Refused (method : String) (places : List (Label × Nat)) (patch : Patch) :
    AssemblyError → Prop
  | undefined (unknown : ∀ target, (patch.label, target) ∉ places) :
      Refused method places patch (.unresolvedLabel method patch.label)
  | atStart {target : Nat} (known : (patch.label, target) ∈ places) (short : patch.width = .short)
      (first : patch.position = 0) :
      Refused method places patch (.branchOutOfRange method patch.label)
  | outOfRange {target base : Nat} (known : (patch.label, target) ∈ places)
      (short : patch.width = .short) (counted : patch.base = some base)
      (far : (target : Int) - base < -32768 ∨ 32767 < (target : Int) - base) :
      Refused method places patch (.branchOutOfRange method patch.label)

theorem Patch.fault?_iff_refused {method : String} {labels : Std.HashMap Label Nat}
    {places : List (Label × Nat)} (counted : Request.Counted stop patch)
    (found : ∀ (label : Label) target, labels[label]? = some target ↔ (label, target) ∈ places)
    (error : AssemblyError) :
    patch.fault? method labels = some error ↔ patch.Refused method places error := by
  unfold Patch.fault?
  unfold Request.Counted at counted
  cases targetEq : labels[patch.label]? with
  | none =>
      have unknown : ∀ target, (patch.label, target) ∉ places := fun target known => by
        rw [(found _ _).mpr known] at targetEq
        cases targetEq
      constructor
      · rintro ⟨⟩
        exact .undefined unknown
      · rintro (_ | ⟨known, _, _⟩ | ⟨known, _, _, _⟩)
        · rfl
        · exact absurd known (unknown _)
        · exact absurd known (unknown _)
  | some target =>
      have known : (patch.label, target) ∈ places := (found _ _).mp targetEq
      have sameTarget : ∀ {other}, (patch.label, other) ∈ places → other = target := by
        intro other member
        rw [← found, targetEq] at member
        exact (Option.some.inj member).symm
      cases baseEq : patch.base with
      | none =>
          rw [baseEq] at counted
          have short : patch.width = .short := by grind
          have first : patch.position = 0 := by grind
          constructor
          · rintro ⟨⟩
            exact .atStart known short first
          · rintro (unknown | _ | _)
            · exact absurd known (unknown _)
            · rfl
            · rfl
      | some base =>
          rw [baseEq] at counted
          dsimp only
          constructor
          · intro fault
            split at fault
            · cases fault
            · rename_i refused
              obtain rfl := Option.some.inj fault
              cases width : patch.width with
              | short =>
                  refine .outOfRange known width baseEq ?_
                  simp only [width, Buffer.encodeOffset?] at refused
                  grind
              | wide => simp [width, Buffer.encodeOffset?] at refused
          · rintro (unknown | ⟨_, short, first⟩ | ⟨knownToo, short, baseToo, far⟩)
            · exact absurd known (unknown _)
            · simp [short, first] at counted
            · obtain rfl := Option.some.inj (baseEq.symm.trans baseToo)
              obtain rfl := sameTarget knownToo
              simp only [short, Buffer.encodeOffset?]
              grind

def Patch.FirstRefused (method : String) (places : List (Label × Nat)) (fields : List Patch)
    (error : AssemblyError) : Prop :=
  ∃ before patch after, fields = before ++ patch :: after ∧
    (∀ earlier ∈ before, ∀ other, ¬earlier.Refused method places other) ∧
    patch.Refused method places error

theorem Patch.findSome?_fault_iff {method : String} {labels : Std.HashMap Label Nat}
    {places : List (Label × Nat)} {fields : List Patch}
    (counted : ∀ patch ∈ fields, Request.Counted stop patch)
    (found : ∀ (label : Label) target, labels[label]? = some target ↔ (label, target) ∈ places)
    (error : AssemblyError) :
    fields.findSome? (Patch.fault? method labels) = some error ↔
      Patch.FirstRefused method places fields error := by
  have sound : ∀ patch ∈ fields, patch.fault? method labels = none ↔
      ∀ other, ¬patch.Refused method places other := by
    intro patch member
    rw [Option.eq_none_iff_forall_ne_some]
    exact forall_congr' fun other => not_congr (fault?_iff_refused (counted patch member) found other)
  rw [List.findSome?_eq_some_iff]
  constructor
  · rintro ⟨before, patch, after, rfl, fault, earlier⟩
    refine ⟨before, patch, after, rfl, fun other member => ?_, ?_⟩
    · exact (sound other (by simp [member])).mp (earlier other member)
    · exact (fault?_iff_refused (counted patch (by simp)) found error).mp fault
  · rintro ⟨before, patch, after, rfl, earlier, refused⟩
    refine ⟨before, patch, after, rfl, ?_, fun other member => ?_⟩
    · exact (fault?_iff_refused (counted patch (by simp)) found error).mpr refused
    · exact (sound other (by simp [member])).mpr (earlier other member)

theorem Buffer.Filled.signed_eq {labels : Std.HashMap Label Nat} {content : List UInt8}
    (filled : Buffer.Filled labels patch content) (counted : Request.Counted stop patch)
    (small : stop ≤ maxCodeLength)
    (within : ∀ (label : Label) target, labels[label]? = some target → target ≤ stop) :
    ∃ target base, labels[patch.label]? = some target ∧ patch.base = some base ∧
      BigEndian.signed content = (target : Int) - base := by
  obtain ⟨defined, base, baseEq, encoded⟩ := filled
  obtain ⟨target, targetEq⟩ : ∃ target, labels[patch.label]? = some target := by
    rw [Std.HashMap.contains_eq_isSome_getElem?] at defined
    exact Option.isSome_iff_exists.mp defined
  refine ⟨target, base, targetEq, baseEq, ?_⟩
  have targetIs : targetOf labels patch.label = target := by simp [targetOf, targetEq]
  rw [targetIs] at encoded
  cases width : patch.width with
  | short =>
      simp only [width, encodeOffset?] at encoded
      split at encoded
      · rename_i fits
        obtain rfl := Option.some.inj encoded
        exact BigEndian.signed_encode16 fits.1 fits.2
      · cases encoded
  | wide =>
      have reached : base ≤ stop := by
        simp only [Request.Counted, width, baseEq, Option.some.injEq] at counted
        obtain ⟨_, reached, rfl⟩ := counted
        exact reached
      have bound := within _ _ targetEq
      unfold maxCodeLength at small
      simp only [width, encodeOffset?] at encoded
      obtain rfl := Option.some.inj encoded
      exact BigEndian.signed_encode32 (by omega) (by omega)

theorem Buffer.finish_completes {buffer : Buffer}
    (inside : ∀ patch ∈ buffer.patches.toList, patch.Inside buffer.bytes.size)
    (apart : buffer.patches.toList.Pairwise Patch.Apart) (events : Array Event) :
    Ends buffer.finish events
      (fun code _ => buffer.fault? = none ∧
        Completes buffer.labels buffer.patches.toList buffer.bytes code)
      (fun error _ => buffer.fault? = some error) := by
  unfold finish fault? position
  split
  · exact rfl
  · exact resolveAll_completes buffer.method buffer.labels inside apart events

structure Buffer.Assembled (method : String) (limit : Nat) (requests : List Request) (buffer : Buffer) :
    Prop where
  method : buffer.method = method
  limit : buffer.limit = limit
  bytes : buffer.bytes.toList = Request.spread Request.content 0 requests
  patches : buffer.patches.toList = Request.spread Request.fields 0 requests
  labels : ∀ (label : Label) target, buffer.labels[label]? = some target ↔
    (label, target) ∈ Request.spread Request.places 0 requests

theorem Buffer.performAll_assembled (method : String) (limit : Nat) {requests : List Request}
    (once : (Request.labels requests).Nodup) :
    Assembled method limit requests ((Buffer.empty method limit).performAll requests) := by
  obtain ⟨bytes, patches, methodEq, limitEq⟩ := performAll_appends (Buffer.empty method limit) requests
  refine ⟨methodEq, limitEq, bytes, patches, fun label target => ?_⟩
  refine (@performAll_labels (Buffer.empty method limit) requests once label target).trans ?_
  exact or_iff_left fun undefined => by simp [Buffer.empty] at undefined

namespace Buffer.Assembled

variable {method : String} {limit : Nat} {requests : List Request} {buffer : Buffer}

theorem size (assembled : Assembled method limit requests buffer) :
    buffer.bytes.size = (Request.spread Request.content 0 requests).length := by
  rw [← assembled.bytes, Array.length_toList]

theorem inside (assembled : Assembled method limit requests buffer) (fits : Request.AllFit 0 requests) :
    ∀ patch ∈ buffer.patches.toList, patch.Inside buffer.bytes.size := by
  intro patch member
  rw [assembled.patches] at member
  rw [assembled.size]
  exact (Request.spread_fields_placed fits member).1

theorem counted (fits : Request.AllFit 0 requests) :
    ∀ patch ∈ Request.spread Request.fields 0 requests,
      Request.Counted (Request.spread Request.content 0 requests).length patch :=
  fun _ member => (Request.spread_fields_placed fits member).2

theorem fault?_iff (assembled : Assembled method limit requests buffer)
    (fits : Request.AllFit 0 requests) (error : AssemblyError) :
    buffer.fault? = some error ↔
      (limit < (Request.spread Request.content 0 requests).length ∧
        error = .methodTooLarge method (Request.spread Request.content 0 requests).length) ∨
      ((Request.spread Request.content 0 requests).length ≤ limit ∧
        Patch.FirstRefused method (Request.spread Request.places 0 requests)
          (Request.spread Request.fields 0 requests) error) := by
  rw [← Patch.findSome?_fault_iff (counted fits) assembled.labels, Buffer.fault?, position,
    assembled.patches, assembled.size, assembled.method, assembled.limit]
  grind

theorem spells (assembled : Assembled method limit requests buffer) (fits : Request.AllFit 0 requests)
    (small : buffer.bytes.size ≤ maxCodeLength) {code : Array UInt8}
    (completes : Completes buffer.labels buffer.patches.toList buffer.bytes code) :
    ∀ patch ∈ Request.spread Request.fields 0 requests, ∃ target base,
      (patch.label, target) ∈ Request.spread Request.places 0 requests ∧ patch.base = some base ∧
        BigEndian.signed (patch.slice code) = (target : Int) - base := by
  intro patch member
  have filled := completes.filled patch (assembled.patches ▸ member)
  have within : ∀ (label : Label) target, buffer.labels[label]? = some target →
      target ≤ (Request.spread Request.content 0 requests).length := by
    intro label target found
    exact Request.spread_places_le fits ((assembled.labels label target).mp found)
  obtain ⟨target, base, found, counted, spelled⟩ :=
    filled.signed_eq (counted fits patch member) (assembled.size ▸ small) within
  exact ⟨target, base, (assembled.labels _ _).mp found, counted, spelled⟩

end Buffer.Assembled

/-- Finishing code that was assembled by requests. Code of more than `limit` bytes is refused. Otherwise
the first field that cannot be filled in is reported, and if there is none, the code is the written bytes
with the distance to its label in each field. -/
theorem Buffer.finish_performAll_exact (method : String) {limit : Nat} (small : limit ≤ maxCodeLength)
    {requests : List Request} (fits : Request.AllFit 0 requests)
    (apart : (Request.spread Request.fields 0 requests).Pairwise Patch.Apart)
    (once : (Request.labels requests).Nodup) (events : Array Event) :
    let written := Request.spread Request.content 0 requests
    let fields := Request.spread Request.fields 0 requests
    let places := Request.spread Request.places 0 requests
    let outcome := (((Buffer.empty method limit).performAll requests).finish.run events).1
    (∀ error, outcome = .error error ↔
      (limit < written.length ∧ error = .methodTooLarge method written.length) ∨
        (written.length ≤ limit ∧ Patch.FirstRefused method places fields error)) ∧
    (written.length ≤ limit → (∀ patch ∈ fields, ∀ error, ¬patch.Refused method places error) →
      ∃ code, outcome = .ok code ∧ code.size = written.length ∧
        (∀ patch ∈ fields, ∃ target base, (patch.label, target) ∈ places ∧ patch.base = some base ∧
          BigEndian.signed (patch.slice code) = (target : Int) - base) ∧
        ∀ index, (∀ patch ∈ fields, ¬patch.Covers index) → code[index]? = written[index]?) := by
  intro written fields places outcome
  have assembled := performAll_assembled method limit once
  have ends := finish_completes (assembled.inside fits) (assembled.patches ▸ apart) events
  have faultIff := assembled.fault?_iff fits
  rcases ends.result with ⟨code, finished, noFault, completes⟩ | ⟨found, finished, fault⟩
  · change outcome = .ok code at finished
    refine ⟨fun error => ?_, fun fine _ => ⟨code, finished, ?_, ?_, ?_⟩⟩
    · rw [← faultIff error, noFault, finished]
      exact ⟨nofun, nofun⟩
    · exact completes.size.trans assembled.size
    · exact assembled.spells fits (assembled.size ▸ Nat.le_trans fine small) completes
    · intro index outside
      rw [completes.kept index (assembled.patches ▸ outside), ← Array.getElem?_toList, assembled.bytes]
  · change outcome = .error found at finished
    refine ⟨fun error => ?_, fun fine sound => ?_⟩
    · rw [← faultIff error, fault, finished, Option.some.injEq]
      exact ⟨Except.error.inj, congrArg Except.error⟩
    · rcases (faultIff found).mp fault with ⟨large, _⟩ | ⟨_, before, patch, after, split, _, refused⟩
      · exact absurd fine (Nat.not_le.mpr large)
      · exact absurd refused (sound patch (by rw [show fields = _ from split]; simp) found)

/-- A loop with a branch out of it, a wide field, and a branch back that is requested for bytes that are
already written. -/
def Request.loop : List Request :=
  [.define "top", .write [Opcode.goto], .here "end", .align, .wide 0 "top", .write [Opcode.goto, 0, 0],
    .there 9 "top", .define "end"]

theorem Buffer.loop_exact :
    Request.AllFit 0 Request.loop ∧
      (Request.spread Request.fields 0 Request.loop).Pairwise Patch.Apart ∧
      (Request.labels Request.loop).Nodup ∧
      ∃ code : Array UInt8,
        (((Buffer.empty "run" 11).performAll Request.loop).finish.run #[]).1 = .ok code ∧
          code.size = 11 ∧
          (∃ target base, ("top", target) ∈ Request.spread Request.places 0 Request.loop ∧
            (Request.shortField 9 "top").base = some base ∧
            BigEndian.signed ((Request.shortField 9 "top").slice code) = (target : Int) - base) ∧
          code[8]? = some Opcode.goto := by
  have fields : Request.spread Request.fields 0 Request.loop =
      [Request.shortField 1 "end", ⟨4, some 0, .wide, "top"⟩, Request.shortField 9 "top"] := rfl
  have places : Request.spread Request.places 0 Request.loop = [("top", 0), ("end", 11)] := rfl
  have fits : Request.AllFit 0 Request.loop := by
    simp [Request.loop, Request.AllFit, Request.Fits, Request.content]
  have apart : (Request.spread Request.fields 0 Request.loop).Pairwise Patch.Apart := by
    simp [fields, Request.shortField, Patch.Apart, fieldSize]
  have once : (Request.labels Request.loop).Nodup := by decide
  have sound : ∀ patch ∈ Request.spread Request.fields 0 Request.loop, ∀ error,
      ¬patch.Refused "run" (Request.spread Request.places 0 Request.loop) error := by
    rw [fields, places]
    rintro patch member error (unknown | ⟨_, _, first⟩ | ⟨known, short, counted, far⟩) <;>
      simp [Request.shortField] at member <;> rcases member with rfl | rfl | rfl <;> simp_all <;> omega
  obtain ⟨code, finished, size, spelled, kept⟩ :=
    (finish_performAll_exact "run" (by decide : 11 ≤ maxCodeLength) fits apart once #[]).2 (by decide) sound
  refine ⟨fits, apart, once, code, finished, size,
    spelled (Request.shortField 9 "top") (by simp [fields]), kept 8 ?_⟩
  simp [fields, Request.shortField, Patch.Covers, fieldSize]

/-- A wide field may stand at the very start: its distance is counted from the base that is given. -/
theorem Buffer.wide_at_start :
    Request.AllFit 0 [.wide 0 "a", .define "a"] ∧ (Request.labels [.wide 0 "a", .define "a"]).Nodup ∧
      Request.spread Request.fields 0 [.wide 0 "a", .define "a"] = [⟨0, some 0, .wide, "a"⟩] ∧
      (((Buffer.empty "m" maxCodeLength).performAll [.wide 0 "a", .define "a"]).finish.run #[]).1 =
        .ok #[0, 0, 0, 4] := by
  refine ⟨by simp [Request.AllFit, Request.Fits], by decide, rfl, ?_⟩
  let buffer := (Buffer.empty "m" maxCodeLength).performAll [.wide 0 "a", .define "a"]
  have known : buffer.labels["a"]? = some 4 := (performAll_labels (by decide) "a" 4).mpr (.inl (by decide))
  change ((resolveAll "m" buffer.labels [⟨0, some 0, .wide, "a"⟩] #[0, 0, 0, 0]).run #[]).1 = _
  simp only [resolveAll, resolve, known]
  rfl

end BasicCompiler
