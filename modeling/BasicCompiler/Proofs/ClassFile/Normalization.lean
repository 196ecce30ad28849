import BasicCompiler.Proofs.ClassFile.PoolHistory
import BasicCompiler.Proofs.Text.Spelling

/-!
What the readers of class files accept. They allow more than is ever written: texts in more bytes than
they need, a wrong length of a table of lines, bytes after the end of some code, and a wide entry in the
last slot of a pool. Every layer has one lemma about the bytes that its reader took: what it made of them
can be written in as many bytes or fewer. All of that sloppiness but the last is gone after that.
-/

namespace BasicCompiler

open BigEndian

variable {α β : Type}

namespace Reader

/-- What a reader may do with an input: find it too short, refuse it whatever follows, or take a value
from the front of it, of which `tells` holds. -/
inductive Parses (reader : Reader α) (tells : α → List UInt8 → Prop) (input : List UInt8) : Prop where
  | short : reader.run input = .error .endOfInput → Parses reader tells input
  | refused (error : ClassFileError) :
      (∀ more, reader.run (input ++ more) = .error error) → Parses reader tells input
  | taken (used rest : List UInt8) {value : α} :
      input = used ++ rest → Reads reader used value → tells value used → Parses reader tells input

/-- Whatever a reader takes a value from, `tells` holds of the value and the bytes that it took. -/
def Takes (reader : Reader α) (tells : α → List UInt8 → Prop) : Prop :=
  ∀ input, Parses reader tells input

/-- The values of a reader have a property, and are written in no more bytes than they are read from. -/
def Rewrites (reader : Reader α) (encode : α → List UInt8) (holds : α → Prop) : Prop :=
  Takes reader fun value used => (encode value).length ≤ used.length ∧ holds value

namespace Takes

variable {reader first : Reader α} {next : α → Reader β} {tells : α → List UInt8 → Prop}
  {tells' : β → List UInt8 → Prop}

theorem of_run (takes : Takes reader tells) {input rest : List UInt8} {value : α}
    (ran : reader.run input = .ok (value, rest)) : ∃ used, input = used ++ rest ∧ tells value used := by
  cases takes input with
  | short run => cases run.symm.trans ran
  | refused _ run =>
      rw [← List.append_nil input, run] at ran
      cases ran
  | taken _ _ isInput reads told =>
      rw [isInput, reads] at ran
      cases ran
      exact ⟨_, isInput, told⟩

/-- Where a reader takes the whole of some bytes, it finds any part before a cut too short. -/
theorem run_cut (takes : Takes reader tells) {front back : List UInt8} {value : α}
    (whole : reader.run (front ++ back) = .ok (value, [])) (cut : back ≠ []) :
    reader.run front = .error .endOfInput := by
  cases takes front with
  | short run => exact run
  | refused _ run => cases (run back).symm.trans whole
  | taken _ _ isFront reads _ =>
      rw [isFront, List.append_assoc, reads] at whole
      exact absurd (List.append_eq_nil_iff.mp (congrArg Prod.snd (Except.ok.inj whole))).2 cut

theorem pure {value : α} (fact : tells value []) : Takes (Pure.pure value) tells :=
  fun input => .taken [] input rfl (Reads.pure value) fact

theorem bind (takes : Takes first tells) (takesNext : ∀ value used, tells value used →
      Takes (next value) fun result used' => tells' result (used ++ used')) :
    Takes (first >>= next) tells' := by
  intro input
  cases takes input with
  | short run =>
      refine .short ?_
      rw [StateT.run_bind, run]
      rfl
  | refused error run =>
      refine .refused error fun more => ?_
      rw [StateT.run_bind, run]
      rfl
  | @taken used rest value isInput reads told =>
      cases takesNext value used told rest with
      | short run =>
          refine .short ?_
          rw [isInput, StateT.run_bind, reads]
          exact run
      | refused error run =>
          refine .refused error fun more => ?_
          rw [isInput, List.append_assoc, StateT.run_bind, reads]
          exact run more
      | taken used' rest isRest readsNext toldNext =>
          refine .taken (used ++ used') rest ?_ (reads.bind readsNext) toldNext
          rw [isInput, isRest, List.append_assoc]

theorem failing {error : ClassFileError} : Takes (throw error >>= next) tells' :=
  fun _ => .refused _ fun _ => rfl

theorem lookingUp {answer : Except ClassFileError α}
    (takesNext : ∀ value, answer = .ok value → Takes (next value) tells') :
    Takes (liftM answer >>= next) tells' := by
  cases answer with
  | error error => exact failing
  | ok found => exact takesNext found rfl

theorem imp {weaker : α → List UInt8 → Prop} (takes : Takes reader tells)
    (implies : ∀ value used, tells value used → weaker value used) : Takes reader weaker := by
  intro input
  cases takes input with
  | short run => exact .short run
  | refused error run => exact .refused error run
  | taken used rest isInput reads told => exact .taken used rest isInput reads (implies _ _ told)

end Takes

theorem byte_takes : Takes byte fun value used => used = [value] := by
  intro input
  cases input with
  | nil => exact .short rfl
  | cons first rest => exact .taken [first] rest rfl (fun _ => rfl) rfl

theorem word16_takes : Takes word16 fun value used => used = encode16 value := by
  intro input
  match input with
  | [] | [_] => exact .short rfl
  | first :: second :: rest =>
      exact .taken [first, second] rest rfl (fun _ => rfl) (encode16_decode16 first second).symm

theorem Takes.word16 {next : UInt16 → Reader β} {tells : β → List UInt8 → Prop}
    (takesNext : ∀ value, Takes (next value) fun result used => tells result (encode16 value ++ used)) :
    Takes (Reader.word16 >>= next) tells :=
  word16_takes.bind fun value _ isValue => isValue ▸ takesNext value

theorem word32_takes : Takes word32 fun _ used => used.length = 4 := by
  intro input
  match input with
  | [] | [_] | [_, _] | [_, _, _] => exact .short rfl
  | first :: second :: third :: fourth :: rest =>
      exact .taken [first, second, third, fourth] rest rfl (fun _ => rfl) rfl

theorem word64_takes : Takes word64 fun _ used => used.length = 8 :=
  word32_takes.bind fun _ high highLength => word32_takes.bind fun _ low lowLength => .pure (by
    rw [List.length_append, List.length_append, highLength, lowLength]
    rfl)

theorem takeAfter_eq_none {count : Nat} {input taken : List UInt8} (short : input.length < count) :
    takeAfter count input taken = none := by
  induction count generalizing input taken with
  | zero => cases short
  | succ count ih =>
      cases input with
      | nil => rfl
      | cons first rest => exact ih (Nat.lt_of_succ_lt_succ short)

theorem bytes_takes (count : Nat) : Takes (bytes count) fun value used => value = used ∧ used.length = count := by
  intro input
  by_cases enough : count ≤ input.length
  · have length : (input.take count).length = count := List.length_take_of_le enough
    have reads := bytes_reads (input.take count)
    rw [length] at reads
    exact .taken _ _ (List.take_append_drop count input).symm reads ⟨rfl, length⟩
  · refine .short ?_
    unfold bytes
    simp only [StateT.run, take?, takeAfter_eq_none (Nat.lt_of_not_le enough)]

section Lists

variable {item : Reader α} {encodeItem : α → List UInt8} {holds : α → Prop}

theorem repeatAfter_takes (rewrites : Rewrites item encodeItem holds) (count : Nat) (done : List α) :
    Takes (repeatAfter item count done) fun values used =>
      ∃ added, values = done.reverse ++ added ∧ added.length = count ∧
        (added.flatMap encodeItem).length ≤ used.length ∧ ∀ value ∈ added, holds value := by
  induction count generalizing done with
  | zero => exact .pure ⟨[], (List.append_nil _).symm, rfl, Nat.le_refl _, nofun⟩
  | succ count ih =>
      refine rewrites.bind ?_
      rintro value used ⟨short, fact⟩
      refine (ih (value :: done)).imp ?_
      rintro _ used' ⟨added, rfl, rfl, shorts, facts⟩
      refine ⟨value :: added, by simp, rfl, ?_, List.forall_mem_cons.mpr ⟨fact, facts⟩⟩
      rw [List.flatMap_cons, List.length_append, List.length_append]
      exact Nat.add_le_add short shorts

theorem counted_rewrites (rewrites : Rewrites item encodeItem holds) :
    Rewrites (counted item) (encodeCounted encodeItem) fun values =>
      values.length ≤ 65535 ∧ ∀ value ∈ values, holds value := by
  refine .word16 fun count => ?_
  refine (repeatAfter_takes rewrites count.toNat []).imp ?_
  rintro _ used ⟨added, rfl, length, short, facts⟩
  have bound := count.toNat_lt
  refine ⟨?_, by omega, facts⟩
  rw [encodeCounted, List.length_append, List.length_append, encode16_length, encode16_length]
  exact Nat.add_le_add_left short 2

end Lists

theorem word16_rewrites : Rewrites word16 encode16 fun _ => True :=
  word16_takes.imp fun _ _ isValue => ⟨Nat.le_of_eq (congrArg List.length isValue.symm), trivial⟩

end Reader

open Reader

namespace Constant

def Brief (entry : Constant) : Prop := ∀ text, entry = utf8 text → ConstantPool.Brief text

theorem readText_rewrites : Rewrites readText payload Brief := by
  refine .word16 fun length => ?_
  refine (bytes_takes length.toNat).bind ?_
  rintro bytes _ ⟨rfl, isLength⟩
  cases decoded : ModifiedUtf8.decode? bytes with
  | none => exact fun _ => .refused _ fun _ => rfl
  | some text =>
      have short := (ModifiedUtf8.encode_within_of_decode? decoded).length_le
      have bound := length.toNat_lt
      refine .pure ⟨?_, ?_⟩
      · simp only [payload, List.length_append, encode16_length, List.length_nil]
        omega
      · rintro _ ⟨⟩
        simp only [ConstantPool.Brief, ConstantPool.maxTextLength]
        omega

theorem field_rewrites {field : Reader α} {size : Nat} {make : α → Constant}
    (takes : Takes field fun _ used => used.length = size)
    (length : ∀ value, (make value).payload.length = size) (other : ∀ value text, make value ≠ utf8 text) :
    Rewrites (field >>= fun value => return make value) payload Brief := by
  refine takes.bind ?_
  rintro value used rfl
  refine .pure ⟨Nat.le_of_eq ?_, fun text isText => absurd isText (other value text)⟩
  rw [length, List.append_nil]

theorem indices_rewrites {make : UInt16 → UInt16 → Constant}
    (length : ∀ first second, (make first second).payload.length = 4)
    (other : ∀ first second text, make first second ≠ utf8 text) :
    Rewrites (word16 >>= fun first => word16 >>= fun second => return make first second) payload Brief := by
  refine .word16 fun first => ?_
  refine .word16 fun second => ?_
  exact .pure ⟨Nat.le_of_eq (length first second), fun text isText => absurd isText (other first second text)⟩

theorem readPayload_rewrites (tag : UInt8) : Rewrites (readPayload tag) payload Brief := by
  have index : Takes word16 fun _ used => used.length = 2 := word16_takes.imp fun _ _ => congrArg List.length
  unfold readPayload
  split
  · exact readText_rewrites
  · exact field_rewrites word32_takes (fun _ => rfl) (by simp)
  · exact field_rewrites word32_takes (fun _ => rfl) (by simp)
  · exact field_rewrites word64_takes (fun _ => rfl) (by simp)
  · exact field_rewrites word64_takes (fun _ => rfl) (by simp)
  · exact field_rewrites index (fun _ => rfl) (by simp)
  · exact field_rewrites index (fun _ => rfl) (by simp)
  · exact indices_rewrites (fun _ _ => rfl) (by simp)
  · exact indices_rewrites (fun _ _ => rfl) (by simp)
  · exact indices_rewrites (fun _ _ => rfl) (by simp)
  · exact fun _ => .refused _ fun _ => rfl

theorem read_rewrites : Rewrites read encode Brief := by
  refine byte_takes.bind ?_
  rintro tag _ rfl
  refine (readPayload_rewrites tag).imp ?_
  rintro entry used ⟨short, brief⟩
  exact ⟨Nat.succ_le_succ short, brief⟩

end Constant

namespace ConstantPool

theorem readEntries_takes (remaining : Nat) (pool : ConstantPool) :
    Takes (readEntries remaining pool) fun final used =>
      ∃ entries, final = entries.foldl push pool ∧ Fills remaining entries ∧
        (entries.flatMap Constant.encode).length ≤ used.length ∧ ∀ entry ∈ entries, entry.Brief := by
  induction remaining using Nat.strongRecOn generalizing pool with
  | ind remaining ih =>
      cases remaining with
      | zero =>
          rw [readEntries]
          refine .pure ⟨[], rfl, .done, Nat.le_refl _, ?_⟩
          intro entry member
          cases member
      | succ remaining =>
          rw [readEntries]
          refine Constant.read_rewrites.bind ?_
          rintro entry used ⟨short, brief⟩
          have less : remaining + 1 - entry.width < remaining + 1 := by
            have positive := entry.width_pos
            omega
          refine (ih _ less (pool.push entry)).imp ?_
          rintro _ used' ⟨entries, rfl, fills, shorts, briefs⟩
          refine ⟨entry :: entries, rfl, .entry fills, ?_, List.forall_mem_cons.mpr ⟨brief, briefs⟩⟩
          rw [List.flatMap_cons, List.length_append, List.length_append]
          exact Nat.add_le_add short shorts

/-- What the bytes of a pool say: a count, and entries that fill the slots before it. -/
structure TakenFrom (pool : ConstantPool) (declared : UInt16) (entries : List Constant) : Prop where
  lists : pool.Lists entries
  fills : Fills (declared.toNat - 1) entries

theorem read_takes : Takes read fun pool used =>
    ∃ declared entries body, used = encode16 declared ++ body ∧ pool.TakenFrom declared entries ∧
      (entries.flatMap Constant.encode).length ≤ body.length := by
  refine .word16 fun declared => ?_
  refine (readEntries_takes (declared.toNat - 1) empty).imp ?_
  rintro _ body ⟨entries, rfl, fills, short, briefs⟩
  refine ⟨declared, entries, body, rfl, ⟨⟨rfl, ?_⟩, fills⟩, short⟩
  intro text member
  exact briefs _ member text rfl

theorem Fills.eq_nil {entries : List Constant} (fills : Fills 0 entries) : entries = [] := by
  cases fills
  rfl

theorem Fills.sum_cases {remaining : Nat} {entries : List Constant} (fills : Fills remaining entries) :
    (entries.map Constant.width).sum = remaining ∨
      ∃ front last, entries = front ++ [last] ∧ last.Wide ∧
        (front.map Constant.width).sum + 1 = remaining := by
  induction fills with
  | done => exact .inl rfl
  | @entry remaining first rest fills ih =>
      by_cases fits : first.width ≤ remaining + 1
      · rcases ih with sum | ⟨front, last, rfl, wide, sum⟩
        · refine .inl ?_
          rw [List.map_cons, List.sum_cons]
          omega
        · refine .inr ⟨first :: front, last, rfl, wide, ?_⟩
          rw [List.map_cons, List.sum_cons]
          omega
      -- Only a wide entry in the last slot does not fit, and nothing is read after it.
      · have width : first.width = 2 := by
          have single : first.width = 2 ∨ first.width = 1 := by
            cases first with
            | long | double => exact .inl rfl
            | _ => exact .inr rfl
          omega
        have last : remaining = 0 := by omega
        rw [last, width] at fills
        rw [fills.eq_nil, last]
        exact .inr ⟨[], first, rfl, (Constant.wide_iff first).mpr width, rfl⟩

theorem Lists.getElem?_iff {pool : ConstantPool} {entries : List Constant} (lists : pool.Lists entries)
    (position : Nat) (entry : Constant) :
    pool.slots[position]? = some (some entry) ↔
      ∃ front back, entries = front ++ entry :: back ∧ position = (front.map Constant.width).sum := by
  rw [← Array.getElem?_toList, lists.slots_eq]
  clear lists
  have length (first : Constant) : (slotsOf first).toList.length = first.width := slotsOf_size first
  constructor
  · intro found
    induction entries generalizing position with
    | nil => cases found
    | cons first rest ih =>
        rw [List.flatMap_cons, List.getElem?_append, length] at found
        by_cases inside : position < first.width
        · rw [if_pos inside, Array.getElem?_toList, slotsOf_getElem?] at found
          split at found
          · rename_i isFirst
            cases found
            exact ⟨[], rest, rfl, isFirst⟩
          · split at found <;> cases found
        · rw [if_neg inside] at found
          obtain ⟨front, back, rfl, isPosition⟩ := ih _ found
          refine ⟨first :: front, back, rfl, ?_⟩
          rw [List.map_cons, List.sum_cons]
          omega
  · rintro ⟨front, back, rfl, rfl⟩
    induction front with
    | nil =>
        rw [List.nil_append, List.flatMap_cons, List.map_nil, List.sum_nil, List.getElem?_append_left]
        · rw [Array.getElem?_toList, slotsOf_head]
        · rw [length]
          exact entry.width_pos
    | cons first front ih =>
        rw [List.cons_append, List.flatMap_cons, List.map_cons, List.sum_cons, List.getElem?_append_right,
          length, Nat.add_sub_cancel_left, ih]
        rw [length]
        exact Nat.le_add_right _ _

theorem Lists.mem_of_lookup {pool : ConstantPool} {entries : List Constant} (lists : pool.Lists entries)
    {index : UInt16} {entry : Constant} (found : pool.lookup index = .ok entry) : entry ∈ entries := by
  obtain ⟨position, _, slot⟩ := (lookup_eq_ok_iff _ _ _).mp found
  obtain ⟨front, back, rfl, _⟩ := (lists.getElem?_iff position entry).mp slot
  exact List.mem_append_right _ List.mem_cons_self

/-- The encoding of a text is the shortest of all bytes that are decoded to it, and the only one of its
length. So the texts of a pool that was read can be counted and written, however they were spelled. -/
theorem read_texts_shortest :
    (∀ bytes text, ModifiedUtf8.decode? bytes = some text →
      (ModifiedUtf8.encode text).length ≤ bytes.length ∧
        ((ModifiedUtf8.encode text).length = bytes.length ↔ ModifiedUtf8.encode text = bytes)) ∧
    ∀ input pool rest, read.run input = .ok (pool, rest) →
      ∀ index text, pool.lookup index = .ok (.utf8 text) →
        (ModifiedUtf8.encode text).length ≤ 65535 ∧
          Reads Constant.read (Constant.utf8 text).encode (.utf8 text) := by
  constructor
  · intro bytes text decoded
    have within := ModifiedUtf8.encode_within_of_decode? decoded
    refine ⟨within.length_le, fun same => ?_, congrArg List.length⟩
    rcases within with isSame | fewer
    · exact isSame
    · exact absurd same (Nat.ne_of_lt fewer)
  · intro input pool rest accepted index text found
    obtain ⟨_, _, _, entries, _, _, taken, _⟩ := read_takes.of_run accepted
    have brief : Brief text := taken.lists.brief (taken.lists.mem_of_lookup found)
    refine ⟨brief, Constant.read_reads ?_⟩
    rintro _ ⟨⟩
    exact brief

/-- A letter, a zero and a pair of surrogates, the first two in more bytes than they need. -/
def lavish : List UInt8 := [0xC1, 0x81, 0xE0, 0x80, 0x80, 0xED, 0xA0, 0xBD, 0xED, 0xB8, 0x80]

def lavishPool : ConstantPool := empty.push (.utf8 "A\x00😀")

theorem lavishPool_read : read.run (encode16 2 ++ ([0x01, 0x00, 0x0B] ++ lavish)) = .ok (lavishPool, []) := by
  have single : Reads Constant.read ([0x01, 0x00, 0x0B] ++ lavish) (.utf8 "A\x00😀") := by
    intro rest
    rfl
  have entries : Reads (readEntries 1 empty) ([0x01, 0x00, 0x0B] ++ lavish) lavishPool := by
    rw [readEntries]
    refine single.ending ?_
    rw [show 0 + 1 - (Constant.utf8 "A\x00😀").width = 0 from rfl, readEntries]
    exact .pure _
  have reads : Reads read (encode16 2 ++ ([0x01, 0x00, 0x0B] ++ lavish)) lavishPool := by
    refine (word16_reads 2).bind ?_
    exact entries
  exact reads []

theorem lavish_shortened :
    ModifiedUtf8.decode? lavish = some "A\x00😀" ∧
      (ModifiedUtf8.encode "A\x00😀").length ≤ lavish.length ∧
      lavishPool.lookup 1 = .ok (.utf8 "A\x00😀") ∧
      (ModifiedUtf8.encode "A\x00😀").length ≤ 65535 := by
  have decoded : ModifiedUtf8.decode? lavish = some "A\x00😀" := by decide +kernel
  have found : lavishPool.lookup 1 = .ok (.utf8 "A\x00😀") := by rfl
  exact ⟨decoded, (read_texts_shortest.1 _ _ decoded).1, found,
    (read_texts_shortest.2 _ _ _ lavishPool_read 1 _ found).1⟩

def Overruns (pool : ConstantPool) (declared : UInt16) : Prop :=
  ∃ entry, pool.lookup (declared - 1) = .ok entry ∧ entry.Wide

namespace TakenFrom

variable {pool : ConstantPool} {declared : UInt16} {entries : List Constant}

theorem size_cases (taken : pool.TakenFrom declared entries) :
    pool.size = declared.toNat - 1 ∨ pool.size = declared.toNat ∧ declared ≠ 0 := by
  rw [taken.lists.size_eq]
  rcases taken.fills.sum_cases with sum | ⟨front, last, rfl, wide, sum⟩
  · exact .inl sum
  · rw [Constant.wide_iff] at wide
    refine .inr ⟨?_, ?_⟩
    · simp only [List.map_append, List.sum_append, List.map_cons, List.map_nil, List.sum_cons, List.sum_nil]
      omega
    · rintro rfl
      exact absurd sum (by simp)

theorem toNat_pred (declared : UInt16) (some : declared ≠ 0) :
    (declared - 1).toNat = declared.toNat - 1 := by
  have positive : 1 ≤ declared.toNat := by
    refine Nat.one_le_iff_ne_zero.mpr fun isZero => some ?_
    exact UInt16.toNat_inj.mp isZero
  exact UInt16.toNat_sub_of_le declared 1 (UInt16.le_iff_toNat_le.mpr positive)

/-- The slots pass the declared count by one exactly where a wide entry starts in the last of them. -/
theorem overruns_iff (taken : pool.TakenFrom declared entries) :
    pool.Overruns declared ↔ pool.size = declared.toNat ∧ declared ≠ 0 := by
  constructor
  · rintro ⟨entry, found, wide⟩
    obtain ⟨position, isIndex, slot⟩ := (lookup_eq_ok_iff _ _ _).mp found
    obtain ⟨front, back, rfl, isPosition⟩ := (taken.lists.getElem?_iff position entry).mp slot
    have size := taken.lists.size_eq
    rw [Constant.wide_iff] at wide
    simp only [List.map_append, List.sum_append, List.map_cons, List.sum_cons] at size
    rcases taken.size_cases with filled | beyond
    · by_cases none : declared = 0
      · rw [none, UInt16.toNat_zero] at filled
        omega
      · rw [toNat_pred declared none] at isIndex
        omega
    · exact beyond
  · rintro ⟨full, some⟩
    have positive : declared.toNat ≠ 0 := fun isZero => some (UInt16.toNat_inj.mp isZero)
    rcases taken.fills.sum_cases with sum | ⟨front, last, rfl, wide, sum⟩
    · rw [← taken.lists.size_eq] at sum
      omega
    · refine ⟨last, (lookup_eq_ok_iff _ _ _).mpr ⟨(front.map Constant.width).sum, ?_, ?_⟩, wide⟩
      · rw [toNat_pred declared some, sum]
      · exact (taken.lists.getElem?_iff _ _).mpr ⟨front, [], rfl, rfl⟩

theorem count_iff (taken : pool.TakenFrom declared entries) :
    pool.count = declared ↔ declared ≠ 0 ∧ ¬ pool.Overruns declared := by
  have bound : declared.toNat < 65536 := declared.toNat_lt
  have sizes := taken.size_cases
  have isZero : declared = 0 ↔ declared.toNat = 0 := by rw [← UInt16.toNat_inj, UInt16.toNat_zero]
  rw [taken.overruns_iff, count, ← UInt16.toNat_inj, UInt16.toNat_ofNat']
  simp only [ne_eq, isZero] at sizes ⊢
  omega

theorem size_le_iff (taken : pool.TakenFrom declared entries) :
    pool.size ≤ maxIndex ↔ ¬ (declared = 65535 ∧ pool.Overruns declared) := by
  have bound : declared.toNat < 65536 := declared.toNat_lt
  have sizes := taken.size_cases
  rw [taken.overruns_iff, ← UInt16.toNat_inj]
  simp only [maxIndex, UInt16.reduceToNat]
  constructor
  · rintro room ⟨last, full, _⟩
    omega
  · intro inside
    rcases sizes with filled | ⟨full, some⟩
    · omega
    · by_cases last : declared.toNat = 65535
      · exact absurd ⟨last, full, some⟩ inside
      · omega

theorem not_reads (taken : pool.TakenFrom declared entries) (full : ¬ pool.size ≤ maxIndex) :
    read.run pool.encode ≠ .ok (pool, []) := by
  have bound : declared.toNat < 65536 := declared.toNat_lt
  have size : pool.size = 65535 := by
    simp only [maxIndex] at full
    have sizes := taken.size_cases
    omega
  have count : pool.count = 0 := by
    rw [ConstantPool.count, size]
    rfl
  have empties : Reads read (encode16 0) empty := by
    refine (word16_reads 0).ending ?_
    rw [UInt16.toNat_zero, Nat.zero_sub, readEntries]
    exact .pure empty
  rw [taken.lists.encode_eq, count, empties]
  intro same
  have isEmpty : empty = pool := congrArg Prod.fst (Except.ok.inj same)
  rw [← isEmpty] at size
  exact absurd size (by decide)

end TakenFrom

/-- A pool that was read has the count that its bytes declare exactly where that is not zero and no wide
entry starts in the last slot. It is read back from its written form unless a wide entry starts in
the very last slot that can be counted. -/
theorem read_count_iff {bytes rest : List UInt8} {pool : ConstantPool}
    (accepted : read.run bytes = .ok (pool, rest)) :
    ∃ declared body, bytes = encode16 declared ++ body ∧
      (pool.count = declared ↔ declared ≠ 0 ∧ ¬ pool.Overruns declared) ∧
      (read.run pool.encode = .ok (pool, []) ↔ ¬ (declared = 65535 ∧ pool.Overruns declared)) := by
  obtain ⟨_, rfl, declared, entries, body, rfl, taken, _⟩ := read_takes.of_run accepted
  refine ⟨declared, body ++ rest, List.append_assoc _ _ _, taken.count_iff, ?_⟩
  rw [← taken.size_le_iff]
  constructor
  · intro reread
    by_contra full
    exact taken.not_reads full reread
  · intro room
    have reads := taken.lists.reads room []
    rwa [List.append_nil] at reads

theorem read_overrun (front : List Constant) (textless : ∀ text, Constant.utf8 text ∉ front) (value : Int64)
    (declared : UInt16) (full : declared.toNat = (front.map Constant.width).sum + 2) :
    ∃ pool, read.run (encode16 declared ++ (front ++ [Constant.long value]).flatMap Constant.encode) =
        .ok (pool, []) ∧ pool.TakenFrom declared (front ++ [Constant.long value]) := by
  have last : Fills 1 [Constant.long value] := .entry .done
  have brief {text : String} (member : Constant.utf8 text ∈ front ++ [Constant.long value]) : Brief text := by
    rcases List.mem_append.mp member with earlier | isLast
    · exact absurd earlier (textless text)
    · cases List.mem_singleton.mp isLast
  have fills : Fills (declared.toNat - 1) (front ++ [Constant.long value]) := by
    rw [full]
    exact last.after front
  have reads : Reads read (encode16 declared ++ (front ++ [Constant.long value]).flatMap Constant.encode)
      ((front ++ [Constant.long value]).foldl push empty) := by
    refine (word16_reads declared).bind ?_
    exact fills.reads brief empty
  have whole := reads []
  rw [List.append_nil] at whole
  exact ⟨_, whole, ⟨rfl, brief⟩, fills⟩

theorem long_count_iff :
    ∃ pool, read.run (encode16 2 ++ (Constant.long 1).encode) = .ok (pool, []) ∧
      ∃ declared body, encode16 2 ++ (Constant.long 1).encode = encode16 declared ++ body ∧
        (pool.count = declared ↔ declared ≠ 0 ∧ ¬ pool.Overruns declared) ∧
        (read.run pool.encode = .ok (pool, []) ↔ ¬ (declared = 65535 ∧ pool.Overruns declared)) := by
  obtain ⟨pool, accepted, _⟩ := read_overrun [] nofun 1 2 rfl
  exact ⟨pool, accepted, read_count_iff accepted⟩

theorem replicate_widths {constant : Constant} (narrow : constant.width = 1) (count : Nat) :
    ((List.replicate count constant).map Constant.width).sum = count := by
  rw [List.map_replicate, List.sum_replicate_nat, narrow, Nat.mul_one]

def crowded : List Constant := List.replicate 65533 (.classRef 0) ++ [.long 1]

/-- A pool that declares the greatest count is accepted with a wide entry in its last slot. It counts to
zero, and nothing is read back from its written form. -/
theorem crowded_pool_lost :
    ∃ pool, read.run (encode16 65535 ++ crowded.flatMap Constant.encode) = .ok (pool, []) ∧
      pool.count ≠ 65535 ∧ read.run pool.encode ≠ .ok (pool, []) := by
  have textless (text : String) : Constant.utf8 text ∉ List.replicate 65533 (Constant.classRef 0) := by
    intro member
    cases List.eq_of_mem_replicate member
  have full : (65535 : UInt16).toNat =
      ((List.replicate 65533 (Constant.classRef 0)).map Constant.width).sum + 2 := by
    rw [replicate_widths rfl]
    rfl
  obtain ⟨pool, accepted, taken⟩ := read_overrun _ textless 1 65535 full
  have size : pool.size = 65535 := by
    rw [taken.lists.size_eq, List.map_append, List.sum_append, replicate_widths rfl]
    rfl
  refine ⟨pool, accepted, ?_, taken.not_reads ?_⟩
  · rw [count, size]
    decide
  · rw [size]
    decide

end ConstantPool

theorem refuseAttribute_takes {next : α → Reader β} {tells : β → List UInt8 → Prop} (pool : ConstantPool) :
    Takes (refuseAttribute pool >>= next) tells := by
  have nothing : Takes (refuseAttribute pool : Reader α) fun _ _ => False := by
    exact .word16 fun nameIndex => .lookingUp fun name _ _ => .refused _ fun _ => rfl
  exact nothing.bind fun _ _ never => never.elim

theorem HandlerRow.read_rewrites : Rewrites HandlerRow.read HandlerRow.encode fun _ => True := by
  refine .word16 fun start => ?_
  refine .word16 fun stop => ?_
  refine .word16 fun handler => ?_
  refine .word16 fun catchType => ?_
  exact .pure ⟨Nat.le_refl 8, trivial⟩

theorem LineRow.read_rewrites : Rewrites LineRow.read LineRow.encode fun _ => True := by
  refine .word16 fun start => ?_
  refine .word16 fun line => ?_
  exact .pure ⟨Nat.le_refl 4, trivial⟩

namespace CodeAttribute

variable (pool : ConstantPool)

theorem readLines_takes_some (count : Nat) (table : LineTable) :
    Takes (readLines pool count (some table)) fun lines used => lines = some table ∧ used = [] := by
  cases count with
  | zero => exact .pure ⟨rfl, rfl⟩
  | succ count =>
      refine .word16 fun nameIndex => ?_
      refine .lookingUp fun name _ => ?_
      rw [if_pos (by simp)]
      exact .failing

theorem readLines_takes (count : Nat) :
    Takes (readLines pool count none) fun lines used =>
      (linesPart lines).length ≤ 2 + used.length ∧ ∀ table, lines = some table → table.Writable pool := by
  cases count with
  | zero => exact .pure ⟨Nat.le_refl 2, nofun⟩
  | succ count =>
      refine .word16 fun nameIndex => ?_
      refine .lookingUp fun name found => ?_
      dsimp only
      split
      · exact .failing
      · rename_i isTable
        obtain rfl : name = ClassFile.lineTableName := by
          by_contra other
          exact isTable (.inl other)
        refine word32_takes.bind fun _ lengthBytes isLength => ?_
        refine (counted_rewrites LineRow.read_rewrites).bind ?_
        rintro rows rowBytes ⟨short, few, _⟩
        refine (readLines_takes_some pool count ⟨nameIndex, rows⟩).imp ?_
        rintro _ _ ⟨rfl, rfl⟩
        refine ⟨?_, ?_⟩
        · simp only [linesPart, LineTable.encode, List.length_append, encode16_length, encode32_length,
            List.length_nil]
          omega
        · rintro _ ⟨⟩
          exact ⟨found, few⟩

theorem readBody_takes (nameIndex : UInt16) :
    Takes (readBody pool nameIndex) fun code used =>
      code.nameIndex = nameIndex ∧ code.body.length ≤ used.length ∧ code.handlers.length ≤ 65535 ∧
        ∀ table, code.lines = some table → table.Writable pool := by
  refine .word16 fun maxStack => ?_
  refine .word16 fun maxLocals => ?_
  refine word32_takes.bind fun length lengthBytes isLength => ?_
  refine (bytes_takes length.toNat).bind ?_
  rintro bytes _ ⟨rfl, _⟩
  refine (counted_rewrites HandlerRow.read_rewrites).bind ?_
  rintro handlers handlerBytes ⟨short, few, _⟩
  refine .word16 fun attributes => ?_
  refine (readLines_takes pool attributes.toNat).bind ?_
  rintro lines lineBytes ⟨shortLines, writable⟩
  refine .pure ⟨rfl, ?_, few, writable⟩
  change (encode16 maxStack ++ encode16 maxLocals ++ encode32 (UInt32.ofNat bytes.toArray.size) ++
    bytes.toArray.toList ++ encodeCounted HandlerRow.encode handlers ++ linesPart lines).length ≤ _
  simp only [List.length_append, encode16_length, encode32_length, List.length_nil] at shortLines ⊢
  omega

end CodeAttribute

theorem FieldInfo.read_rewrites (pool : ConstantPool) :
    Rewrites (FieldInfo.read pool) FieldInfo.encode fun _ => True := by
  refine .word16 fun access => ?_
  refine .word16 fun nameIndex => ?_
  refine .word16 fun descriptorIndex => ?_
  refine .word16 fun attributes => ?_
  dsimp only
  split
  · exact refuseAttribute_takes pool
  · exact .pure ⟨Nat.le_refl 8, trivial⟩

namespace MethodInfo

variable (pool : ConstantPool)

def codePart (code : Option CodeAttribute) : List UInt8 :=
  match code with
  | some code => encode16 1 ++ code.encode
  | none => encode16 0

theorem readCode_takes_some (count : Nat) (code : CodeAttribute) :
    Takes (readCode pool count (some code)) fun found used => found = some code ∧ used = [] := by
  cases count with
  | zero => exact .pure ⟨rfl, rfl⟩
  | succ count =>
      refine .word16 fun nameIndex => ?_
      refine .lookingUp fun name _ => ?_
      rw [if_pos (by simp)]
      exact .failing

theorem readCode_takes (count : Nat) :
    Takes (readCode pool count none) fun found used =>
      (codePart found).length ≤ 2 + used.length ∧ ∀ code, found = some code → code.Writable pool := by
  cases count with
  | zero => exact .pure ⟨Nat.le_refl 2, nofun⟩
  | succ count =>
      refine .word16 fun nameIndex => ?_
      refine .lookingUp fun name found => ?_
      dsimp only
      split
      · exact .failing
      · rename_i isCode
        obtain rfl : name = ClassFile.codeName := by
          by_contra other
          exact isCode (.inl other)
        refine word32_takes.bind fun length lengthBytes isLength => ?_
        refine (bytes_takes length.toNat).bind ?_
        rintro body _ ⟨rfl, bodyLength⟩
        refine .lookingUp ?_
        rintro ⟨code, dropped⟩ ran
        obtain ⟨used, rfl, rfl, short, handlers, lines⟩ :=
          (CodeAttribute.readBody_takes pool nameIndex).of_run ran
        refine (readCode_takes_some pool count code).imp ?_
        rintro _ _ ⟨rfl, rfl⟩
        have bound : length.toNat < 4294967296 := length.toNat_lt
        rw [List.length_append] at bodyLength
        refine ⟨?_, ?_⟩
        · simp only [codePart, CodeAttribute.encode, List.length_append, encode16_length, encode32_length,
            List.length_nil]
          omega
        · rintro _ ⟨⟩
          exact ⟨found, by omega, handlers, lines⟩

theorem read_rewrites : Rewrites (read pool) encode fun method =>
    ∀ code, method.code = some code → code.Writable pool := by
  refine .word16 fun access => ?_
  refine .word16 fun nameIndex => ?_
  refine .word16 fun descriptorIndex => ?_
  refine .word16 fun attributes => ?_
  refine (readCode_takes pool attributes.toNat).bind ?_
  rintro code used ⟨short, writable⟩
  refine .pure ⟨?_, writable⟩
  change (encode16 access ++ encode16 nameIndex ++ encode16 descriptorIndex ++ codePart code).length ≤ _
  simp only [List.length_append, encode16_length, List.length_nil] at short ⊢
  omega

end MethodInfo

namespace ClassFile

def declaredSlots (bytes : List UInt8) : Nat :=
  match bytes.drop 8 with
  | first :: second :: _ => (decode16 first second).toNat - 1
  | _ => 0

theorem read_takes : Takes read fun file used => file.Writable ∧ file.encode.length ≤ used.length ∧
    ∃ entries, file.pool.Lists entries := by
  refine word32_takes.bind fun start startBytes isStart => ?_
  dsimp only
  split
  · exact .failing
  refine .word16 fun minorVersion => ?_
  refine .word16 fun majorVersion => ?_
  split
  · exact .failing
  rename_i supported
  refine ConstantPool.read_takes.bind ?_
  rintro pool _ ⟨declared, entries, body, rfl, taken, short⟩
  refine .word16 fun access => ?_
  refine .word16 fun thisClass => ?_
  refine .word16 fun superClass => ?_
  refine (counted_rewrites word16_rewrites).bind ?_
  rintro interfaces interfaceBytes ⟨shortInterfaces, fewInterfaces, _⟩
  refine (counted_rewrites (FieldInfo.read_rewrites pool)).bind ?_
  rintro fields fieldBytes ⟨shortFields, fewFields, _⟩
  refine (counted_rewrites (MethodInfo.read_rewrites pool)).bind ?_
  rintro methods methodBytes ⟨shortMethods, fewMethods, codes⟩
  refine .word16 fun attributes => ?_
  split
  · exact refuseAttribute_takes pool
  refine .pure ⟨⟨UInt16.not_lt.mp supported, fewInterfaces, fewFields, fewMethods, codes⟩, ?_, entries,
    taken.lists⟩
  simp only [encode, taken.lists.encode_eq, List.length_append, encode16_length, encode32_length,
    List.length_nil, isStart]
  omega

theorem declaredSlots_le (bytes : List UInt8) : declaredSlots bytes ≤ ConstantPool.maxIndex := by
  unfold declaredSlots
  split
  · rename_i first second _ _
    have bound : (decode16 first second).toNat < 65536 := (decode16 first second).toNat_lt
    simp only [ConstantPool.maxIndex]
    omega
  · exact Nat.zero_le _

/-- What a class was read from may be sloppy, but it is read back from its written form, which is no
longer. -/
theorem read_normalizes {bytes rest : List UInt8} {file : ClassFile}
    (accepted : read.run bytes = .ok (file, rest)) (filled : file.pool.size = declaredSlots bytes) :
    ∃ used, bytes = used ++ rest ∧ file.encode.length ≤ used.length ∧
      read.run file.encode = .ok (file, []) := by
  obtain ⟨used, isInput, writable, short, entries, lists⟩ := read_takes.of_run accepted
  have room : file.pool.size ≤ ConstantPool.maxIndex := filled ▸ declaredSlots_le bytes
  have reads := writable.reads (lists.reads room) []
  rw [List.append_nil] at reads
  exact ⟨used, isInput, short, reads⟩

def slipshodName : List UInt8 :=
  [0x01, 0x00, 0x08, 0xC1, 0x83, 0xC1, 0xAF, 0xC1, 0xA4, 0xC1, 0xA5]

/-- A method whose table of lines has a wrong length and is followed by bytes that nothing reads. -/
def slipshodMethod : List UInt8 :=
  [0x00, 0x09, 0x00, 0x01, 0x00, 0x01, 0x00, 0x01, 0x00, 0x01, 0x00, 0x00, 0x00, 0x1C,
    0x00, 0x01, 0x00, 0x00, 0x00, 0x00, 0x00, 0x01, 0xB1, 0x00, 0x00, 0x00, 0x01,
    0x00, 0x02, 0x00, 0x00, 0x00, 0x63, 0x00, 0x01, 0x00, 0x00, 0x00, 0x0A, 0x01, 0x02, 0x03]

def slipshod : List UInt8 :=
  encode32 magic ++ (encode16 0 ++ (encode16 leastMajorVersion ++
    ((encode16 3 ++ (slipshodName ++ (Constant.utf8 lineTableName).encode)) ++
      ([0x00, 0x21, 0x00, 0x00, 0x00, 0x00, 0x00, 0x00, 0x00, 0x00, 0x00, 0x01] ++ slipshodMethod ++
        [0x00, 0x00]))))

def slipshodClass : ClassFile where
  minorVersion := 0
  majorVersion := leastMajorVersion
  pool := (ConstantPool.empty.push (.utf8 codeName)).push (.utf8 lineTableName)
  access := 0x21
  thisClass := 0
  superClass := 0
  interfaces := []
  fields := []
  methods := [⟨9, 1, 1, some ⟨1, 1, 0, #[0xB1], [], some ⟨2, [⟨0, 10⟩]⟩⟩⟩]

theorem slipshod_pool_reads :
    Reads ConstantPool.read (encode16 3 ++ (slipshodName ++ (Constant.utf8 lineTableName).encode))
      slipshodClass.pool := by
  have first : Reads Constant.read slipshodName (.utf8 codeName) := fun _ => rfl
  have second : Reads Constant.read (Constant.utf8 lineTableName).encode (.utf8 lineTableName) := by
    refine Constant.read_reads ?_
    rintro _ ⟨⟩
    change (ModifiedUtf8.encode lineTableName).length ≤ 65535
    decide
  have entries : Reads (ConstantPool.readEntries 2 .empty)
      (slipshodName ++ (Constant.utf8 lineTableName).encode) slipshodClass.pool := by
    rw [ConstantPool.readEntries]
    refine first.bind ?_
    rw [show 1 + 1 - (Constant.utf8 codeName).width = 0 + 1 from rfl, ConstantPool.readEntries]
    refine second.ending ?_
    rw [show 0 + 1 - (Constant.utf8 lineTableName).width = 0 from rfl, ConstantPool.readEntries]
    exact .pure _
  refine (word16_reads 3).bind ?_
  exact entries

theorem slipshod_reads : Reads read slipshod slipshodClass := by
  refine (word32_reads _).bind ?_
  rw [if_neg (by simp)]
  refine (word16_reads _).bind ((word16_reads _).bind ?_)
  rw [if_neg (by decide)]
  refine slipshod_pool_reads.bind ?_
  intro rest
  rfl

theorem slipshod_normalizes :
    read.run (slipshod ++ [0x07]) = .ok (slipshodClass, [0x07]) ∧
      slipshodClass.pool.size = declaredSlots (slipshod ++ [0x07]) ∧
      ∃ used, slipshod ++ [0x07] = used ++ [0x07] ∧ slipshodClass.encode.length ≤ used.length ∧
        read.run slipshodClass.encode = .ok (slipshodClass, []) :=
  ⟨slipshod_reads _, by decide, read_normalizes (slipshod_reads _) (by decide)⟩

end ClassFile

end BasicCompiler
