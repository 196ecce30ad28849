import Mathlib.Algebra.GroupWithZero.Nat
import BasicCompiler.ClassFile.Codec
import BasicCompiler.Proofs.Bytes.BigEndian
import BasicCompiler.Proofs.ClassFile.Pool
import BasicCompiler.Proofs.Text.ModifiedUtf8

/-!
Reading a class file back. Every layer of the format has one lemma that says which bytes its reader
takes and what it makes of them, whatever follows; the class is put together from these.
-/

namespace BasicCompiler

open BigEndian

variable {pool : ConstantPool} {entries : List Constant} {entry : Constant}

variable {α β : Type}

namespace Reader

def Reads (reader : Reader α) (bytes : List UInt8) (value : α) : Prop :=
  ∀ rest, reader.run (bytes ++ rest) = .ok (value, rest)

namespace Reads

theorem pure (value : α) : Reads (Pure.pure value) [] value := fun _ => rfl

theorem bind {first : Reader α} {next : α → Reader β} {bytes bytes' : List UInt8} {value : α}
    {result : β} (reads : Reads first bytes value) (readsNext : Reads (next value) bytes' result) :
    Reads (first >>= next) (bytes ++ bytes') result := by
  intro rest
  have opened : (first >>= next).run (bytes ++ bytes' ++ rest) =
      (first.run (bytes ++ (bytes' ++ rest))).bind fun (value, rest) => (next value).run rest := by
    rw [← List.append_assoc]
    rfl
  rw [opened, reads]
  exact readsNext rest

theorem ending {first : Reader α} {next : α → Reader β} {bytes : List UInt8} {value : α} {result : β}
    (reads : Reads first bytes value) (readsNext : Reads (next value) [] result) :
    Reads (first >>= next) bytes result := by
  have whole := reads.bind readsNext
  rwa [List.append_nil] at whole

theorem lookingUp {answer : Except ClassFileError α} {next : α → Reader β} {bytes : List UInt8}
    {value : α} {result : β} (found : answer = .ok value) (reads : Reads (next value) bytes result) :
    Reads (liftM answer >>= next) bytes result := by
  subst found
  exact reads

end Reads

theorem byte_reads (value : UInt8) : Reads byte [value] value := fun _ => rfl

theorem word16_reads (value : UInt16) : Reads word16 (encode16 value) value := by
  intro rest
  change Except.ok (decode16 (value >>> 8).toUInt8 value.toUInt8, rest) = _
  rw [decode16_encode16]

theorem word32_reads (value : UInt32) : Reads word32 (encode32 value) value := by
  intro rest
  change Except.ok (decode32 (value >>> 24).toUInt8 (value >>> 16).toUInt8 (value >>> 8).toUInt8
    value.toUInt8, rest) = _
  rw [decode32_encode32]

theorem word64_reads (value : UInt64) : Reads word64 (encode64 value) value := by
  have joined : Reads (Pure.pure (decode64 (value >>> 32).toUInt32 value.toUInt32)) [] value := by
    rw [decode64_split]
    exact .pure value
  rw [encode64_eq]
  exact (word32_reads _).bind ((word32_reads _).ending joined)

theorem takeAfter_append (bytes rest taken : List UInt8) :
    takeAfter bytes.length (bytes ++ rest) taken = some (taken.reverse ++ bytes, rest) := by
  induction bytes generalizing taken with
  | nil => simp [takeAfter]
  | cons first others ih =>
      rw [List.length_cons, List.cons_append, takeAfter, ih, List.reverse_cons, List.append_assoc,
        List.singleton_append]

theorem bytes_reads (content : List UInt8) : Reads (bytes content.length) content content := by
  intro rest
  have taken : take? content.length (content ++ rest) = some (content, rest) :=
    takeAfter_append content rest []
  unfold bytes
  simp only [StateT.run, taken]

theorem repeatAfter_reads {item : Reader α} {encodeItem : α → List UInt8} {items : List α}
    (reads : ∀ value ∈ items, Reads item (encodeItem value) value) (done : List α) :
    Reads (repeatAfter item items.length done) (items.flatMap encodeItem) (done.reverse ++ items) := by
  induction items generalizing done with
  | nil =>
      rw [List.append_nil]
      exact Reads.pure done.reverse
  | cons first rest ih =>
      obtain ⟨head, tail⟩ := List.forall_mem_cons.mp reads
      have split : done.reverse ++ first :: rest = (first :: done).reverse ++ rest := by simp
      rw [List.flatMap_cons, split]
      exact head.bind (ih tail (first :: done))

theorem toNat_count {items : List α} (few : items.length ≤ 65535) :
    (UInt16.ofNat items.length).toNat = items.length := by
  rw [UInt16.toNat_ofNat']
  exact Nat.mod_eq_of_lt (Nat.lt_succ_of_le few)

theorem counted_reads {item : Reader α} {encodeItem : α → List UInt8} {items : List α}
    (reads : ∀ value ∈ items, Reads item (encodeItem value) value) (few : items.length ≤ 65535) :
    Reads (counted item) (encodeCounted encodeItem items) items := by
  refine (word16_reads _).bind ?_
  rw [toNat_count few]
  exact repeatAfter_reads reads []

end Reader

open Reader

namespace Constant

theorem readText_reads {text : String} (brief : ConstantPool.Brief text) :
    Reads readText (utf8 text).payload (utf8 text) := by
  refine (word16_reads _).bind ?_
  rw [toNat_count brief]
  refine (bytes_reads _).ending ?_
  rw [ModifiedUtf8.decode?_encode]
  exact .pure _

theorem readPayload_reads (brief : ∀ text, entry = utf8 text → ConstantPool.Brief text) :
    Reads (readPayload entry.tag) entry.payload entry := by
  cases entry with
  | utf8 text => exact readText_reads (brief text rfl)
  | integer value => exact (word32_reads _).ending (.pure _)
  | float value => exact (word32_reads _).ending (.pure _)
  | long value => exact (word64_reads _).ending (.pure _)
  | double bits => exact (word64_reads _).ending (.pure _)
  | classRef name => exact (word16_reads _).ending (.pure _)
  | string text => exact (word16_reads _).ending (.pure _)
  | fieldRef owner member => exact (word16_reads _).bind ((word16_reads _).ending (.pure _))
  | methodRef owner member => exact (word16_reads _).bind ((word16_reads _).ending (.pure _))
  | nameAndType name descriptor => exact (word16_reads _).bind ((word16_reads _).ending (.pure _))

theorem read_reads (brief : ∀ text, entry = utf8 text → ConstantPool.Brief text) :
    Reads read entry.encode entry :=
  (byte_reads entry.tag).bind (readPayload_reads brief)

end Constant

namespace ConstantPool

def slotBytes : Option Constant → List UInt8
  | some entry => entry.encode
  | none => []

theorem encode_eq (pool : ConstantPool) :
    pool.encode = encode16 pool.count ++ pool.slots.toList.flatMap slotBytes := rfl

theorem slotsOf_bytes (entry : Constant) : (slotsOf entry).toList.flatMap slotBytes = entry.encode := by
  unfold slotsOf
  split <;> simp [slotBytes]

theorem foldl_push_slots (entries : List Constant) (pool : ConstantPool) :
    (entries.foldl push pool).slots.toList =
      pool.slots.toList ++ entries.flatMap fun entry => (slotsOf entry).toList := by
  induction entries generalizing pool with
  | nil => simp
  | cons first rest ih => simp [ih, push]

theorem Lists.slots_eq (lists : pool.Lists entries) :
    pool.slots.toList = entries.flatMap fun entry => (slotsOf entry).toList := by
  rw [lists.pushed, foldl_push_slots]
  rfl

theorem Lists.size_eq (lists : pool.Lists entries) :
    pool.size = (entries.map Constant.width).sum := by
  rw [ConstantPool.size, ← Array.length_toList, lists.slots_eq, List.length_flatMap]
  congr 1
  exact List.map_congr_left fun entry _ => slotsOf_size entry

theorem Lists.encode_eq (lists : pool.Lists entries) :
    pool.encode = encode16 pool.count ++ entries.flatMap Constant.encode := by
  rw [ConstantPool.encode_eq, lists.slots_eq, List.flatMap_assoc]
  exact congrArg (fun encode => encode16 pool.count ++ entries.flatMap encode) (funext slotsOf_bytes)

/-- The entries of a pool that is read until `remaining` slots are filled. -/
inductive Fills : Nat → List Constant → Prop
  | done : Fills 0 []
  | entry {remaining : Nat} {first : Constant} {rest : List Constant} :
      Fills (remaining + 1 - first.width) rest → Fills (remaining + 1) (first :: rest)

theorem Fills.after {remaining : Nat} {rest : List Constant} (fills : Fills remaining rest)
    (front : List Constant) : Fills ((front.map Constant.width).sum + remaining) (front ++ rest) := by
  induction front with
  | nil => rwa [List.map_nil, List.sum_nil, Nat.zero_add]
  | cons first front ih =>
      obtain ⟨less, width⟩ : ∃ less, first.width + (front.map Constant.width).sum + remaining = less + 1 := by
        have positive := first.width_pos
        exact ⟨first.width + (front.map Constant.width).sum + remaining - 1, by omega⟩
      have left : less + 1 - first.width = (front.map Constant.width).sum + remaining := by omega
      rw [List.map_cons, List.sum_cons, width]
      refine .entry ?_
      rw [left]
      exact ih

theorem fills_sum (entries : List Constant) : Fills (entries.map Constant.width).sum entries := by
  have fills := Fills.done.after entries
  rwa [Nat.add_zero, List.append_nil] at fills

theorem Fills.reads {remaining : Nat} (fills : Fills remaining entries)
    (brief : ∀ {text}, .utf8 text ∈ entries → Brief text) (pool : ConstantPool) :
    Reads (readEntries remaining pool) (entries.flatMap Constant.encode) (entries.foldl push pool) := by
  induction fills generalizing pool with
  | done =>
      rw [readEntries]
      exact .pure pool
  | @entry remaining first rest _ ih =>
      have single : Reads Constant.read first.encode first :=
        Constant.read_reads fun text isText => brief (isText ▸ List.mem_cons_self)
      rw [readEntries, List.flatMap_cons, List.foldl_cons]
      exact single.bind (ih (fun member => brief (List.mem_cons_of_mem _ member)) (pool.push first))

theorem Lists.reads (lists : pool.Lists entries) (room : pool.size ≤ maxIndex) :
    Reads read pool.encode pool := by
  have count : pool.count.toNat - 1 = pool.size := by
    rw [ConstantPool.count, UInt16.toNat_ofNat']
    simp only [maxIndex] at room
    omega
  have entered := (fills_sum entries).reads (fun member => lists.brief member) empty
  rw [← lists.pushed, ← lists.size_eq] at entered
  rw [lists.encode_eq]
  refine (word16_reads _).bind ?_
  rw [count]
  exact entered

theorem read_reads (sound : pool.Sound) : Reads read pool.encode pool := by
  obtain ⟨entries, lists⟩ := sound.entered
  exact lists.reads sound.size

/-- The operations that intern: that of a single entry, and those that intern what the entry names
first. -/
inductive Operation where
  | single (entry : Constant)
  | classRef (name : String)
  | string (text : String)
  | nameAndType (name descriptor : String)
  | fieldRef (owner name descriptor : String)
  | methodRef (owner name descriptor : String)

def Operation.action : Operation → PoolM UInt16
  | single entry => intern entry
  | classRef name => ConstantPool.classRef name
  | string text => ConstantPool.string text
  | nameAndType name descriptor => ConstantPool.nameAndType name descriptor
  | fieldRef owner name descriptor => ConstantPool.fieldRef owner name descriptor
  | methodRef owner name descriptor => ConstantPool.methodRef owner name descriptor

def step (pool : ConstantPool) (operation : Operation) : ConstantPool :=
  (operation.action.run pool).2

def after (operations : List Operation) : ConstantPool := operations.foldl step empty

theorem Adds.run_extends {action : PoolM α} {result : α → ConstantPool → Prop} (adds : Adds action result)
    (pool : ConstantPool) : pool.Extends (action.run pool).2 :=
  ((adds pool).mono (fun _ _ ends => ends.1) fun _ _ grown => grown).reached

theorem step_extends (pool : ConstantPool) (operation : Operation) :
    pool.Extends (pool.step operation) := by
  cases operation with
  | single entry => exact (intern_adds entry).run_extends pool
  | classRef name => exact (classRef_adds name).run_extends pool
  | string text => exact (string_adds text).run_extends pool
  | nameAndType name descriptor => exact (nameAndType_adds name descriptor).run_extends pool
  | fieldRef owner name descriptor => exact (fieldRef_adds owner name descriptor).run_extends pool
  | methodRef owner name descriptor => exact (methodRef_adds owner name descriptor).run_extends pool

theorem step_single_of_new (new : pool.index[entry]? = none) (free : obstacle? pool.slots.size entry = none) :
    pool.step (.single entry) = pool.push entry := by
  simp only [step, Operation.action, intern_run, new, free]

theorem foldl_step_extends (operations : List Operation) (pool : ConstantPool) :
    pool.Extends (operations.foldl step pool) := by
  induction operations generalizing pool with
  | nil => exact .refl pool
  | cons first rest ih => exact (step_extends pool first).trans (ih _)

theorem after_sound (operations : List Operation) : (after operations).Sound :=
  (foldl_step_extends operations empty).sound empty_sound

end ConstantPool

theorem HandlerRow.read_reads (row : HandlerRow) : Reads HandlerRow.read row.encode row := by
  simp only [HandlerRow.encode, List.append_assoc]
  exact (word16_reads _).bind ((word16_reads _).bind ((word16_reads _).bind
    ((word16_reads _).ending (.pure _))))

theorem LineRow.read_reads (row : LineRow) : Reads LineRow.read row.encode row :=
  (word16_reads _).bind ((word16_reads _).ending (.pure _))

/-- A table of lines under its name that has no more rows than can be counted. -/
structure LineTable.Writable (pool : ConstantPool) (table : LineTable) : Prop where
  named : pool.textAt table.nameIndex = .ok ClassFile.lineTableName
  rows : table.rows.length ≤ 65535

/-- Code under its name whose tables can be counted and whose length can be written. -/
structure CodeAttribute.Writable (pool : ConstantPool) (code : CodeAttribute) : Prop where
  named : pool.textAt code.nameIndex = .ok ClassFile.codeName
  length : code.body.length < 4294967296
  handlers : code.handlers.length ≤ 65535
  lines : ∀ table, code.lines = some table → table.Writable pool

namespace CodeAttribute

variable {pool : ConstantPool}

def linesPart (lines : Option LineTable) : List UInt8 :=
  match lines with
  | some table => encode16 1 ++ table.encode
  | none => encode16 0

theorem readLines_reads {lines : Option LineTable}
    (writable : ∀ table, lines = some table → table.Writable pool) :
    Reads (do
      let attributes ← Reader.word16
      readLines pool attributes.toNat none) (linesPart lines) lines := by
  cases lines with
  | none => exact (word16_reads 0).ending (.pure none)
  | some table =>
      obtain ⟨named, rows⟩ := writable table rfl
      have only : Reads (readLines pool 0 (some table)) [] (some table) := .pure _
      refine (word16_reads 1).bind ?_
      rw [LineTable.encode, List.append_assoc]
      refine (word16_reads _).bind (.lookingUp named ?_)
      rw [if_neg (by simp)]
      refine (word32_reads _).bind ?_
      exact (counted_reads (fun row _ => LineRow.read_reads row) rows).ending only

theorem readBody_reads {code : CodeAttribute} (writable : code.Writable pool) :
    Reads (readBody pool code.nameIndex) code.body code := by
  have size : (UInt32.ofNat code.bytes.size).toNat = code.bytes.toList.length := by
    have long : code.bytes.size ≤ code.body.length := by
      simp only [body, List.length_append, Array.length_toList]
      omega
    have bound := writable.length
    rw [UInt32.toNat_ofNat', Array.length_toList]
    omega
  have parts : code.body = encode16 code.maxStack ++ (encode16 code.maxLocals ++
      (encode32 (UInt32.ofNat code.bytes.size) ++ (code.bytes.toList ++
        (encodeCounted HandlerRow.encode code.handlers ++ linesPart code.lines)))) := by
    simp only [body, List.append_assoc]
    rfl
  rw [parts]
  refine (word16_reads _).bind ((word16_reads _).bind ((word32_reads _).bind ?_))
  rw [size]
  refine (bytes_reads _).bind ?_
  refine (counted_reads (fun row _ => HandlerRow.read_reads row) writable.handlers).bind ?_
  rw [← bind_assoc]
  exact (readLines_reads writable.lines).ending (.pure code)

end CodeAttribute

theorem FieldInfo.read_reads (pool : ConstantPool) (field : FieldInfo) :
    Reads (FieldInfo.read pool) field.encode field := by
  simp only [FieldInfo.encode, List.append_assoc]
  refine (word16_reads _).bind ((word16_reads _).bind ((word16_reads _).bind ?_))
  exact (word16_reads 0).ending (.pure field)

namespace MethodInfo

variable {pool : ConstantPool}

theorem readCode_reads {code : CodeAttribute} (writable : code.Writable pool) :
    Reads (readCode pool 1 none) code.encode (some code) := by
  have whole := CodeAttribute.readBody_reads writable []
  rw [List.append_nil] at whole
  have length : (UInt32.ofNat code.body.length).toNat = code.body.length := by
    have bound := writable.length
    rw [UInt32.toNat_ofNat']
    omega
  have only : Reads (readCode pool 0 (some code)) [] (some code) := .pure _
  simp only [CodeAttribute.encode, List.append_assoc]
  refine (word16_reads _).bind (.lookingUp writable.named ?_)
  rw [if_neg (by simp)]
  refine (word32_reads _).bind ?_
  rw [length]
  exact (bytes_reads _).ending (.lookingUp whole only)

theorem read_reads {method : MethodInfo} (writable : ∀ code, method.code = some code → code.Writable pool) :
    Reads (read pool) method.encode method := by
  obtain ⟨access, nameIndex, descriptorIndex, code⟩ := method
  simp only [encode, List.append_assoc]
  refine (word16_reads _).bind ((word16_reads _).bind ((word16_reads _).bind ?_))
  cases code with
  | none => exact (word16_reads 0).ending (.pure _)
  | some code =>
      refine (word16_reads 1).bind ?_
      exact Reads.ending (readCode_reads (writable code rfl)) (.pure _)

end MethodInfo

namespace ClassFile

/-- A class of a version that can be read, whose lists can be counted and whose attributes go by their
names. -/
structure Writable (file : ClassFile) : Prop where
  version : leastMajorVersion ≤ file.majorVersion
  interfaces : file.interfaces.length ≤ 65535
  fields : file.fields.length ≤ 65535
  methods : file.methods.length ≤ 65535
  codes : ∀ method ∈ file.methods, ∀ code, method.code = some code → code.Writable file.pool

theorem Writable.reads {file : ClassFile} (writable : file.Writable)
    (pool : Reads ConstantPool.read file.pool.encode file.pool) : Reads read file.encode file := by
  have supported : ¬ file.majorVersion < leastMajorVersion := UInt16.not_lt.mpr writable.version
  have parts : file.encode = encode32 magic ++ (encode16 file.minorVersion ++
      (encode16 file.majorVersion ++ (file.pool.encode ++ (encode16 file.access ++
        (encode16 file.thisClass ++ (encode16 file.superClass ++
          (encodeCounted encode16 file.interfaces ++ (encodeCounted FieldInfo.encode file.fields ++
            (encodeCounted MethodInfo.encode file.methods ++ encode16 0))))))))) := by
    simp only [encode, List.append_assoc]
  rw [parts]
  refine (word32_reads _).bind ?_
  rw [if_neg (by simp)]
  refine (word16_reads _).bind ((word16_reads _).bind ?_)
  rw [if_neg supported]
  refine pool.bind ?_
  refine (word16_reads _).bind ((word16_reads _).bind ((word16_reads _).bind ?_))
  refine (counted_reads (fun value _ => word16_reads value) writable.interfaces).bind ?_
  refine (counted_reads (fun field _ => FieldInfo.read_reads file.pool field) writable.fields).bind ?_
  refine (counted_reads (fun method member => MethodInfo.read_reads (writable.codes method member))
    writable.methods).bind ?_
  exact (word16_reads 0).ending (.pure file)

theorem read_reads {file : ClassFile} (sound : file.pool.Sound) (writable : file.Writable) :
    Reads read file.encode file :=
  writable.reads (ConstantPool.read_reads sound)

/-- A class is read back as it was written, and what follows it is left. -/
theorem read_encode_append {file : ClassFile} {operations : List ConstantPool.Operation}
    (filled : file.pool = ConstantPool.after operations) (writable : file.Writable)
    (rest : List UInt8) : read.run (file.encode ++ rest) = .ok (file, rest) :=
  read_reads (filled ▸ ConstantPool.after_sound operations) writable rest

def sampleCode : CodeAttribute where
  nameIndex := 1
  maxStack := 1
  maxLocals := 0
  bytes := #[0x00, 0xB1]
  handlers := [⟨0, 1, 1, 0⟩]
  lines := some ⟨2, [⟨0, 10⟩, ⟨1, 20⟩]⟩

def sample : ClassFile where
  minorVersion := 3
  majorVersion := leastMajorVersion
  pool := ConstantPool.after [.single (.utf8 codeName), .single (.utf8 lineTableName),
    .single (.long 1), .methodRef "A" "b" "()V", .single (.utf8 codeName)]
  access := Access.publicBit
  thisClass := 6
  superClass := 6
  interfaces := [6]
  fields := [⟨Access.staticBit, 7, 8⟩]
  methods := [⟨Access.staticBit, 7, 8, none⟩, ⟨Access.publicBit, 7, 8, some sampleCode⟩]

theorem sample_names :
    sample.pool.textAt 1 = .ok codeName ∧ sample.pool.textAt 2 = .ok lineTableName := by
  let named := ConstantPool.empty.push (.utf8 codeName)
  have first : ConstantPool.empty.step (.single (.utf8 codeName)) = named :=
    ConstantPool.step_single_of_new (by simp [ConstantPool.empty]) (by decide +kernel)
  have second : named.step (.single (.utf8 lineTableName)) = named.push (.utf8 lineTableName) := by
    refine ConstantPool.step_single_of_new ?_ (by decide +kernel)
    simp [named, ConstantPool.push, ConstantPool.empty, codeName, lineTableName]
  have grown : (named.push (.utf8 lineTableName)).Extends sample.pool := by
    rw [← second, ← first]
    exact ConstantPool.foldl_step_extends _ _
  have code := ConstantPool.push_lookup ConstantPool.empty (.utf8 codeName) (by decide)
  have lines := ConstantPool.push_lookup named (.utf8 lineTableName) (by decide)
  rw [ConstantPool.textAt_eq_ok_iff, ConstantPool.textAt_eq_ok_iff]
  exact ⟨grown.kept (ConstantPool.push_kept _ _ code), grown.kept lines⟩

theorem sample_writable : sample.Writable := by
  refine ⟨by decide, by decide, by decide, by decide, ?_⟩
  intro method member code isCode
  have isSample : code = sampleCode := by
    simp only [sample, List.mem_cons, List.not_mem_nil, or_false] at member
    rcases member with rfl | rfl
    · cases isCode
    · exact (Option.some.inj isCode).symm
  subst isSample
  refine ⟨sample_names.1, by decide, by decide, ?_⟩
  intro table isTable
  have isLines : table = ⟨2, [⟨0, 10⟩, ⟨1, 20⟩]⟩ := (Option.some.inj isTable).symm
  subst isLines
  exact ⟨sample_names.2, by decide⟩

theorem sample_read_encode : sample.Writable ∧
    read.run (sample.encode ++ [0xCA, 0xFE]) = .ok (sample, [0xCA, 0xFE]) :=
  ⟨sample_writable, read_encode_append rfl sample_writable _⟩

end ClassFile

end BasicCompiler
