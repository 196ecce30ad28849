import BasicCompiler.Proofs.ClassFile.Normalization
import BasicCompiler.Proofs.Compile.SmallPrograms

/-!
Compiled classes are read back as they were written, unless the table of source lines has more rows than
sixteen bits can count. All other lists of a class are short: the code of a method bounds what depends
on it, and the fields and helpers are a fixed set.
-/

namespace BasicCompiler

variable {options : Options} {program : Program} {file : ClassFile} {lines : LineSet} {body : Body}

variable {α : Type}

/-- The table of lines of some code, if there is one, has no more rows than can be counted. -/
def CodeAttribute.Tabled (lines : Option LineTable) : Prop :=
  ∀ table, lines = some table → table.rows.length ≤ 65535

theorem HandlerRow.encode_length (row : HandlerRow) : row.encode.length = 8 := rfl

theorem LineRow.encode_length (row : LineRow) : row.encode.length = 4 := rfl

theorem encodeCounted_length {encodeItem : α → List UInt8} {size : Nat}
    (sized : ∀ item, (encodeItem item).length = size) (items : List α) :
    (encodeCounted encodeItem items).length = 2 + size * items.length := by
  rw [encodeCounted, List.length_append, List.length_flatMap, BigEndian.encode16_length]
  simp [sized, Nat.mul_comm]

theorem CodeAttribute.body_length_lt {code : CodeAttribute} (size : code.bytes.size ≤ 65535)
    (handlers : code.handlers.length ≤ 65535) (tabled : CodeAttribute.Tabled code.lines) :
    code.body.length < 4294967296 := by
  have rows := encodeCounted_length HandlerRow.encode_length code.handlers
  have lines : (linesPart code.lines).length ≤ 10 + 4 * 65535 := by
    cases isTable : code.lines with
    | none => exact Nat.le_of_ble_eq_true rfl
    | some table =>
        have few := tabled table isTable
        have written := encodeCounted_length LineRow.encode_length table.rows
        simp only [linesPart, LineTable.encode, List.length_append, written, BigEndian.encode16_length,
          BigEndian.encode32_length]
        omega
  have whole : code.body = BigEndian.encode16 code.maxStack ++ BigEndian.encode16 code.maxLocals ++
      BigEndian.encode32 (UInt32.ofNat code.bytes.size) ++ code.bytes.toList ++
      encodeCounted HandlerRow.encode code.handlers ++ linesPart code.lines := rfl
  rw [whole]
  simp only [List.length_append, BigEndian.encode16_length, BigEndian.encode32_length,
    Array.length_toList]
  omega

structure Draft.Countable (draft : Draft) : Prop where
  handlers : draft.handlers.size ≤ 65535
  lines : (Item.sourceLines draft.items.toList).length ≤ 65535

theorem MethodInfo.Completes.writable {pool : ConstantPool} {part : MethodDraft} {method : MethodInfo}
    (completes : method.Completes pool part) (countable : part.draft.Countable) (code : CodeAttribute)
    (isCode : method.code = some code) : code.Writable pool := by
  obtain ⟨unit, ⟨⟨target, instructions, realizes⟩, rows⟩, carries⟩ := completes
  obtain ⟨named, lists⟩ := carries.attributes code isCode
  obtain ⟨_, isCode', _, _, bytes, handlers⟩ := carries.code
  obtain rfl := Option.some.inj (isCode.symm.trans isCode')
  have few : code.handlers.length ≤ 65535 := by
    rw [handlers, ← realizes.handlers.length_eq, Array.length_toList]
    exact countable.handlers
  have tabled (table : LineTable) (isTable : code.lines = some table) : table.Writable pool := by
    rw [isTable] at lists
    exact ⟨lists.1, by rw [lists.2, rows]; exact countable.lines⟩
  have size : code.bytes.size ≤ 65535 := by
    rw [bytes]
    exact realizes.size
  exact ⟨named, CodeAttribute.body_length_lt size few fun table isTable => (tabled table isTable).rows,
    few, tabled⟩

theorem ClassInitializer.draft_countable (data : DataTable) (cells : List Cell) :
    (draft data cells).Countable := by
  have none : Item.sourceLines (draft data cells).items.toList = [] :=
    List.filterMap_eq_nil_iff.mpr fun _ member => (allows_of_mem member).noLine
  refine ⟨?_, by simp [none]⟩
  rw [(draft_grows data cells).handlers]
  exact Nat.zero_le _

theorem Helper.draft_countable (helper : Helper) : helper.draft.Countable := by
  have all : ∀ helper ∈ Helper.all, helper.draft.handlers.size ≤ 65535 ∧
      (Item.sourceLines helper.draft.items.toList).length ≤ 65535 := by decide +kernel
  obtain ⟨handlers, lines⟩ := all helper helper.mem_all
  exact ⟨handlers, lines⟩

namespace Program

theorem Built.marked_length (built : Built options program file lines body) :
    (Item.sourceLines body.draft.items.toList).length =
      if options.lineNumbers then (Stmt.markers program).length else 0 := by
  obtain ⟨through, exit, rest, unknown, contents⟩ := built.contents
  rw [contents.sourceLines_eq, Stmt.marked]
  dsimp only
  split <;> rfl

theorem Built.writable (built : Built options program file lines body)
    (supported : ClassFile.leastMajorVersion ≤ options.majorVersion)
    (few : options.lineNumbers = true → (Stmt.markers program).length ≤ 65535) :
    file.pool.Sound ∧ file.Writable := by
  obtain ⟨library, assembled⟩ := built.assembled
  have distinct := assembled.gains.distinct
  have helpers := distinct.few
  have cells : library.cells.toList.length ≤ Cell.all.length :=
    (List.subperm_of_subset distinct.cells fun cell _ => cell.mem_all).length_le
  have methods := assembled.methods.length_eq
  have fields := assembled.fields.length_eq
  have bounds : Helper.all.length ≤ 65533 ∧ Cell.all.length ≤ 65535 := by decide
  have countable : ∀ part ∈ drafts options (DataTable.scan program) body library,
      part.draft.Countable := by
    refine List.forall_mem_cons.mpr ⟨⟨?_, ?_⟩, List.forall_mem_cons.mpr ⟨?_, ?_⟩⟩
    · obtain ⟨through, exit, rest, unknown, contents⟩ := built.contents
      rw [← Array.length_toList, contents.closes.handlers]
      split <;> simp
    · rw [built.marked_length]
      split
      · exact few ‹_›
      · exact Nat.zero_le _
    · exact ClassInitializer.draft_countable _ _
    · intro part isPart
      obtain ⟨helper, _, rfl⟩ := List.mem_map.mp isPart
      exact helper.draft_countable
  refine ⟨assembled.sound, ?_, ?_, ?_, ?_, ?_⟩
  · rw [assembled.version]
    exact supported
  · rw [assembled.interfaces]
    exact Nat.zero_le _
  · omega
  · simp only [drafts, List.length_cons, List.length_map, Array.length_toList] at methods
    omega
  · intro method isMethod code isCode
    obtain ⟨part, isPart, completes⟩ := exists_of_forall₂ assembled.methods isMethod
    exact completes.writable (countable part isPart) code isCode

theorem Built.rows (built : Built options program file lines body) (marks : options.lineNumbers = true)
    (some : Stmt.markers program ≠ []) :
    ∃ main ∈ file.methods, ∃ code table, main.code = .some code ∧ code.lines = .some table ∧
      table.rows.length = (Stmt.markers program).length := by
  obtain ⟨library, assembled⟩ := built.assembled
  obtain ⟨main, others, isMain, _, methods⟩ := List.forall₂_cons_left_iff.mp assembled.methods
  obtain ⟨unit, ⟨_, rows⟩, carries⟩ := isMain
  obtain ⟨code, isCode, _⟩ := carries.code
  obtain ⟨_, lists⟩ := carries.attributes code isCode
  have length : unit.lines.length = (Stmt.markers program).length := by
    rw [rows, built.marked_length, if_pos marks]
  refine ⟨main, by rw [methods]; exact List.mem_cons_self .., code, ?_⟩
  cases isTable : code.lines with
  | none =>
      rw [isTable] at lists
      have none : unit.lines = [] := lists
      rw [none] at length
      exact absurd (List.length_eq_zero_iff.mp length.symm) some
  | some table =>
      rw [isTable] at lists
      exact ⟨table, isCode, rfl, by rw [lists.2, length]⟩

theorem Built.few_of_reads (built : Built options program file lines body)
    (reads : ClassFile.read.run file.encode = .ok (file, [])) (marks : options.lineNumbers = true) :
    (Stmt.markers program).length ≤ 65535 := by
  by_cases none : Stmt.markers program = []
  · rw [none]
    exact Nat.zero_le _
  · obtain ⟨main, isMain, code, table, isCode, isTable, length⟩ := built.rows marks none
    rw [← length]
    obtain ⟨_, _, writable, _⟩ := ClassFile.read_takes.of_run reads
    exact ((writable.codes main isMain code isCode).lines table isTable).rows

/-- A compiled class is read back as it was written, with no byte left, exactly if the lines that its
program marks can be counted. -/
theorem compile_reads_back (options : Options) (program : Program) (file : ClassFile)
    (compiled : compile options program = .ok file)
    (supported : ClassFile.leastMajorVersion ≤ options.majorVersion) :
    ClassFile.read.run file.encode = .ok (file, []) ↔
      (options.lineNumbers = true → (Stmt.markers program).length ≤ 65535) := by
  obtain ⟨lines, body, built⟩ := built_of_compile compiled
  refine ⟨built.few_of_reads, fun few => ?_⟩
  obtain ⟨sound, writable⟩ := built.writable supported few
  have whole := ClassFile.read_reads sound writable []
  rwa [List.append_nil] at whole

theorem menu_reads_back :
    ∃ file, compile { lineNumbers := true } menu = .ok file ∧
      ClassFile.read.run file.encode = .ok (file, []) := by
  obtain ⟨file, compiled⟩ := menu_compiles true
  exact ⟨file, compiled, (compile_reads_back { lineNumbers := true } menu file compiled (by decide)).mpr
    fun _ => by decide⟩

def ofLines (numbers : List LineNumber) : Program := numbers.map .line

theorem ofLines_inlined (numbers : List LineNumber) :
    Stmt.inlinedAll (ofLines numbers) = ofLines numbers := by
  induction numbers with
  | nil => rfl
  | cons first rest ih => exact congrArg (.line first :: ·) ih

theorem ofLines_markers (numbers : List LineNumber) : Stmt.markers (ofLines numbers) = numbers := by
  rw [Stmt.markers, ofLines_inlined, ofLines, List.filterMap_map]
  exact List.filterMap_some

theorem ofLines_valid {numbers : List LineNumber} (distinct : numbers.Nodup) :
    (ofLines numbers).Valid := by
  have only : ∀ stmt ∈ Stmt.inlinedAll (ofLines numbers), ∃ number, stmt = .line number := by
    rw [ofLines_inlined]
    intro stmt member
    obtain ⟨number, _, rfl⟩ := List.mem_map.mp member
    exact ⟨number, rfl⟩
  refine ⟨by rwa [ofLines_markers], ?_, ?_, ?_, ?_⟩
  · intro stmt member
    obtain ⟨number, rfl⟩ := only stmt member
    exact nofun
  · intro stmt member
    obtain ⟨number, rfl⟩ := only stmt member
    trivial
  · have none : (Stmt.inlinedAll (ofLines numbers)).flatMap Stmt.arrayUses = [] := by
      refine List.flatMap_eq_nil_iff.mpr fun stmt member => ?_
      obtain ⟨number, rfl⟩ := only stmt member
      rfl
    rw [none]
    exact nofun
  · have none : (Stmt.inlinedAll (ofLines numbers)).flatMap Stmt.loopMarks = [] := by
      refine List.flatMap_eq_nil_iff.mpr fun stmt member => ?_
      obtain ⟨number, rfl⟩ := only stmt member
      rfl
    rw [none]
    exact .nil

theorem ofLines_sizes (numbers : List LineNumber) : Stmt.sizes (ofLines numbers) = 0 := by
  induction numbers with
  | nil => rfl
  | cons first rest ih => exact (Nat.zero_add _).trans ih

/-- The table of 65536 lines is written with the count zero. -/
theorem crowded_lines_lost :
    ∃ file, compile { lineNumbers := true } (ofLines ((List.range 65536).map UInt32.ofNat)) = .ok file ∧
      ClassFile.read.run file.encode ≠ .ok (file, []) := by
  have distinct : ((List.range 65536).map UInt32.ofNat).Nodup := by
    refine List.Nodup.map_on ?_ List.nodup_range
    intro first isFirst second isSecond same
    have numbers := congrArg UInt32.toNat same
    rw [List.mem_range] at isFirst isSecond
    rwa [UInt32.toNat_ofNat_of_lt' (by simp only [UInt32.size]; omega),
      UInt32.toNat_ofNat_of_lt' (by simp only [UInt32.size]; omega)] at numbers
  obtain ⟨file, compiled⟩ := compile_succeeds_as_main true (ofLines_valid distinct)
    (by rw [ofLines_sizes]; exact Nat.zero_le _)
  refine ⟨file, compiled, fun reads => ?_⟩
  obtain ⟨lines, body, built⟩ := built_of_compile compiled
  have few := built.few_of_reads reads rfl
  rw [ofLines_markers, List.length_map, List.length_range] at few
  omega

end Program

end BasicCompiler
