import BasicCompiler.Proofs.Compile.SmallPrograms
import BasicCompiler.Proofs.Execution.Blocks
import BasicCompiler.Proofs.Execution.Literals
import BasicCompiler.Proofs.Number.Extent

/-!
How the helper that turns texts into numbers runs. It passes over a text unit by unit, as the scan of a
numeral does, and hands the part between the ends that it found to the platform.
-/

namespace BasicCompiler

namespace NumeralCode

open Process

namespace Scan

def peekItems (scan : Scan) (atEnd : Label) : List Item :=
  [.insn (.access Opcode.iload scan.position), .insn (.access Opcode.iload scan.length),
    .insn (.branch Opcode.ificmpge atEnd), .insn (.access Opcode.aload 0),
    .insn (.access Opcode.iload scan.position), .insn PlatformMethod.charAt.insn,
    .insn (.access Opcode.istore scan.character)]

def testItems (scan : Scan) (opcode : Opcode) (character : Char) (label : Label) : List Item :=
  [.insn (.access Opcode.iload scan.character), .insn (.pushInt (Int32.ofNat character.toNat)),
    .insn (.branch opcode label)]

def digitsLoop (scan : Scan) (next done : Label) : List Item :=
  .label next :: (scan.peekItems done ++ scan.testItems Opcode.ificmplt '0' done ++
    scan.testItems Opcode.ificmpgt '9' done ++
    [.insn (.increment scan.position 1), .insn (.increment scan.digits 1),
      .insn (.branch Opcode.goto next)])

def digitsItems (scan : Scan) (next done : Label) : List Item :=
  scan.digitsLoop next done ++ [.label done]

def signItems (scan : Scan) (take skip atEnd : Label) : List Item :=
  scan.peekItems atEnd ++ scan.testItems Opcode.ificmpeq '+' take ++
    scan.testItems Opcode.ificmpeq '-' take ++
    [.insn (.branch Opcode.goto skip), .label take, .insn (.increment scan.position 1), .label skip]

end Scan

namespace TextToFloat

def scan : Scan := ⟨1, 2, 5, 4⟩

abbrev label (stem : String) (number : Nat) : Label := Label.numbered stem number

def opening : List Insn :=
  [.access Opcode.aload 0, PlatformMethod.textLength.insn, .access Opcode.istore 2, .op Opcode.iconst0,
    .access Opcode.istore 1, .op Opcode.iconst0, .access Opcode.istore 4]

def blanks : List Item :=
  .label (label "blank" 0) :: (scan.peekItems (label "blanks_done" 1) ++
  scan.testItems Opcode.ificmpne ' ' (label "blanks_done" 1) ++
  [.insn (.increment 1 1), .insn (.branch Opcode.goto (label "blank" 0))])

def mantissa : List Item :=
  scan.signItems (label "take" 5) (label "skip" 6) (label "mantissa_done" 2) ++
  scan.digitsItems (label "digit" 7) (label "digits_done" 8) ++
  scan.peekItems (label "mantissa_done" 2) ++
  scan.testItems Opcode.ificmpne '.' (label "mantissa_done" 2) ++
  .insn (.increment 1 1) ::
  scan.digitsItems (label "digit" 9) (label "digits_done" 10)

def check : List Item :=
  [.insn (.access Opcode.iload 4), .insn (.branch Opcode.ifne (label "has_digits" 3)),
    .insn (.pushFloat .notANumber), .insn (.op Opcode.freturn)]

def mark : List Item :=
  [.insn (.access Opcode.iload 1), .insn (.access Opcode.istore 6)] ++
  scan.peekItems (label "convert" 4) ++
  scan.testItems Opcode.ificmpeq 'E' (label "exponent" 11) ++
  scan.testItems Opcode.ificmpne 'e' (label "convert" 4)

def exponent : List Item :=
  .insn (.increment 1 1) ::
  scan.signItems (label "take" 12) (label "skip" 13) (label "convert" 4) ++
  [.insn (.op Opcode.iconst0), .insn (.access Opcode.istore 4)] ++
  scan.digitsItems (label "digit" 14) (label "digits_done" 15) ++
  [.insn (.access Opcode.iload 4), .insn (.branch Opcode.ifeq (label "convert" 4)),
    .insn (.access Opcode.iload 1), .insn (.access Opcode.istore 6)]

def conversion : List Item :=
  [.insn (.access Opcode.aload 0), .insn (.access Opcode.iload 3), .insn (.access Opcode.iload 6),
    .insn PlatformMethod.substring.insn, .insn PlatformMethod.parseFloat.insn,
    .insn (.op Opcode.freturn)]

theorem draft_items : Helper.textToFloat.draft.items.toList =
    opening.map .insn ++ blanks ++ Item.label (label "blanks_done" 1) ::
      [Insn.access Opcode.iload 1, .access Opcode.istore 3].map .insn ++ mantissa ++
      .label (label "mantissa_done" 2) :: check ++ .label (label "has_digits" 3) :: mark ++
      .label (label "exponent" 11) :: exponent ++ .label (label "convert" 4) :: conversion := by
  rfl

variable {course : Course} {heap : Heap} {created : Nat} {rest : List Item}
  {units : List UInt16} {position digits : Nat} {start stop : Option Process.Value}
  {locals : Nat → Option Process.Value}

/-- What a scan holds in its slots, besides the character that it has read last. -/
structure Scanning (units : List UInt16) (position digits : Nat) (start stop : Option Process.Value)
    (locals : Nat → Option Process.Value) : Prop where
  textHeld : locals 0 = some (.text units)
  positionHeld : locals 1 = some (.int (word position))
  lengthHeld : locals 2 = some (.int (word units.length))
  startHeld : locals 3 = start
  digitsHeld : locals 4 = some (.int (word digits))
  stopHeld : locals 6 = stop
  counted : digits ≤ position
  within : position ≤ units.length
  short : units.length < lengthLimit

namespace Scanning

variable (scanning : Scanning units position digits start stop locals)

include scanning

theorem character (value : Option Process.Value) :
    Scanning units position digits start stop (Function.update locals 5 value) :=
  { scanning with }

theorem advance (more : position < units.length) :
    Scanning units (position + 1) digits start stop
      (Function.update locals 1 (some (.int (word (position + 1))))) :=
  { scanning with positionHeld := rfl, counted := Nat.le_succ_of_le scanning.counted, within := more }

theorem count (other : Nat) (counted : other ≤ position) :
    Scanning units position other start stop (Function.update locals 4 (some (.int (word other)))) :=
  { scanning with digitsHeld := rfl, counted }

theorem begin (value : Option Process.Value) :
    Scanning units position digits value stop (Function.update locals 3 value) :=
  { scanning with startHeld := rfl }

theorem keep (value : Option Process.Value) :
    Scanning units position digits start value (Function.update locals 6 value) :=
  { scanning with stopHeld := rfl }

theorem digits_toInt : (word digits).toInt = digits :=
  word_toInt (Nat.lt_of_le_of_lt (Nat.le_trans scanning.counted scanning.within) scanning.short)

end Scanning

open Environment Course

theorem leads_peek {atEnd : Label} (scanning : Scanning units position digits start stop locals)
    (ended : position = units.length → course.Jumps atEnd ⟨[], locals, heap, created⟩)
    (onwards : ∀ unit, units[position]? = some unit → ∀ locals',
      Scanning units position digits start stop locals' → locals' 5 = some (.int (word unit.toNat)) →
      course.Leads rest ⟨[], locals', heap, created⟩) :
    course.Leads (scan.peekItems atEnd ++ rest) ⟨[], locals, heap, created⟩ := by
  have short := scanning.short
  have within := scanning.within
  have position_toInt := word_toInt (Nat.lt_of_le_of_lt within short)
  have position_toNat := word_toNat (Nat.lt_of_le_of_lt within short)
  refine leads_branch [.access Opcode.iload 1, .access Opcode.iload 2]
    [.int (word units.length), .int (word position)]
    (by simp [scanning.positionHeld, scanning.lengthHeld]) rfl ?_ ?_
  · intro behind
    rw [word_toInt short, position_toInt] at behind
    exact ended (by omega)
  · intro before
    rw [word_toInt short, position_toInt] at before
    obtain ⟨unit, found⟩ : ∃ unit, units[position]? = some unit :=
      ⟨_, List.getElem?_eq_getElem (by omega)⟩
    refine leads_block [.access Opcode.aload 0, .access Opcode.iload 1, PlatformMethod.charAt.insn,
        .access Opcode.istore 5]
      ⟨[], Function.update locals 5 (some (.int (word unit.toNat))), heap, created⟩ ?_
      (onwards unit found _ (scanning.character _) rfl)
    simp [scanning.textHeld, scanning.positionHeld, PlatformMethod.call, position_toInt, position_toNat,
      found, Data.result]

theorem leads_test {opcode : Opcode} {test : Int → Int → Bool} (tests : pairTest? opcode = some test)
    {character : Char} {label : Label} {unit : UInt16}
    (isRead : locals 5 = some (.int (word unit.toNat)))
    (jump : test unit.toNat character.toNat = true → course.Jumps label ⟨[], locals, heap, created⟩)
    (fall : test unit.toNat character.toNat = false → course.Leads rest ⟨[], locals, heap, created⟩) :
    course.Leads (scan.testItems opcode character label ++ rest) ⟨[], locals, heap, created⟩ := by
  have unit_toInt : (word unit.toNat).toInt = unit.toNat :=
    word_toInt (Nat.lt_trans unit.toNat_lt (by decide))
  have character_toInt : (word character.toNat).toInt = character.toNat := word_toInt (by
    rcases character.valid with low | ⟨_, high⟩
    · exact Nat.lt_trans low (by decide)
    · exact Nat.lt_trans high (by decide))
  refine leads_branch [.access Opcode.iload 5, .pushInt (word character.toNat)]
    [.int (word character.toNat), .int (word unit.toNat)] (by simp [isRead])
    (decide?_pair tests _ _ _) ?_ ?_
  · rw [unit_toInt, character_toInt]
    exact jump
  · rw [unit_toInt, character_toInt, Bool.not_eq_true]
    exact fall

theorem leads_advance (scanning : Scanning units position digits start stop locals)
    (more : position < units.length)
    (onwards : ∀ locals', Scanning units (position + 1) digits start stop locals' →
      course.Leads rest ⟨[], locals', heap, created⟩) :
    course.Leads (.insn (.increment 1 1) :: rest) ⟨[], locals, heap, created⟩ :=
  leads_block [.increment 1 1]
    ⟨[], Function.update locals 1 (some (.int (word (position + 1)))), heap, created⟩
    (by simp [scanning.positionHeld, word_succ]) (onwards _ (scanning.advance more))

def codes (units : List UInt16) : List Nat := units.map UInt16.toNat

theorem drop_codes {unit : UInt16} (found : units[position]? = some unit) :
    (codes units).drop position = unit.toNat :: (codes units).drop (position + 1) := by
  obtain ⟨within, isUnit⟩ := List.getElem?_eq_some_iff.mp found
  have bound : position < (codes units).length := by simpa [codes] using within
  rw [List.drop_eq_getElem_cons bound]
  simp [codes, isUnit]

theorem drop_end (ended : position = units.length) : (codes units).drop position = [] := by
  simp [codes, ended]

/-- A loop that passes over the units of one kind, and counts an amount for each of them. -/
theorem leads_loop {next done : Label} (kind : Nat → Bool) (amount : Nat) (body : List Item)
    (each : ∀ {position digits locals unit}, Scanning units position digits start stop locals →
      units[position]? = some unit → locals 5 = some (.int (word unit.toNat)) →
      (kind unit.toNat = false → course.Jumps done ⟨[], locals, heap, created⟩) →
      (kind unit.toNat = true → ∀ locals',
        Scanning units (position + 1) (digits + amount) start stop locals' →
        course.Jumps next ⟨[], locals', heap, created⟩) →
      course.Leads (body ++ .label done :: rest) ⟨[], locals, heap, created⟩)
    (scanning : Scanning units position digits start stop locals)
    (onwards : ∀ locals', Scanning units
        (position + (((codes units).drop position).takeWhile kind).length)
        (digits + amount * (((codes units).drop position).takeWhile kind).length) start stop locals' →
      course.Leads rest ⟨[], locals', heap, created⟩) :
    course.Leads (.label next :: (scan.peekItems done ++ (body ++ .label done :: rest)))
      ⟨[], locals, heap, created⟩ := by
  intro here stands
  have atDone : course.environment.StandsAt course.target course.code (course.target done) rest := by
    rw [← List.append_assoc, ← List.cons_append] at stands
    exact stands.behind
  obtain _ | _ | ⟨rfl, atNext⟩ := stands
  -- The loop runs from its first label, with fewer characters left each time.
  induction left : units.length - position generalizing position digits locals with
  | zero =>
      refine leads_peek scanning (fun ended => onwards locals ?_ _ atDone) (fun unit found => ?_) _ atNext
      · rw [drop_end ended]
        exact scanning
      · have more := (List.getElem?_eq_some_iff.mp found).1
        omega
  | succ left ih =>
      refine leads_peek scanning (fun ended => by omega) ?_ _ atNext
      intro unit found locals' scanning' isRead
      rw [drop_codes found] at onwards
      refine each scanning' found isRead (fun other => onwards locals' ?_ _ atDone) ?_
      · rw [List.takeWhile_cons, other]
        exact scanning'
      · intro taken locals'' scanning''
        rw [List.takeWhile_cons, taken, if_pos rfl, List.length_cons, Nat.mul_succ, Nat.add_comm _ 1,
          Nat.add_comm _ amount, ← Nat.add_assoc, ← Nat.add_assoc] at onwards
        exact ih scanning'' onwards (by omega)

theorem leads_digits {next done : Label} (scanning : Scanning units position digits start stop locals)
    (onwards : ∀ locals',
      Scanning units (position + Numeral.digitRun ((codes units).drop position))
        (digits + Numeral.digitRun ((codes units).drop position)) start stop locals' →
      course.Leads rest ⟨[], locals', heap, created⟩) :
    course.Leads (scan.digitsItems next done ++ rest) ⟨[], locals, heap, created⟩ := by
  refine leads_loop Numeral.isDigitCode 1 (scan.testItems Opcode.ificmplt '0' done ++
    (scan.testItems Opcode.ificmpgt '9' done ++
      [Item.insn (.increment 1 1), .insn (.increment 4 1), .insn (.branch Opcode.goto next)])) ?_ scanning ?_
  · intro position digits locals unit scanning found isRead leave again
    refine leads_test rfl isRead (fun below => leave ?_) fun notBelow => ?_
    · simp only [decide_eq_true_eq, Int.ofNat_lt] at below
      exact Numeral.isDigitCode_eq_false (.inl below)
    refine leads_test rfl isRead (fun above => leave ?_) fun notAbove => ?_
    · simp only [decide_eq_true_eq, Int.ofNat_lt] at above
      exact Numeral.isDigitCode_eq_false (.inr above)
    simp only [decide_eq_false_iff_not, Int.ofNat_lt, Nat.not_lt] at notBelow notAbove
    have counted := scanning.counted
    have more := (List.getElem?_eq_some_iff.mp found).1
    refine leads_block [.increment 1 1, .increment 4 1]
      ⟨[], Function.update (Function.update locals 1 (some (.int (word (position + 1))))) 4
        (some (.int (word (digits + 1)))), heap, created⟩
      (by simp [scanning.positionHeld, scanning.digitsHeld, word_succ]) (leads_goto ?_)
    exact again (Numeral.isDigitCode_eq_true notBelow notAbove) _
      ((scanning.advance more).count (digits + 1) (by omega))
  · simp only [Nat.one_mul]
    exact onwards

theorem leads_sign {take skip atEnd : Label} (scanning : Scanning units position digits start stop locals)
    (ended : position = units.length → course.Jumps atEnd ⟨[], locals, heap, created⟩)
    (onwards : ∀ locals',
      Scanning units (position + Numeral.signStop ((codes units).drop position)) digits start stop locals' →
      course.Leads rest ⟨[], locals', heap, created⟩) :
    course.Leads (scan.signItems take skip atEnd ++ rest) ⟨[], locals, heap, created⟩ := by
  intro here stands
  have atTake : course.environment.StandsAt course.target course.code (course.target take)
      ([Item.insn (.increment 1 1)] ++ Item.label skip :: rest) :=
    (show course.environment.StandsAt _ _ here ((scan.peekItems atEnd ++
      scan.testItems Opcode.ificmpeq '+' take ++ scan.testItems Opcode.ificmpeq '-' take ++
      [.insn (.branch Opcode.goto skip)]) ++ .label take :: _) from stands).behind
  refine leads_peek scanning ended ?_ here stands
  intro unit found locals' scanning' isRead
  have more := (List.getElem?_eq_some_iff.mp found).1
  rw [drop_codes found, Numeral.signStop, Numeral.passOne] at onwards
  have taken (sign : Numeral.isSignCode unit.toNat = true) :
      course.Jumps take ⟨[], locals', heap, created⟩ := by
    rw [if_pos sign] at onwards
    refine leads_advance scanning' more (fun locals'' scanning'' => ?_) _ atTake
    exact leads_label (onwards locals'' scanning'')
  refine leads_test rfl isRead (fun isPlus => taken ?_) fun notPlus => ?_
  · simp only [decide_eq_true_eq, Int.natCast_inj] at isPlus
    rw [isPlus]
    rfl
  refine leads_test rfl isRead (fun isMinus => taken ?_) fun notMinus => ?_
  · simp only [decide_eq_true_eq, Int.natCast_inj] at isMinus
    rw [isMinus]
    rfl
  have noSign : ¬ Numeral.isSignCode unit.toNat = true := by
    simp only [decide_eq_false_iff_not, Int.natCast_inj] at notPlus notMinus
    simp only [Numeral.isSignCode, Bool.or_eq_true, beq_iff_eq]
    exact not_or.mpr ⟨notPlus, notMinus⟩
  rw [if_neg noSign] at onwards
  exact leads_goto (onwards locals' scanning' _ atTake.behind)

theorem leads_exponent {unit : UInt16}
    (scanning : Scanning units position digits start (some (.int (word position))) locals)
    (found : units[position]? = some unit) (isMark : Numeral.isMarkCode unit.toNat = true)
    (onwards : ∀ position' digits' locals', Scanning units position' digits' start
        (some (.int (word (position + Numeral.exponentSize ((codes units).drop position))))) locals' →
      course.Leads rest ⟨[], locals', heap, created⟩) :
    course.Leads (exponent ++ .label (label "convert" 4) :: rest) ⟨[], locals, heap, created⟩ := by
  intro here stands
  have more : position < units.length := (List.getElem?_eq_some_iff.mp found).1
  have size := Numeral.exponentSize_of_mark isMark ((codes units).drop (position + 1))
  rw [← drop_codes found, List.drop_drop] at size
  have leave (none : Numeral.exponentSize ((codes units).drop position) = 0)
      {position' digits' : Nat} {locals' : Nat → Option Process.Value}
      (scanning' : Scanning units position' digits' start (some (.int (word position))) locals') :
      course.Jumps (label "convert" 4) ⟨[], locals', heap, created⟩ := by
    rw [none] at onwards
    exact onwards position' digits' locals' scanning' _ stands.behind
  refine leads_advance scanning more (fun locals' scanning => ?_) here stands
  refine leads_sign scanning (fun ended => leave ?_ scanning) fun locals' scanning => ?_
  · rw [size, ← List.drop_drop, drop_end ended]
    rfl
  refine leads_block [.op Opcode.iconst0, .access Opcode.istore 4]
    ⟨[], Function.update locals' 4 (some (.int (word 0))), heap, created⟩ (by simp; rfl) ?_
  refine leads_digits (scanning.count 0 (Nat.zero_le _)) fun locals' scanning => ?_
  rw [Nat.zero_add] at scanning
  generalize Numeral.digitRun _ = run at scanning size
  generalize Numeral.signStop _ = signed at scanning size
  refine leads_branch [.access Opcode.iload 4] [.int (word run)] (by simp [scanning.digitsHeld]) rfl ?_ ?_
  · intro isZero
    rw [scanning.digits_toInt, Int.natCast_eq_zero] at isZero
    exact leave (by rw [size, if_pos isZero]) scanning
  · intro nonzero
    rw [scanning.digits_toInt, Int.natCast_eq_zero] at nonzero
    rw [size, if_neg nonzero, ← Nat.add_assoc, ← Nat.add_assoc] at onwards
    refine leads_block [.access Opcode.iload 1, .access Opcode.istore 6]
      ⟨[], Function.update locals' 6 (some (.int (word (position + 1 + signed + run)))), heap, created⟩
      (by simp [scanning.positionHeld]) (leads_label ?_)
    exact onwards _ _ _ (scanning.keep _)

theorem leads_mark (scanning : Scanning units position digits start stop locals)
    (onwards : ∀ position' digits' locals', Scanning units position' digits' start
        (some (.int (word (position + Numeral.exponentSize ((codes units).drop position))))) locals' →
      course.Leads rest ⟨[], locals', heap, created⟩) :
    course.Leads
      (mark ++ .label (label "exponent" 11) :: (exponent ++ .label (label "convert" 4) :: rest))
      ⟨[], locals, heap, created⟩ := by
  intro here stands
  have atExponent := stands.behind
  have leave (none : Numeral.exponentSize ((codes units).drop position) = 0)
      {locals' : Nat → Option Process.Value}
      (scanning' : Scanning units position digits start (some (.int (word position))) locals') :
      course.Jumps (label "convert" 4) ⟨[], locals', heap, created⟩ := by
    rw [none] at onwards
    exact onwards position digits locals' scanning' _ atExponent.behind
  refine leads_block [.access Opcode.iload 1, .access Opcode.istore 6]
    ⟨[], Function.update locals 6 (some (.int (word position))), heap, created⟩
    (by simp [scanning.positionHeld]) ?_ here stands
  refine leads_peek (scanning.keep _) (fun ended => ?_) ?_
  · exact leave (by rw [drop_end ended]; rfl) (scanning.keep _)
  intro unit found locals' scanning isRead
  refine leads_test rfl isRead (fun isUpper => ?_) fun notUpper => ?_
  · refine leads_exponent scanning found ?_ onwards _ atExponent
    simp only [decide_eq_true_eq, Int.natCast_inj] at isUpper
    rw [isUpper]
    rfl
  refine leads_test rfl isRead (fun notLower => leave ?_ scanning) fun isLower => leads_label ?_
  · rw [drop_codes found]
    refine Numeral.exponentSize_of_other ?_
    simp only [decide_eq_false_iff_not, decide_eq_true_eq, ne_eq, Int.natCast_inj] at notUpper notLower
    simp only [Numeral.isMarkCode, Bool.or_eq_false_iff, beq_eq_false_iff_ne]
    exact ⟨notUpper, notLower⟩
  · refine leads_exponent scanning found ?_ onwards
    simp only [ne_eq, decide_not, Bool.not_eq_false', decide_eq_true_eq, Int.natCast_inj] at isLower
    rw [isLower]
    rfl

theorem leads_mantissa (scanning : Scanning units position 0 start stop locals)
    (onwards : ∀ locals', Scanning units
        (position + Numeral.fractionStop ((codes units).drop position))
        (Numeral.digitCount ((codes units).drop position)) start stop locals' →
      course.Leads rest ⟨[], locals', heap, created⟩) :
    course.Leads (mantissa ++ .label (label "mantissa_done" 2) :: rest) ⟨[], locals, heap, created⟩ := by
  intro here stands
  have atDone := stands.behind
  refine leads_sign scanning (fun ended => ?_) (fun locals' scanning => ?_) here stands
  · rw [drop_end ended] at onwards
    exact onwards locals scanning _ atDone
  refine leads_digits scanning fun locals' scanning => ?_
  rw [Nat.zero_add, Nat.add_assoc, ← List.drop_drop, ← Numeral.wholeStop] at scanning
  have leave (other : Numeral.passOne Numeral.isPointCode
        ((codes units).drop (position + Numeral.wholeStop ((codes units).drop position))) = 0)
      {locals' : Nat → Option Process.Value} (scanning : Scanning units
        (position + Numeral.wholeStop ((codes units).drop position))
        (Numeral.digitRun (((codes units).drop position).drop
          (Numeral.signStop ((codes units).drop position)))) start stop locals') :
      course.Jumps (label "mantissa_done" 2) ⟨[], locals', heap, created⟩ := by
    rw [← List.drop_drop] at other
    obtain ⟨stops, counted⟩ := Numeral.mantissa_whole other
    rw [stops, counted] at onwards
    exact onwards locals' scanning _ atDone
  refine leads_peek scanning (fun ended => ?_) ?_
  · exact leave (by rw [drop_end ended]; rfl) scanning
  intro unit found locals' scanning isRead
  have more := (List.getElem?_eq_some_iff.mp found).1
  refine leads_test rfl isRead (fun notPoint => leave ?_ scanning) fun isPoint => ?_
  · simp only [ne_eq, decide_eq_true_eq, Int.natCast_inj] at notPoint
    rw [drop_codes found]
    exact if_neg (mt beq_iff_eq.mp notPoint)
  simp only [ne_eq, decide_eq_false_iff_not, not_not, Int.natCast_inj] at isPoint
  have pointed : Numeral.passOne Numeral.isPointCode (((codes units).drop position).drop
      (Numeral.wholeStop ((codes units).drop position))) = 1 := by
    rw [List.drop_drop, drop_codes found]
    exact if_pos (beq_iff_eq.mpr isPoint)
  obtain ⟨stops, counted⟩ := Numeral.mantissa_pointed pointed
  rw [stops, counted] at onwards
  refine leads_advance scanning more fun locals' scanning => ?_
  refine leads_digits scanning fun locals' scanning => ?_
  rw [Nat.add_assoc position _ 1, ← List.drop_drop, Nat.add_assoc position] at scanning
  exact leads_label (onwards locals' scanning)

theorem leads_blanks (scanning : Scanning units position digits start stop locals)
    (onwards : ∀ locals',
      Scanning units (position + (((codes units).drop position).takeWhile (· == 32)).length) digits
        start stop locals' →
      course.Leads rest ⟨[], locals', heap, created⟩) :
    course.Leads (blanks ++ .label (label "blanks_done" 1) :: rest) ⟨[], locals, heap, created⟩ := by
  refine leads_loop (· == 32) 0 (scan.testItems Opcode.ificmpne ' ' (label "blanks_done" 1) ++
    [Item.insn (.increment 1 1), .insn (.branch Opcode.goto (label "blank" 0))]) ?_ scanning ?_
  · intro position digits locals unit scanning found isRead leave again
    have more := (List.getElem?_eq_some_iff.mp found).1
    refine leads_test rfl isRead (fun other => leave ?_) fun isBlank => ?_
    · simp only [ne_eq, decide_eq_true_eq, Int.natCast_inj] at other
      exact beq_eq_false_iff_ne.mpr other
    · simp only [ne_eq, decide_eq_false_iff_not, not_not, Int.natCast_inj] at isBlank
      refine leads_advance scanning more fun locals' scanning => leads_goto ?_
      exact again (beq_iff_eq.mpr isBlank) locals' scanning
  · simp only [Nat.zero_mul, Nat.add_zero]
    exact onwards

theorem leads_check (scanning : Scanning units position digits start stop locals)
    (none : digits = 0 → course.Returns (.float .notANumber) ⟨[.float .notANumber], locals, heap, created⟩)
    (onwards : digits ≠ 0 → course.Leads rest ⟨[], locals, heap, created⟩) :
    course.Leads (check ++ .label (label "has_digits" 3) :: rest) ⟨[], locals, heap, created⟩ := by
  intro here stands
  refine leads_branch [.access Opcode.iload 4] [.int (word digits)]
    (by simp [scanning.digitsHeld]) rfl ?_ ?_ here stands
  · intro some
    rw [scanning.digits_toInt, ne_eq, Int.natCast_eq_zero] at some
    exact onwards some _ stands.behind
  · intro zero
    rw [scanning.digits_toInt, ne_eq, Int.natCast_eq_zero, not_not] at zero
    exact leads_return [.pushFloat .notANumber] (.float .notANumber) rfl (by simp) (none zero)

/-- The whole run: without a numeral nothing is converted, and else the part between its ends is. -/
theorem leads_items (isText : locals 0 = some (.text units)) (short : units.length < lengthLimit)
    (without : Numeral.extent? (codes units) = none → ∀ data, course.Returns (.float .notANumber) data)
    (onwards : ∀ start stop, Numeral.extent? (codes units) = some (start, stop) → ∀ locals',
      locals' 0 = some (.text units) → locals' 3 = some (.int (word start)) →
      locals' 6 = some (.int (word stop)) → course.Leads conversion ⟨[], locals', heap, created⟩) :
    course.Leads Helper.textToFloat.draft.items.toList ⟨[], locals, heap, created⟩ := by
  rw [draft_items]
  refine leads_block opening
    ⟨[], Function.update (Function.update (Function.update locals 2 (some (.int (word units.length))))
      1 (some (.int 0))) 4 (some (.int 0)), heap, created⟩ ?_ ?_
  · simp [opening, isText, PlatformMethod.call, Data.result]
  have scanning : Scanning units 0 0 (locals 3) (locals 6)
      (Function.update (Function.update (Function.update locals 2 (some (.int (word units.length))))
        1 (some (.int 0))) 4 (some (.int 0))) :=
    ⟨isText, rfl, rfl, rfl, rfl, rfl, Nat.le_refl 0, Nat.zero_le _, short⟩
  refine leads_blanks scanning fun locals' scanning => ?_
  rw [Nat.zero_add, List.drop_zero] at scanning
  unfold Numeral.extent? Numeral.size? at without onwards
  dsimp only at without onwards
  generalize ((codes units).takeWhile (· == 32)).length = start at scanning without onwards
  refine leads_block [.access Opcode.iload 1, .access Opcode.istore 3]
    ⟨[], Function.update locals' 3 (some (.int (word start))), heap, created⟩
    (by simp [scanning.positionHeld]) ?_
  refine leads_mantissa (scanning.begin _) fun locals' scanning => ?_
  refine leads_check scanning (fun zero => without ?_ _) fun digits => ?_
  · rw [if_pos zero, Option.map_none]
  rw [if_neg digits, Option.map_some] at onwards
  refine leads_mark scanning fun _ _ locals' scanning => ?_
  refine onwards _ _ rfl locals' scanning.textHeld scanning.startHeld ?_
  rw [scanning.stopHeld, List.drop_drop, Nat.add_assoc]

theorem leads_part {start stop : Nat} (isText : locals 0 = some (.text units))
    (short : units.length < lengthLimit) (isStart : locals 3 = some (.int (word start)))
    (isStop : locals 6 = some (.int (word stop))) (ordered : start ≤ stop) (within : stop ≤ units.length)
    (onwards : course.Leads [.insn PlatformMethod.parseFloat.insn, .insn (.op Opcode.freturn)]
      ⟨[.text ((units.drop start).take (stop - start))], locals, heap, created⟩) :
    course.Leads conversion ⟨[], locals, heap, created⟩ := by
  have start_toInt : (word start).toInt = start := word_toInt (by omega)
  have stop_toInt : (word stop).toInt = stop := word_toInt (by omega)
  have start_toNat : (word start).toNatClampNeg = start := word_toNat (by omega)
  have stop_toNat : (word stop).toNatClampNeg = stop := word_toNat (by omega)
  refine leads_block [.access Opcode.aload 0, .access Opcode.iload 3, .access Opcode.iload 6,
      PlatformMethod.substring.insn]
    ⟨[.text ((units.drop start).take (stop - start))], locals, heap, created⟩ ?_ onwards
  simp [isText, isStart, isStop, PlatformMethod.call, PlatformMethod.part, start_toInt, stop_toInt,
    start_toNat, stop_toNat, ordered, within, Data.result]

section

variable {environment : Environment} {target : Label → Nat} {goal : State → Prop} {unit : MethodUnit}
  {text : String}

theorem extent?_units (text : String) :
    Numeral.extent? (codes (Utf16.encode text.toList)) = Numeral.extent? (Single.scanned text) := by
  rw [codes, Numeral.extent?_spelled (Utf16.spelled text.toList), Single.scanned,
    Numeral.extent?_spelled (Utf8.spelled text.toList)]

theorem runs_without (without : ∀ written : WrittenNumeral, ¬written.text <+: Single.unblanked text)
    (short : (Utf16.encode text.toList).length < lengthLimit)
    (stands : environment.StandsAt target unit.code 0 Helper.textToFloat.draft.items.toList) :
    environment.Runs (· = .returned (.float .notANumber))
      (.entry unit [.text (Utf16.encode text.toList)] heap created []) := by
  have extent := (extent?_units text).trans (Single.read_none without).1
  exact runs_of_leads stands (leads_items rfl short (fun _ _ => .here rfl) (by simp [extent]))

theorem runs_longest {written : WrittenNumeral} (longest : written.Longest (Single.unblanked text))
    (short : (Utf16.encode text.toList).length < lengthLimit)
    (stands : environment.StandsAt target unit.code 0 Helper.textToFloat.draft.items.toList)
    (onwards : ∀ locals, Course.Leads ⟨environment, target, unit.code, [], goal⟩
      [.insn PlatformMethod.parseFloat.insn, .insn (.op Opcode.freturn)]
      ⟨[.text (Utf16.encode written.text)], locals, heap, created⟩) :
    environment.Runs goal (.entry unit [.text (Utf16.encode text.toList)] heap created []) := by
  have extent := (extent?_units text).trans (Single.read_longest longest).1
  refine runs_of_leads stands (leads_items rfl short (by simp [extent]) ?_)
  intro start stop found locals' isText isStart isStop
  have within := Numeral.extent?_le found
  rw [extent] at found
  obtain ⟨rfl, rfl⟩ := Prod.mk.inj (Option.some_inj.mp found)
  refine leads_part isText short isStart isStop (Nat.le_add_right _ _) ?_ ?_
  · simpa [codes] using within
  · rw [Nat.add_sub_cancel_left, Single.units_longest longest]
    exact onwards locals'

end

end TextToFloat

end NumeralCode

namespace Process

def Environment.Parses (environment : Environment) (units : List UInt16) (state : State) : Prop :=
  ∃ code position data callers next, state = .running code position data callers ∧
    Operation.fetch environment.pool code position = some
      (.invoke PlatformMethod.parseFloat.reference.1 PlatformMethod.parseFloat.reference.2, next) ∧
    data.stack = [.text units]

/-- Wherever a character is chosen from a text after a state, it has one at that position. -/
def Environment.ChoosesWithin (environment : Environment) (state : State) : Prop :=
  ∀ code position data callers next, environment.Reaches state (.running code position data callers) →
    Operation.fetch environment.pool code position = some
      (.invoke PlatformMethod.charAt.reference.1 PlatformMethod.charAt.reference.2, next) →
    ∃ index units rest, data.stack = .int index :: .text units :: rest ∧ 0 ≤ index.toInt ∧
      index.toInt < units.length

theorem PlatformMethod.charAt_within {parse : List UInt16 → Option Single} {data final : Data}
    (called : charAt.call parse data = some final) :
    ∃ index units rest, data.stack = .int index :: .text units :: rest ∧ 0 ≤ index.toInt ∧
      index.toInt < units.length := by
  simp only [call] at called
  split at called
  · rename_i index units rest stack
    split_ifs at called with positive
    obtain ⟨unit, found, _⟩ := Option.map_eq_some_iff.mp called
    have within := (List.getElem?_eq_some_iff.mp found).1
    rw [← Int32.toNat_toInt] at within
    exact ⟨index, units, rest, stack, positive, by omega⟩
  · cases called

theorem Environment.Runs.choosesWithin {environment : Environment} {state : State} {value : Process.Value}
    (runs : environment.Runs (· = .returned value) state) : environment.ChoosesWithin state := by
  intro code position data callers next reached fetched
  obtain isValue | ⟨after, steps⟩ := runs.progress reached
  · cases isValue
  · simp only [Environment.step, fetched, Option.bind_eq_bind, Option.bind_some, execute, invoke,
      PlatformMethod.find?_reference] at steps
    cases called : PlatformMethod.charAt.call environment.parse data with
    | none => simp [called] at steps
    | some final => exact PlatformMethod.charAt_within called

end Process

open Process NumeralCode

/-- The text of a numeral is read as the platform reads it. -/
theorem Helper.textToFloat_reads (owner : String) (build : Build) (reachable : build.pool.Reachable)
    (heap : Heap) (created : Nat) (text : String)
    (short : (Utf16.encode text.toList).length < lengthLimit) :
    Ends (textToFloat.draft.finish (textToFloat.header owner)) build
      (fun unit final => ∀ environment : Environment,
        environment.owner = owner → final.pool.Extends environment.pool →
        let entry := State.entry unit [.text (Utf16.encode text.toList)] heap created []
        (Numeral.extent? (Single.scanned text) = none → Single.read text = .notANumber ∧
          environment.Runs (· = .returned (.float .notANumber)) entry) ∧
        (∀ start stop, Numeral.extent? (Single.scanned text) = some (start, stop) →
          ∃ part, Utf8.slice? text.toList start stop = some part ∧
            Single.read text = (Single.parse? part).getD .notANumber ∧
            environment.Runs (environment.Parses (Utf16.encode part)) entry ∧
            ∀ value, environment.parse (Utf16.encode part) = some value →
              environment.Runs (· = .returned (.float value)) entry) ∧
        ((∀ written : WrittenNumeral,
            environment.parse (Utf16.encode written.text) = Single.parse? written.text) →
          environment.Runs (· = .returned (.float (Single.read text))) entry ∧
            environment.ChoosesWithin entry))
      (fun error _ => ∃ limit, error = .classFile limit) := by
  refine (textToFloat.draft.finish_ends (textToFloat.header owner) reachable.indexed
    textToFloat.draft_shaped).mono ?_ (fun _ _ refused => textToFloat.draft_fit.1.limited refused)
  rintro unit final ⟨_, target, instructions, spells⟩ environment rfl grown
  have stands : environment.StandsAt target unit.code 0 textToFloat.draft.items.toList :=
    (spells.mono grown).stands textToFloat.draft_shaped
  intro entry
  by_cases without : ∀ written : WrittenNumeral, ¬written.text <+: Single.unblanked text
  · obtain ⟨noExtent, isNaN⟩ := Single.read_none without
    have runs : environment.Runs (· = .returned (.float .notANumber)) entry :=
      TextToFloat.runs_without without short stands
    refine ⟨fun _ => ⟨isNaN, runs⟩, fun start stop found => ?_, fun _ => ⟨isNaN ▸ runs, runs.choosesWithin⟩⟩
    rw [noExtent] at found
    cases found
  · simp only [not_forall, not_not] at without
    obtain ⟨_, start⟩ := without
    obtain ⟨written, longest⟩ := Numeral.exists_longest start
    obtain ⟨extent, sliced, parsed, isRead⟩ := Single.read_longest longest
    have converts (value : Single) (converted : environment.parse (Utf16.encode written.text) = some value) :
        environment.Runs (· = .returned (.float value)) entry := by
      refine TextToFloat.runs_longest longest short stands fun locals => ?_
      refine Course.leads_return [PlatformMethod.parseFloat.insn] (.float value) rfl ?_ (.here rfl)
      simp [PlatformMethod.call, converted, Data.result]
    refine ⟨fun none => ?_, fun start stop found => ?_, fun agrees => ?_⟩
    · rw [extent] at none
      cases none
    · rw [extent] at found
      obtain ⟨rfl, rfl⟩ := Prod.mk.inj (Option.some_inj.mp found)
      refine ⟨written.text, sliced, by rw [parsed, isRead, Option.getD_some], ?_, converts⟩
      refine TextToFloat.runs_longest longest short stands fun locals next later => ?_
      obtain _ | ⟨⟨after, fetched, _⟩, _⟩ := later
      exact .here ⟨_, _, _, _, after, rfl, fetched, rfl⟩
    · have runs := converts (Single.read text) (by rw [agrees, parsed, isRead])
      exact ⟨runs, runs.choosesWithin⟩

/-- A numeral between blanks and other characters is read, in a class that has no other method. -/
theorem Helper.textToFloat_reads_numeral :
    (Utf16.encode "  -12.5E+1X".toList).length < lengthLimit ∧
      Ends (textToFloat.draft.finish (textToFloat.header "Main")) .empty
        (fun unit final => Environment.Runs
          ⟨"Main", final.pool, [unit], fun units => (Utf16.decode? units).bind Single.parse?⟩
          (· = .returned (.float ⟨0xC2FA0000⟩))
          (.entry unit [.text (Utf16.encode "  -12.5E+1X".toList)] .empty 0 []))
        (fun _ _ => False) := by
  have short : (Utf16.encode "  -12.5E+1X".toList).length < lengthLimit := by decide
  refine ⟨short, ?_⟩
  have named : ConstantPool.Brief "Main" := ClassFile.brief_of_fixed (by simp [ClassFile.fixedNames])
  refine ((textToFloat.finish_empty named).and
    (textToFloat_reads "Main" .empty .start .empty 0 "  -12.5E+1X" short)).mono ?_ (fun _ _ failed => failed.1)
  rintro unit final ⟨_, reads⟩
  have agrees (written : WrittenNumeral) :
      (Utf16.decode? (Utf16.encode written.text)).bind Single.parse? = Single.parse? written.text := by
    rw [Utf16.decode?_encode, Option.bind_some]
  have value : Single.read "  -12.5E+1X" = ⟨0xC2FA0000⟩ := by decide +kernel
  have runs := ((reads ⟨"Main", final.pool, [unit],
    fun units => (Utf16.decode? units).bind Single.parse?⟩ rfl (.refl _)).2.2 agrees).1
  rwa [value] at runs

end BasicCompiler
