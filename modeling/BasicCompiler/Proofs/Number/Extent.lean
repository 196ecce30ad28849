import BasicCompiler.Proofs.Number.WrittenNumeral
import BasicCompiler.Proofs.Text.ModifiedUtf8

/-!
Where a numeral is found. Scanning the units of a text, in any encoding that keeps the characters up to
`127` as they are, finds the numeral that is read from its characters, so the part between its ends is
that numeral.
-/

namespace BasicCompiler

namespace Numeral

theorem isDigitCode_toNat (character : Char) : isDigitCode character.toNat = character.isDigit := by
  rw [Bool.eq_iff_iff, Char.isDigit_iff_toNat, isDigitCode, Bool.and_eq_true, decide_eq_true_iff,
    decide_eq_true_iff]
  rfl

theorem toNat_beq (first second : Char) : (first.toNat == second.toNat) = (first == second) := by
  rw [Bool.eq_iff_iff, beq_iff_eq, beq_iff_eq, Char.toNat_inj]

theorem isSignCode_toNat (character : Char) :
    isSignCode character.toNat = (character == '+' || character == '-') := by
  rw [← toNat_beq, ← toNat_beq]
  rfl

theorem isPointCode_toNat (character : Char) : isPointCode character.toNat = (character == '.') := by
  rw [← toNat_beq]
  rfl

theorem isMarkCode_toNat (character : Char) :
    isMarkCode character.toNat = (character == 'E' || character == 'e') := by
  rw [← toNat_beq, ← toNat_beq]
  rfl

theorem digitRun_map (text : List Char) :
    digitRun (text.map Char.toNat) = (text.takeWhile Char.isDigit).length := by
  have same : isDigitCode ∘ Char.toNat = Char.isDigit := funext isDigitCode_toNat
  rw [digitRun, List.takeWhile_map, List.length_map, same]

theorem drop_digitRun (text : List Char) :
    text.drop (digitRun (text.map Char.toNat)) = text.dropWhile Char.isDigit := by
  have dropped : (text.takeWhile Char.isDigit ++ text.dropWhile Char.isDigit).drop _ = _ := List.drop_left
  rwa [List.takeWhile_append_dropWhile, ← digitRun_map] at dropped

theorem readSign_drop (text : List Char) :
    (readSign text).2 = text.drop (signStop (text.map Char.toNat)) := by
  cases text with
  | nil => rfl
  | cons first rest =>
      rw [List.map_cons, signStop, passOne, isSignCode_toNat]
      unfold readSign
      split <;> simp_all

section

variable (codes : List Nat)

theorem passOne_le (kind : Nat → Bool) : passOne kind codes ≤ codes.length := by
  cases codes with
  | nil => exact Nat.zero_le _
  | cons code rest =>
      rw [passOne, List.length_cons]
      split <;> omega

theorem digitRun_le : digitRun codes ≤ codes.length :=
  List.Sublist.length_le (List.takeWhile_sublist _)

theorem add_passOne_le (kind : Nat → Bool) {position : Nat} (within : position ≤ codes.length) :
    position + passOne kind (codes.drop position) ≤ codes.length := by
  have bound := passOne_le (codes.drop position) kind
  rw [List.length_drop] at bound
  omega

theorem add_digitRun_le {position : Nat} (within : position ≤ codes.length) :
    position + digitRun (codes.drop position) ≤ codes.length := by
  have bound := digitRun_le (codes.drop position)
  rw [List.length_drop] at bound
  omega

theorem signStop_le : signStop codes ≤ codes.length := passOne_le codes isSignCode

theorem wholeStop_le : wholeStop codes ≤ codes.length := add_digitRun_le codes (signStop_le codes)

theorem pointStop_le : pointStop codes ≤ codes.length :=
  add_passOne_le codes isPointCode (wholeStop_le codes)

theorem fractionStop_le : fractionStop codes ≤ codes.length := by
  unfold fractionStop
  split
  · exact pointStop_le codes
  · exact add_digitRun_le codes (pointStop_le codes)

theorem exponentSize_le : exponentSize codes ≤ codes.length := by
  unfold exponentSize
  dsimp only
  split
  · exact Nat.zero_le _
  split
  · exact Nat.zero_le _
  · exact add_digitRun_le codes (add_passOne_le codes isSignCode (passOne_le codes isMarkCode))

end

section

variable {code : Nat} {rest codes : List Nat}

theorem isDigitCode_eq_true (low : '0'.toNat ≤ code) (high : code ≤ '9'.toNat) : isDigitCode code = true := by
  simp only [isDigitCode, Bool.and_eq_true, decide_eq_true_eq]
  exact ⟨low, high⟩

theorem isDigitCode_eq_false (other : code < '0'.toNat ∨ '9'.toNat < code) : isDigitCode code = false := by
  change code < 48 ∨ 57 < code at other
  simp only [isDigitCode, Bool.and_eq_false_iff, decide_eq_false_iff_not]
  omega

theorem exponentSize_of_mark (mark : isMarkCode code = true) (rest : List Nat) :
    exponentSize (code :: rest) =
      if digitRun (rest.drop (signStop rest)) = 0 then 0
      else 1 + signStop rest + digitRun (rest.drop (signStop rest)) := by
  simp [exponentSize, passOne, mark, signStop, Nat.add_comm 1]

theorem exponentSize_of_other (other : isMarkCode code = false) : exponentSize (code :: rest) = 0 := by
  simp [exponentSize, passOne, other]

theorem mantissa_whole (other : passOne isPointCode (codes.drop (wholeStop codes)) = 0) :
    fractionStop codes = wholeStop codes ∧
      digitCount codes = digitRun (codes.drop (signStop codes)) := by
  have pointed : pointStop codes = wholeStop codes := by rw [pointStop, other, Nat.add_zero]
  have stops : fractionStop codes = wholeStop codes := by rw [fractionStop, if_pos pointed, pointed]
  refine ⟨stops, ?_⟩
  rw [digitCount, stops, pointed, wholeStop]
  omega

theorem mantissa_pointed (isPoint : passOne isPointCode (codes.drop (wholeStop codes)) = 1) :
    fractionStop codes = wholeStop codes + 1 + digitRun (codes.drop (wholeStop codes + 1)) ∧
      digitCount codes =
        digitRun (codes.drop (signStop codes)) + digitRun (codes.drop (wholeStop codes + 1)) := by
  have pointed : pointStop codes = wholeStop codes + 1 := by rw [pointStop, isPoint]
  have stops : fractionStop codes = wholeStop codes + 1 + digitRun (codes.drop (wholeStop codes + 1)) := by
    rw [fractionStop, if_neg (by omega), pointed]
  refine ⟨stops, ?_⟩
  rw [digitCount, stops, pointed, wholeStop]
  omega

end

theorem readFraction_drop (text : List Char) :
    let codes := text.map Char.toNat
    let body := text.drop (signStop codes)
    let found := readFraction (body.dropWhile Char.isDigit)
    (body.takeWhile Char.isDigit).length = wholeStop codes - signStop codes ∧
      found.1.length = fractionStop codes - pointStop codes ∧ found.2 = text.drop (fractionStop codes) := by
  intro codes body found
  have whole : digitRun (codes.drop (signStop codes)) = (body.takeWhile Char.isDigit).length := by
    rw [← List.map_drop, digitRun_map]
  have rest : body.dropWhile Char.isDigit = text.drop (wholeStop codes) := by
    rw [← drop_digitRun, List.drop_drop, wholeStop, ← List.map_drop]
  refine ⟨by rw [wholeStop, whole]; omega, ?_⟩
  have point : codes.drop (wholeStop codes) = (text.drop (wholeStop codes)).map Char.toNat :=
    List.map_drop.symm
  unfold found fractionStop pointStop
  rw [rest, point]
  cases tailIs : text.drop (wholeStop codes) with
  | nil => simp [readFraction, passOne, tailIs]
  | cons first others =>
      have othersIs : text.drop (wholeStop codes + 1) = others := by
        rw [← List.drop_drop, tailIs, List.drop_succ_cons, List.drop_zero]
      rw [List.map_cons, passOne, isPointCode_toNat]
      by_cases isPoint : first = '.'
      · subst isPoint
        have digits : digitRun (codes.drop (wholeStop codes + 1)) = digitRun (others.map Char.toNat) := by
          rw [← othersIs, List.map_drop]
        simp only [beq_self_eq_true, if_true, readFraction, Nat.succ_ne_self, if_false, digits]
        refine ⟨?_, ?_⟩
        · rw [digitRun_map]
          omega
        · rw [← List.drop_drop, othersIs, drop_digitRun]
      · have other : readFraction (first :: others) = ([], first :: others) := by
          simp [readFraction, isPoint]
        simp [other, isPoint, tailIs]

theorem readExponent_drop (text : List Char) :
    (readExponent text).2 = text.drop (exponentSize (text.map Char.toNat)) := by
  cases text with
  | nil => rfl
  | cons mark rest =>
      unfold exponentSize
      rw [List.map_cons, passOne, isMarkCode_toNat]
      by_cases isMark : mark = 'E' ∨ mark = 'e'
      · have marked : (mark == 'E' || mark == 'e') = true := by simpa using isMark
        have signed := readSign_drop rest
        rcases found : readSign rest with ⟨negative, tail⟩
        rw [found, signStop] at signed
        simp only [marked, if_true, Nat.one_ne_zero, if_false, List.drop_succ_cons, List.drop_zero,
          Nat.add_comm 1, ← List.map_drop, readExponent, if_pos isMark, found]
        dsimp only at signed
        rw [← signed]
        split
        · rename_i none
          rw [digitRun_map, none]
          rfl
        · rename_i some
          have counted : digitRun (tail.map Char.toNat) ≠ 0 := by
            rw [digitRun_map]
            exact fun zero => some (List.length_eq_zero_iff.mp zero)
          rw [if_neg counted, Nat.add_right_comm, List.drop_succ_cons, ← List.drop_drop, ← signed,
            drop_digitRun]
      · have unmarked : (mark == 'E' || mark == 'e') = false := by simpa using isMark
        rw [readExponent, if_neg isMark, unmarked]
        rfl

theorem size?_map (text : List Char) :
    size? (text.map Char.toNat) = (read? text).map fun found => text.length - found.2.length := by
  have signed := readSign_drop text
  have pointed := readFraction_drop text
  have within := fractionStop_le (text.map Char.toNat)
  dsimp only at pointed
  rw [← signed] at pointed
  rcases foundSign : readSign text with ⟨negative, body⟩
  rw [foundSign] at pointed
  rcases foundPoint : readFraction (body.dropWhile Char.isDigit) with ⟨fraction, tail⟩
  rw [foundPoint] at pointed
  obtain ⟨whole, digits, tailIs⟩ := pointed
  dsimp only at whole digits tailIs
  have scaled := readExponent_drop tail
  have scaledWithin := exponentSize_le (tail.map Char.toNat)
  have tailLength := congrArg List.length tailIs
  simp only [List.length_map, List.length_drop] at within scaledWithin tailLength
  simp only [size?, digitCount, read?, foundSign, foundPoint, ← List.map_drop, ← whole, ← digits, ← tailIs]
  by_cases none : (body.takeWhile Char.isDigit).length + fraction.length = 0
  · rw [if_pos none, if_pos]
    · rfl
    · rw [Nat.add_eq_zero_iff, List.length_eq_zero_iff, List.length_eq_zero_iff] at none
      simp [none]
  · rw [if_neg none, if_neg, Option.map_some, scaled, List.length_drop]
    · congr 1
      omega
    · rw [Bool.and_eq_true, List.isEmpty_iff, List.isEmpty_iff]
      rintro ⟨wholeNone, fractionNone⟩
      simp [wholeNone, fractionNone] at none

theorem extent?_le {codes : List Nat} {start stop : Nat} (found : extent? codes = some (start, stop)) :
    stop ≤ codes.length := by
  obtain ⟨size, sized, ends⟩ := Option.map_eq_some_iff.mp found
  obtain ⟨rfl, rfl⟩ := Prod.mk.inj ends
  unfold size? at sized
  split_ifs at sized
  have within : (codes.takeWhile (· == 32)).length ≤ codes.length :=
    (List.takeWhile_sublist _).length_le
  have mantissa := fractionStop_le (codes.drop (codes.takeWhile (· == 32)).length)
  have scaled := exponentSize_le ((codes.drop (codes.takeWhile (· == 32)).length).drop
    (fractionStop (codes.drop (codes.takeWhile (· == 32)).length)))
  rw [← Option.some_inj.mp sized]
  simp only [List.length_drop] at mantissa scaled
  omega

def Foreign (codes : List Nat) : Prop := ∀ code ∈ codes.head?, 128 ≤ code

section

variable {codes : List Nat}

theorem passOne_append {kind : Nat → Bool} (ascii : ∀ code, kind code → code < 128) (before : List Nat)
    (foreign : Foreign codes) : passOne kind (before ++ codes) = passOne kind before := by
  cases before with
  | cons first rest => rfl
  | nil =>
      cases codes with
      | nil => rfl
      | cons code rest =>
          have large := foreign code rfl
          exact if_neg fun isKind => (ascii code isKind).not_ge large

theorem takeWhile_append {kind : Nat → Bool} (ascii : ∀ code, kind code → code < 128) (before : List Nat)
    (foreign : Foreign codes) : (before ++ codes).takeWhile kind = before.takeWhile kind := by
  induction before with
  | nil =>
      cases codes with
      | nil => rfl
      | cons code rest =>
          have large := foreign code rfl
          exact List.takeWhile_cons_of_neg fun isKind => (ascii code isKind).not_ge large
  | cons first rest ih => rw [List.cons_append, List.takeWhile_cons, List.takeWhile_cons, ih]

theorem isDigitCode_ascii (code : Nat) (isDigit : isDigitCode code) : code < 128 := by
  simp only [isDigitCode, Bool.and_eq_true, decide_eq_true_eq] at isDigit
  omega

theorem digitRun_append (before : List Nat) (foreign : Foreign codes) :
    digitRun (before ++ codes) = digitRun before := by
  rw [digitRun, takeWhile_append isDigitCode_ascii before foreign, ← digitRun]

theorem isSignCode_ascii (code : Nat) (isSign : isSignCode code) : code < 128 := by
  simp only [isSignCode, Bool.or_eq_true, beq_iff_eq] at isSign
  omega

theorem isPointCode_ascii (code : Nat) (isPoint : isPointCode code) : code < 128 := by
  simp only [isPointCode, beq_iff_eq] at isPoint
  omega

theorem isMarkCode_ascii (code : Nat) (isMark : isMarkCode code) : code < 128 := by
  simp only [isMarkCode, Bool.or_eq_true, beq_iff_eq] at isMark
  omega

theorem exponentSize_append (before : List Nat) (foreign : Foreign codes) :
    exponentSize (before ++ codes) = exponentSize before := by
  have marked := passOne_le before isMarkCode
  have signed := add_passOne_le before isSignCode marked
  unfold exponentSize
  dsimp only
  rw [passOne_append isMarkCode_ascii before foreign, List.drop_append_of_le_length marked,
    passOne_append isSignCode_ascii _ foreign, List.drop_append_of_le_length signed,
    digitRun_append _ foreign]

theorem size?_append (before : List Nat) (foreign : Foreign codes) :
    size? (before ++ codes) = size? before := by
  have signed : signStop (before ++ codes) = signStop before :=
    passOne_append isSignCode_ascii before foreign
  have whole : wholeStop (before ++ codes) = wholeStop before := by
    rw [wholeStop, signed, List.drop_append_of_le_length (signStop_le before), digitRun_append _ foreign,
      ← wholeStop]
  have pointed : pointStop (before ++ codes) = pointStop before := by
    rw [pointStop, whole, List.drop_append_of_le_length (wholeStop_le before),
      passOne_append isPointCode_ascii _ foreign, ← pointStop]
  have fraction : fractionStop (before ++ codes) = fractionStop before := by
    rw [fractionStop, whole, pointed, List.drop_append_of_le_length (pointStop_le before),
      digitRun_append _ foreign, ← fractionStop]
  rw [size?, digitCount, signed, whole, pointed, fraction,
    List.drop_append_of_le_length (fractionStop_le before), exponentSize_append _ foreign, ← digitCount,
    ← size?]

end

/-- Codes that agree with a text up to the first character beyond `127`. -/
inductive Spelled : List Char → List Nat → Prop
  | nil : Spelled [] []
  | ascii {first : Char} {text : List Char} {codes : List Nat} (small : first.toNat < 128)
      (later : Spelled text codes) : Spelled (first :: text) (first.toNat :: codes)
  | other {first : Char} {text : List Char} {codes : List Nat} (large : 128 ≤ first.toNat)
      (foreign : Foreign codes) : Spelled (first :: text) codes

theorem Spelled.split {text : List Char} {codes : List Nat} (spelled : Spelled text codes) :
    ∃ before rest others, text.map Char.toNat = before ++ rest ∧ codes = before ++ others ∧
      Foreign rest ∧ Foreign others := by
  induction spelled with
  | nil => exact ⟨[], [], [], rfl, rfl, nofun, nofun⟩
  | @ascii first _ _ _ _ ih =>
      obtain ⟨before, rest, others, textIs, codesIs, foreign, foreign'⟩ := ih
      exact ⟨first.toNat :: before, rest, others, by simp [textIs], by simp [codesIs], foreign, foreign'⟩
  | @other first text codes large foreign =>
      refine ⟨[], (first :: text).map Char.toNat, codes, rfl, rfl, ?_, foreign⟩
      rintro _ ⟨⟩
      exact large

theorem extent?_append (before : List Nat) {codes : List Nat} (foreign : Foreign codes) :
    extent? (before ++ codes) = extent? before := by
  have blank : ∀ code : Nat, (code == 32) = true → code < 128 := by simp +contextual
  have within : (before.takeWhile (· == 32)).length ≤ before.length :=
    List.Sublist.length_le (List.takeWhile_sublist _)
  unfold extent?
  dsimp only
  rw [takeWhile_append blank before foreign, List.drop_append_of_le_length within,
    size?_append _ foreign]

theorem extent?_spelled {text : List Char} {codes : List Nat} (spelled : Spelled text codes) :
    extent? codes = extent? (text.map Char.toNat) := by
  obtain ⟨before, rest, others, textIs, codesIs, foreign, foreign'⟩ := spelled.split
  rw [textIs, codesIs, extent?_append before foreign, extent?_append before foreign']

end Numeral

theorem Utf8.spelled (text : List Char) :
    Numeral.Spelled text ((Utf8.encode text).map UInt8.toNat) := by
  induction text with
  | nil => exact .nil
  | cons first rest ih =>
      have encoded : (Utf8.encode (first :: rest)).map UInt8.toNat =
          (String.utf8EncodeChar first).map UInt8.toNat ++ (Utf8.encode rest).map UInt8.toNat := by
        simp [Utf8.encode]
      rw [encoded]
      by_cases small : first.toNat < 128
      · have one : (String.utf8EncodeChar first).map UInt8.toNat = [first.toNat] := by
          have byte : first.val.toNat ≤ 127 := Nat.lt_succ_iff.mp small
          simp only [String.utf8EncodeChar, if_pos byte, List.map_cons, List.map_nil, UInt8.toNat_ofNat']
          rw [Nat.mod_eq_of_lt (by omega)]
          rfl
        rw [one]
        exact .ascii small ih
      · refine .other (not_lt.mp small) ?_
        have large : ¬first.val.toNat ≤ 127 := fun byte => small (Nat.lt_succ_iff.mpr byte)
        unfold String.utf8EncodeChar
        dsimp only
        rw [if_neg large]
        split
        · rintro _ ⟨⟩
          rw [UInt8.toNat_ofNat']
          omega
        split
        · rintro _ ⟨⟩
          rw [UInt8.toNat_ofNat']
          omega
        · rintro _ ⟨⟩
          rw [UInt8.toNat_ofNat']
          omega

theorem Utf16.spelled (text : List Char) :
    Numeral.Spelled text ((Utf16.encode text).map UInt16.toNat) := by
  induction text with
  | nil => exact .nil
  | cons first rest ih =>
      have encoded : (Utf16.encode (first :: rest)).map UInt16.toNat =
          (Utf16.units first).map UInt16.toNat ++ (Utf16.encode rest).map UInt16.toNat := by
        simp [Utf16.encode]
      rw [encoded, Utf16.units]
      dsimp only
      split
      · rename_i basic
        have one : [UInt16.ofNat first.toNat].map UInt16.toNat = [first.toNat] := by
          simp only [List.map_cons, List.map_nil, UInt16.toNat_ofNat']
          rw [Nat.mod_eq_of_lt basic]
        rw [one]
        by_cases small : first.toNat < 128
        · exact .ascii small ih
        · refine .other (not_lt.mp small) ?_
          rintro _ ⟨⟩
          exact not_lt.mp small
      · rename_i supplementary
        have valid := Utf16.toNat_valid first
        refine .other (by omega) ?_
        rintro _ ⟨⟩
        rw [UInt16.toNat_ofNat']
        omega

namespace Utf8

variable {before part rest : List Char}

theorem utf8Size_ascii {character : Char} (small : character.toNat < 128) : character.utf8Size = 1 := by
  have byte : character.val ≤ 127 := UInt32.le_iff_toNat_le.mpr (Nat.lt_succ_iff.mp small)
  exact if_pos byte

theorem splitAfter_ascii (ascii : ∀ character ∈ part, character.toNat < 128) (rest taken : List Char) :
    splitAfter (part ++ rest) part.length taken = some (taken.reverse ++ part, rest) := by
  induction part generalizing taken with
  | nil => simp [splitAfter]
  | cons first others ih =>
      obtain ⟨small, later⟩ := List.forall_mem_cons.mp ascii
      rw [List.cons_append, List.length_cons, splitAfter, utf8Size_ascii small, if_pos (by omega),
        Nat.add_sub_cancel, ih later]
      simp

theorem slice?_ascii (asciiBefore : ∀ character ∈ before, character.toNat < 128)
    (ascii : ∀ character ∈ part, character.toNat < 128) (rest : List Char) :
    slice? (before ++ (part ++ rest)) before.length (before.length + part.length) = some part := by
  unfold slice? split?
  rw [if_neg (by omega), splitAfter_ascii asciiBefore, Nat.add_sub_cancel_left]
  simp [splitAfter_ascii ascii]

end Utf8

namespace Utf16

theorem encode_append (first second : List Char) : encode (first ++ second) = encode first ++ encode second :=
  List.flatMap_append

theorem length_encode {text : List Char} (ascii : ∀ character ∈ text, character.toNat < 128) :
    (encode text).length = text.length := by
  induction text with
  | nil => rfl
  | cons first rest ih =>
      obtain ⟨small, later⟩ := List.forall_mem_cons.mp ascii
      have one : (units first).length = 1 := by
        unfold units
        dsimp only
        rw [if_pos (by omega)]
        rfl
      rw [encode, List.flatMap_cons, List.length_append, one, ← encode, ih later, List.length_cons,
        Nat.add_comm]

end Utf16

theorem WrittenSign.text_ascii (sign : WrittenSign) : ∀ character ∈ sign.text, character.toNat < 128 := by
  cases sign <;> simp [WrittenSign.text]

theorem isDigit_ascii {digit : Char} (isDigit : digit.isDigit) : digit.toNat < 128 := by
  rw [← Numeral.isDigitCode_toNat] at isDigit
  exact Numeral.isDigitCode_ascii _ isDigit

theorem WrittenNumeral.text_ascii (written : WrittenNumeral) :
    ∀ character ∈ written.text, character.toNat < 128 := by
  have fraction : ∀ character ∈ fractionText written.fraction, character.toNat < 128 := by
    have run := written.fractionRun
    cases fractionIs : written.fraction with
    | none => exact List.forall_mem_nil _
    | some digits =>
        rw [fractionIs] at run
        exact List.forall_mem_cons.mpr ⟨by decide, fun digit member => isDigit_ascii (run digit member)⟩
  have scale : ∀ character ∈ scaleText written.scale, character.toNat < 128 := by
    cases written.scale with
    | none => exact List.forall_mem_nil _
    | some scale =>
        have mark : scale.mark.toNat < 128 := by
          rcases scale.isMark with isMark | isMark <;> rw [isMark] <;> decide
        refine List.forall_mem_cons.mpr ⟨mark, List.forall_mem_append.mpr ⟨scale.sign.text_ascii, ?_⟩⟩
        exact fun digit member => isDigit_ascii (scale.run digit member)
  simp only [text, List.forall_mem_append]
  exact ⟨written.sign.text_ascii, fun digit member => isDigit_ascii (written.wholeRun digit member),
    fraction, scale⟩

namespace Single

def scanned (text : String) : List Nat := (Utf8.encode text.toList).map UInt8.toNat

def unblanked (text : String) : List Char := text.toList.dropWhile (· == ' ')

def blanks (text : String) : Nat := (text.toList.takeWhile (· == ' ')).length

theorem takeWhile_blank_ascii (text : List Char) :
    ∀ character ∈ text.takeWhile (· == ' '), character.toNat < 128 := by
  intro character member
  have isBlank := List.mem_takeWhile_imp member
  rw [beq_iff_eq.mp isBlank]
  decide

theorem extent?_scanned (text : String) :
    Numeral.extent? (scanned text) =
      (Numeral.read? (unblanked text)).map fun found =>
        (blanks text, blanks text + ((unblanked text).length - found.2.length)) := by
  have blank : (fun code => code == 32) ∘ Char.toNat = (· == ' ') :=
    funext fun character => Numeral.toNat_beq character ' '
  have skipped : text.toList.drop (blanks text) = unblanked text := by
    have dropped : (text.toList.takeWhile (· == ' ') ++ unblanked text).drop _ = _ := List.drop_left
    rwa [unblanked, List.takeWhile_append_dropWhile] at dropped
  rw [scanned, Numeral.extent?_spelled (Utf8.spelled text.toList), Numeral.extent?, List.takeWhile_map,
    List.length_map, blank, ← blanks, ← List.map_drop, skipped, Numeral.size?_map, Option.map_map]
  rfl

/-- The longest numeral after the blanks is what lies between the ends that are found, and it is read. -/
theorem read_longest {text : String} {written : WrittenNumeral}
    (longest : written.Longest (unblanked text)) :
    Numeral.extent? (scanned text) = some (blanks text, blanks text + written.text.length) ∧
      Utf8.slice? text.toList (blanks text) (blanks text + written.text.length) = some written.text ∧
      parse? written.text = some written.numeral.toSingle ∧
      Single.read text = written.numeral.toSingle := by
  obtain ⟨rest, split, found⟩ := Numeral.read?_longest longest
  have extent : Numeral.extent? (scanned text) =
      some (blanks text, blanks text + written.text.length) := by
    rw [extent?_scanned, found, Option.map_some, split, List.length_append, Nat.add_sub_cancel]
  have slice : Utf8.slice? text.toList (blanks text) (blanks text + written.text.length) =
      some written.text := by
    have whole : text.toList = text.toList.takeWhile (· == ' ') ++ (written.text ++ rest) := by
      rw [← split, unblanked, List.takeWhile_append_dropWhile]
    have sliced := Utf8.slice?_ascii (takeWhile_blank_ascii text.toList) written.text_ascii rest
    rwa [← whole] at sliced
  have parsed : parse? written.text = some written.numeral.toSingle := by
    rw [parse?, written.read?_text]
  refine ⟨extent, slice, parsed, ?_⟩
  unfold Single.read
  rw [← scanned, extent]
  dsimp only
  rw [slice, Option.bind_some, parsed, Option.getD_some]

theorem units_longest {text : String} {written : WrittenNumeral}
    (longest : written.Longest (unblanked text)) :
    ((Utf16.encode text.toList).drop (blanks text)).take written.text.length =
      Utf16.encode written.text := by
  obtain ⟨rest, split, -⟩ := Numeral.read?_longest longest
  have whole : text.toList = text.toList.takeWhile (· == ' ') ++ (written.text ++ rest) := by
    rw [← split, unblanked, List.takeWhile_append_dropWhile]
  have units : Utf16.encode text.toList = Utf16.encode (text.toList.takeWhile (· == ' ')) ++
      (Utf16.encode written.text ++ Utf16.encode rest) := by
    rw [← Utf16.encode_append, ← Utf16.encode_append, ← whole]
  rw [units, blanks, ← Utf16.length_encode (takeWhile_blank_ascii text.toList),
    List.drop_left, ← Utf16.length_encode written.text_ascii,
    List.take_left]

theorem read_none {text : String} (without : ∀ written : WrittenNumeral, ¬written.text <+: unblanked text) :
    Numeral.extent? (scanned text) = none ∧ Single.read text = notANumber := by
  have extent : Numeral.extent? (scanned text) = none := by
    rw [extent?_scanned, Numeral.read?_eq_none_iff.mpr without, Option.map_none]
  refine ⟨extent, ?_⟩
  unfold Single.read
  rw [← scanned, extent]

theorem read_of_read? {text : String} {numeral : Numeral}
    (read : Numeral.read? (unblanked text) = some (numeral, [])) :
    Single.read text = numeral.toSingle := by
  obtain ⟨written, whole, rfl⟩ := Numeral.exists_written read
  rw [List.append_nil] at whole
  have longest : written.Longest (unblanked text) :=
    ⟨whole ▸ List.prefix_rfl, fun other start => whole ▸ start.length_le⟩
  exact (read_longest longest).2.2.2

end Single

end BasicCompiler
