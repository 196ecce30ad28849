import Mathlib.Data.List.Infix
import Mathlib.Data.List.TakeWhile
import BasicCompiler.Number.Numeral

/-!
Numerals as they are written: an optional sign, digits with an optional point, and an optional exponent of
at least one digit. Reading takes the longest of those that a text starts with.
-/

namespace BasicCompiler

inductive WrittenSign where
  | absent
  | plus
  | minus
  deriving DecidableEq, Repr

def WrittenSign.text : WrittenSign → List Char
  | absent => []
  | plus => ['+']
  | minus => ['-']

def WrittenSign.negative : WrittenSign → Bool
  | minus => true
  | _ => false

structure WrittenScale where
  mark : Char
  isMark : mark = 'E' ∨ mark = 'e'
  sign : WrittenSign
  digits : List Char
  run : ∀ digit ∈ digits, digit.isDigit
  nonempty : digits ≠ []

namespace WrittenScale

def text (scale : WrittenScale) : List Char :=
  scale.mark :: (scale.sign.text ++ scale.digits)

def power (scale : WrittenScale) : Int :=
  let size : Int := Numeral.ofDigits (scale.digits.map Numeral.digitValue)
  if scale.sign.negative then -size else size

def cutPower (scale : WrittenScale) : Int :=
  let size : Int := Numeral.exponentValue scale.digits
  if scale.sign.negative then -size else size

end WrittenScale

/-- A numeral: `fraction` are the digits after the point, if there is one. -/
structure WrittenNumeral where
  sign : WrittenSign
  whole : List Char
  fraction : Option (List Char)
  scale : Option WrittenScale
  wholeRun : ∀ digit ∈ whole, digit.isDigit
  fractionRun : ∀ digit ∈ fraction.getD [], digit.isDigit
  nonempty : whole ++ fraction.getD [] ≠ []

namespace WrittenNumeral

def fractionText : Option (List Char) → List Char
  | none => []
  | some digits => '.' :: digits

def scaleText : Option WrittenScale → List Char
  | none => []
  | some scale => scale.text

def text (written : WrittenNumeral) : List Char :=
  written.sign.text ++ (written.whole ++ (fractionText written.fraction ++ scaleText written.scale))

def digits (written : WrittenNumeral) : List Char :=
  written.whole ++ written.fraction.getD []

def scaled (written : WrittenNumeral) (power : WrittenScale → Int) : Numeral :=
  ⟨written.sign.negative, written.digits.map Numeral.digitValue, (written.fraction.getD []).length,
    (written.scale.map power).getD 0⟩

def exact (written : WrittenNumeral) : Numeral := written.scaled WrittenScale.power

def numeral (written : WrittenNumeral) : Numeral := written.scaled WrittenScale.cutPower

end WrittenNumeral

namespace Numeral

variable {whole fraction rest tail left : List Char} {exponent : Int}

theorem takeWhile_digits (run : ∀ digit ∈ whole, digit.isDigit)
    (stops : ∀ mark ∈ rest.head?, mark.isDigit = false) :
    (whole ++ rest).takeWhile Char.isDigit = whole ∧ (whole ++ rest).dropWhile Char.isDigit = rest := by
  rw [List.takeWhile_append_of_pos run, List.dropWhile_append_of_pos run]
  cases rest with
  | nil => simp
  | cons mark rest =>
      have stop := stops mark rfl
      rw [List.takeWhile_cons_of_neg (by simp [stop]), List.dropWhile_cons_of_neg (by simp [stop])]
      simp

theorem readFraction_point (run : ∀ digit ∈ fraction, digit.isDigit) (tail : List Char)
    (stops : ∀ mark ∈ tail.head?, mark.isDigit = false) :
    readFraction ('.' :: (fraction ++ tail)) = (fraction, tail) := by
  obtain ⟨taken, dropped⟩ := takeWhile_digits run stops
  rw [readFraction, taken, dropped]

theorem read?_eq {text : List Char} {negative : Bool} (sign : readSign text = (negative, whole ++ rest))
    (run : ∀ digit ∈ whole, digit.isDigit) (stops : ∀ mark ∈ rest.head?, mark.isDigit = false)
    (point : readFraction rest = (fraction, tail)) (scale : readExponent tail = (exponent, left))
    (some : whole ++ fraction ≠ []) :
    read? text =
      Option.some (⟨negative, (whole ++ fraction).map digitValue, fraction.length, exponent⟩, left) := by
  obtain ⟨taken, dropped⟩ := takeWhile_digits run stops
  unfold read?
  rw [sign]
  dsimp only
  rw [taken, dropped, point]
  dsimp only
  rw [scale, if_neg]
  rw [Bool.and_eq_true, List.isEmpty_iff, List.isEmpty_iff]
  rintro ⟨rfl, rfl⟩
  exact some rfl

theorem readSign_text {sign : WrittenSign} {body : List Char}
    (plain : ∀ first ∈ body.head?, first ≠ '+' ∧ first ≠ '-') :
    readSign (sign.text ++ body) = (sign.negative, body) := by
  cases sign with
  | absent =>
      cases body with
      | nil => rfl
      | cons first others =>
          obtain ⟨notPlus, notMinus⟩ := plain first rfl
          simp [WrittenSign.text, WrittenSign.negative, readSign, notPlus, notMinus]
  | plus => rfl
  | minus => rfl

theorem exists_sign (text : List Char) :
    ∃ sign : WrittenSign, text = sign.text ++ (readSign text).2 ∧
      sign.negative = (readSign text).1 := by
  unfold readSign
  split
  · exact ⟨.plus, rfl, rfl⟩
  · exact ⟨.minus, rfl, rfl⟩
  · exact ⟨.absent, rfl, rfl⟩

theorem isDigit_plain {character : Char} (isDigit : character.isDigit) :
    character ≠ '+' ∧ character ≠ '-' ∧ character ≠ '.' ∧ character ≠ 'E' ∧ character ≠ 'e' := by
  refine ⟨?_, ?_, ?_, ?_, ?_⟩ <;> rintro rfl <;> revert isDigit <;> decide

theorem readExponent_text (scale : WrittenScale) (rest : List Char) :
    readExponent (scale.text ++ rest) =
      (let size : Int := exponentValue (scale.digits ++ rest.takeWhile Char.isDigit)
       if scale.sign.negative then -size else size, rest.dropWhile Char.isDigit) := by
  obtain ⟨mark, isMark, sign, digits, run, some⟩ := scale
  have plain : ∀ first ∈ (digits ++ rest).head?, first ≠ '+' ∧ first ≠ '-' := by
    obtain ⟨first, others, rfl⟩ := List.exists_cons_of_ne_nil some
    rintro _ ⟨⟩
    have all := isDigit_plain (run first List.mem_cons_self)
    exact ⟨all.1, all.2.1⟩
  simp only [WrittenScale.text, List.cons_append, List.append_assoc, readExponent, if_pos isMark,
    readSign_text plain]
  rw [List.takeWhile_append_of_pos run, List.dropWhile_append_of_pos run]
  split
  · rename_i empty
    exact absurd (List.append_eq_nil_iff.mp empty).1 some
  · rfl

theorem exists_scale (text : List Char) :
    ∃ scale : Option WrittenScale, text = WrittenNumeral.scaleText scale ++ (readExponent text).2 ∧
      (scale.map WrittenScale.cutPower).getD 0 = (readExponent text).1 := by
  unfold readExponent
  split
  · exact ⟨none, rfl, rfl⟩
  · rename_i mark rest
    split
    · rename_i isMark
      obtain ⟨sign, split, negative⟩ := exists_sign rest
      rcases found : readSign rest with ⟨flag, tail⟩
      rw [found] at split negative
      dsimp only at split negative ⊢
      split
      · exact ⟨none, rfl, rfl⟩
      · rename_i some
        have run : ∀ digit ∈ tail.takeWhile Char.isDigit, digit.isDigit :=
          fun digit member => List.mem_takeWhile_imp member
        refine ⟨Option.some ⟨mark, isMark, sign, tail.takeWhile Char.isDigit, run, some⟩, ?_, ?_⟩
        · simp [WrittenNumeral.scaleText, WrittenScale.text, split]
        · simp [WrittenScale.cutPower, negative]
    · exact ⟨none, rfl, rfl⟩

theorem exists_fraction (text : List Char) :
    ∃ fraction : Option (List Char),
      text = WrittenNumeral.fractionText fraction ++ (readFraction text).2 ∧
      fraction.getD [] = (readFraction text).1 ∧ ∀ digit ∈ fraction.getD [], digit.isDigit := by
  unfold readFraction
  split
  · rename_i rest
    refine ⟨some (rest.takeWhile Char.isDigit), ?_, rfl, fun digit member => ?_⟩
    · simp [WrittenNumeral.fractionText]
    · exact List.mem_takeWhile_imp member
  · exact ⟨none, rfl, rfl, by simp⟩

theorem exists_written {text rest : List Char} {numeral : Numeral}
    (read : read? text = some (numeral, rest)) :
    ∃ written : WrittenNumeral, text = written.text ++ rest ∧ written.numeral = numeral := by
  obtain ⟨sign, signSplit, negative⟩ := exists_sign text
  rcases foundSign : readSign text with ⟨flag, body⟩
  obtain ⟨fraction, pointSplit, fractionIs, fractionRun⟩ := exists_fraction (body.dropWhile Char.isDigit)
  rcases foundPoint : readFraction (body.dropWhile Char.isDigit) with ⟨digits, tail⟩
  obtain ⟨scale, scaleSplit, power⟩ := exists_scale tail
  rcases foundScale : readExponent tail with ⟨exponent, left⟩
  rw [foundSign] at signSplit negative
  rw [foundPoint] at pointSplit fractionIs
  rw [foundScale] at scaleSplit power
  dsimp only at signSplit negative pointSplit fractionIs scaleSplit power
  subst fractionIs negative power
  simp only [read?, foundSign, foundPoint, foundScale] at read
  split at read
  · cases read
  · rename_i some
    obtain ⟨rfl, rfl⟩ := Prod.mk.inj (Option.some.inj read)
    refine ⟨⟨sign, body.takeWhile Char.isDigit, fraction, scale,
      fun digit member => List.mem_takeWhile_imp member, fractionRun, ?_⟩, ?_, rfl⟩
    · simpa [List.append_eq_nil_iff] using some
    · rw [signSplit]
      conv_lhs => rw [← List.takeWhile_append_dropWhile (p := Char.isDigit) (l := body), pointSplit,
        scaleSplit]
      simp [WrittenNumeral.text]

theorem readExponent_suffix (text : List Char) : (readExponent text).2 <:+ text := by
  obtain ⟨scale, split, -⟩ := exists_scale text
  exact ⟨_, split.symm⟩

theorem readFraction_suffix (text : List Char) : (readFraction text).2 <:+ text := by
  obtain ⟨fraction, split, -⟩ := exists_fraction text
  exact ⟨_, split.symm⟩

theorem isDigit_head_fractionText (digits : List Char) (rest : List Char) :
    ∀ mark ∈ (WrittenNumeral.fractionText (some digits) ++ rest).head?, mark.isDigit = false := by
  rintro _ ⟨⟩
  rfl

theorem isDigit_head_scaleText (scale : WrittenScale) (rest : List Char) :
    ∀ mark ∈ (WrittenNumeral.scaleText (some scale) ++ rest).head?, mark.isDigit = false := by
  rintro _ ⟨⟩
  rcases scale.isMark with isMark | isMark <;> rw [isMark] <;> rfl

theorem readFraction_scaleText (scale : WrittenScale) (rest : List Char) :
    readFraction (WrittenNumeral.scaleText (some scale) ++ rest) =
      ([], WrittenNumeral.scaleText (some scale) ++ rest) := by
  have notPoint : scale.mark ≠ '.' := by
    rcases scale.isMark with isMark | isMark <;> rw [isMark] <;> decide
  simp [WrittenNumeral.scaleText, WrittenScale.text, readFraction, notPoint]

end Numeral

namespace WrittenNumeral

open Numeral

def body (written : WrittenNumeral) : List Char :=
  written.whole ++ (fractionText written.fraction ++ scaleText written.scale)

theorem readSign_text (written : WrittenNumeral) (rest : List Char) :
    readSign (written.text ++ rest) = (written.sign.negative, written.body ++ rest) := by
  rw [text, List.append_assoc]
  refine Numeral.readSign_text ?_
  cases wholeIs : written.whole with
  | cons first others =>
      rintro _ ⟨⟩
      have plain := isDigit_plain (written.wholeRun first (by rw [wholeIs]; exact List.mem_cons_self))
      exact ⟨plain.1, plain.2.1⟩
  | nil =>
      cases fractionIs : written.fraction with
      | none => exact absurd (by rw [wholeIs, fractionIs]; rfl) written.nonempty
      | some digits =>
          rintro _ ⟨⟩
          decide

theorem read?_append (written : WrittenNumeral) (rest : List Char) :
    ∃ numeral left, read? (written.text ++ rest) = some (numeral, left) ∧ left <:+ rest ∧
      (rest = [] → numeral = written.numeral) := by
  have sign := written.readSign_text rest
  obtain ⟨signIs, whole, fraction, scale, run, fractionRun, nonempty⟩ := written
  simp only [body, List.append_assoc] at sign
  cases fraction with
  | some digits =>
      have stops := isDigit_head_fractionText digits (scaleText scale ++ rest)
      cases scale with
      | some exponent =>
          refine ⟨_, _, read?_eq sign run stops
            (readFraction_point fractionRun _ (isDigit_head_scaleText exponent rest))
            (readExponent_text exponent rest) nonempty, List.dropWhile_suffix _, ?_⟩
          rintro rfl
          simp [numeral, scaled, WrittenNumeral.digits, WrittenScale.cutPower]
      | none =>
          have point : readFraction (fractionText (some digits) ++ (scaleText none ++ rest)) =
              (digits ++ rest.takeWhile Char.isDigit, rest.dropWhile Char.isDigit) := by
            have taken : (digits ++ rest).takeWhile Char.isDigit = _ :=
              List.takeWhile_append_of_pos fractionRun
            have dropped : (digits ++ rest).dropWhile Char.isDigit = _ :=
              List.dropWhile_append_of_pos fractionRun
            exact Prod.ext taken dropped
          refine ⟨_, _, read?_eq sign run stops point rfl ?_,
            (readExponent_suffix _).trans (List.dropWhile_suffix _), ?_⟩
          · rw [← List.append_assoc]
            exact List.append_ne_nil_of_left_ne_nil nonempty _
          · rintro rfl
            simp only [List.takeWhile_nil, List.dropWhile_nil, List.append_nil]
            rfl
  | none =>
      cases scale with
      | some exponent =>
          refine ⟨_, _, read?_eq sign run (isDigit_head_scaleText exponent rest)
            (readFraction_scaleText exponent rest) (readExponent_text exponent rest) nonempty,
            List.dropWhile_suffix _, ?_⟩
          rintro rfl
          simp [numeral, scaled, WrittenNumeral.digits, WrittenScale.cutPower]
      | none =>
          -- the digits before the point may go on after the numeral
          have further : whole ++ rest =
              (whole ++ rest.takeWhile Char.isDigit) ++ rest.dropWhile Char.isDigit := by
            rw [List.append_assoc, List.takeWhile_append_dropWhile]
          have run' : ∀ digit ∈ whole ++ rest.takeWhile Char.isDigit, digit.isDigit :=
            List.forall_mem_append.mpr ⟨run, fun digit member => List.mem_takeWhile_imp member⟩
          have stops : ∀ mark ∈ (rest.dropWhile Char.isDigit).head?, mark.isDigit = false := by
            intro mark member
            have head := List.head?_dropWhile_not Char.isDigit rest
            rw [Option.mem_def.mp member] at head
            simpa using head
          refine ⟨_, _, read?_eq (sign.trans (congrArg _ further)) run' stops rfl rfl ?_, ?_, ?_⟩
          · rw [List.append_assoc]
            exact List.append_ne_nil_of_left_ne_nil (by simpa using nonempty) _
          · exact ((readExponent_suffix _).trans (readFraction_suffix _)).trans (List.dropWhile_suffix _)
          · rintro rfl
            simp [numeral, scaled, WrittenNumeral.digits]

theorem read?_text (written : WrittenNumeral) : read? written.text = some (written.numeral, []) := by
  obtain ⟨numeral, left, read, suffix, same⟩ := written.read?_append []
  rw [List.append_nil, same rfl, List.suffix_nil.mp suffix] at read
  exact read

def Longest (written : WrittenNumeral) (text : List Char) : Prop :=
  written.text <+: text ∧ ∀ other : WrittenNumeral, other.text <+: text →
    other.text.length ≤ written.text.length

end WrittenNumeral

namespace Numeral

theorem read?_eq_none_iff {text : List Char} :
    read? text = none ↔ ∀ written : WrittenNumeral, ¬written.text <+: text := by
  constructor
  · rintro failed written ⟨rest, rfl⟩
    obtain ⟨numeral, left, read, -⟩ := written.read?_append rest
    rw [read] at failed
    cases failed
  · intro without
    cases read : read? text with
    | none => rfl
    | some found =>
        obtain ⟨written, split, -⟩ := exists_written read
        exact absurd ⟨_, split.symm⟩ (without written)

theorem longest_of_read? {rest : List Char} {numeral : Numeral} {written : WrittenNumeral}
    (read : read? (written.text ++ rest) = some (numeral, rest)) :
    written.Longest (written.text ++ rest) := by
  refine ⟨List.prefix_append _ _, fun other start => ?_⟩
  obtain ⟨rest', split⟩ := start
  obtain ⟨_, left, readToo, suffix, -⟩ := other.read?_append rest'
  rw [split, read] at readToo
  cases readToo
  have sizes := congrArg List.length split
  have within := suffix.length_le
  simp only [List.length_append] at sizes
  omega

theorem exists_longest {text : List Char} {written : WrittenNumeral} (start : written.text <+: text) :
    ∃ longest : WrittenNumeral, longest.Longest text := by
  cases read : read? text with
  | none => exact absurd start (read?_eq_none_iff.mp read written)
  | some found =>
      obtain ⟨longest, rfl, -⟩ := exists_written read
      exact ⟨longest, longest_of_read? read⟩

/-- Reading takes the longest numeral. -/
theorem read?_longest {text : List Char} {written : WrittenNumeral} (longest : written.Longest text) :
    ∃ rest, text = written.text ++ rest ∧ read? text = some (written.numeral, rest) := by
  obtain ⟨⟨rest, rfl⟩, most⟩ := longest
  obtain ⟨numeral, left, read, suffix, -⟩ := written.read?_append rest
  obtain ⟨other, split, otherIs⟩ := exists_written read
  -- the numeral that is read is as long as the longest one, so it is the longest one
  have notLonger := most other ⟨left, split.symm⟩
  have sizes := congrArg List.length split
  simp only [List.length_append] at sizes
  have same : left = rest := suffix.eq_of_length (le_antisymm suffix.length_le (by omega))
  subst same
  have sameText : written.text = other.text := List.append_cancel_right split
  have again := other.read?_text
  rw [← sameText, written.read?_text] at again
  refine ⟨left, rfl, ?_⟩
  rw [read, ← otherIs, (Prod.mk.inj (Option.some.inj again)).1]

end Numeral

end BasicCompiler
