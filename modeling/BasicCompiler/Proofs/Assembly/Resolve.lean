import BasicCompiler.Assembly.Buffer
import BasicCompiler.Proofs.Bytecode.Decode
import BasicCompiler.Proofs.Computation

/-!
Assembled code. A buffer holds the fragments that were written to it one after the other, with zeros
where their offsets belong, and finishing it puts the distance to a label into each of these fields. What is
wrong with a buffer can be read off it: its length, or the first field that cannot hold the distance to
its label.
-/

namespace BasicCompiler

open Instruction BigEndian

variable {content before old : List UInt8} {patch : Patch} {buffer : Buffer} {fragments : List Fragment}
  {base : Nat}

namespace Fragment

def render (target : Label → Nat) (position : Nat) : Fragment → List UInt8
  | bytes content => content
  | branch opcode label =>
    opcode :: encode16 (Int16.ofInt ((target label : Int) - position)).toUInt16
  | tableSwitch low labels default =>
    Opcode.tableswitch ::
      switchBytes position (target default) low (Buffer.highKey low labels) (labels.map target)

def blank : List UInt8 := [0, 0, 0, 0]

def raw (position : Nat) : Fragment → List UInt8
  | bytes content => content
  | branch opcode _ => [opcode, 0, 0]
  | tableSwitch low labels _ =>
    Opcode.tableswitch :: (List.replicate (switchPadding position) 0 ++
      (blank ++ (encode32 low.toUInt32 ++ (encode32 (Buffer.highKey low labels).toUInt32 ++
        labels.flatMap fun _ => blank))))

def switchPatches (base : Nat) : Nat → List Label → List Patch
  | _, [] => []
  | field, label :: rest => ⟨field, some base, .wide, label⟩ :: switchPatches base (field + 4) rest

def patches (position : Nat) : Fragment → List Patch
  | bytes _ => []
  | branch _ label => [⟨position + 1, some position, .short, label⟩]
  | tableSwitch _ labels default =>
    ⟨position + 1 + switchPadding position, some position, .wide, default⟩ ::
      switchPatches position (position + 1 + switchPadding position + 12) labels

def labels : Fragment → List Label
  | bytes _ => []
  | branch _ label => [label]
  | tableSwitch _ labels default => default :: labels

theorem blank_length : blank.length = 4 := rfl

theorem blanks_length (labels : List Label) :
    (labels.flatMap fun _ => blank).length = 4 * labels.length := by
  rw [List.length_flatMap, List.map_const', List.sum_replicate_nat, blank_length, Nat.mul_comm]

theorem switchPatches_labels (base field : Nat) (labels : List Label) :
    (switchPatches base field labels).map Patch.label = labels := by
  induction labels generalizing field with
  | nil => rfl
  | cons label rest ih => simp only [switchPatches, List.map_cons, ih]

theorem patches_labels (position : Nat) (fragment : Fragment) :
    (fragment.patches position).map Patch.label = fragment.labels := by
  cases fragment with
  | bytes content => rfl
  | branch opcode label => rfl
  | tableSwitch low labels default =>
      simp only [patches, List.map_cons, switchPatches_labels, Fragment.labels]

theorem switchPatches_base {field : Nat} {labels : List Label}
    (member : patch ∈ switchPatches base field labels) : patch.base = some base := by
  induction labels generalizing field with
  | nil => cases member
  | cons label rest ih =>
      rcases List.mem_cons.mp member with rfl | later
      · rfl
      · exact ih later

theorem patches_base {position : Nat} {fragment : Fragment} (member : patch ∈ fragment.patches position) :
    patch.base = some position := by
  cases fragment with
  | bytes content => cases member
  | branch opcode label => rw [List.mem_singleton.mp member]
  | tableSwitch low labels default =>
      rcases List.mem_cons.mp member with rfl | later
      · rfl
      · exact switchPatches_base later

theorem raw_length (target : Label → Nat) (position : Nat) (fragment : Fragment) :
    (fragment.raw position).length = (fragment.render target position).length := by
  cases fragment with
  | bytes content => rfl
  | branch opcode label => rfl
  | tableSwitch low labels default =>
      simp only [raw, render, List.length_cons, switchBytes_length, List.length_map,
        List.length_append, List.length_replicate, blanks_length, blank_length, encode32_length]
      omega

end Fragment

namespace Buffer

structure Appends (buffer : Buffer) (content : List UInt8) (patches : List Patch) (final : Buffer) :
    Prop where
  bytes : final.bytes.toList = buffer.bytes.toList ++ content
  patches : final.patches.toList = buffer.patches.toList ++ patches
  labels : final.labels = buffer.labels
  method : final.method = buffer.method
  limit : final.limit = buffer.limit

theorem Appends.trans {middle final : Buffer} {content' : List UInt8} {patches patches' : List Patch}
    (before : buffer.Appends content patches middle) (after : middle.Appends content' patches' final) :
    buffer.Appends (content ++ content') (patches ++ patches') final where
  bytes := by rw [after.bytes, before.bytes, List.append_assoc]
  patches := by rw [after.patches, before.patches, List.append_assoc]
  labels := after.labels.trans before.labels
  method := after.method.trans before.method
  limit := after.limit.trans before.limit

theorem Appends.position {final : Buffer} {patches : List Patch}
    (appends : buffer.Appends content patches final) :
    final.position = buffer.position + content.length := by
  have size := congrArg List.length appends.bytes
  simpa [Buffer.position] using size

theorem write_appends (buffer : Buffer) (content : List UInt8) :
    buffer.Appends content [] (buffer.write content) := by
  constructor <;> simp [write]

theorem reserveWide_appends (buffer : Buffer) (base : Nat) (label : Label) :
    buffer.Appends Fragment.blank [⟨buffer.position, some base, .wide, label⟩]
      (buffer.reserveWide base label) := by
  constructor <;> simp [reserveWide, addPatch, write, Fragment.blank]

theorem reserveWideAll_appends (base : Nat) (labels : List Label) (buffer : Buffer) :
    buffer.Appends (labels.flatMap fun _ => Fragment.blank)
      (Fragment.switchPatches base buffer.position labels)
      (labels.foldl (fun current label => current.reserveWide base label) buffer) := by
  induction labels generalizing buffer with
  | nil => constructor <;> simp [Fragment.switchPatches]
  | cons label rest ih =>
      have first := reserveWide_appends buffer base label
      have later := ih (buffer.reserveWide base label)
      rw [first.position] at later
      exact first.trans later

theorem appendSwitch_appends (buffer : Buffer) (low : Int32) (labels : List Label)
    (default : Label) :
    buffer.Appends ((Fragment.tableSwitch low labels default).raw buffer.position)
      ((Fragment.tableSwitch low labels default).patches buffer.position)
      (buffer.appendSwitch low labels default) := by
  let opened := buffer.write [Opcode.tableswitch]
  have opens : buffer.Appends [Opcode.tableswitch] [] opened := write_appends _ _
  have openedAt : opened.position = buffer.position + 1 := opens.position
  have aligns : opened.Appends (List.replicate (switchPadding buffer.position) 0) [] opened.align := by
    rw [switchPadding, ← openedAt]
    exact write_appends _ _
  have alignedAt := aligns.position
  have defaults := reserveWide_appends opened.align buffer.position default
  have keys := write_appends (opened.align.reserveWide buffer.position default)
    (encode32 low.toUInt32 ++ encode32 (highKey low labels).toUInt32)
  have keyedAt := (defaults.trans keys).position
  have fields := reserveWideAll_appends buffer.position labels
    ((opened.align.reserveWide buffer.position default).write
      (encode32 low.toUInt32 ++ encode32 (highKey low labels).toUInt32))
  have whole := opens.trans (aligns.trans ((defaults.trans keys).trans fields))
  simp only [List.length_replicate] at alignedAt
  simp only [Fragment.blank_length, encode32_length, List.length_append] at keyedAt
  rw [keyedAt, alignedAt, openedAt] at whole
  simp only [List.append_assoc, List.nil_append, List.append_nil, List.cons_append] at whole
  exact whole

theorem append_appends (buffer : Buffer) (fragment : Fragment) :
    buffer.Appends (fragment.raw buffer.position) (fragment.patches buffer.position)
      (buffer.append fragment) := by
  cases fragment with
  | bytes content => exact write_appends buffer content
  | branch opcode label =>
      constructor <;>
        simp [append, reserveShort, patchAt, addPatch, write, Fragment.raw, Fragment.patches,
          Buffer.position]
  | tableSwitch low labels default => exact appendSwitch_appends buffer low labels default

end Buffer

def Patch.fault? (method : String) (labels : Std.HashMap Label Nat) (patch : Patch) :
    Option AssemblyError :=
  match labels[patch.label]?, patch.base with
  | none, _ => some (.unresolvedLabel method patch.label)
  | some _, none => some (.branchOutOfRange method patch.label)
  | some target, some base =>
    if (Buffer.encodeOffset? patch.width ((target : Int) - base)).isSome then none
    else some (.branchOutOfRange method patch.label)

namespace Buffer

def fault? (buffer : Buffer) : Option AssemblyError :=
  if buffer.limit < buffer.position then some (.methodTooLarge buffer.method buffer.position)
  else buffer.patches.toList.findSome? (Patch.fault? buffer.method buffer.labels)

def fieldSize : FieldWidth → Nat
  | .short => 2
  | .wide => 4

theorem encodeOffset?_length {width : FieldWidth} {offset : Int}
    (encoded : encodeOffset? width offset = some content) : content.length = fieldSize width := by
  cases width with
  | short =>
      simp only [encodeOffset?] at encoded
      split at encoded
      · cases encoded
        rfl
      · cases encoded
  | wide =>
      cases encoded
      rfl

theorem replaceBytes_middle {bytes : Array UInt8} {after : List UInt8}
    (whole : bytes.toList = before ++ (old ++ after)) (sameLength : old.length = content.length) :
    (replaceBytes bytes before.length content).toList = before ++ (content ++ after) := by
  induction content generalizing bytes before old with
  | nil =>
      rw [List.length_nil, List.length_eq_zero_iff] at sameLength
      rw [replaceBytes, whole, sameLength]
  | cons byte rest ih =>
      cases old with
      | nil => cases sameLength
      | cons first others =>
          have written : (bytes.setIfInBounds before.length byte).toList =
              (before ++ [byte]) ++ (others ++ after) := by
            simp [whole]
          have replaced := ih written (by simpa using sameLength)
          rw [List.length_append] at replaced
          simpa [replaceBytes] using replaced

def targetOf (labels : Std.HashMap Label Nat) (label : Label) : Nat :=
  labels[label]?.getD 0

/-- A field of a finished method holds the distance to its label, and the label is defined. -/
def Filled (labels : Std.HashMap Label Nat) (patch : Patch) (content : List UInt8) : Prop :=
  labels.contains patch.label = true ∧ ∃ base, patch.base = some base ∧
    encodeOffset? patch.width ((targetOf labels patch.label : Int) - base) = some content

def TooFar (labels : Std.HashMap Label Nat) (patch : Patch) : Prop :=
  labels.contains patch.label = true ∧ ∀ base, patch.base = some base →
    32767 < ((targetOf labels patch.label : Int) - base).natAbs

/-- How filling fields in can fail: by a label that is not defined or by a distance that is too
great. -/
def Unfilled (method : String) (labels : Std.HashMap Label Nat) (patches : List Patch)
    (error : AssemblyError) : Prop :=
  ∃ patch ∈ patches,
    (error = .unresolvedLabel method patch.label ∧ labels.contains patch.label = false) ∨
      (error = .branchOutOfRange method patch.label ∧ TooFar labels patch)

theorem encodeOffset?_none {width : FieldWidth} {offset : Int}
    (refused : encodeOffset? width offset = none) : 32767 < offset.natAbs := by
  cases width with
  | short =>
      simp only [encodeOffset?] at refused
      split at refused
      · cases refused
      · omega
  | wide => cases refused

theorem contains_of_getElem? {labels : Std.HashMap Label Nat} {label : Label} {target : Nat}
    (found : labels[label]? = some target) :
    labels.contains label = true ∧ targetOf labels label = target := by
  simp [Std.HashMap.contains_eq_isSome_getElem?, targetOf, found]

theorem filled_of_fault? {method : String} {labels : Std.HashMap Label Nat}
    (sound : patch.fault? method labels = none) : ∃ content, Filled labels patch content := by
  unfold Patch.fault? at sound
  split at sound
  · cases sound
  · cases sound
  · rename_i target base found isBase
    obtain ⟨defined, targetIs⟩ := contains_of_getElem? found
    split at sound
    · rename_i encoded
      obtain ⟨content, isContent⟩ := Option.isSome_iff_exists.mp encoded
      exact ⟨content, defined, base, isBase, by rw [targetIs, isContent]⟩
    · cases sound

theorem unfilled_of_fault? {method : String} {labels : Std.HashMap Label Nat} {error : AssemblyError}
    (fault : patch.fault? method labels = some error) :
    (error = .unresolvedLabel method patch.label ∧ labels.contains patch.label = false) ∨
      (error = .branchOutOfRange method patch.label ∧ TooFar labels patch) := by
  unfold Patch.fault? at fault
  split at fault
  · rename_i missing
    cases fault
    exact .inl ⟨rfl, by simp [Std.HashMap.contains_eq_isSome_getElem?, missing]⟩
  · rename_i found noBase
    cases fault
    exact .inr ⟨rfl, (contains_of_getElem? found).1, by simp [noBase]⟩
  · rename_i target base found isBase
    obtain ⟨defined, targetIs⟩ := contains_of_getElem? found
    split at fault
    · cases fault
    · rename_i refused
      cases fault
      refine .inr ⟨rfl, defined, ?_⟩
      rw [isBase, targetIs]
      rintro _ ⟨⟩
      exact encodeOffset?_none (by simpa using refused)

theorem resolve_ends {method : String} {labels : Std.HashMap Label Nat} {bytes : Array UInt8}
    {after : List UInt8} (whole : bytes.toList = before ++ (old ++ after))
    (placed : patch.position = before.length) (reserved : old.length = fieldSize patch.width)
    (events : Array Event) :
    Ends (resolve method labels patch bytes) events
      (fun patched _ => patch.fault? method labels = none ∧ ∃ content, Filled labels patch content ∧
        patched.toList = before ++ (content ++ after))
      (fun error _ => patch.fault? method labels = some error) := by
  unfold resolve Patch.fault?
  cases targetEq : labels[patch.label]? with
  | none => exact rfl
  | some target =>
      obtain ⟨defined, targetIs⟩ := contains_of_getElem? targetEq
      cases baseEq : patch.base with
      | none => exact rfl
      | some base =>
          dsimp only
          rw [ends_bind, TraceM.report, ends_modify]
          cases encoded : encodeOffset? patch.width ((target : Int) - base) with
          | none => exact rfl
          | some content =>
              have sameLength : old.length = content.length := by
                rw [reserved, encodeOffset?_length encoded]
              have inside : patch.position + content.length ≤ bytes.size := by
                have size := congrArg List.length whole
                simp only [Array.length_toList, List.length_append] at size
                omega
              have overwritten : overwrite? bytes patch.position content =
                  some (replaceBytes bytes patch.position content) := by
                simp only [overwrite?, inside, if_true]
              simp only [overwritten, ends_pure]
              refine ⟨rfl, content, ⟨defined, base, baseEq, ?_⟩, ?_⟩
              · rw [targetIs, encoded]
              · rw [placed]
                exact replaceBytes_middle whole sameLength

theorem resolveAll_append (method : String) (labels : Std.HashMap Label Nat)
    (first second : List Patch) (bytes : Array UInt8) :
    resolveAll method labels (first ++ second) bytes =
      resolveAll method labels first bytes >>= resolveAll method labels second := by
  induction first generalizing bytes with
  | nil => simp [resolveAll]
  | cons patch rest ih => simp [resolveAll, ih]

/-- Filling in the fields of a piece of code that follows `before` gives the finished piece. -/
def Fills (method : String) (labels : Std.HashMap Label Nat) (patches : List Patch)
    (before raw rendered : List UInt8) : Prop :=
  ∀ (bytes : Array UInt8) (after : List UInt8) (events : Array Event),
    bytes.toList = before ++ (raw ++ after) →
      Ends (resolveAll method labels patches bytes) events
        (fun patched _ => patched.toList = before ++ (rendered ++ after) ∧
          patches.findSome? (Patch.fault? method labels) = none)
        (fun error _ => patches.findSome? (Patch.fault? method labels) = some error)

section

variable {method : String} {labels : Std.HashMap Label Nat}

theorem Fills.fixed (before content : List UInt8) : Fills method labels [] before content content :=
  fun _ _ _ whole => ⟨whole, rfl⟩

theorem Fills.append {patches patches' : List Patch} {raw rendered raw' rendered' : List UInt8}
    (fills : Fills method labels patches before raw rendered)
    (fills' : Fills method labels patches' (before ++ rendered) raw' rendered') :
    Fills method labels (patches ++ patches') before (raw ++ raw') (rendered ++ rendered') := by
  intro bytes after events whole
  rw [resolveAll_append, ends_bind]
  rw [List.append_assoc] at whole
  rw [List.findSome?_append]
  refine (fills _ _ events whole).mono ?_ ?_
  · rintro middle events' ⟨middleIs, sound⟩
    rw [← List.append_assoc] at middleIs
    rw [sound, Option.none_or]
    refine (fills' _ _ events' middleIs).imp ?_
    rintro final _ ⟨finalIs, sound'⟩
    exact ⟨by rw [finalIs]; simp only [List.append_assoc], sound'⟩
  · intro error _ fault
    rw [fault, Option.some_or]

theorem Fills.field (placed : patch.position = before.length)
    (reserved : old.length = fieldSize patch.width)
    (written : ∀ {found}, Filled labels patch found → found = content) :
    Fills method labels [patch] before old content := by
  intro bytes after events whole
  rw [resolveAll, ends_bind]
  rw [List.findSome?_cons, List.findSome?_nil]
  refine (resolve_ends whole placed reserved events).mono ?_ ?_
  · rintro patched _ ⟨sound, found, filled, patchedIs⟩
    rw [resolveAll, ends_pure, sound, patchedIs, written filled]
    exact ⟨rfl, rfl⟩
  · intro error _ fault
    rw [fault]

theorem Filled.short {position : Nat} {label : Label}
    (filled : Filled labels ⟨position, some base, .short, label⟩ content) :
    (-32768 ≤ (targetOf labels label : Int) - base ∧ (targetOf labels label : Int) - base ≤ 32767) ∧
      content = encode16 (Int16.ofInt ((targetOf labels label : Int) - base)).toUInt16 := by
  obtain ⟨_, found, sameBase, encoded⟩ := filled
  cases sameBase
  simp only [encodeOffset?] at encoded
  split at encoded
  · rename_i fits
    exact ⟨fits, (Option.some.inj encoded).symm⟩
  · cases encoded

theorem Filled.wide {position : Nat} {label : Label}
    (filled : Filled labels ⟨position, some base, .wide, label⟩ content) :
    content = encode32 (distance base (targetOf labels label)).toUInt32 := by
  obtain ⟨_, found, sameBase, encoded⟩ := filled
  cases sameBase
  exact (Option.some.inj encoded).symm

theorem switchPatches_fills (base : Nat) (before : List UInt8) (targets : List Label) :
    Fills method labels (Fragment.switchPatches base before.length targets) before
      (targets.flatMap fun _ => Fragment.blank)
      ((targets.map (targetOf labels)).flatMap fun target =>
        encode32 (distance base target).toUInt32) := by
  induction targets generalizing before with
  | nil => exact .fixed before []
  | cons label rest ih =>
      have first : Fills method labels [⟨before.length, some base, .wide, label⟩] before
          Fragment.blank (encode32 (distance base (targetOf labels label)).toUInt32) :=
        .field rfl rfl Filled.wide
      have later := ih (before ++ encode32 (distance base (targetOf labels label)).toUInt32)
      rw [List.length_append, encode32_length] at later
      exact first.append later

theorem fragment_fills (fragment : Fragment) (before : List UInt8) :
    Fills method labels (fragment.patches before.length) before (fragment.raw before.length)
      (fragment.render (targetOf labels) before.length) := by
  cases fragment with
  | bytes content => exact .fixed before content
  | branch opcode label =>
      have field : Fills method labels [⟨before.length + 1, some before.length, .short, label⟩]
          (before ++ [opcode]) [0, 0]
          (encode16 (Int16.ofInt ((targetOf labels label : Int) - before.length)).toUInt16) :=
        .field (by simp) rfl fun filled => filled.short.2
      exact (Fills.fixed before [opcode]).append field
  | tableSwitch low targets default =>
      let padding := List.replicate (switchPadding before.length) (0 : UInt8)
      let opened := before ++ [Opcode.tableswitch] ++ padding
      let keyed := opened ++ encode32 (distance before.length (targetOf labels default)).toUInt32 ++
        encode32 low.toUInt32 ++ encode32 (highKey low targets).toUInt32
      have field : Fills method labels
          [⟨before.length + 1 + switchPadding before.length, some before.length, .wide, default⟩]
          opened Fragment.blank
          (encode32 (distance before.length (targetOf labels default)).toUInt32) :=
        .field (by simp [opened, padding]; omega) rfl Filled.wide
      have keyedAt : keyed.length = before.length + 1 + switchPadding before.length + 12 := by
        simp only [keyed, opened, padding, List.length_append, List.length_replicate,
          encode32_length, List.length_cons, List.length_nil]
      have fields : Fills method labels _ keyed _ _ := switchPatches_fills before.length keyed targets
      rw [keyedAt] at fields
      exact (Fills.fixed before [Opcode.tableswitch]).append ((Fills.fixed _ padding).append
        (field.append ((Fills.fixed _ _).append ((Fills.fixed _ _).append fields))))

end

end Buffer

namespace Fragment

def size (position : Nat) (fragment : Fragment) : Nat := (fragment.raw position).length

def stop : Nat → List Fragment → Nat
  | position, [] => position
  | position, first :: rest => stop (position + first.size position) rest

def spread {α : Type} (part : Nat → Fragment → List α) : Nat → List Fragment → List α
  | _, [] => []
  | position, first :: rest =>
    part position first ++ spread part (position + first.size position) rest

theorem spread_append {α : Type} (part : Nat → Fragment → List α) (position : Nat)
    (first second : List Fragment) :
    spread part position (first ++ second) =
      spread part position first ++ spread part (stop position first) second := by
  induction first generalizing position with
  | nil => rfl
  | cons fragment rest ih => simp only [List.cons_append, spread, ih, stop, List.append_assoc]

theorem stop_append (position : Nat) (first second : List Fragment) :
    stop position (first ++ second) = stop (stop position first) second := by
  induction first generalizing position with
  | nil => rfl
  | cons fragment rest ih => exact ih _

theorem spread_stop {part : Nat → Fragment → List UInt8}
    (filling : ∀ position fragment, (part position fragment).length = size position fragment)
    (position : Nat) (fragments : List Fragment) :
    position + (spread part position fragments).length = stop position fragments := by
  induction fragments generalizing position with
  | nil => rfl
  | cons first rest ih =>
      rw [spread, stop, List.length_append, ← ih, filling, Nat.add_assoc]

theorem spread_labels (position : Nat) (fragments : List Fragment) :
    (spread patches position fragments).map Patch.label = fragments.flatMap labels := by
  induction fragments generalizing position with
  | nil => rfl
  | cons first rest ih => rw [spread, List.map_append, ih, patches_labels, List.flatMap_cons]

theorem le_stop (position : Nat) (fragments : List Fragment) : position ≤ stop position fragments := by
  rw [← spread_stop fun _ _ => rfl]
  exact Nat.le_add_right _ _

theorem spread_base {position : Nat} (member : patch ∈ spread patches position fragments) :
    ∃ base, patch.base = some base ∧ position ≤ base ∧ base ≤ stop position fragments := by
  induction fragments generalizing position with
  | nil => cases member
  | cons first rest ih =>
      rcases List.mem_append.mp member with here | later
      · exact ⟨position, patches_base here, Nat.le_refl _, le_stop position (first :: rest)⟩
      · obtain ⟨base, isBase, above, below⟩ := ih later
        exact ⟨base, isBase, Nat.le_trans (Nat.le_add_right _ _) above, below⟩

theorem fragments_fill (method : String) (labels : Std.HashMap Label Nat) (before : List UInt8)
    (fragments : List Fragment) :
    Buffer.Fills method labels (spread patches before.length fragments) before
      (spread raw before.length fragments)
      (spread (render (Buffer.targetOf labels)) before.length fragments) := by
  induction fragments generalizing before with
  | nil => exact .fixed before []
  | cons first rest ih =>
      have fills : Buffer.Fills method labels _ before _ _ := Buffer.fragment_fills first before
      have later := ih (before ++ first.render (Buffer.targetOf labels) before.length)
      rw [List.length_append, ← raw_length] at later
      exact fills.append later

end Fragment

namespace Buffer

structure Written (fragments : List Fragment) (buffer : Buffer) : Prop where
  bytes : buffer.bytes.toList = Fragment.spread Fragment.raw 0 fragments
  patches : buffer.patches.toList = Fragment.spread Fragment.patches 0 fragments

theorem Written.position (written : buffer.Written fragments) :
    buffer.position = Fragment.stop 0 fragments := by
  rw [← Fragment.spread_stop fun _ _ => rfl, ← written.bytes]
  simp [Buffer.position]

theorem Written.append (written : buffer.Written fragments) (fragment : Fragment) :
    (buffer.append fragment).Written (fragments ++ [fragment]) := by
  have appends := append_appends buffer fragment
  rw [written.position] at appends
  constructor
  · rw [appends.bytes, written.bytes, Fragment.spread_append]
    simp [Fragment.spread]
  · rw [appends.patches, written.patches, Fragment.spread_append]
    simp [Fragment.spread]

theorem Written.finish_fault (written : buffer.Written fragments) (events : Array Event) :
    Ends buffer.finish events
      (fun code _ => buffer.fault? = none ∧
        code.toList = Fragment.spread (Fragment.render (targetOf buffer.labels)) 0 fragments)
      (fun error _ => buffer.fault? = some error) := by
  unfold Buffer.finish fault? Buffer.position
  split
  · exact rfl
  · rw [written.patches]
    have fills := Fragment.fragments_fill buffer.method buffer.labels [] fragments
    refine (fills buffer.bytes [] events (by simpa using written.bytes)).imp ?_
    rintro code _ ⟨codeIs, sound⟩
    exact ⟨sound, by simpa using codeIs⟩

theorem Written.finish (written : buffer.Written fragments) (events : Array Event) :
    Ends buffer.finish events
      (fun code _ =>
        code.toList = Fragment.spread (Fragment.render (targetOf buffer.labels)) 0 fragments ∧
        buffer.position ≤ buffer.limit ∧
        ∀ patch ∈ Fragment.spread Fragment.patches 0 fragments,
          ∃ content, Filled buffer.labels patch content)
      (fun error _ =>
        (∃ size, error = .methodTooLarge buffer.method size ∧ buffer.limit < buffer.position) ∨
        Unfilled buffer.method buffer.labels (Fragment.spread Fragment.patches 0 fragments)
          error) := by
  refine (written.finish_fault events).mono ?_ ?_
  · rintro code _ ⟨sound, codeIs⟩
    unfold fault? at sound
    split at sound
    · cases sound
    · rename_i small
      rw [written.patches, List.findSome?_eq_none_iff] at sound
      exact ⟨codeIs, Nat.le_of_not_lt small, fun patch member => filled_of_fault? (sound patch member)⟩
  · intro error _ fault
    unfold fault? at fault
    split at fault
    · rename_i large
      exact .inl ⟨_, (Option.some.inj fault).symm, large⟩
    · rw [written.patches] at fault
      obtain ⟨patch, member, faulty⟩ := List.exists_of_findSome?_eq_some fault
      exact .inr ⟨patch, member, unfilled_of_fault? faulty⟩

end Buffer

end BasicCompiler
