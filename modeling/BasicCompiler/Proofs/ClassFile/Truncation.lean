import BasicCompiler.Proofs.ClassFile.Normalization

/-!
Class files that were cut off. What a reader takes or refuses it also takes or refuses with more input
after it. So the part before a cut can only be found too short, wherever in the nested format the cut
falls: the body of some code is read as a whole before anything is looked for in it.
-/

namespace BasicCompiler

namespace ClassFile

/-- Of a class file that was cut off nothing but the cut is found, wherever it falls. -/
theorem read_truncated {file : ClassFile} {operations : List ConstantPool.Operation}
    (filled : file.pool = ConstantPool.after operations) (writable : file.Writable) {front : List UInt8}
    (isFront : front <+: file.encode) (proper : front ≠ file.encode) :
    read.run front = .error .endOfInput := by
  obtain ⟨back, isWhole⟩ := isFront
  have whole := read_reads (filled ▸ ConstantPool.after_sound operations) writable []
  rw [List.append_nil, ← isWhole] at whole
  refine read_takes.run_cut whole ?_
  rintro rfl
  rw [List.append_nil] at isWhole
  exact proper isWhole

/-- The cut falls into the length of the table of lines, which stands in the body of some code. -/
theorem sample_truncated : sample.Writable ∧
    read.run (sample.encode.take (sample.encode.length - 13)) = .error .endOfInput := by
  have long : 0 < sample.encode.length := by
    simp only [encode, List.length_append, BigEndian.encode16_length]
    omega
  refine ⟨sample_writable, read_truncated rfl sample_writable (List.take_prefix _ _) ?_⟩
  intro same
  have length := congrArg List.length same
  rw [List.length_take] at length
  omega

end ClassFile

end BasicCompiler
