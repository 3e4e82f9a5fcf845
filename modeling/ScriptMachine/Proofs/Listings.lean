import ScriptMachine.Listing
import ScriptMachine.Proofs.LittleEndian
import ScriptMachine.Proofs.Stepping

/-!
# The structure of listings

The lines of a listing are well formed, follow each other without gaps, and their encodings make up
the code (`listing_of_disassembleFrom`). So at the offset of every line the code holds its word, then
its immediate, and after these comes the next line: `Lists` states this for one line of a listing, and
`lists_of_disassemble` proves it of all of them.
-/

namespace ScriptMachine

namespace Instruction

open LittleEndian

/-- A well-formed line takes the length of its opcode, or two bytes if it has none. -/
theorem WellFormed.length_encoding {line : Instruction} (h : line.WellFormed) :
    line.encoding.length = (line.opcode.map Opcode.encodedLength).getD 2 := by
  obtain ⟨-, himmediate⟩ := h
  rw [encoding, List.length_append, length_ofWord]
  cases hop : line.opcode with
  | none =>
    have hnone : line.immediate = none := by simpa [hop] using himmediate
    simp [hnone]
  | some op =>
    rw [hop] at himmediate
    cases hop' : op.hasImmediate with
    | false =>
      have hnone : line.immediate = none := by simpa [hop'] using himmediate
      simp [hnone, Opcode.encodedLength, hop']
    | true =>
      obtain ⟨n, hn⟩ := Option.isSome_iff_exists.mp (himmediate.trans hop')
      simp [hn, Opcode.encodedLength, hop']

/-- A line takes at least the two bytes of its word. -/
theorem two_le_length_encoding (line : Instruction) : 2 ≤ line.encoding.length := by
  rw [encoding, List.length_append, length_ofWord]
  omega

/-- The lines follow each other without gaps, the first of them at `offset`. -/
def Contiguous : Nat → List Instruction → Prop
  | _, [] => True
  | offset, line :: rest =>
    line.offset = offset ∧ Contiguous (offset + line.encoding.length) rest

/-- Lines without gaps can be cut anywhere; the second part begins where the first ends. -/
theorem contiguous_append_iff {offset : Nat} {first second : List Instruction} :
    Contiguous offset (first ++ second) ↔
      Contiguous offset first ∧
        Contiguous (offset + (first.flatMap encoding).length) second := by
  induction first generalizing offset with
  | nil => simp [Contiguous]
  | cons line first ih =>
    simp only [List.cons_append, Contiguous, ih, List.flatMap_cons, List.length_append,
      Nat.add_assoc, and_assoc]

end Instruction

open Instruction LittleEndian

/-- The listing of some bytes after a line that precedes them. -/
private theorem exists_of_cons_eq_ok {e : Except Fault (List Instruction)} {line : Instruction}
    {listing : List Instruction} (h : (do return line :: (← e)) = Except.ok listing) :
    ∃ rest, e = .ok rest ∧ listing = line :: rest := by
  cases e with
  | error fault => cases h
  | ok rest =>
    cases h
    exact ⟨rest, rfl, rfl⟩

/-- A listing is made of well-formed lines without gaps, and their encodings are the bytes listed. -/
theorem listing_of_disassembleFrom {offset length : Nat} {bytes : List UInt8}
    {listing : List Instruction} (h : disassembleFrom offset length bytes = .ok listing) :
    (∀ line ∈ listing, line.WellFormed) ∧ Contiguous offset listing ∧
      listing.flatMap encoding = bytes := by
  -- Along the listing: each line gives its bytes back, and the rest is listed from its end.
  fun_induction disassembleFrom offset length bytes generalizing listing with
  | case1 offset =>
    cases h
    exact ⟨by simp, trivial, rfl⟩
  | case2 offset byte => cases h
  | case3 offset b₀ b₁ word opcode himmediate i₀ i₁ i₂ i₃ rest immediate =>
    rename_i ih
    obtain ⟨lines, hlines, rfl⟩ := exists_of_cons_eq_ok h
    obtain ⟨hformed, hcontiguous, hbytes⟩ := ih hlines
    have hencoding (offset : Nat) :
        encoding ⟨offset, word, opcode, some immediate⟩ =
          [b₀, b₁, i₀, i₁, i₂, i₃] := by
      simp only [encoding, Option.map_some, Option.getD_some]
      rw [ofWord_toWord rfl, ofInt_toInt rfl]
      rfl
    refine ⟨List.forall_mem_cons.mpr ⟨⟨rfl, himmediate.symm⟩, hformed⟩, ⟨rfl, ?_⟩, ?_⟩
    · rw [hencoding]
      exact hcontiguous
    · rw [List.flatMap_cons, hencoding, hbytes]
      rfl
  | case4 offset b₀ b₁ rest word opcode himmediate => cases h
  | case5 offset b₀ b₁ rest word opcode himmediate =>
    rename_i ih
    obtain ⟨lines, hlines, rfl⟩ := exists_of_cons_eq_ok h
    obtain ⟨hformed, hcontiguous, hbytes⟩ := ih hlines
    have hencoding (offset : Nat) : encoding ⟨offset, word, opcode, none⟩ = [b₀, b₁] := by
      simp only [encoding, Option.map_none, Option.getD_none, List.append_nil]
      exact ofWord_toWord rfl
    have hnone : opcode.any Opcode.hasImmediate = false := Bool.eq_false_iff.mpr himmediate
    refine ⟨List.forall_mem_cons.mpr ⟨⟨rfl, hnone.symm⟩, hformed⟩, ⟨rfl, ?_⟩, ?_⟩
    · rw [hencoding]
      exact hcontiguous
    · rw [List.flatMap_cons, hencoding, hbytes]
      rfl

/-! ## A line and the code -/

/-- Where the first of some lines begins, or the end of the code if there is none. -/
def startOf (lines : List Instruction) (length : Nat) : Nat :=
  (lines.head?.map Instruction.offset).getD length

/-- What a line, with the lines after it, says of the code. -/
structure Lists (code : Array UInt8) (line : Instruction) (after : List Instruction) : Prop where
  formed : line.WellFormed
  word : Reader.wordAt code line.offset = .ok line.word
  operand {op : Opcode} (hop : line.opcode = some op) :
    Reader.operandAt code line.offset op = .ok (line.immediate.getD 0)
  following : line.offset + line.encoding.length = startOf after code.size

/-- Bytes between others are read at the length of what comes before them. -/
theorem extract_of_append {code : Array UInt8} {before bytes after : List UInt8}
    (h : code.toList = before ++ (bytes ++ after)) :
    (code.extract before.length (before.length + bytes.length)).toList = bytes := by
  rw [Array.toList_extract, h, List.extract_eq_take_drop, List.drop_left, Nat.add_sub_cancel_left,
    List.take_left]

section Position

variable {code : Array UInt8} {before after : List UInt8} {line : Instruction}
  (hcode : code.toList = before ++ (line.encoding ++ after))

include hcode

/-- The code is as long as a line and what stands before and after it. -/
private theorem size_of_append :
    code.size = before.length + (line.encoding.length + after.length) := by
  rw [← Array.length_toList, hcode, List.length_append, List.length_append]

/-- The word of a line stands where its encoding begins. -/
private theorem wordAt_of_append : Reader.wordAt code before.length = .ok line.word := by
  have hsize := size_of_append hcode
  have htwo := two_le_length_encoding line
  rw [encoding, List.append_assoc] at hcode
  have hword := extract_of_append hcode
  rw [length_ofWord] at hword
  rw [Reader.wordAt, if_neg (by omega), if_neg (by omega), hword, toWord_ofWord]

/-- The operand of a well-formed line follows its word. -/
private theorem operandAt_of_append (hformed : line.WellFormed) {op : Opcode}
    (hop : line.opcode = some op) :
    Reader.operandAt code before.length op = .ok (line.immediate.getD 0) := by
  have hsize := size_of_append hcode
  have hlength := hformed.length_encoding
  have himmediate : line.immediate.isSome = op.hasImmediate := by simpa [hop] using hformed.2
  rw [hop, Option.map_some, Option.getD_some, Opcode.encodedLength] at hlength
  unfold Reader.operandAt
  cases hvalue : line.immediate with
  | none =>
    have hnone : op.hasImmediate = false := by simpa [hvalue] using himmediate.symm
    rw [hnone]
    rfl
  | some n =>
    have hsome : op.hasImmediate = true := by simpa [hvalue] using himmediate.symm
    rw [hsome, if_pos rfl] at hlength
    rw [encoding, hvalue, Option.map_some, Option.getD_some, List.append_assoc,
      ← List.append_assoc before] at hcode
    have hoperand := extract_of_append hcode
    rw [List.length_append, length_ofWord, length_ofInt, Nat.add_assoc] at hoperand
    rw [if_pos hsome, if_neg (by omega), hoperand, toInt_ofInt]
    rfl

end Position

/-- A line of a listing says the truth about the code. -/
theorem lists_of_disassemble {code : Array UInt8} {before after : List Instruction}
    {line : Instruction} (h : disassemble code = .ok (before ++ line :: after)) :
    Lists code line after := by
  obtain ⟨hformed, hcontiguous, hbytes⟩ := listing_of_disassembleFrom h
  have hline : line.WellFormed := hformed line (by simp)
  obtain ⟨-, hoffset, hafter⟩ := contiguous_append_iff.mp hcontiguous
  rw [Nat.zero_add] at hoffset hafter
  rw [List.flatMap_append, List.flatMap_cons] at hbytes
  have hsize := size_of_append hbytes.symm
  refine ⟨hline, ?_, ?_, ?_⟩
  · rw [hoffset]
    exact wordAt_of_append hbytes.symm
  · intro op hop
    rw [hoffset]
    exact operandAt_of_append hbytes.symm hline hop
  · cases after with
    | nil =>
      rw [hoffset, hsize]
      rfl
    | cons next rest =>
      rw [hoffset]
      exact hafter.1.symm

end ScriptMachine
