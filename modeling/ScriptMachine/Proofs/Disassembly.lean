import ScriptMachine.Proofs.Listings

/-!
# What has a listing

A code has a listing exactly when it is a concatenation of encodings of well-formed lines, and then it
has one listing (`disassemble_eq_ok_iff`). This rests on one step: the listing of an encoding followed
by more bytes is that line, followed by the listing of the rest.

All bytes are complete instructions followed by nothing or by bytes that end within an instruction
(`exists_complete_append`). Encodings are prefix-free, since the word tells the length of an
instruction. So these complete instructions are the longest sequence of complete instructions that the
bytes begin with. Where there is no listing, the failure tells where they end.

What the lines of some bytes say, their offsets apart, does not depend on where the bytes begin
(`disassembleFrom_shift`). So code that has a listing can be put in front of any other, and what was found
of the other is found again, further on.
-/

namespace ScriptMachine

open Instruction LittleEndian

/-! ## Accepted code -/

/-- Listing an encoding gives its line, and then the listing of what follows. -/
theorem disassembleFrom_encoding_append {line : Instruction} (h : line.WellFormed) (length : Nat)
    (rest : List UInt8) :
    disassembleFrom line.offset length (line.encoding ++ rest) =
      (do return line :: (← disassembleFrom (line.offset + line.encoding.length) length rest)) := by
  obtain ⟨offset, word, opcode, immediate⟩ := line
  obtain ⟨hopcode, himmediate⟩ := h
  dsimp only at hopcode himmediate
  subst hopcode
  obtain ⟨b₀, b₁, hword⟩ : ∃ b₀ b₁, ofWord word = [b₀, b₁] := ⟨_, _, rfl⟩
  have hdecode : toWord [b₀, b₁] = word := by rw [← hword, toWord_ofWord]
  cases immediate with
  | none =>
    have hnone : ¬ (Opcode.ofWord? word).any Opcode.hasImmediate = true := by
      rw [← himmediate]
      exact Bool.false_ne_true
    simp only [encoding, hword, Option.map_none, Option.getD_none, List.append_nil, List.cons_append,
      List.nil_append]
    rw [disassembleFrom.eq_def]
    simp only [hdecode, if_neg hnone]
    rfl
  | some n =>
    have hsome : (Opcode.ofWord? word).any Opcode.hasImmediate = true := himmediate.symm
    obtain ⟨i₀, i₁, i₂, i₃, hint⟩ : ∃ i₀ i₁ i₂ i₃, ofInt n = [i₀, i₁, i₂, i₃] := ⟨_, _, _, _, rfl⟩
    have hvalue : toInt [i₀, i₁, i₂, i₃] = n := by rw [← hint, toInt_ofInt]
    simp only [encoding, hword, hint, Option.map_some, Option.getD_some, List.cons_append,
      List.nil_append, disassembleFrom, hdecode, if_pos hsome, hvalue]
    rfl

/-- Listing the encodings of lines gives the lines, and then the listing of what follows. -/
theorem disassembleFrom_flatMap_append {offset : Nat} {lines : List Instruction}
    (hformed : ∀ line ∈ lines, line.WellFormed) (hcontiguous : Contiguous offset lines) (length : Nat)
    (rest : List UInt8) :
    disassembleFrom offset length (lines.flatMap encoding ++ rest) =
      (do return lines ++
        (← disassembleFrom (offset + (lines.flatMap encoding).length) length rest)) := by
  induction lines generalizing offset with
  | nil =>
    change disassembleFrom offset length rest = disassembleFrom offset length rest >>= _
    cases disassembleFrom offset length rest <;> rfl
  | cons line lines ih =>
    rw [List.forall_mem_cons] at hformed
    obtain ⟨rfl, hrest⟩ := hcontiguous
    rw [List.flatMap_cons, List.append_assoc, disassembleFrom_encoding_append hformed.1,
      ih hformed.2 hrest, List.length_append, Nat.add_assoc]
    cases disassembleFrom _ length rest <;> rfl

/-- Bytes have a listing exactly when they are the encodings of its lines, which are well formed and
follow each other without gaps. -/
theorem disassembleFrom_eq_ok_iff {offset length : Nat} {bytes : List UInt8}
    {listing : List Instruction} :
    disassembleFrom offset length bytes = .ok listing ↔
      (∀ line ∈ listing, line.WellFormed) ∧ Contiguous offset listing ∧
        listing.flatMap encoding = bytes := by
  constructor
  · exact listing_of_disassembleFrom
  · intro h
    obtain ⟨hformed, hcontiguous, rfl⟩ := h
    have hlisted := disassembleFrom_flatMap_append hformed hcontiguous length []
    rw [List.append_nil] at hlisted
    rw [hlisted, disassembleFrom, bind_pure_comp, map_eq_pure_bind]
    exact congrArg Except.ok (List.append_nil listing)

/-- The lines are a listing of the code. -/
structure IsListing (code : Array UInt8) (listing : List Instruction) : Prop where
  formed : ∀ line ∈ listing, line.WellFormed
  contiguous : Contiguous 0 listing
  bytes : listing.flatMap encoding = code.toList

/-- A code is listed as the lines that are a listing of it. -/
theorem disassemble_eq_ok_iff {code : Array UInt8} {listing : List Instruction} :
    disassemble code = .ok listing ↔ IsListing code listing := by
  rw [disassemble, disassembleFrom_eq_ok_iff]
  constructor
  · intro h
    exact ⟨h.1, h.2.1, h.2.2⟩
  · intro h
    exact ⟨h.formed, h.contiguous, h.bytes⟩

/-! ## Truncated instructions -/

/-- Bytes that end within an instruction, and how far into the instruction they are found to end: a
single byte, or a word whose immediate is cut short. -/
inductive Truncated : List UInt8 → Nat → Prop
  | word (byte : UInt8) : Truncated [byte] 0
  | immediate {op : Opcode} {rest : List UInt8} (hop : op.hasImmediate = true)
      (hshort : rest.length < 4) : Truncated (ofWord op.word ++ rest) 2

/-- Truncated bytes are not listed. -/
theorem disassembleFrom_of_truncated {bytes : List UInt8} {read : Nat} (h : Truncated bytes read)
    (offset length : Nat) :
    disassembleFrom offset length bytes = .error (.endOfCode (offset + read) length) := by
  cases h with
  | word byte => rfl
  | @immediate op rest hop hshort =>
    obtain ⟨b₀, b₁, hword⟩ : ∃ b₀ b₁, ofWord op.word = [b₀, b₁] := ⟨_, _, rfl⟩
    have hdecode : toWord [b₀, b₁] = op.word := by rw [← hword, toWord_ofWord]
    simp only [hword, List.cons_append, List.nil_append]
    rw [disassembleFrom.eq_def]
    simp only [hdecode, Opcode.ofWord?_word, Option.any_some, if_pos hop]
    match rest, hshort with
    | [], _ => rfl
    | [_], _ => rfl
    | [_, _], _ => rfl
    | [_, _, _], _ => rfl

/-- Bytes begin with a complete instruction, unless they are truncated or there are none. -/
theorem exists_encoding_append (offset : Nat) {bytes : List UInt8} (h : bytes ≠ []) :
    (∃ read, Truncated bytes read) ∨
      ∃ (line : Instruction) (rest : List UInt8), line.WellFormed ∧ line.offset = offset ∧
        bytes = line.encoding ++ rest := by
  match bytes with
  | [] => exact absurd rfl h
  | [byte] => exact .inl ⟨0, .word byte⟩
  | b₀ :: b₁ :: rest =>
    have hword : ofWord (toWord [b₀, b₁]) = [b₀, b₁] := ofWord_toWord rfl
    by_cases himmediate : (Opcode.ofWord? (toWord [b₀, b₁])).any Opcode.hasImmediate = true
    · by_cases hshort : rest.length < 4
      · obtain ⟨op, hop⟩ : ∃ op, Opcode.ofWord? (toWord [b₀, b₁]) = some op := by
          cases hop : Opcode.ofWord? (toWord [b₀, b₁]) with
          | none => simp [hop] at himmediate
          | some op => exact ⟨op, rfl⟩
        rw [hop, Option.any_some] at himmediate
        have hbytes : ofWord op.word = [b₀, b₁] := by
          rw [Opcode.ofWord?_eq_some_iff.mp hop, hword]
        refine .inl ⟨2, ?_⟩
        have htruncated := Truncated.immediate himmediate hshort
        rwa [hbytes] at htruncated
      · match rest, hshort with
        | i₀ :: i₁ :: i₂ :: i₃ :: rest, _ =>
          refine .inr ⟨⟨offset, toWord [b₀, b₁], Opcode.ofWord? (toWord [b₀, b₁]),
            some (toInt [i₀, i₁, i₂, i₃])⟩, rest, ⟨rfl, himmediate.symm⟩, rfl, ?_⟩
          rw [encoding, hword, Option.map_some, Option.getD_some, ofInt_toInt rfl]
          rfl
        | [], hshort => exact absurd (by simp) hshort
        | [_], hshort => exact absurd (by simp) hshort
        | [_, _], hshort => exact absurd (by simp) hshort
        | [_, _, _], hshort => exact absurd (by simp) hshort
    · refine .inr ⟨⟨offset, toWord [b₀, b₁], Opcode.ofWord? (toWord [b₀, b₁]), none⟩, rest,
        ⟨rfl, (Bool.eq_false_iff.mpr himmediate).symm⟩, rfl, ?_⟩
      rw [encoding, hword]
      rfl

/-- All bytes are complete instructions, followed by nothing or by truncated bytes. -/
theorem exists_complete_append (offset : Nat) (bytes : List UInt8) :
    ∃ (lines : List Instruction) (rest : List UInt8), (∀ line ∈ lines, line.WellFormed) ∧
      Contiguous offset lines ∧ bytes = lines.flatMap encoding ++ rest ∧
        (rest = [] ∨ ∃ read, Truncated rest read) := by
  -- By the number of bytes, since a complete instruction takes at least two of them.
  induction hsize : bytes.length using Nat.strongRecOn generalizing offset bytes with
  | ind size ih =>
    by_cases hempty : bytes = []
    · exact ⟨[], bytes, by simp, trivial, rfl, .inl hempty⟩
    obtain htruncated | ⟨line, rest, hformed, rfl, rfl⟩ := exists_encoding_append offset hempty
    · exact ⟨[], bytes, by simp, trivial, rfl, .inr htruncated⟩
    · have hsmaller : rest.length < size := by
        have htwo := two_le_length_encoding line
        rw [List.length_append] at hsize
        omega
      obtain ⟨lines, tail, hlines, hcontiguous, rfl, htail⟩ :=
        ih rest.length hsmaller (line.offset + line.encoding.length) rest rfl
      refine ⟨line :: lines, tail, List.forall_mem_cons.mpr ⟨hformed, hlines⟩, ⟨rfl, hcontiguous⟩, ?_,
        htail⟩
      rw [List.flatMap_cons, List.append_assoc]

/-! ## Encodings are prefix-free -/

/-- Encodings that begin with the same word, whatever follows, have the same word. -/
private theorem word_eq_of_encoding_append {line : Instruction} {word : UInt16} {s t : List UInt8}
    (h : line.encoding ++ s = ofWord word ++ t) : line.word = word := by
  rw [encoding, List.append_assoc] at h
  have hbytes := (List.append_inj h (by simp)).1
  rw [← toWord_ofWord line.word, hbytes, toWord_ofWord]

/-- Bytes begin with at most one encoding. -/
theorem encoding_append_inj {a b : Instruction} (ha : a.WellFormed) (hb : b.WellFormed)
    {s t : List UInt8} (h : a.encoding ++ s = b.encoding ++ t) :
    a.encoding = b.encoding ∧ s = t := by
  have hword : a.word = b.word :=
    word_eq_of_encoding_append (h.trans (List.append_assoc ..))
  have hlength : a.encoding.length = b.encoding.length := by
    rw [ha.length_encoding, hb.length_encoding, ha.1, hb.1, hword]
  exact List.append_inj h hlength

/-- Truncated bytes do not begin with a complete instruction. -/
theorem Truncated.not_begins_with_encoding {bytes : List UInt8} {read : Nat} (h : Truncated bytes read)
    {line : Instruction} (hline : line.WellFormed) : ¬ line.encoding <+: bytes := by
  intro hbegins
  have hle := hbegins.length_le
  cases h with
  | word byte =>
    have htwo := two_le_length_encoding line
    rw [List.length_singleton] at hle
    omega
  | @immediate op rest hop hshort =>
    -- The line would have the same word, so it would carry an immediate too.
    obtain ⟨more, hmore⟩ := hbegins
    have hopcode : line.opcode = some op := by
      rw [hline.1, word_eq_of_encoding_append hmore, Opcode.ofWord?_word]
    rw [hline.length_encoding, hopcode, Option.map_some, Option.getD_some, Opcode.encodedLength,
      if_pos hop, List.length_append, length_ofWord] at hle
    omega

/-- Complete instructions that are followed by truncated bytes are the longest sequence of complete
instructions at the beginning of these bytes. -/
theorem Truncated.length_flatMap_le {rest : List UInt8} {read : Nat} (h : Truncated rest read)
    {lines other : List Instruction} (hlines : ∀ line ∈ lines, line.WellFormed)
    (hother : ∀ line ∈ other, line.WellFormed)
    (hbegins : other.flatMap encoding <+: lines.flatMap encoding ++ rest) :
    (other.flatMap encoding).length ≤ (lines.flatMap encoding).length := by
  induction lines generalizing other with
  | nil =>
    cases other with
    | nil => exact Nat.le_refl _
    | cons line other =>
      rw [List.flatMap_cons] at hbegins
      have hfirst := (List.prefix_append line.encoding _).trans hbegins
      exact absurd hfirst (h.not_begins_with_encoding (List.forall_mem_cons.mp hother).1)
  | cons line lines ih =>
    cases other with
    | nil => exact Nat.zero_le _
    | cons line' other =>
      rw [List.forall_mem_cons] at hlines hother
      rw [List.flatMap_cons, List.flatMap_cons] at hbegins ⊢
      obtain ⟨more, hmore⟩ := hbegins
      rw [List.append_assoc, List.append_assoc] at hmore
      obtain ⟨hencoding, hrest⟩ := encoding_append_inj hother.1 hlines.1 hmore
      rw [List.length_append, List.length_append, hencoding]
      exact Nat.add_le_add_left (ih hlines.2 hother.2 ⟨more, hrest⟩) _

/-! ## Refused code -/

/-- The first `n` bytes of the code are a sequence of complete instructions. -/
def CompleteTo (code : Array UInt8) (n : Nat) : Prop :=
  n ≤ code.size ∧ ∃ lines : List Instruction, (∀ line ∈ lines, line.WellFormed) ∧
    lines.flatMap encoding = code.toList.take n

/-- The code ends within the instruction at `p`, and is found to end at `offset`: where the word should
be, if a single byte is left, or after the word, if the immediate is cut short. -/
def EndsWithin (code : Array UInt8) (p offset : Nat) : Prop :=
  code.size = p + 1 ∧ offset = p ∨
    (∃ op : Opcode, Reader.wordAt code p = .ok op.word ∧ op.hasImmediate = true) ∧
      code.size < p + 6 ∧ offset = p + 2

/-- Truncated bytes at the end of a code are the instruction within which it ends. -/
theorem Truncated.endsWithin {code : Array UInt8} {before rest : List UInt8} {read : Nat}
    (h : Truncated rest read) (hcode : code.toList = before ++ rest) :
    EndsWithin code before.length (before.length + read) := by
  have hsize : code.size = before.length + rest.length := by
    rw [← Array.length_toList, hcode, List.length_append]
  cases h with
  | word byte => exact .inl ⟨hsize, rfl⟩
  | @immediate op tail hop hshort =>
    rw [List.length_append, length_ofWord] at hsize
    have hword := extract_of_append hcode
    rw [length_ofWord] at hword
    refine .inr ⟨⟨op, ?_, hop⟩, by omega, rfl⟩
    rw [Reader.wordAt, if_neg (by omega), if_neg (by omega), hword, toWord_ofWord]

/-- Listings are exactly the ways to cut a code into instructions, and nothing is lost.

The lines that are given are well formed, they follow each other without gaps from the beginning, and
their encodings make up the code; lines for which this holds are given, and there is at most one such
list. When there is none, the complete instructions at the beginning of the code end at some `p`, the
code ends within the instruction at `p`, and the failure tells where it is found to end. -/
theorem disassemble_accepts_exactly_encodings (code : Array UInt8) :
    (∀ listing, disassemble code = .ok listing ↔ IsListing code listing) ∧
    (∀ first second, IsListing code first → IsListing code second → first = second) ∧
    ((¬ ∃ listing, IsListing code listing) →
      ∃ p offset, disassemble code = .error (.endOfCode offset code.size) ∧
        CompleteTo code p ∧ (∀ n, CompleteTo code n → n ≤ p) ∧ EndsWithin code p offset) := by
  refine ⟨fun listing => disassemble_eq_ok_iff, ?_, fun hnone => ?_⟩
  · intro first second hfirst hsecond
    rw [← disassemble_eq_ok_iff] at hfirst hsecond
    rw [hfirst] at hsecond
    cases hsecond
    rfl
  · obtain ⟨lines, rest, hformed, hcontiguous, hcode, hrest⟩ := exists_complete_append 0 code.toList
    obtain rfl | ⟨read, htruncated⟩ := hrest
    · rw [List.append_nil] at hcode
      exact absurd ⟨lines, hformed, hcontiguous, hcode.symm⟩ hnone
    refine ⟨(lines.flatMap encoding).length, (lines.flatMap encoding).length + read, ?_, ⟨?_, ?_⟩, ?_,
      htruncated.endsWithin hcode⟩
    · rw [disassemble, hcode, disassembleFrom_flatMap_append hformed hcontiguous,
        disassembleFrom_of_truncated htruncated, Nat.zero_add]
      rfl
    · rw [← Array.length_toList, hcode, List.length_append]
      exact Nat.le_add_right ..
    · exact ⟨lines, hformed, by rw [hcode, List.take_left]⟩
    · intro n hn
      obtain ⟨hle, other, hother, hbytes⟩ := hn
      have hbegins : other.flatMap encoding <+: lines.flatMap encoding ++ rest := by
        rw [hbytes, ← hcode]
        exact List.take_prefix n code.toList
      have hlength := htruncated.length_flatMap_le hformed hother hbegins
      rwa [hbytes, List.length_take, Array.length_toList, Nat.min_eq_left hle] at hlength

/-- Code that halts, and after that ends within a push. -/
def cutPush : Array UInt8 :=
  #[0x10, 0x80, 0x01, 0xC0, 5]

/-- That code has no listing, and is found to end after the word of the push. -/
theorem disassemble_accepts_exactly_encodings_cutPush :
    (¬ ∃ listing, IsListing cutPush listing) ∧
      disassemble cutPush = .error (.endOfCode 4 5) ∧
      ∃ p, CompleteTo cutPush p ∧ (∀ n, CompleteTo cutPush n → n ≤ p) ∧ EndsWithin cutPush p 4 := by
  have hrefused : disassemble cutPush = .error (.endOfCode 4 5) := rfl
  have hnone : ¬ ∃ listing, IsListing cutPush listing := by
    intro h
    obtain ⟨listing, hlisting⟩ := h
    rw [← disassemble_eq_ok_iff, hrefused] at hlisting
    cases hlisting
  obtain ⟨p, offset, herror, hcomplete, hlongest, hends⟩ :=
    (disassemble_accepts_exactly_encodings cutPush).2.2 hnone
  rw [hrefused] at herror
  cases herror
  exact ⟨hnone, hrefused, p, hcomplete, hlongest, hends⟩

/-! ## Code after other code -/

/-- The line as it stands when its code comes after `distance` other bytes. -/
def Instruction.shift (distance : Nat) (line : Instruction) : Instruction :=
  { line with offset := line.offset + distance }

/-- The fault of reading code, as it is when the code comes after `distance` other bytes. -/
def Fault.shift (distance : Nat) : Fault → Fault
  | .endOfCode offset length => .endOfCode (offset + distance) (length + distance)
  | fault => fault

/-- Bytes that begin later are listed as the same lines, or refused with the same failure, as much
later. -/
theorem disassembleFrom_shift (distance offset length : Nat) (bytes : List UInt8) :
    disassembleFrom (offset + distance) (length + distance) bytes =
      ((disassembleFrom offset length bytes).map (List.map (shift distance))).mapError
        (Fault.shift distance) := by
  -- Along the listing: each line is cut off at the same bytes, whatever the offset.
  fun_induction disassembleFrom offset length bytes with
  | case1 offset => rfl
  | case2 offset byte => rfl
  | case3 offset b₀ b₁ word opcode himmediate i₀ i₁ i₂ i₃ rest immediate ih =>
    rw [disassembleFrom, if_pos himmediate, Nat.add_right_comm, ih]
    cases disassembleFrom (offset + 6) length rest <;> rfl
  | case4 offset b₀ b₁ rest word opcode himmediate hshort =>
    rw [disassembleFrom.eq_def]
    simp only
    rw [if_pos himmediate, Nat.add_right_comm]
    rfl
  | case5 offset b₀ b₁ rest word opcode himmediate ih =>
    rw [disassembleFrom.eq_def]
    simp only
    rw [if_neg himmediate, Nat.add_right_comm, ih]
    cases disassembleFrom (offset + 2) length rest <;> rfl

/-- What is found of code after code that has a listing. -/
theorem disassemble_append {a : Array UInt8} {lines : List Instruction}
    (h : disassemble a = .ok lines) (b : Array UInt8) :
    disassemble (a ++ b) =
      ((disassemble b).map fun more => lines ++ more.map (shift a.size)).mapError
        (Fault.shift a.size) := by
  obtain ⟨hformed, hcontiguous, hbytes⟩ := disassemble_eq_ok_iff.mp h
  have hsize : (lines.flatMap encoding).length = a.size := by rw [hbytes, Array.length_toList]
  rw [disassemble, Array.toList_append, Array.size_append, ← hbytes,
    disassembleFrom_flatMap_append hformed hcontiguous, hsize, Nat.add_comm a.size b.size,
    disassembleFrom_shift, disassemble]
  cases disassembleFrom 0 b.size b.toList <;> rfl

/-- Listings can be put together. After code that has a listing, code with a listing is listed by its own
lines at offsets that are larger by the length of the first code, and code that ends within an
instruction is found to end there, as much later. -/
theorem disassemble_concatenation {a : Array UInt8} {lines : List Instruction}
    (h : disassemble a = .ok lines) (b : Array UInt8) :
    (∀ more, disassemble b = .ok more →
      disassemble (a ++ b) = .ok (lines ++ more.map (shift a.size))) ∧
    ∀ offset length, disassemble b = .error (.endOfCode offset length) →
      disassemble (a ++ b) = .error (.endOfCode (offset + a.size) (length + a.size)) := by
  constructor
  · intro more hmore
    rw [disassemble_append h, hmore]
    rfl
  · intro offset length hrefused
    rw [disassemble_append h, hrefused]
    rfl

/-- Code that pushes a number and halts. -/
def pushAndExit : Array UInt8 :=
  #[0x01, 0xC0, 0xFF, 0xFF, 0xFF, 0xFF, 0x10, 0x80]

/-- After the code that pushes and halts, the same code is listed again, and the cut push is found cut
eight bytes later. -/
theorem disassemble_concatenation_pushAndExit :
    disassemble pushAndExit =
        .ok [⟨0, 0xC001, some .pushD, some (-1)⟩, ⟨6, 0x8010, some .exitProg, none⟩] ∧
      disassemble (pushAndExit ++ pushAndExit) =
        .ok [⟨0, 0xC001, some .pushD, some (-1)⟩, ⟨6, 0x8010, some .exitProg, none⟩,
          ⟨8, 0xC001, some .pushD, some (-1)⟩, ⟨14, 0x8010, some .exitProg, none⟩] ∧
      disassemble (pushAndExit ++ cutPush) = .error (.endOfCode 12 13) := by
  have hlisted : disassemble pushAndExit =
      .ok [⟨0, 0xC001, some .pushD, some (-1)⟩, ⟨6, 0x8010, some .exitProg, none⟩] := rfl
  exact ⟨hlisted, (disassemble_concatenation hlisted pushAndExit).1 _ hlisted,
    (disassemble_concatenation hlisted cutPush).2 4 5 rfl⟩

end ScriptMachine
