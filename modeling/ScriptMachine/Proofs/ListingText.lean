import Std.Data.String.ToInt
import ScriptMachine.Proofs.Disassembly

/-!
# The text of a listing

Nothing is lost when a listing is written out as text. A line can be read back from its text: the offset
is the number before the first space, the word after it tells the opcode or that there is none, and what
is left is the immediate or the raw word (`Instruction.render_inj`). Since the lines of a listing make up
the code, two codes with the same text are the same code.
-/

namespace ScriptMachine

/-! ## Hexadecimal numerals -/

/-- The value of an upper-case hexadecimal digit. -/
def hexDigitValue (c : Char) : Nat :=
  if c.toNat < 65 then c.toNat - 48 else c.toNat - 55

/-- The number that upper-case hexadecimal digits stand for, the most significant first. -/
def hexValue (digits : List Char) : Nat :=
  digits.foldl (fun n c => 16 * n + hexDigitValue c) 0

/-- The value of a digit is read back from its character. -/
theorem hexDigitValue_digitChar {d : Nat} (h : d < 16) : hexDigitValue d.digitChar.toUpper = d := by
  have table : ∀ d < 16, hexDigitValue (Nat.digitChar d).toUpper = d := by decide
  exact table d h

/-- A digit is not a blank. -/
theorem toUpper_digitChar_ne_space {d : Nat} (h : d < 16) : d.digitChar.toUpper ≠ ' ' := by
  have table : ∀ d < 16, (Nat.digitChar d).toUpper ≠ ' ' := by decide
  exact table d h

/-- A further digit makes a number sixteen times as large and adds its value. -/
theorem hexValue_concat (digits : List Char) (c : Char) :
    hexValue (digits ++ [c]) = 16 * hexValue digits + hexDigitValue c := by
  simp [hexValue]

/-- Zeros before a number do not count. -/
theorem hexValue_zeros_append (count : Nat) (digits : List Char) :
    hexValue (List.replicate count '0' ++ digits) = hexValue digits := by
  induction count with
  | zero => rfl
  | succ count ih => exact ih

/-- The digits of a number stand for it, and none of them is a space. -/
theorem toUpper_toDigits (n : Nat) :
    hexValue ((Nat.toDigits 16 n).map Char.toUpper) = n ∧
      ' ' ∉ (Nat.toDigits 16 n).map Char.toUpper := by
  -- The last digit is the remainder, and the digits before it are those of the quotient.
  induction n using Nat.strongRecOn with
  | ind n ih =>
    rw [Nat.toDigits_eq_if (by decide)]
    split
    · rename_i hdigit
      refine ⟨?_, ?_⟩
      · simp [hexValue, hexDigitValue_digitChar hdigit]
      · simpa using (toUpper_digitChar_ne_space hdigit).symm
    · rename_i hlarge
      obtain ⟨hvalue, hspace⟩ := ih (n / 16) (by omega)
      have hdigit : n % 16 < 16 := Nat.mod_lt n (by decide)
      rw [List.map_append, List.map_singleton, hexValue_concat, hvalue,
        hexDigitValue_digitChar hdigit, List.mem_append, List.mem_singleton]
      refine ⟨Nat.div_add_mod n 16, ?_⟩
      rintro (h | h)
      · exact hspace h
      · exact toUpper_digitChar_ne_space hdigit h.symm

/-- A numeral stands for its number. -/
theorem hexValue_hex (width n : Nat) : hexValue (hex width n).toList = n := by
  rw [hex, String.toList_ofList, List.leftpad, hexValue_zeros_append]
  exact (toUpper_toDigits n).1

/-- A hexadecimal number has no blanks. -/
theorem space_not_mem_hex (width n : Nat) : ' ' ∉ (hex width n).toList := by
  rw [hex, String.toList_ofList, List.leftpad, List.mem_append, List.mem_replicate]
  rintro (⟨-, h⟩ | h)
  · exact absurd h (by decide)
  · exact (toUpper_toDigits n).2 h

/-- Different numbers have different numerals. -/
theorem hex_inj {width m n : Nat} (h : hex width m = hex width n) : m = n := by
  rw [← hexValue_hex width m, h, hexValue_hex]

/-! ## Words of a text -/

/-- The characters of a text before its first space. -/
def firstWord (s : String) : List Char :=
  s.toList.takeWhile (· != ' ')

/-- The first word of a text goes on past a beginning without blanks. -/
theorem firstWord_append {s : String} (h : ' ' ∉ s.toList) (t : String) :
    firstWord (s ++ t) = s.toList ++ firstWord t := by
  have hs : ∀ c ∈ s.toList, (c != ' ') = true := by
    intro c hc
    rw [bne_iff_ne]
    rintro rfl
    exact h hc
  rw [firstWord, String.toList_append, List.takeWhile_append_of_pos hs, firstWord]

/-- A text without blanks is one word. -/
theorem firstWord_of_no_space {s : String} (h : ' ' ∉ s.toList) : firstWord s = s.toList := by
  have hs := firstWord_append h ""
  rwa [String.append_empty, firstWord.eq_def "", String.toList_empty, List.takeWhile_nil,
    List.append_nil] at hs

/-- A text without blanks is the first word of what follows it after a blank. -/
theorem firstWord_append_space {s : String} (h : ' ' ∉ s.toList) (t : String) :
    firstWord (s ++ (" " ++ t)) = s.toList := by
  rw [firstWord_append h]
  simp [firstWord]

/-! ## Mnemonics -/

namespace Opcode

/-- Looking up the mnemonic of an opcode gives that opcode: the mnemonics are distinct. -/
theorem ofMnemonic?_mnemonic (op : Opcode) : ofMnemonic? op.mnemonic = some op := by
  have table : ∀ op ∈ all, ofMnemonic? op.mnemonic = some op := by decide
  exact table op (mem_all op)

/-- A mnemonic has no blanks. -/
theorem space_not_mem_mnemonic (op : Opcode) : ' ' ∉ op.mnemonic.toList := by
  have table : ∀ op ∈ all, ' ' ∉ op.mnemonic.toList := by decide
  exact table op (mem_all op)

end Opcode

/-! ## Lines -/

namespace Instruction

/-- The text of a line after its offset. -/
def text (line : Instruction) : String :=
  match line.opcode, line.immediate with
  | some op, some value => op.mnemonic ++ " " ++ value.toInt.repr
  | some op, none => op.mnemonic
  | none, _ => ".word 0x" ++ hex 4 line.word.toNat

/-- A line is displayed as its offset and, after two blanks, its text. -/
theorem render_eq (line : Instruction) : line.render = hex 6 line.offset ++ "  " ++ line.text :=
  rfl

/-- The first word of the text tells the opcode. -/
theorem ofMnemonic?_firstWord_text (line : Instruction) :
    Opcode.ofMnemonic? (String.ofList (firstWord line.text)) = line.opcode := by
  unfold text
  split
  · rename_i op value hop _
    rw [String.append_assoc, firstWord_append_space op.space_not_mem_mnemonic, String.ofList_toList,
      op.ofMnemonic?_mnemonic, hop]
  · rename_i op hop _
    rw [firstWord_of_no_space op.space_not_mem_mnemonic, String.ofList_toList,
      op.ofMnemonic?_mnemonic, hop]
  · rename_i hop
    have hspell : ".word 0x" = ".word" ++ (" " ++ "0x") := by decide
    rw [hspell, String.append_assoc, String.append_assoc, firstWord_append_space (by decide), hop]
    decide

section Lines

variable {a b : Instruction}

/-- Well-formed lines with the same text after the offset are the same instruction. -/
theorem text_inj (ha : a.WellFormed) (hb : b.WellFormed) (h : a.text = b.text) :
    a.word = b.word ∧ a.opcode = b.opcode ∧ a.immediate = b.immediate := by
  have hopcode : a.opcode = b.opcode := by
    rw [← ofMnemonic?_firstWord_text a, h, ofMnemonic?_firstWord_text b]
  obtain ⟨offset, word, opcode, immediate⟩ := a
  obtain ⟨offset', word', opcode', immediate'⟩ := b
  obtain ⟨hword, himmediate⟩ := ha
  obtain ⟨hword', himmediate'⟩ := hb
  dsimp only at hopcode hword himmediate hword' himmediate' ⊢
  subst hopcode
  cases opcode with
  | none =>
    have hnone : immediate = none := by simpa using himmediate
    have hnone' : immediate' = none := by simpa using himmediate'
    have hdigits : hex 4 word.toNat = hex 4 word'.toNat := (String.append_right_inj _).mp h
    exact ⟨UInt16.toNat_inj.mp (hex_inj hdigits), rfl, hnone.trans hnone'.symm⟩
  | some op =>
    refine ⟨?_, rfl, ?_⟩
    · rw [← Opcode.ofWord?_eq_some_iff.mp hword.symm, Opcode.ofWord?_eq_some_iff.mp hword'.symm]
    · cases immediate with
      | none =>
        have hnone : immediate' = none := by simpa using himmediate'.trans himmediate.symm
        exact hnone.symm
      | some value =>
        obtain ⟨value', rfl⟩ := Option.isSome_iff_exists.mp (himmediate'.trans himmediate.symm)
        have hdigits : value.toInt.repr = value'.toInt.repr := (String.append_right_inj _).mp h
        rw [Int32.toInt_inj.mp (Int.repr_inj.mp hdigits)]

/-- Well-formed lines that are written alike are the same line. -/
theorem render_inj (ha : a.WellFormed) (hb : b.WellFormed) (h : a.render = b.render) : a = b := by
  have hfirst (line : Instruction) : firstWord line.render = (hex 6 line.offset).toList := by
    have hspaces : "  " = " " ++ " " := by decide
    rw [render_eq, hspaces, String.append_assoc, String.append_assoc,
      firstWord_append_space (space_not_mem_hex 6 line.offset)]
  have hoffset : a.offset = b.offset := by
    have hwords := congrArg firstWord h
    rw [hfirst, hfirst] at hwords
    exact hex_inj (String.toList_inj.mp hwords)
  rw [render_eq, render_eq, hoffset] at h
  obtain ⟨hword, hopcode, himmediate⟩ := text_inj ha hb ((String.append_right_inj _).mp h)
  cases a
  cases b
  rw [mk.injEq]
  exact ⟨hoffset, hword, hopcode, himmediate⟩

/-- Lists of well-formed lines that are written alike are the same list. -/
theorem map_render_inj {first second : List Instruction} (hfirst : ∀ line ∈ first, line.WellFormed)
    (hsecond : ∀ line ∈ second, line.WellFormed) (h : first.map render = second.map render) :
    first = second := by
  induction first generalizing second with
  | nil => exact (List.map_eq_nil_iff.mp h.symm).symm
  | cons line first ih =>
    cases second with
    | nil => cases h
    | cons line' second =>
      rw [List.forall_mem_cons] at hfirst hsecond
      rw [List.map_cons, List.map_cons, List.cons.injEq] at h
      rw [render_inj hfirst.1 hsecond.1 h.1, ih hfirst.2 hsecond.2 h.2]

end Lines

end Instruction

/-- The text of a listing determines the code: when two codes have listings that are written alike, line
by line, they are the same code. -/
theorem listing_text_determines_code {code code' : Array UInt8} {lines lines' : List Instruction}
    (hcode : disassemble code = .ok lines) (hcode' : disassemble code' = .ok lines')
    (htext : lines.map Instruction.render = lines'.map Instruction.render) : code = code' := by
  have hlisting := disassemble_eq_ok_iff.mp hcode
  have hlisting' := disassemble_eq_ok_iff.mp hcode'
  obtain rfl := Instruction.map_render_inj hlisting.formed hlisting'.formed htext
  apply Array.toList_inj.mp
  rw [← hlisting.bytes, hlisting'.bytes]

/-- A push of a negative number, a raw word, and an exit. -/
def threeLines : List Instruction :=
  [⟨0, 0xC001, some .pushD, some (-1)⟩, ⟨6, 0xBEEF, none, none⟩, ⟨8, 0x8010, some .exitProg, none⟩]

/-- The encodings of the three lines are the code whose listing has their text. -/
theorem listing_text_determines_code_threeLines :
    disassemble (threeLines.flatMap Instruction.encoding).toArray = .ok threeLines ∧
      disassemble #[0x01, 0xC0, 0xFF, 0xFF, 0xFF, 0xFF, 0xEF, 0xBE, 0x10, 0x80] = .ok threeLines ∧
      threeLines.map Instruction.render =
        ["000000  push_d -1", "000006  .word 0xBEEF", "000008  exit_prog"] ∧
      (threeLines.flatMap Instruction.encoding).toArray =
        #[0x01, 0xC0, 0xFF, 0xFF, 0xFF, 0xFF, 0xEF, 0xBE, 0x10, 0x80] := by
  have hlines : disassemble (threeLines.flatMap Instruction.encoding).toArray = .ok threeLines := rfl
  have hcode : disassemble #[0x01, 0xC0, 0xFF, 0xFF, 0xFF, 0xFF, 0xEF, 0xBE, 0x10, 0x80] =
      .ok threeLines := rfl
  exact ⟨hlines, hcode, by decide, listing_text_determines_code hlines hcode rfl⟩

end ScriptMachine
