import ScriptMachine.Proofs.ReadingBack

/-!
# Sessions with a reader

A session is a list of calls to one reader, made in order and going on after failures. A call that
succeeds puts the cursor somewhere in the bytes or at their end, and a call that fails leaves the reader as
it was (`make_cases`). So the cursor stays `Within` the bytes through every session, and what a seek
(`SeekLaw`) and a read (`ReadLaw`) come to is known at each point of it.

A read takes its item from the bytes under the cursor alone: any reader that has the same bytes under its
own cursor reads the same item (`read_width_congr`). After a seek that succeeds, the reader is the one over
the same bytes at the new offset, whatever came before (`after_append_seek`, `answers_append_seek`).
-/

namespace ScriptMachine.Reader

/-! ## Seeks -/

section Seeks

variable {reader next : Reader} {offset : Nat} {fault : Fault}

/-- A seek to an offset in the bytes or at their end puts the cursor there. -/
theorem seek_of_le (h : offset ≤ reader.bytes.size) :
    seek offset reader = .ok () ⟨reader.bytes, offset⟩ :=
  if_pos h

/-- A seek beyond the end is refused and does not move. -/
theorem seek_of_lt (h : reader.bytes.size < offset) :
    seek offset reader = .error (.invalidAddress (reportedAddress offset)) reader :=
  if_neg (Nat.not_le.mpr h)

/-- A seek succeeds exactly up to the end of the bytes. -/
theorem seek_eq_ok_iff :
    seek offset reader = .ok () next ↔
      offset ≤ reader.bytes.size ∧ next = ⟨reader.bytes, offset⟩ := by
  by_cases h : offset ≤ reader.bytes.size
  · rw [seek_of_le h]
    constructor
    · rintro ⟨⟩
      exact ⟨h, rfl⟩
    · rintro ⟨-, rfl⟩
      rfl
  · simp only [seek_of_lt (Nat.not_le.mp h), reduceCtorEq, h, false_and]

/-- A seek is refused exactly beyond the end of the bytes, and reports the address. -/
theorem seek_eq_error_iff :
    seek offset reader = .error fault next ↔
      reader.bytes.size < offset ∧ fault = .invalidAddress (reportedAddress offset) ∧
        next = reader := by
  by_cases h : reader.bytes.size < offset
  · rw [seek_of_lt h]
    constructor
    · rintro ⟨⟩
      exact ⟨h, rfl, rfl⟩
    · rintro ⟨-, rfl, rfl⟩
      rfl
  · simp only [seek_of_le (Nat.not_lt.mp h), reduceCtorEq, h, false_and]

/-- The reported address is known by its value. -/
theorem eq_reportedAddress_iff {address : Int64} :
    address.toInt = (min offset (2 ^ 63 - 1) : Nat) ↔ address = reportedAddress offset := by
  rw [← toInt_reportedAddress, Int64.toInt_inj]

end Seeks

/-! ## Reads of either width -/

section Reads

variable {reader next : Reader} {width : Width} {item : Item} {fault : Fault}

/-- A read gives the item whose bytes stand under the cursor. -/
theorem read_width_eq_ok_iff :
    width.read reader = .ok item next ↔
      reader.offset + width.size ≤ reader.bytes.size ∧
        (item.width = width ∧ item.bytes = reader.upcoming width.size) ∧
        next = reader.advance width.size := by
  by_cases hfits : reader.offset + width.size ≤ reader.bytes.size
  · rw [read_width_of_le hfits]
    constructor
    · rintro ⟨⟩
      exact ⟨hfits, ⟨Width.width_decode _ _, Width.bytes_decode (length_upcoming hfits)⟩, rfl⟩
    · rintro ⟨-, ⟨rfl, hbytes⟩, rfl⟩
      rw [← hbytes, Item.decode_bytes]
  · simp only [read_width_of_lt (Nat.not_le.mp hfits), reduceCtorEq, hfits, false_and]

/-- A read fails exactly if the bytes end too early, and then nothing moves. -/
theorem read_width_eq_error_iff :
    width.read reader = .error fault next ↔
      reader.bytes.size < reader.offset + width.size ∧
        fault = .endOfCode reader.offset reader.bytes.size ∧ next = reader := by
  by_cases h : reader.bytes.size < reader.offset + width.size
  · rw [read_width_of_lt h]
    constructor
    · rintro ⟨⟩
      exact ⟨h, rfl, rfl⟩
    · rintro ⟨-, rfl, rfl⟩
      rfl
  · simp only [read_width_of_le (Nat.not_lt.mp h), reduceCtorEq, h, false_and]

/-- The upcoming bytes are those under the cursor. -/
theorem getElem?_upcoming (reader : Reader) (count i : Nat) :
    (reader.upcoming count)[i]? = if i < count then reader.bytes[reader.offset + i]? else none := by
  rw [upcoming, Array.getElem?_toList, Array.getElem?_extract]
  grind

/-- Readers with the same bytes under their cursors read the same item. -/
theorem read_width_congr {other : Reader} (hread : width.read reader = .ok item next)
    (h : ∀ i < width.size, other.bytes[other.offset + i]? = reader.bytes[reader.offset + i]?) :
    width.read other = .ok item (other.advance width.size) := by
  obtain ⟨hfits, ⟨hwidth, hbytes⟩, -⟩ := read_width_eq_ok_iff.mp hread
  have hupcoming : other.upcoming width.size = reader.upcoming width.size := by
    apply List.ext_getElem?
    intro i
    rw [getElem?_upcoming, getElem?_upcoming]
    split
    · exact h i ‹_›
    · rfl
  -- So many bytes under the other cursor are all there only if its code does not end before them.
  have hlength : (other.upcoming width.size).length = width.size := by
    rw [hupcoming, length_upcoming hfits]
  rw [upcoming, Array.length_toList, Array.size_extract] at hlength
  have hpos := width.size_pos
  exact read_width_eq_ok_iff.mpr ⟨by omega, ⟨hwidth, hbytes.trans hupcoming.symm⟩, rfl⟩

end Reads

/-! ## Laws of a reader within its bytes -/

/-- A reader over some bytes, with its cursor among them or at their end. -/
structure Within (bytes : Array UInt8) (reader : Reader) : Prop where
  bytes_eq : reader.bytes = bytes
  offset_le : reader.offset ≤ bytes.size

/-- What a seek of a reader over some bytes comes to: it is refused exactly beyond their end, and then
nothing moves. -/
structure SeekLaw (bytes : Array UInt8) (reader : Reader) (offset : UInt64) : Prop where
  ok_iff : ∀ next, seek offset.toNat reader = .ok () next ↔
    offset.toNat ≤ bytes.size ∧ next = ⟨bytes, offset.toNat⟩
  error_iff : ∀ fault next, seek offset.toNat reader = .error fault next ↔
    bytes.size < offset.toNat ∧
      (∃ address : Int64, address.toInt = (min offset.toNat (2 ^ 63 - 1) : Nat) ∧
        fault = .invalidAddress address) ∧
      next = reader

/-- What a read of a reader over some bytes comes to: it fails exactly if they end too early, and then
nothing moves. -/
structure ReadLaw (bytes : Array UInt8) (reader : Reader) (width : Width) : Prop where
  /-- The offset after the read is a 64-bit number, whether or not the bytes reach that far. -/
  stop_lt : reader.offset + width.size < 2 ^ 64
  ok_iff : ∀ item next, width.read reader = .ok item next ↔
    reader.offset + width.size ≤ bytes.size ∧
      (item.width = width ∧
        item.bytes = (bytes.extract reader.offset (reader.offset + width.size)).toList) ∧
      next = ⟨bytes, reader.offset + width.size⟩
  error_iff : ∀ fault next, width.read reader = .error fault next ↔
    bytes.size < reader.offset + width.size ∧ fault = .endOfCode reader.offset bytes.size ∧
      next = reader
  /-- The item depends only on the bytes that are read. -/
  congr : ∀ item next other, width.read reader = .ok item next →
    (∀ i < width.size, other.bytes[other.offset + i]? = bytes[reader.offset + i]?) →
      width.read other = .ok item ⟨other.bytes, other.offset + width.size⟩

namespace Within

variable {bytes : Array UInt8} {reader : Reader}

/-- Seeks of a reader within the bytes come to what the law says. -/
theorem seekLaw (h : Within bytes reader) (offset : UInt64) : SeekLaw bytes reader offset := by
  obtain ⟨rfl, -⟩ := h
  refine ⟨fun next => seek_eq_ok_iff, fun fault next => ?_⟩
  simp only [seek_eq_error_iff, eq_reportedAddress_iff, exists_eq_left]

/-- Reads of a reader within the bytes come to what the law says. -/
theorem readLaw (h : Within bytes reader) (hlength : bytes.size < 2 ^ 63) (width : Width) :
    ReadLaw bytes reader width := by
  obtain ⟨rfl, hoffset⟩ := h
  have hwidth : width.size ≤ 4 := by cases width <;> decide
  exact ⟨by omega, fun item next => read_width_eq_ok_iff, fun fault next => read_width_eq_error_iff,
    fun item next other => read_width_congr⟩

end Within

/-! ## Sessions -/

/-- What can be asked of a reader. Offsets are 64-bit numbers. -/
inductive Call where
  | seek (offset : UInt64)
  | read (width : Width)
  deriving DecidableEq

/-- Make a call: a read gives an item, a seek nothing. -/
def Call.make : Call → Read (Option Item)
  | seek offset => do
    Reader.seek offset.toNat
    return none
  | read width => do return some (← width.read)

/-- The reader after calls in the order of the list, whether or not they fail. -/
def after (calls : List Call) (reader : Reader) : Reader :=
  calls.foldl (fun reader call => finalState (call.make reader)) reader

/-- What calls in the order of the list give. -/
def answers : List Call → Reader → List (Except Fault (Option Item))
  | [], _ => []
  | call :: rest, reader => answer (call.make reader) :: answers rest (finalState (call.make reader))

/-- A call that succeeds puts the cursor somewhere in the bytes or at their end, and a call that fails does
not move it. -/
theorem make_cases (call : Call) (reader : Reader) :
    (∃ result offset, offset ≤ reader.bytes.size ∧
      call.make reader = .ok result ⟨reader.bytes, offset⟩) ∨
    ∃ fault, call.make reader = .error fault reader := by
  cases call with
  | seek offset =>
    obtain hlt | hle := Nat.lt_or_ge reader.bytes.size offset.toNat
    · exact .inr ⟨_, bind_of_error (seek_of_lt hlt)⟩
    · exact .inl ⟨none, offset.toNat, hle, bind_of_ok (seek_of_le hle)⟩
  | read width =>
    obtain hlt | hle := Nat.lt_or_ge reader.bytes.size (reader.offset + width.size)
    · exact .inr ⟨_, bind_of_error (read_width_of_lt hlt)⟩
    · exact .inl ⟨some _, _, hle, bind_of_ok (read_width_of_le hle)⟩

section Sessions

variable {bytes : Array UInt8} {reader : Reader}

/-- No call takes the cursor out of the bytes. -/
theorem Within.make (h : Within bytes reader) (call : Call) :
    Within bytes (finalState (call.make reader)) := by
  obtain ⟨result, offset, hoffset, hmake⟩ | ⟨fault, hmake⟩ := make_cases call reader
  · rw [h.bytes_eq] at hoffset hmake
    rw [hmake]
    exact ⟨rfl, hoffset⟩
  · rw [hmake]
    exact h

/-- The cursor stays within the bytes through every session. -/
theorem Within.after (h : Within bytes reader) (calls : List Call) :
    Within bytes (after calls reader) := by
  induction calls generalizing reader with
  | nil => exact h
  | cons call calls ih => exact ih (h.make call)

/-- A session may be held in two parts. -/
theorem after_append (calls later : List Call) (reader : Reader) :
    after (calls ++ later) reader = after later (after calls reader) :=
  List.foldl_append

/-- The answers of a session in two parts are those of the first and then those of the second. -/
theorem answers_append (calls later : List Call) (reader : Reader) :
    answers (calls ++ later) reader =
      answers calls reader ++ answers later (after calls reader) := by
  induction calls generalizing reader with
  | nil => rfl
  | cons call calls ih =>
    rw [List.cons_append, answers, answers, ih, List.cons_append]
    rfl

/-- Where a seek that succeeds leads does not depend on where the reader was. -/
theorem Within.make_seek (h : Within bytes reader) {offset : UInt64} (hle : offset.toNat ≤ bytes.size) :
    (Call.seek offset).make reader = .ok none ⟨bytes, offset.toNat⟩ :=
  bind_of_ok (((h.seekLaw offset).ok_iff _).mpr ⟨hle, rfl⟩)

/-- From a seek that succeeds on, a session goes as with a new reader at that offset. -/
theorem Within.after_append_seek (h : Within bytes reader) {offset : UInt64}
    (hle : offset.toNat ≤ bytes.size) (calls later : List Call) :
    Reader.after (calls ++ Call.seek offset :: later) reader =
      Reader.after later ⟨bytes, offset.toNat⟩ := by
  rw [after_append]
  change Reader.after later (finalState ((Call.seek offset).make (Reader.after calls reader))) = _
  rw [(h.after calls).make_seek hle]
  rfl

/-- After a seek that succeeds, the answers are those of a reader that starts at the new offset. -/
theorem Within.answers_append_seek (h : Within bytes reader) {offset : UInt64}
    (hle : offset.toNat ≤ bytes.size) (calls later : List Call) :
    answers (calls ++ Call.seek offset :: later) reader =
      answers calls reader ++ Except.ok none :: answers later ⟨bytes, offset.toNat⟩ := by
  rw [answers_append, answers, (h.after calls).make_seek hle]
  rfl

end Sessions

/-- The cursor of a reader stays valid, and failures do not move it.

Whatever calls were made to a reader over some bytes, it still has these bytes, and its cursor is among
them or at their end. Seeks succeed up to the end of the bytes and reads if enough of them are left; the
sum that a read compares with their number is a 64-bit number. What follows a seek that succeeds does
not depend on the calls before it. -/
theorem cursor_valid_through_sessions (bytes : Array UInt8) (hlength : bytes.size < 2 ^ 63)
    (calls : List Call) :
    Within bytes (after calls ⟨bytes, 0⟩) ∧
      (∀ offset, SeekLaw bytes (after calls ⟨bytes, 0⟩) offset) ∧
      (∀ width, ReadLaw bytes (after calls ⟨bytes, 0⟩) width) ∧
      ∀ (offset : UInt64) (later : List Call), offset.toNat ≤ bytes.size →
        answers (calls ++ Call.seek offset :: later) ⟨bytes, 0⟩ =
            answers calls ⟨bytes, 0⟩ ++ Except.ok none :: answers later ⟨bytes, offset.toNat⟩ ∧
          after (calls ++ Call.seek offset :: later) ⟨bytes, 0⟩ = after later ⟨bytes, offset.toNat⟩ := by
  have hstart : Within bytes ⟨bytes, 0⟩ := ⟨rfl, Nat.zero_le _⟩
  have hwithin := hstart.after calls
  refine ⟨hwithin, hwithin.seekLaw, hwithin.readLaw hlength, fun offset later hle => ?_⟩
  exact ⟨hstart.answers_append_seek hle calls later, hstart.after_append_seek hle calls later⟩

/-- Three bytes of code. -/
def threeBytes : Array UInt8 := #[0x01, 0xC0, 0x2A]

/-- A seek, and then a read and a seek that go too far. -/
def overreaching : List Call :=
  [.seek 1, .read .immediate, .seek 18446744073709551615]

/-- The reader is still where the first seek put it. It reads the word of the two bytes there, as does a
reader with only these, and after going back it reads the first word. -/
theorem cursor_valid_through_sessions_overreaching :
    threeBytes.size < 2 ^ 63 ∧ after overreaching ⟨threeBytes, 0⟩ = ⟨threeBytes, 1⟩ ∧
      seek (18446744073709551615 : UInt64).toNat ⟨threeBytes, 1⟩ =
        .error (.invalidAddress 9223372036854775807) ⟨threeBytes, 1⟩ ∧
      Width.read .immediate ⟨threeBytes, 1⟩ = .error (.endOfCode 1 3) ⟨threeBytes, 1⟩ ∧
      Width.read .word ⟨threeBytes, 1⟩ = .ok (.word 0x2AC0) ⟨threeBytes, 3⟩ ∧
      Width.read .word ⟨#[0xC0, 0x2A], 0⟩ = .ok (.word 0x2AC0) ⟨#[0xC0, 0x2A], 2⟩ ∧
      answers (overreaching ++ [Call.seek 0, Call.read .word]) ⟨threeBytes, 0⟩ =
        answers overreaching ⟨threeBytes, 0⟩ ++
          [Except.ok none, Except.ok (some (Item.word 0xC001))] := by
  have hlength : threeBytes.size < 2 ^ 63 := by decide
  have hafter : after overreaching ⟨threeBytes, 0⟩ = ⟨threeBytes, 1⟩ := rfl
  obtain ⟨-, hseek, hread, hlater⟩ := cursor_valid_through_sessions threeBytes hlength overreaching
  rw [hafter] at hseek hread
  have hword := ((hread .word).ok_iff (.word 0x2AC0) ⟨threeBytes, 3⟩).mpr
    ⟨by decide, ⟨rfl, by decide⟩, rfl⟩
  refine ⟨hlength, hafter, ?_, ?_, hword, ?_, ?_⟩
  · exact ((hseek _).error_iff _ _).mpr ⟨by decide, ⟨_, by decide, rfl⟩, rfl⟩
  · exact ((hread .immediate).error_iff _ _).mpr ⟨by decide, rfl, rfl⟩
  · exact (hread .word).congr _ _ ⟨#[0xC0, 0x2A], 0⟩ hword (by decide)
  · exact (hlater 0 [.read .word] (by decide)).1

end ScriptMachine.Reader
