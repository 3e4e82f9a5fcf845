import ScriptMachine.Proofs.BackPatching
import ScriptMachine.Proofs.Listings

/-!
# Reading back what was emitted

A read of some width succeeds exactly if that many bytes are left, and then decodes them and moves past
them (`read_eq_ok_iff`); otherwise the reader stays as it is (`read_of_lt`). So a 32-bit read is two
16-bit reads in one, the first of them for the lower half.

Words and immediates are laid out in code without gaps. `layout` says where each of them ends. Emitting
them logs this layout (`emitEach_eq`), and so does reading with the same widths over any code that holds
their bytes (`readEach_eq`).
-/

namespace ScriptMachine

/-! ## Reads -/

namespace Reader

open LittleEndian

/-- The next `count` bytes, as far as there are that many. -/
def upcoming (reader : Reader) (count : Nat) : List UInt8 :=
  (reader.bytes.extract reader.offset (reader.offset + count)).toList

/-- The reader with its cursor past the next `count` bytes. -/
def advance (reader : Reader) (count : Nat) : Reader :=
  { reader with offset := reader.offset + count }

section Reads

variable {α : Type} {reader next : Reader} {count : Nat} {a : α} (decode : List UInt8 → α)

/-- Where enough bytes are left, a read decodes them and moves past them. -/
theorem read_of_le (h : reader.offset + count ≤ reader.bytes.size) :
    (do return decode (← take count) : Read α) reader =
      .ok (decode (reader.upcoming count)) (reader.advance count) := by
  have htake : take count reader = .ok (reader.upcoming count) (reader.advance count) := if_pos h
  rw [bind_of_ok htake]
  rfl

/-- Where too few bytes are left, a read fails and does not move. -/
theorem read_of_lt (h : reader.bytes.size < reader.offset + count) :
    (do return decode (← take count) : Read α) reader =
      .error (.endOfCode reader.offset reader.bytes.size) reader := by
  have htake : take count reader = .error (.endOfCode reader.offset reader.bytes.size) reader :=
    if_neg (Nat.not_le.mpr h)
  exact bind_of_error htake

/-- A read succeeds exactly if enough bytes are left, and moves past what it decodes. -/
theorem read_eq_ok_iff :
    (do return decode (← take count) : Read α) reader = .ok a next ↔
      reader.offset + count ≤ reader.bytes.size ∧ decode (reader.upcoming count) = a ∧
        reader.advance count = next := by
  by_cases h : reader.offset + count ≤ reader.bytes.size
  · simp only [read_of_le decode h, EStateM.Result.ok.injEq, h, true_and]
  · simp only [read_of_lt decode (Nat.not_le.mp h), reduceCtorEq, h, false_and]

end Reads

variable {reader next : Reader}

/-- A 16-bit read succeeds exactly if two bytes are left, and gives their word. -/
theorem read16_eq_ok_iff {word : UInt16} :
    read16 reader = .ok word next ↔
      reader.offset + 2 ≤ reader.bytes.size ∧ toWord (reader.upcoming 2) = word ∧
        reader.advance 2 = next :=
  read_eq_ok_iff toWord

/-- A 32-bit read succeeds exactly if four bytes are left, and gives their integer. -/
theorem read32_eq_ok_iff {n : Int32} :
    read32 reader = .ok n next ↔
      reader.offset + 4 ≤ reader.bytes.size ∧ toInt (reader.upcoming 4) = n ∧
        reader.advance 4 = next :=
  read_eq_ok_iff toInt

/-! ## Halves of a 32-bit read -/

/-- Where enough bytes are left, as many are upcoming as are asked for. -/
theorem length_upcoming {count : Nat} (h : reader.offset + count ≤ reader.bytes.size) :
    (reader.upcoming count).length = count := by
  rw [upcoming, Array.length_toList, Array.size_extract]
  omega

/-- The upcoming bytes are the first of them and then those upcoming after a move past these. -/
theorem upcoming_add (reader : Reader) (first second : Nat) :
    reader.upcoming (first + second) =
      reader.upcoming first ++ (reader.advance first).upcoming second := by
  simp only [upcoming, advance, ← Array.toList_append, Array.extract_append_extract]
  congr 2 <;> omega

/-- A 32-bit read succeeds exactly if two 16-bit reads in a row do. -/
theorem exists_read32_iff (reader : Reader) :
    (∃ n next, read32 reader = .ok n next) ↔
      ∃ low high between next, read16 reader = .ok low between ∧ read16 between = .ok high next := by
  constructor
  · rintro ⟨n, next, hread⟩
    obtain ⟨hfits, -, -⟩ := read32_eq_ok_iff.mp hread
    have hlow : reader.offset + 2 ≤ reader.bytes.size := by omega
    have hhigh : (reader.advance 2).offset + 2 ≤ (reader.advance 2).bytes.size := hfits
    exact ⟨_, _, _, _, read16_eq_ok_iff.mpr ⟨hlow, rfl, rfl⟩, read16_eq_ok_iff.mpr ⟨hhigh, rfl, rfl⟩⟩
  · rintro ⟨low, high, between, next, hlow, hhigh⟩
    obtain ⟨-, -, rfl⟩ := read16_eq_ok_iff.mp hlow
    obtain ⟨hfits, -, -⟩ := read16_eq_ok_iff.mp hhigh
    exact ⟨_, _, read32_eq_ok_iff.mpr ⟨hfits, rfl, rfl⟩⟩

/-- The two 16-bit reads give the lower and the upper half and end where the 32-bit read does. -/
theorem read32_halves {n : Int32} {low high : UInt16} {between next' : Reader}
    (h : read32 reader = .ok n next) (hlow : read16 reader = .ok low between)
    (hhigh : read16 between = .ok high next') :
    n.toInt % 2 ^ 32 = low.toNat + 2 ^ 16 * high.toNat ∧ next = next' := by
  obtain ⟨hfits, rfl, rfl⟩ := read32_eq_ok_iff.mp h
  obtain ⟨hfits₁, rfl, rfl⟩ := read16_eq_ok_iff.mp hlow
  obtain ⟨hfits₂, rfl, rfl⟩ := read16_eq_ok_iff.mp hhigh
  refine ⟨?_, rfl⟩
  have hsplit := toNat_append (reader.upcoming 2) ((reader.advance 2).upcoming 2)
  rw [← upcoming_add, length_upcoming hfits₁] at hsplit
  rw [toInt_emod (length_upcoming hfits), toNat_toWord (length_upcoming hfits₁),
    toNat_toWord (length_upcoming hfits₂), hsplit]
  omega

end Reader

/-! ## Words and immediates in a row -/

/-- How many bytes a read takes, and as what. -/
inductive Width where
  | word
  | immediate
  deriving DecidableEq

/-- What is emitted at one of the two widths. -/
inductive Item where
  | word (value : UInt16)
  | immediate (value : Int32)
  deriving DecidableEq

namespace Item

open LittleEndian

/-- The width of an item. -/
def width : Item → Width
  | word _ => .word
  | immediate _ => .immediate

/-- The bytes of an item, the least significant first. -/
def bytes : Item → List UInt8
  | word value => ofWord value
  | immediate value => ofInt value

/-- Append the item to the code. -/
def emit : Item → Assembler.Assembly Nat
  | word value => Assembler.emitWord value
  | immediate value => Assembler.emitImmediate value

/-- Items one after the other from an offset on, each with the offset at which it ends. -/
def layout (offset : Nat) : List Item → List (Item × Nat)
  | [] => []
  | item :: rest =>
    (item, offset + item.bytes.length) :: layout (offset + item.bytes.length) rest

/-- A layout lists its items in order. -/
theorem map_fst_layout (offset : Nat) (items : List Item) : (layout offset items).map Prod.fst = items := by
  induction items generalizing offset with
  | nil => rfl
  | cons item items ih => rw [layout, List.map_cons, ih]

end Item

namespace Width

open LittleEndian

/-- How many bytes an item of the width takes. -/
def size : Width → Nat
  | word => 2
  | immediate => 4

/-- The item of the width that some bytes hold. -/
def decode : Width → List UInt8 → Item
  | word, bytes => .word (toWord bytes)
  | immediate, bytes => .immediate (toInt bytes)

/-- Read an item of the width. -/
def read : Width → Reader.Read Item
  | word => do return .word (← Reader.read16)
  | immediate => do return .immediate (← Reader.read32)

/-- No width is zero. -/
theorem size_pos (width : Width) : 0 < width.size := by
  cases width <;> decide

/-- What is decoded at a width has that width. -/
theorem width_decode (width : Width) (bytes : List UInt8) : (width.decode bytes).width = width := by
  cases width <;> rfl

/-- As many bytes as the width takes are the bytes of the item they hold. -/
theorem bytes_decode {width : Width} {bytes : List UInt8} (h : bytes.length = width.size) :
    (width.decode bytes).bytes = bytes := by
  cases width with
  | word => exact ofWord_toWord h
  | immediate => exact ofInt_toInt h

end Width

namespace Item

open LittleEndian

/-- An item takes the bytes of its width. -/
theorem length_bytes (item : Item) : item.bytes.length = item.width.size := by
  cases item with
  | word value => exact length_ofWord value
  | immediate value => exact length_ofInt value

/-- An item is what its bytes hold at its width. -/
theorem decode_bytes (item : Item) : item.width.decode item.bytes = item := by
  cases item with
  | word value => exact congrArg word (toWord_ofWord value)
  | immediate value => exact congrArg immediate (toInt_ofInt value)

end Item

/-- Emit items in their order, and log each with the offset of the assembler after it. -/
def Assembler.emitEach : List Item → Assembly (List (Item × Nat))
  | [] => return []
  | item :: rest => do
    let _ ← item.emit
    let entry := (item, (← get).offset)
    return entry :: (← emitEach rest)

/-- Read items of the widths in their order, and log each with the offset of the reader after it. -/
def Reader.readEach : List Width → Read (List (Item × Nat))
  | [] => return []
  | width :: rest => do
    let item ← width.read
    let entry := (item, (← get).offset)
    return entry :: (← readEach rest)

namespace Assembler

/-- Emitting an item gives its offset and appends its bytes. -/
theorem emit_item_eq (item : Item) (a : Assembler) :
    item.emit a = .ok a.offset ⟨a.code ++ item.bytes⟩ := by
  cases item <;> rfl

/-- Emitting items appends their bytes and logs their layout. -/
theorem emitEach_eq (items : List Item) (a : Assembler) :
    emitEach items a = .ok (Item.layout a.offset items) ⟨a.code ++ items.flatMap Item.bytes⟩ := by
  induction items generalizing a with
  | nil =>
    rw [List.flatMap_nil, append_eq_append_toArray, Array.append_empty]
    rfl
  | cons item items ih =>
    have hoffset : offset ⟨a.code ++ item.bytes⟩ = a.offset + item.bytes.length :=
      size_append_list a.code item.bytes
    rw [emitEach, bind_of_ok (emit_item_eq item a)]
    change (emitEach items >>= _) _ = _
    rw [bind_of_ok (ih _), hoffset, append_append_list]
    rfl

end Assembler

namespace Reader

open LittleEndian

/-- Where enough bytes are left, a read of either width gives the item they hold and moves past it. -/
theorem read_width_of_le {width : Width} {reader : Reader}
    (h : reader.offset + width.size ≤ reader.bytes.size) :
    width.read reader =
      .ok (width.decode (reader.upcoming width.size)) (reader.advance width.size) := by
  cases width with
  | word => exact bind_of_ok (read_of_le toWord h)
  | immediate => exact bind_of_ok (read_of_le toInt h)

/-- Where too few bytes are left for the width, a read fails and does not move. -/
theorem read_width_of_lt {width : Width} {reader : Reader}
    (h : reader.bytes.size < reader.offset + width.size) :
    width.read reader = .error (.endOfCode reader.offset reader.bytes.size) reader := by
  cases width with
  | word => exact bind_of_error (read_of_lt toWord h)
  | immediate => exact bind_of_error (read_of_lt toInt h)

/-- An item is read where its bytes stand. -/
theorem read_item_eq {code : Array UInt8} {before after : List UInt8} {item : Item}
    (h : code.toList = before ++ (item.bytes ++ after)) :
    item.width.read ⟨code, before.length⟩ =
      .ok item ⟨code, before.length + item.bytes.length⟩ := by
  have hsize : code.size = before.length + (item.bytes.length + after.length) := by
    rw [← Array.length_toList, h, List.length_append, List.length_append]
  have hupcoming : upcoming ⟨code, before.length⟩ item.bytes.length = item.bytes := extract_of_append h
  rw [Item.length_bytes] at hsize hupcoming ⊢
  have hfits : before.length + item.width.size ≤ code.size := by omega
  have hread : item.width.read ⟨code, before.length⟩ = _ := read_width_of_le hfits
  rw [hread, hupcoming, Item.decode_bytes]
  rfl

/-- Reading with the widths of some items, where their bytes stand, gives the items and logs their
layout. -/
theorem readEach_eq {code : Array UInt8} {before after : List UInt8} {items : List Item}
    (h : code.toList = before ++ (items.flatMap Item.bytes ++ after)) :
    readEach (items.map Item.width) ⟨code, before.length⟩ =
      .ok (Item.layout before.length items)
        ⟨code, before.length + (items.flatMap Item.bytes).length⟩ := by
  -- The bytes of the items that have been read join those before the cursor.
  induction items generalizing before with
  | nil => rfl
  | cons item items ih =>
    rw [List.flatMap_cons, List.append_assoc] at h
    have hrest : code.toList = before ++ item.bytes ++ (items.flatMap Item.bytes ++ after) := by
      rw [h, List.append_assoc]
    have hread := ih hrest
    rw [List.length_append] at hread
    rw [List.map_cons, readEach, bind_of_ok (read_item_eq h)]
    change (readEach (items.map Item.width) >>= _) _ = _
    rw [bind_of_ok hread, List.flatMap_cons, List.length_append, ← Nat.add_assoc]
    rfl

/-- At the end of the code a read of either width fails and does not move. -/
theorem read_width_at_end (code : Array UInt8) (width : Width) :
    width.read ⟨code, code.size⟩ =
      .error (.endOfCode code.size code.size) ⟨code, code.size⟩ :=
  read_width_of_lt (Nat.lt_add_of_pos_right width.size_pos)

/-- Reading undoes emitting. Items that are emitted in a row after some code are read back by a reader
over the finished code with the same widths, and its offset after each is that of the assembler; then
every read fails where the reader is. And wherever a reader is, a 32-bit read does what two 16-bit reads
do together. -/
theorem reading_undoes_emitting :
    (∀ (items : List Item) (a : Assembler), ∃ log b,
      Assembler.emitEach items a = .ok log b ∧ log.map Prod.fst = items ∧
        readEach (items.map Item.width) ⟨b.code, a.offset⟩ = .ok log ⟨b.code, b.offset⟩ ∧
        ∀ width : Width, width.read ⟨b.code, b.offset⟩ =
          .error (.endOfCode b.offset b.offset) ⟨b.code, b.offset⟩) ∧
      ∀ reader : Reader,
        ((∃ n next, read32 reader = .ok n next) ↔
          ∃ low high between next,
            read16 reader = .ok low between ∧ read16 between = .ok high next) ∧
        ∀ n low high between next next',
          read32 reader = .ok n next → read16 reader = .ok low between →
            read16 between = .ok high next' →
              n.toInt % 2 ^ 32 = low.toNat + 2 ^ 16 * high.toNat ∧ next = next' := by
  refine ⟨fun items a => ?_, fun reader => ⟨exists_read32_iff reader, ?_⟩⟩
  · have hcode : (a.code ++ items.flatMap Item.bytes).toList =
        a.code.toList ++ (items.flatMap Item.bytes ++ []) := by simp
    have hread := readEach_eq hcode
    rw [Array.length_toList, ← Assembler.size_append_list] at hread
    exact ⟨_, _, Assembler.emitEach_eq items a, Item.map_fst_layout a.offset items, hread,
      read_width_at_end _⟩
  · intro n low high between next next' h hlow hhigh
    exact read32_halves h hlow hhigh

/-- The bytes of the word `0xC001` and of the immediate `-2` after it. -/
def wordAndImmediate : Array UInt8 := #[0x01, 0xC0, 0xFE, 0xFF, 0xFF, 0xFF]

/-- The immediate `-2` reads as the words `0xFFFE` and `0xFFFF`. -/
theorem reading_undoes_emitting_wordAndImmediate :
    Assembler.emitEach [.word 0xC001, .immediate (-2)] {} =
        .ok [(.word 0xC001, 2), (.immediate (-2), 6)] ⟨wordAndImmediate⟩ ∧
      readEach [.word, .immediate] ⟨wordAndImmediate, 0⟩ =
        .ok [(.word 0xC001, 2), (.immediate (-2), 6)] ⟨wordAndImmediate, 6⟩ ∧
      read32 ⟨wordAndImmediate, 2⟩ = .ok (-2) ⟨wordAndImmediate, 6⟩ ∧
      read16 ⟨wordAndImmediate, 2⟩ = .ok 0xFFFE ⟨wordAndImmediate, 4⟩ ∧
      read16 ⟨wordAndImmediate, 4⟩ = .ok 0xFFFF ⟨wordAndImmediate, 6⟩ ∧
      (-2 : Int32).toInt % 2 ^ 32 = (0xFFFE : UInt16).toNat + 2 ^ 16 * (0xFFFF : UInt16).toNat := by
  have hemit : Assembler.emitEach [.word 0xC001, .immediate (-2)] {} =
      .ok [(.word 0xC001, 2), (.immediate (-2), 6)] ⟨wordAndImmediate⟩ := rfl
  have hwhole : read32 ⟨wordAndImmediate, 2⟩ = .ok (-2) ⟨wordAndImmediate, 6⟩ :=
    read32_eq_ok_iff.mpr ⟨by decide, by decide, rfl⟩
  have hlow : read16 ⟨wordAndImmediate, 2⟩ = .ok 0xFFFE ⟨wordAndImmediate, 4⟩ := rfl
  have hhigh : read16 ⟨wordAndImmediate, 4⟩ = .ok 0xFFFF ⟨wordAndImmediate, 6⟩ := rfl
  obtain ⟨hback, hhalves⟩ := reading_undoes_emitting
  obtain ⟨log, b, hlog, -, hread, -⟩ := hback [.word 0xC001, .immediate (-2)] {}
  cases hemit.symm.trans hlog
  have hvalue := (hhalves ⟨wordAndImmediate, 2⟩).2 _ _ _ _ _ _ hwhole hlow hhigh
  exact ⟨hemit, hread, hwhole, hlow, hhigh, hvalue.1⟩

end Reader

end ScriptMachine
