import ScriptMachine.Fault
import ScriptMachine.LittleEndian

/-!
# A cursor over script code

A `Reader` is a byte sequence and an offset into it. Seeking may go to any offset up to the end;
a read takes bytes at the offset and moves past them. An operation that fails leaves the reader as
it was.
-/

namespace ScriptMachine

/-- Script code and the offset of the next byte to read. -/
structure Reader where
  bytes : Array UInt8 := #[]
  offset : Nat := 0
  deriving DecidableEq

namespace Reader

/-- Reading actions: they move the cursor and may fail. -/
abbrev Read := EStateM Fault Reader

/-- An address as faults report it: the largest 64-bit integer stands for everything above it. -/
def reportedAddress (offset : Nat) : Int64 :=
  Int64.ofNat (min offset 0x7FFFFFFFFFFFFFFF)

/-- Move the cursor to an offset, at most the end of the code. -/
def seek (offset : Nat) : Read Unit := fun reader =>
  if offset ≤ reader.bytes.size then .ok () { reader with offset := offset }
  else .error (.invalidAddress (reportedAddress offset)) reader

/-- Take the next `count` bytes. -/
def take (count : Nat) : Read (List UInt8) := fun reader =>
  let stop := reader.offset + count
  if stop ≤ reader.bytes.size then
    .ok (reader.bytes.extract reader.offset stop).toList { reader with offset := stop }
  else .error (.endOfCode reader.offset reader.bytes.size) reader

/-- Read a 16-bit word. -/
def read16 : Read UInt16 := do
  return LittleEndian.toWord (← take 2)

/-- Read a 32-bit signed integer. -/
def read32 : Read Int32 := do
  return LittleEndian.toInt (← take 4)

end Reader

end ScriptMachine
