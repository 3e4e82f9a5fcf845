import ScriptMachine.LittleEndian
import ScriptMachine.Opcode

/-!
# Assembling code

An assembler appends instructions to a byte sequence. Every emitting action gives the offset at
which its bytes begin. A forward jump is assembled as a push of a `Label`, an operand that is
filled in by `patch` once the target is known. A refused patch leaves the code as it was.
-/

namespace ScriptMachine

/-- The code assembled so far. -/
structure Assembler where
  code : Array UInt8 := #[]
  deriving DecidableEq

/-- The operand of a pushed address that is to be filled in. -/
structure Label where
  /-- The offset of the operand's four bytes. -/
  operand : Nat
  deriving DecidableEq

/-- Why a label cannot be patched. -/
inductive PatchError where
  /-- The target is not a nonnegative 32-bit signed integer. -/
  | targetTooLarge (target : Nat)
  /-- The operand does not lie within the code. -/
  | labelOutOfRange
  deriving DecidableEq

/-- The message of a refused patch, where there is one. -/
def PatchError.message? : PatchError → Option String
  | targetTooLarge target =>
    some s!"code offset {target.repr} does not fit in a push_d immediate"
  | labelOutOfRange => none

namespace Assembler

/-- Assembling actions. Only `patch` can fail. -/
abbrev Assembly := EStateM PatchError Assembler

/-- The offset of the next byte. -/
def offset (assembler : Assembler) : Nat :=
  assembler.code.size

/-- Append bytes and give the offset at which they begin. -/
def append (bytes : List UInt8) : Assembly Nat := fun assembler =>
  .ok assembler.offset { assembler with code := assembler.code ++ bytes }

/-- Append a raw word. -/
def emitWord (word : UInt16) : Assembly Nat :=
  append (LittleEndian.ofWord word)

/-- Append a raw immediate. -/
def emitImmediate (value : Int32) : Assembly Nat :=
  append (LittleEndian.ofInt value)

/-- Append the word of an opcode. -/
def emit (op : Opcode) : Assembly Nat :=
  emitWord op.word

/-- Append a push of an integer. -/
def emitPush (value : Int32) : Assembly Nat := do
  let start ← emit .pushD
  let _ ← emitImmediate value
  return start

/-- Append a push of a string. -/
def emitPushString (index : Int32) : Assembly Nat := do
  let start ← emit .pushString
  let _ ← emitImmediate index
  return start

/-- Append a push of an address that is zero until the label is patched. -/
def emitPushLabel : Assembly Label := do
  let _ ← emit .pushD
  return ⟨← emitImmediate 0⟩

/-- Overwrite consecutive bytes of the code from an offset on. -/
def overwrite (code : Array UInt8) (start : Nat) : List UInt8 → Array UInt8
  | [] => code
  | byte :: rest => overwrite (code.setIfInBounds start byte) (start + 1) rest

/-- Make the operand of a label the given address. -/
def patch (label : Label) (target : Nat) : Assembly Unit := fun assembler =>
  if 0x80000000 ≤ target then .error (.targetTooLarge target) assembler
  else if assembler.code.size < label.operand + 4 then .error .labelOutOfRange assembler
  else
    let operand := LittleEndian.ofInt (Int32.ofNat target)
    .ok () { assembler with code := overwrite assembler.code label.operand operand }

end Assembler

end ScriptMachine
