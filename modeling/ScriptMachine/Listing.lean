import ScriptMachine.LittleEndian
import ScriptMachine.Opcode

/-!
# Listing code

A listing reads code from its beginning to its end as one instruction after another. A word that
is not an opcode is listed as a raw word of two bytes. Code that ends inside an instruction has no
listing. `Instruction.encoding` is the way back from a line to its bytes.
-/

namespace ScriptMachine

/-- One line of a listing. -/
structure Instruction where
  /-- Where the instruction begins. -/
  offset : Nat
  word : UInt16
  /-- What the word decodes to. -/
  opcode : Option Opcode
  immediate : Option Int32
  deriving DecidableEq

namespace Instruction

/-- The bytes of an instruction: its word, then its immediate if it has one. -/
def encoding (instruction : Instruction) : List UInt8 :=
  LittleEndian.ofWord instruction.word ++
    (instruction.immediate.map LittleEndian.ofInt).getD []

/-- The opcode is what the word decodes to, and an immediate is present exactly when that opcode
carries one. -/
def WellFormed (instruction : Instruction) : Prop :=
  instruction.opcode = Opcode.ofWord? instruction.word ∧
    instruction.immediate.isSome = instruction.opcode.any Opcode.hasImmediate

instance (instruction : Instruction) : Decidable instruction.WellFormed :=
  inferInstanceAs (Decidable (_ ∧ _))

/-- The text of a line: the offset, then the mnemonic with its immediate or the raw word. -/
def render (instruction : Instruction) : String :=
  hex 6 instruction.offset ++ "  " ++
    match instruction.opcode, instruction.immediate with
    | some op, some value => op.mnemonic ++ " " ++ value.toInt.repr
    | some op, none => op.mnemonic
    | none, _ => ".word 0x" ++ hex 4 instruction.word.toNat

end Instruction

/-- List the given bytes, which begin at `offset` of code that is `length` bytes long. -/
def disassembleFrom (offset length : Nat) : List UInt8 → Except Fault (List Instruction)
  | [] => .ok []
  | [_] => .error (.endOfCode offset length)
  | b₀ :: b₁ :: rest =>
    let word := LittleEndian.toWord [b₀, b₁]
    let opcode := Opcode.ofWord? word
    if opcode.any Opcode.hasImmediate then
      match rest with
      | i₀ :: i₁ :: i₂ :: i₃ :: rest => do
        let immediate := LittleEndian.toInt [i₀, i₁, i₂, i₃]
        return ⟨offset, word, opcode, some immediate⟩ ::
          (← disassembleFrom (offset + 6) length rest)
      | _ => .error (.endOfCode (offset + 2) length)
    else do
      return ⟨offset, word, opcode, none⟩ :: (← disassembleFrom (offset + 2) length rest)

/-- The listing of a whole code. -/
def disassemble (code : Array UInt8) : Except Fault (List Instruction) :=
  disassembleFrom 0 code.size code.toList

end ScriptMachine
