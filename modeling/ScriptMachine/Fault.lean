import ScriptMachine.Hex
import ScriptMachine.Value

/-!
# Faults and where they happen

A `Fault` is the cause of a failure, with one message for each cause. A `Site` says where it
happened as far as that is known, and a `Failure` is a fault with or without a site. The site is
not part of the message.
-/

namespace ScriptMachine

/-- The two stacks of the machine. -/
inductive StackName where
  | data
  | ret
  deriving DecidableEq

/-- The word for a stack in messages. -/
def StackName.name : StackName → String
  | .data => "data"
  | .ret => "return"

/-- Why an operation failed. -/
inductive Fault where
  /-- No procedure has this name. -/
  | unknownProcedure (name : String)
  /-- No procedure stands at this index of the table. -/
  | unknownProcedureIndex (index : Int32)
  /-- No string has this index. -/
  | unknownString (index : Int32)
  /-- The word at `pc` is not an instruction. -/
  | unimplementedOpcode (word : UInt16) (pc : Nat)
  | typeMismatch (expected actual : Kind)
  | stackUnderflow (stack : StackName)
  | divisionByZero
  | indexOutOfBounds (index : Int64) (length : Nat)
  | invalidAddress (address : Int64)
  /-- The code of length `length` ends before the bytes needed at `offset`. -/
  | endOfCode (offset length : Nat)
  | stepLimit (limit : UInt64)
  | depthLimit (limit : Nat) (stack : StackName)
  deriving DecidableEq

/-- The message of a fault. -/
def Fault.message : Fault → String
  | unknownProcedure name => s!"unknown procedure: {name}"
  | unknownProcedureIndex index => s!"unknown procedure index: {index.toInt.repr}"
  | unknownString index => s!"requested string {index.toInt.repr} but it doesn't exist"
  | unimplementedOpcode word pc =>
    s!"unimplemented opcode 0x{hex 4 word.toNat} (pc=0x{hex 1 pc})"
  | typeMismatch expected actual =>
    s!"type mismatch: expected {expected.name}, got {actual.name}"
  | stackUnderflow stack => s!"{stack.name} stack underflow"
  | divisionByZero => "division by zero"
  | indexOutOfBounds index length =>
    s!"index out of bounds: {index.toInt.repr} (length {length.repr})"
  | invalidAddress address => s!"invalid code address: {address.toInt.repr}"
  | endOfCode offset length =>
    s!"unexpected end of code at offset {offset.repr} (length {length.repr})"
  | stepLimit limit => s!"limit exceeded: max steps ({limit.toNat.repr}) exceeded"
  | depthLimit limit stack =>
    s!"limit exceeded: max {stack.name} stack depth ({limit.repr}) exceeded"

/-- What is known of the place of a failure: the procedure the host called, and the address and
mnemonic of the instruction. -/
structure Site where
  procedure : Option String := none
  pc : Option Nat := none
  mnemonic : Option String := none
  deriving DecidableEq

namespace Site

/-- The site of one instruction. -/
def instruction (pc : Nat) (mnemonic : String) : Site where
  pc := some pc
  mnemonic := some mnemonic

/-- The site in words; each part is left out when it is unknown. -/
def render (site : Site) : String :=
  (match site.mnemonic with
    | some mnemonic => s!"in {mnemonic}"
    | none => "") ++
  (match site.pc with
    | some pc => s!" at 0x{hex 1 pc}"
    | none => "") ++
  (match site.procedure with
    | some procedure => s!" (called from {procedure})"
    | none => "")

end Site

/-- A fault and, where it is known, its site. -/
structure Failure where
  fault : Fault
  site : Option Site := none
  deriving DecidableEq

namespace Failure

/-- A failure of unknown site. -/
def unlocated (fault : Fault) : Failure where
  fault := fault

/-- A failure while executing one instruction. -/
def atInstruction (pc : Nat) (mnemonic : String) (fault : Fault) : Failure where
  fault := fault
  site := some (.instruction pc mnemonic)

/-- Replace the site of a failure. -/
def withSite (failure : Failure) (site : Site) : Failure :=
  { failure with site := some site }

/-- Name the procedure the host called, keeping what else is known of the site. -/
def within (procedure : String) (failure : Failure) : Failure :=
  failure.withSite { failure.site.getD {} with procedure := some procedure }

end Failure

end ScriptMachine
