import ScriptMachine.Catalog
import ScriptMachine.Machine

/-!
# Executing an instruction

The effect of each opcode on the machine. Operands are popped top first, then checked, and results
are pushed last. The program counter is left to the caller: an action ends with the `Flow` of
control it asks for.
-/

namespace ScriptMachine

/-- Where control goes after an instruction. -/
inductive Flow where
  /-- To the instruction that follows. -/
  | next
  /-- To an address. -/
  | jump (target : Nat)
  deriving DecidableEq

/-- The address that control goes to, given that of the instruction that follows. -/
def Flow.target (flow : Flow) (following : Nat) : Nat :=
  match flow with
  | next => following
  | jump target => target

namespace Machine

/-- Apply a binary operator; the right operand is on top. -/
def applyBinary (op : BinaryOp) : Action Unit := do
  let b ← pop
  let a ← pop
  push (← ofExcept (op.apply a b))

/-- Execute an opcode. The operand is the immediate of an opcode that carries one, and the others
do not look at it. -/
def execute (catalog : Catalog) (operand : Int32) : Opcode → Action Flow
  | .startCritical | .criticalDone => return .next
  | .pushD => do
    push (.int operand)
    return .next
  | .pushString => do
    match catalog.string? operand with
    | some text =>
      push (.string text)
      return .next
    | none => throw (.unknownString operand)
  | .dToA => do
    pushReturn (← pop)
    return .next
  | .aToD => do
    push (← popReturn)
    return .next
  | .pop => do
    let _ ← pop
    return .next
  | .swapA => do
    swapReturn
    return .next
  | .pushBase => do
    pushBase
    return .next
  | .popBase => do
    popBase
    return .next
  | .popToBase => do
    popToBase
    return .next
  | .setGlobal => do
    setGlobal
    return .next
  | .store register => do
    let var ← popInt
    let value ← pop
    store register var value
    return .next
  | .fetch register => do
    let var ← popInt
    push (← load register var)
    return .next
  | .jmp => do
    return .jump (← ofExcept (← pop).toAddress)
  | .branch => do
    let condition ← pop
    let target ← pop
    if condition.isTruthy then return .next
    return .jump (← ofExcept target.toAddress)
  | .call => do
    let index ← popInt
    match catalog.procedureAt? index with
    | some procedure => return .jump procedure.offset
    | none => throw (.unknownProcedureIndex index)
  | .popReturn => do
    let target ← ofExcept (← popReturn).toAddress
    if target = 0 then modify fun m => { m with halted := true }
    return .jump target
  | .exitProg => do
    modify fun m => { m with halted := true }
    return .next
  | .binary op => do
    applyBinary op
    return .next
  | .negate => do
    push (← ofExcept (← pop).negate)
    return .next

end Machine

end ScriptMachine
