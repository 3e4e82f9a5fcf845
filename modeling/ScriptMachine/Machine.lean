import ScriptMachine.Opcode

/-!
# The machine

The machine has a data stack, a return stack, a program counter, two base registers and a halted
flag. Both stacks are bounded by the same depth. Actions on the machine carry it through failures
too: what an action has popped before it fails stays popped.
-/

namespace ScriptMachine

/-- The stacks and registers. The top of a stack is the end of its array. -/
structure Machine where
  data : Array Value := #[]
  ret : Array Value := #[]
  pc : Nat := 0
  globalBase : Nat := 0
  frameBase : Nat := 0
  halted : Bool := false
  /-- The most entries of each stack. -/
  maxDepth : Nat
  deriving DecidableEq

/-- A stack index as a 32-bit integer, the form in which a stack can hold it. -/
def encodeIndex (index : Nat) : Except Fault Int32 :=
  if index < 0x80000000 then .ok (Int32.ofNat index)
  else .error (.indexOutOfBounds (Int64.ofNat index) index)

/-- A value as a code address. -/
def Value.toAddress (v : Value) : Except Fault Nat := do
  let target ← v.toNumber
  if target < 0 then throw (.invalidAddress target.toInt64)
  return target.toNatClampNeg

namespace Machine

/-- Actions on the machine. -/
abbrev Action := EStateM Fault Machine

/-- The empty machine of a given depth. -/
def ofDepth (maxDepth : Nat) : Machine where
  maxDepth := maxDepth

/-- Clear the stacks and registers, keeping the depth. -/
def reset (m : Machine) : Machine :=
  ofDepth m.maxDepth

/-! ## The stacks -/

/-- Push onto the data stack. -/
def push (value : Value) : Action Unit := fun m =>
  if m.data.size < m.maxDepth then .ok () { m with data := m.data.push value }
  else .error (.depthLimit m.maxDepth .data) m

/-- Pop the data stack. -/
def pop : Action Value := fun m =>
  match m.data.back? with
  | some value => .ok value { m with data := m.data.pop }
  | none => .error (.stackUnderflow .data) m

/-- Pop a number from the data stack. Text is popped too before it is refused. -/
def popInt : Action Int32 := do
  ofExcept (← pop).toNumber

/-- Push onto the return stack. -/
def pushReturn (value : Value) : Action Unit := fun m =>
  if m.ret.size < m.maxDepth then .ok () { m with ret := m.ret.push value }
  else .error (.depthLimit m.maxDepth .ret) m

/-- Pop the return stack. -/
def popReturn : Action Value := fun m =>
  match m.ret.back? with
  | some value => .ok value { m with ret := m.ret.pop }
  | none => .error (.stackUnderflow .ret) m

/-- Exchange the top two entries of the return stack. -/
def swapReturn : Action Unit := fun m =>
  if m.ret.size < 2 then .error (.stackUnderflow .ret) m
  else .ok () { m with ret := m.ret.swapIfInBounds (m.ret.size - 2) (m.ret.size - 1) }

/-! ## Frames -/

/-- Where the frame of the topmost `argc` of `size` entries begins. -/
def frameStart (argc : Int32) (size : Nat) : Except Fault Nat :=
  if 0 ≤ argc ∧ argc.toNatClampNeg ≤ size then .ok (size - argc.toNatClampNeg)
  else .error (.indexOutOfBounds (Int64.ofNat size - argc.toInt64) size)

/-- Pop the number of arguments, save the frame base on the return stack, and let the frame begin
at the first argument. -/
def pushBase : Action Unit := do
  let argc ← popInt
  let base ← ofExcept (frameStart argc (← get).data.size)
  let saved ← ofExcept (encodeIndex (← get).frameBase)
  pushReturn (.int saved)
  modify fun m => { m with frameBase := base }

/-- Pop a saved frame base from the return stack. -/
def popBase : Action Unit := do
  let base ← ofExcept (← popReturn).toNumber
  if base < 0 then throw (.indexOutOfBounds base.toInt64 (← get).data.size)
  modify fun m => { m with frameBase := base.toNatClampNeg }

/-- Discard the entries below the frame base; the frame base keeps its value. -/
def popToBase : Action Unit :=
  modify fun m => { m with data := m.data.extract m.frameBase m.data.size }

/-- Let the global variables begin at the top of the data stack. -/
def setGlobal : Action Unit :=
  modify fun m => { m with globalBase := m.data.size }

/-! ## Variable slots -/

/-- The value of a base register. -/
def base (m : Machine) : BaseRegister → Nat
  | .global => m.globalBase
  | .frame => m.frameBase

/-- The sum of a base and a variable number, in 64-bit words. -/
def slotSum (base : Nat) (var : Int32) : Int64 :=
  Int64.ofNat base + var.toInt64

/-- The data stack index of a variable slot, which lies anywhere from the bottom up. -/
def slotIndex (m : Machine) (register : BaseRegister) (var : Int32) : Except Fault Nat :=
  let sum := slotSum (m.base register) var
  if sum < 0 then .error (.indexOutOfBounds sum m.data.size) else .ok sum.toNatClampNeg

/-- Read a variable slot. -/
def load (register : BaseRegister) (var : Int32) : Action Value := fun m =>
  match m.slotIndex register var with
  | .error fault => .error fault m
  | .ok index =>
    match m.data[index]? with
    | some value => .ok value m
    | none => .error (.indexOutOfBounds (Int64.ofNat index) m.data.size) m

/-- Write a variable slot. A slot past the top makes the data stack grow up to it, and the entries
between are zero. -/
def store (register : BaseRegister) (var : Int32) (value : Value) : Action Unit := fun m =>
  match m.slotIndex register var with
  | .error fault => .error fault m
  | .ok index =>
    if index < m.data.size then .ok () { m with data := m.data.setIfInBounds index value }
    else if index < m.maxDepth then
      let gap := Array.replicate (index - m.data.size) (Value.int 0)
      .ok () { m with data := (m.data ++ gap).push value }
    else .error (.depthLimit m.maxDepth .data) m

/-! ## Call frames -/

/-- Clear the machine and lay out a call from the host: the arguments, the first on top, then their
number, with the host's return address zero on the return stack. -/
def enter (offset : Nat) (args : List Value) : Action Unit := do
  modify reset
  args.reverse.forM push
  push (.int (← ofExcept (encodeIndex args.length)))
  pushReturn (.int 0)
  modify fun m => { m with pc := offset }

end Machine

end ScriptMachine
