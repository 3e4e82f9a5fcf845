import ScriptMachine.Config
import ScriptMachine.Event
import ScriptMachine.Machine.Execute
import ScriptMachine.Reader

/-!
# The interpreter

An interpreter executes the code of a script on a machine. `step` executes one instruction, `run`
executes until the machine halts or cannot go on, and `call` runs a procedure on behalf of the
host. Failures leave the interpreter as it was when the failing instruction gave up.

A run need not end, so `runFor` follows it for a given number of steps and tells whether it has
ended by then. `run` and `call` take that number from the configuration.
-/

namespace ScriptMachine

/-- A script, the machine that executes it, and what it has reported so far, oldest first. -/
structure Interpreter where
  script : Reader
  catalog : Catalog
  machine : Machine
  config : Config
  /-- The instructions executed by the current run, counted in a 64-bit word. -/
  steps : UInt64 := 0
  log : Array Event := #[]

/-- A word that is not an instruction, and its address. -/
structure Stop where
  word : UInt16
  pc : Nat
  deriving DecidableEq

/-- A stop as a fault. -/
def Stop.fault (stop : Stop) : Fault :=
  .unimplementedOpcode stop.word stop.pc

/-- What one step came to. -/
inductive Status where
  | running
  | halted
  | stopped (stop : Stop)
  deriving DecidableEq

/-- What a run came to. -/
inductive Outcome where
  | halted
  | stopped (stop : Stop)
  /-- The run goes on beyond the steps it was followed for. -/
  | unfinished
  deriving DecidableEq

namespace Interpreter

/-- Actions of the interpreter; their failures know their site. -/
abbrev Session := EStateM Failure Interpreter

/-- Actions within one instruction. -/
abbrev Execution := EStateM Fault Interpreter

/-- An interpreter at the start of a script, with an empty machine. -/
def ofCode (code : Array UInt8) (catalog : Catalog) (config : Config) : Interpreter where
  script := { bytes := code }
  catalog := catalog
  machine := .ofDepth config.maxDepth
  config := config

/-- Read from the script. -/
def onScript {α : Type} (action : Reader.Read α) : Execution α :=
  fun ⟨script, catalog, machine, config, steps, log⟩ =>
    match action script with
    | .ok a script => .ok a ⟨script, catalog, machine, config, steps, log⟩
    | .error fault script => .error fault ⟨script, catalog, machine, config, steps, log⟩

/-- Act on the machine. -/
def onMachine {α : Type} (action : Machine.Action α) : Execution α :=
  fun ⟨script, catalog, machine, config, steps, log⟩ =>
    match action machine with
    | .ok a machine => .ok a ⟨script, catalog, machine, config, steps, log⟩
    | .error fault machine => .error fault ⟨script, catalog, machine, config, steps, log⟩

/-- An action on the script moves its cursor and leaves the rest of the interpreter alone. -/
theorem onScript_apply {α : Type} (action : Reader.Read α) (vm : Interpreter) :
    onScript action vm =
      match action vm.script with
      | .ok a script => .ok a { vm with script := script }
      | .error fault script => .error fault { vm with script := script } :=
  rfl

/-- An action on the machine leaves the rest of the interpreter alone. -/
theorem onMachine_apply {α : Type} (action : Machine.Action α) (vm : Interpreter) :
    onMachine action vm =
      match action vm.machine with
      | .ok a machine => .ok a { vm with machine := machine }
      | .error fault machine => .error fault { vm with machine := machine } :=
  rfl

/-- An action whose failures have no site. -/
def unlocated {α : Type} (action : Execution α) : Session α :=
  EStateM.adaptExcept Failure.unlocated action

/-- An action whose failures happen at an instruction. -/
def located {α : Type} (pc : Nat) (op : Opcode) (action : Execution α) : Session α :=
  EStateM.adaptExcept (Failure.atInstruction pc op.mnemonic) action

/-- Report an event. -/
def report (event : Event) : Session Unit :=
  modify fun vm => { vm with log := vm.log.push event }

/-! ## One step -/

/-- Read the word at an address. -/
def fetch (pc : Nat) : Execution UInt16 :=
  onScript do
    Reader.seek pc
    Reader.read16

/-- Read the immediate that follows the word of an opcode; one that carries none has operand
zero. -/
def readOperand : Opcode → Reader.Read Int32
  | .pushD | .pushString => Reader.read32
  | _ => return 0

/-- Read the operand of an opcode and execute it. -/
def execute (op : Opcode) : Execution Flow := do
  let operand ← onScript (readOperand op)
  let catalog := (← get).catalog
  onMachine (Machine.execute catalog operand op)

/-- Refuse an instruction once the step limit is used up. -/
def checkStepLimit (pc : Nat) (op : Opcode) : Session Unit := do
  match (← get).config.maxSteps with
  | some limit =>
    if limit ≤ (← get).steps then
      report (.stepLimitReached pc limit)
      throw (.atInstruction pc op.mnemonic (.stepLimit limit))
  | none => return

/-- Report an instruction that is about to be executed, if the configuration asks for it. -/
def traceInstruction (pc : Nat) (op : Opcode) : Session Unit := do
  if (← get).config.traceInstructions then
    let data := (← get).machine.data.size
    let ret := (← get).machine.ret.size
    report (.executing pc op data ret)

/-- Count an instruction. -/
def countStep : Session Unit :=
  modify fun vm => { vm with steps := vm.steps + 1 }

/-- Let control go where an instruction asked; the instruction that follows begins after the bytes
just read. -/
def follow (flow : Flow) : Session Status := do
  let target := flow.target (← get).script.offset
  unlocated (onMachine (modify fun m => { m with pc := target }))
  return if (← get).machine.halted then .halted else .running

/-- Fetch, decode and execute one instruction. A word that is not an instruction stops the
interpreter and leaves the machine and the step counter as they were. -/
def step : Session Status := do
  if (← get).machine.halted then return .halted
  let pc := (← get).machine.pc
  let word ← unlocated (fetch pc)
  match Opcode.ofWord? word with
  | none =>
    report (.unimplemented word pc)
    return .stopped ⟨word, pc⟩
  | some op =>
    checkStepLimit pc op
    traceInstruction pc op
    countStep
    follow (← located pc op (execute op))

/-! ## Runs -/

/-- Take up to the given number of steps. -/
def runFor : Nat → Session Outcome
  | 0 => fun vm => .ok .unfinished vm
  | fuel + 1 => fun vm =>
    match step vm with
    | .ok .running vm => runFor fuel vm
    | .ok .halted vm => .ok .halted vm
    | .ok (.stopped stop) vm => .ok (.stopped stop) vm
    | .error failure vm => .error failure vm

/-- Following a run for longer continues it from where it was left. -/
theorem runFor_add (first second : Nat) (vm : Interpreter) :
    runFor (first + second) vm =
      match runFor first vm with
      | .ok .unfinished vm => runFor second vm
      | ended => ended := by
  induction first generalizing vm with
  | zero => simp [runFor]
  | succ first ih =>
    simp only [Nat.succ_add, runFor]
    cases step vm with
    | error failure vm => rfl
    | ok status vm =>
      cases status with
      | running => exact ih vm
      | halted => rfl
      | stopped stop => rfl

/-- Clear the halted flag and the step counter. -/
def restart (vm : Interpreter) : Interpreter :=
  { vm with machine := { vm.machine with halted := false }, steps := 0 }

/-- Run from the program counter, followed for the given number of steps. -/
def runWithin (fuel : Nat) : Session Outcome := fun vm =>
  runFor fuel vm.restart

/-- Run from the program counter until the machine halts or cannot go on. -/
def run : Session Outcome := do
  runWithin (← get).config.stepBudget

/-! ## Calls -/

/-- Lay out a call, run it, and take its result from the data stack. There is no result when the
run goes on beyond the steps it was followed for. -/
def invoke (fuel offset : Nat) (args : List Value) : Session (Option Value) := do
  unlocated (onMachine (Machine.enter offset args))
  match ← runWithin fuel with
  | .halted =>
    let result ← unlocated (onMachine Machine.pop)
    report (.returned result (← get).steps)
    return some result
  | .stopped stop => throw (.unlocated stop.fault)
  | .unfinished => return none

/-- Call a procedure by name, followed for the given number of steps. Failures after the name is
found name the procedure. -/
def callWithin (fuel : Nat) (name : String) (args : List Value) : Session (Option Value) := do
  report (.called name args.length)
  match (← get).catalog.procedure? name with
  | none => throw (.unlocated (.unknownProcedure name))
  | some procedure =>
    report (.resolved procedure.offset)
    EStateM.adaptExcept (Failure.within name) (invoke fuel procedure.offset args)

/-- Call a procedure by name and give its result. -/
def call (name : String) (args : List Value) : Session (Option Value) := do
  callWithin (← get).config.stepBudget name args

end Interpreter

end ScriptMachine
