import ScriptMachine.Interpreter
import ScriptMachine.Proofs.Actions

/-!
# What one step can do

`Interpreter.step` reads a word, decodes it, checks the step limit, reads an operand and executes.
`StepsTo` lists the seven ways this can end, each with the exact interpreter it leaves. The list is
complete (`stepsTo_step`) and its cases exclude each other (`StepsTo.eq_step`), so the other modules
argue by these cases and do not open `step`.

Words and operands are read from the code by position (`Reader.wordAt`, `Reader.operandAt`): where
the cursor stood before a step does not matter.
-/

namespace ScriptMachine

/-! ## Reading by position -/

/-- Whether a fault can come from reading the code. -/
def Fault.ofReading : Fault → Bool
  | invalidAddress _ | endOfCode .. => true
  | _ => false

namespace Reader

/-- An address is reported as it is, or as the largest 64-bit integer. -/
theorem toInt_reportedAddress (offset : Nat) :
    (reportedAddress offset).toInt = (min offset (2 ^ 63 - 1) : Nat) := by
  rw [reportedAddress, Int64.toInt_ofNat_of_lt (by omega)]
  omega

/-- The word at an address of some code. -/
def wordAt (bytes : Array UInt8) (pc : Nat) : Except Fault UInt16 :=
  if bytes.size < pc then .error (.invalidAddress (reportedAddress pc))
  else if bytes.size < pc + 2 then .error (.endOfCode pc bytes.size)
  else .ok (LittleEndian.toWord (bytes.extract pc (pc + 2)).toList)

/-- The operand of the instruction at an address, given its opcode. -/
def operandAt (bytes : Array UInt8) (pc : Nat) (op : Opcode) : Except Fault Int32 :=
  if op.hasImmediate then
    if bytes.size < pc + 6 then .error (.endOfCode (pc + 2) bytes.size)
    else .ok (LittleEndian.toInt (bytes.extract (pc + 2) (pc + 6)).toList)
  else .ok 0

/-- A word is missing for want of code. -/
theorem ofReading_of_wordAt {bytes : Array UInt8} {pc : Nat} {fault : Fault}
    (h : wordAt bytes pc = .error fault) : fault.ofReading = true := by
  unfold wordAt at h
  split at h
  · cases h
    rfl
  · split at h
    · cases h
      rfl
    · cases h

/-- An operand is missing for want of code. -/
theorem ofReading_of_operandAt {bytes : Array UInt8} {pc : Nat} {op : Opcode} {fault : Fault}
    (h : operandAt bytes pc op = .error fault) : fault.ofReading = true := by
  unfold operandAt at h
  split at h
  · split at h
    · cases h
      rfl
    · cases h
  · cases h

end Reader

namespace Interpreter

open Reader

/-- Move the cursor. -/
def withCursor (vm : Interpreter) (offset : Nat) : Interpreter :=
  { vm with script := { vm.script with offset := offset } }

/-- Moving the cursor leaves the machine alone. -/
@[simp] theorem withCursor_machine (vm : Interpreter) (offset : Nat) :
    (vm.withCursor offset).machine = vm.machine := rfl

/-- Append an event to the log. -/
def logged (vm : Interpreter) (event : Event) : Interpreter :=
  { vm with log := vm.log.push event }

/-- Fetching leaves the cursor after the word, at its beginning if the code ends within it, and
where it was if the address is out of range. -/
theorem fetch_eq (vm : Interpreter) (pc : Nat) :
    fetch pc vm =
      match wordAt vm.script.bytes pc with
      | .ok word => .ok word (vm.withCursor (pc + 2))
      | .error fault =>
        .error fault (vm.withCursor (if vm.script.bytes.size < pc then vm.script.offset else pc)) := by
  rw [fetch, onScript_apply]
  simp only [bind, EStateM.bind, seek, wordAt]
  by_cases haddress : vm.script.bytes.size < pc
  · simp only [Nat.not_le.mpr haddress, haddress, if_true, if_false]
    rfl
  · simp only [Nat.not_lt.mp haddress, haddress, if_true, if_false]
    simp only [read16, bind, EStateM.bind, take]
    by_cases hend : vm.script.bytes.size < pc + 2
    · simp only [Nat.not_le.mpr hend, hend, if_true, if_false]
      rfl
    · simp only [Nat.not_lt.mp hend, hend, if_true, if_false]
      rfl

/-- After the word at `pc`, reading the operand of an opcode moves to the instruction that follows;
a failed read does not move. -/
theorem readOperand_eq (vm : Interpreter) (pc : Nat) (op : Opcode) :
    onScript (readOperand op) (vm.withCursor (pc + 2)) =
      match operandAt vm.script.bytes pc op with
      | .ok operand => .ok operand (vm.withCursor (pc + op.encodedLength))
      | .error fault => .error fault (vm.withCursor (pc + 2)) := by
  rw [onScript_apply]
  cases himmediate : op.hasImmediate with
  | false =>
    have hread : readOperand op = pure 0 := by
      unfold readOperand
      split
      · cases himmediate
      · cases himmediate
      · rfl
    simp only [hread, operandAt, Opcode.encodedLength, himmediate]
    rfl
  | true =>
    have hread : readOperand op = read32 := by
      unfold Opcode.hasImmediate at himmediate
      split at himmediate
      · rfl
      · rfl
      · cases himmediate
    simp only [hread, operandAt, Opcode.encodedLength, himmediate, if_true]
    simp only [read32, bind, EStateM.bind, take, withCursor]
    by_cases hend : vm.script.bytes.size < pc + 6
    · simp only [show ¬ pc + 2 + 4 ≤ vm.script.bytes.size by omega, hend, if_true, if_false]
    · simp only [show pc + 2 + 4 ≤ vm.script.bytes.size by omega, hend, if_true, if_false]
      rfl

/-- Executing the opcode of the word at `pc`: its operand is read, then the machine acts. -/
theorem execute_eq (vm : Interpreter) (pc : Nat) (op : Opcode) :
    execute op (vm.withCursor (pc + 2)) =
      match operandAt vm.script.bytes pc op with
      | .error fault => .error fault (vm.withCursor (pc + 2))
      | .ok operand =>
        match Machine.execute vm.catalog operand op vm.machine with
        | .error fault m => .error fault { vm.withCursor (pc + op.encodedLength) with machine := m }
        | .ok flow m => .ok flow { vm.withCursor (pc + op.encodedLength) with machine := m } := by
  have hread := readOperand_eq vm pc op
  unfold execute
  cases hoperand : operandAt vm.script.bytes pc op with
  | error fault =>
    rw [hoperand] at hread
    exact bind_of_error hread
  | ok operand =>
    rw [hoperand] at hread
    rw [bind_of_ok hread]
    change onMachine (Machine.execute vm.catalog operand op)
      (vm.withCursor (pc + op.encodedLength)) = _
    rw [onMachine_apply, withCursor_machine]
    dsimp only
    cases Machine.execute vm.catalog operand op vm.machine <;> rfl

/-! ## The next instruction -/

/-- The opcode at the program counter of a machine that is not halted. -/
def pending? (vm : Interpreter) : Option Opcode :=
  if vm.machine.halted then none
  else
    match wordAt vm.script.bytes vm.machine.pc with
    | .ok word => Opcode.ofWord? word
    | .error _ => none

/-- An opcode is pending when the machine runs and the opcode's word stands at its program counter. -/
theorem pending?_eq_some_iff {vm : Interpreter} {op : Opcode} :
    vm.pending? = some op ↔
      vm.machine.halted = false ∧ wordAt vm.script.bytes vm.machine.pc = .ok op.word := by
  unfold pending?
  cases vm.machine.halted with
  | true => simp
  | false =>
    cases wordAt vm.script.bytes vm.machine.pc with
    | error fault => simp
    | ok word =>
      simp only [Bool.false_eq_true, if_false, Opcode.ofWord?_eq_some_iff, true_and, Except.ok.injEq]
      exact eq_comm

/-- Whether the step limit allows one more instruction. -/
def withinLimit (vm : Interpreter) : Bool :=
  vm.config.maxSteps.all fun limit => decide (vm.steps < limit)

/-- The opcode that the next step executes: the pending one, unless the step limit is used up. -/
def next? (vm : Interpreter) : Option Opcode :=
  if vm.withinLimit then vm.pending? else none

/-- The next step executes the pending opcode when the limit allows it. -/
theorem next?_eq_some_iff {vm : Interpreter} {op : Opcode} :
    vm.next? = some op ↔ vm.withinLimit = true ∧ vm.pending? = some op := by
  unfold next?
  cases vm.withinLimit <;> simp

/-- The limit does not allow another instruction when there is one and it is used up. -/
theorem withinLimit_eq_false_iff {vm : Interpreter} :
    vm.withinLimit = false ↔ ∃ limit, vm.config.maxSteps = some limit ∧ limit ≤ vm.steps := by
  unfold withinLimit
  cases vm.config.maxSteps <;> simp

/-- Under a limit, an instruction is executed only when fewer have been counted. -/
theorem lt_limit_of_next? {u : Interpreter} {op : Opcode} {limit : UInt64} (hop : u.next? = some op)
    (hlimit : u.config.maxSteps = some limit) : u.steps < limit := by
  have hwithin := (next?_eq_some_iff.mp hop).1
  unfold withinLimit at hwithin
  rw [hlimit] at hwithin
  exact of_decide_eq_true hwithin

/-- Below a limit, counting one more instruction does not overflow. -/
theorem toNat_steps_succ {steps limit : UInt64} (h : steps < limit) :
    (steps + 1).toNat = steps.toNat + 1 := by
  have hlimit := limit.toNat_lt
  have hlt := UInt64.lt_iff_toNat_lt.mp h
  rw [UInt64.toNat_add]
  change (steps.toNat + 1) % 2 ^ 64 = steps.toNat + 1
  exact Nat.mod_eq_of_lt (by omega)

/-- The interpreter when it begins to execute an instruction: the instruction is counted, and
reported if the configuration asks for it. -/
def counted (vm : Interpreter) (op : Opcode) : Interpreter :=
  { vm with
    steps := vm.steps + 1
    log :=
      if vm.config.traceInstructions then
        vm.log.push (.executing vm.machine.pc op vm.machine.data.size vm.machine.ret.size)
      else vm.log }

/-- Counting a step leaves the script alone. -/
@[simp] theorem counted_script (vm : Interpreter) (op : Opcode) :
    (vm.counted op).script = vm.script := rfl

/-- Counting a step leaves the catalog alone. -/
@[simp] theorem counted_catalog (vm : Interpreter) (op : Opcode) :
    (vm.counted op).catalog = vm.catalog := rfl

/-- Counting a step leaves the machine alone. -/
@[simp] theorem counted_machine (vm : Interpreter) (op : Opcode) :
    (vm.counted op).machine = vm.machine := rfl

/-- Everything that one step can come to. -/
inductive StepsTo (vm : Interpreter) : EStateM.Result Failure Interpreter Status → Prop
  | halted (hhalted : vm.machine.halted = true) : StepsTo vm (.ok .halted vm)
  /-- There is no word at the program counter. -/
  | unreadable {fault : Fault} (hrunning : vm.machine.halted = false)
      (hword : wordAt vm.script.bytes vm.machine.pc = .error fault) :
      StepsTo vm (.error (.unlocated fault) (vm.withCursor
        (if vm.script.bytes.size < vm.machine.pc then vm.script.offset else vm.machine.pc)))
  /-- The word is not an instruction. -/
  | undecodable {word : UInt16} (hrunning : vm.machine.halted = false)
      (hword : wordAt vm.script.bytes vm.machine.pc = .ok word)
      (hop : Opcode.ofWord? word = none) :
      StepsTo vm (.ok (.stopped ⟨word, vm.machine.pc⟩)
        ((vm.withCursor (vm.machine.pc + 2)).logged (.unimplemented word vm.machine.pc)))
  /-- The step limit is used up. -/
  | refused {op : Opcode} {limit : UInt64} (hop : vm.pending? = some op)
      (hlimit : vm.config.maxSteps = some limit) (hspent : limit ≤ vm.steps) :
      StepsTo vm (.error (.atInstruction vm.machine.pc op.mnemonic (.stepLimit limit))
        ((vm.withCursor (vm.machine.pc + 2)).logged (.stepLimitReached vm.machine.pc limit)))
  /-- The code ends within the operand. -/
  | truncated {op : Opcode} {fault : Fault} (hop : vm.next? = some op)
      (hoperand : operandAt vm.script.bytes vm.machine.pc op = .error fault) :
      StepsTo vm (.error (.atInstruction vm.machine.pc op.mnemonic fault)
        ((vm.counted op).withCursor (vm.machine.pc + 2)))
  /-- The instruction fails. -/
  | failed {op : Opcode} {operand : Int32} {fault : Fault} {m : Machine} (hop : vm.next? = some op)
      (hoperand : operandAt vm.script.bytes vm.machine.pc op = .ok operand)
      (hexecute : Machine.execute vm.catalog operand op vm.machine = .error fault m) :
      StepsTo vm (.error (.atInstruction vm.machine.pc op.mnemonic fault)
        { (vm.counted op).withCursor (vm.machine.pc + op.encodedLength) with machine := m })
  /-- The instruction succeeds. -/
  | executed {op : Opcode} {operand : Int32} {flow : Flow} {m : Machine} (hop : vm.next? = some op)
      (hoperand : operandAt vm.script.bytes vm.machine.pc op = .ok operand)
      (hexecute : Machine.execute vm.catalog operand op vm.machine = .ok flow m) :
      StepsTo vm (.ok (if m.halted then .halted else .running)
        { (vm.counted op).withCursor (vm.machine.pc + op.encodedLength) with
          machine := { m with pc := flow.target (vm.machine.pc + op.encodedLength) } })

/-- The part of a step that follows decoding. -/
private def carryOut (pc : Nat) (op : Opcode) : Session Status := do
  checkStepLimit pc op
  traceInstruction pc op
  countStep
  follow (← located pc op (execute op))

/-- A step of a running machine reads a word, decodes it and carries the opcode out. -/
private theorem step_of_running {vm : Interpreter} (hrunning : vm.machine.halted = false) :
    step vm =
      match wordAt vm.script.bytes vm.machine.pc with
      | .error fault => .error (.unlocated fault) (vm.withCursor
          (if vm.script.bytes.size < vm.machine.pc then vm.script.offset else vm.machine.pc))
      | .ok word =>
        match Opcode.ofWord? word with
        | none => .ok (.stopped ⟨word, vm.machine.pc⟩)
            ((vm.withCursor (vm.machine.pc + 2)).logged (.unimplemented word vm.machine.pc))
        | some op => carryOut vm.machine.pc op (vm.withCursor (vm.machine.pc + 2)) := by
  simp only [step, get_bind_apply, hrunning, Bool.false_eq_true, if_false]
  simp only [bind, EStateM.bind, unlocated, EStateM.adaptExcept, fetch_eq vm vm.machine.pc]
  cases wordAt vm.script.bytes vm.machine.pc with
  | error fault => rfl
  | ok word =>
    dsimp only
    cases Opcode.ofWord? word <;> rfl

/-- A step with a pending opcode carries it out. -/
private theorem step_of_pending {vm : Interpreter} {op : Opcode} (hop : vm.pending? = some op) :
    step vm = carryOut vm.machine.pc op (vm.withCursor (vm.machine.pc + 2)) := by
  obtain ⟨hrunning, hword⟩ := pending?_eq_some_iff.mp hop
  rw [step_of_running hrunning, hword]
  simp only [Opcode.ofWord?_word]

/-- The step limit lets an instruction pass that it allows. -/
private theorem checkStepLimit_of_withinLimit (vm : Interpreter) (pc : Nat) (op : Opcode)
    (hlimit : vm.withinLimit = true) : checkStepLimit pc op vm = .ok () vm := by
  unfold withinLimit at hlimit
  simp only [checkStepLimit, get_bind_apply]
  cases hmax : vm.config.maxSteps with
  | none => rfl
  | some limit =>
    rw [hmax] at hlimit
    have hroom : ¬ limit ≤ vm.steps := UInt64.not_le.mpr (of_decide_eq_true hlimit)
    simp only [get_bind_apply, hroom, if_false]
    rfl

/-- A step limit that is used up fails the step, with a warning. -/
private theorem checkStepLimit_of_spent {vm : Interpreter} {limit : UInt64} (pc : Nat) (op : Opcode)
    (hlimit : vm.config.maxSteps = some limit) (hspent : limit ≤ vm.steps) :
    checkStepLimit pc op vm =
      .error (.atInstruction pc op.mnemonic (.stepLimit limit))
        (vm.logged (.stepLimitReached pc limit)) := by
  simp only [checkStepLimit, get_bind_apply, hlimit, hspent, if_true]
  rfl

/-- What follows the report and the count begins with the instruction counted. -/
private theorem traceInstruction_countStep_bind {α : Type} (vm : Interpreter) (op : Opcode)
    (rest : Session α) :
    (do traceInstruction vm.machine.pc op; countStep; rest) vm = rest (vm.counted op) := by
  have htrace : traceInstruction vm.machine.pc op vm =
      .ok () { vm with log := (vm.counted op).log } := by
    cases htracing : vm.config.traceInstructions with
    | false => simp only [traceInstruction, get_bind_apply, counted, htracing]; rfl
    | true => simp only [traceInstruction, get_bind_apply, counted, htracing]; rfl
  have hcount : countStep { vm with log := (vm.counted op).log } = .ok () (vm.counted op) := rfl
  rw [bind_of_ok htrace, bind_of_ok hcount]

/-- Once the limit allows the instruction, it is counted, its operand is read and it is executed. -/
private theorem carryOut_of_withinLimit {vm : Interpreter} (op : Opcode)
    (hlimit : vm.withinLimit = true) :
    carryOut vm.machine.pc op (vm.withCursor (vm.machine.pc + 2)) =
      match operandAt vm.script.bytes vm.machine.pc op with
      | .error fault => .error (.atInstruction vm.machine.pc op.mnemonic fault)
          ((vm.counted op).withCursor (vm.machine.pc + 2))
      | .ok operand =>
        match Machine.execute vm.catalog operand op vm.machine with
        | .error fault m => .error (.atInstruction vm.machine.pc op.mnemonic fault)
            { (vm.counted op).withCursor (vm.machine.pc + op.encodedLength) with machine := m }
        | .ok flow m => .ok (if m.halted then .halted else .running)
            { (vm.counted op).withCursor (vm.machine.pc + op.encodedLength) with
              machine := { m with pc := flow.target (vm.machine.pc + op.encodedLength) } } := by
  have hcheck := checkStepLimit_of_withinLimit (vm.withCursor (vm.machine.pc + 2))
    vm.machine.pc op hlimit
  have htrace := traceInstruction_countStep_bind (vm.withCursor (vm.machine.pc + 2)) op
    (located vm.machine.pc op (execute op) >>= follow)
  have hexecute := execute_eq (vm.counted op) vm.machine.pc op
  rw [carryOut, bind_of_ok hcheck]
  refine htrace.trans ?_
  change (EStateM.adaptExcept (Failure.atInstruction vm.machine.pc op.mnemonic) (execute op) >>= follow)
    ((vm.counted op).withCursor (vm.machine.pc + 2)) = _
  simp only [counted_script, counted_catalog, counted_machine] at hexecute
  simp only [bind, EStateM.bind, EStateM.adaptExcept, hexecute]
  cases operandAt vm.script.bytes vm.machine.pc op with
  | error fault => rfl
  | ok operand =>
    dsimp only
    cases Machine.execute vm.catalog operand op vm.machine <;> rfl

/-- A step that the limit allows reads the operand and executes. -/
private theorem step_of_next {vm : Interpreter} {op : Opcode} (hop : vm.next? = some op) :
    step vm =
      match operandAt vm.script.bytes vm.machine.pc op with
      | .error fault => .error (.atInstruction vm.machine.pc op.mnemonic fault)
          ((vm.counted op).withCursor (vm.machine.pc + 2))
      | .ok operand =>
        match Machine.execute vm.catalog operand op vm.machine with
        | .error fault m => .error (.atInstruction vm.machine.pc op.mnemonic fault)
            { (vm.counted op).withCursor (vm.machine.pc + op.encodedLength) with machine := m }
        | .ok flow m => .ok (if m.halted then .halted else .running)
            { (vm.counted op).withCursor (vm.machine.pc + op.encodedLength) with
              machine := { m with pc := flow.target (vm.machine.pc + op.encodedLength) } } := by
  obtain ⟨hlimit, hpending⟩ := next?_eq_some_iff.mp hop
  rw [step_of_pending hpending, carryOut_of_withinLimit op hlimit]

/-- Each listed case is what a step comes to. -/
theorem StepsTo.eq_step {vm : Interpreter} {result : EStateM.Result Failure Interpreter Status}
    (h : StepsTo vm result) : step vm = result := by
  cases h with
  | halted hhalted =>
    simp only [step, get_bind_apply, hhalted, if_true]
    rfl
  | unreadable hrunning hword => simp only [step_of_running hrunning, hword]
  | undecodable hrunning hword hop => simp only [step_of_running hrunning, hword, hop]
  | refused hop hlimit hspent =>
    rw [step_of_pending hop, carryOut]
    exact bind_of_error (checkStepLimit_of_spent _ _ hlimit hspent)
  | truncated hop hoperand => simp only [step_of_next hop, hoperand]
  | failed hop hoperand hexecute => simp only [step_of_next hop, hoperand, hexecute]
  | executed hop hoperand hexecute => simp only [step_of_next hop, hoperand, hexecute]

/-- Every step is one of the listed cases. -/
theorem stepsTo_step (vm : Interpreter) : StepsTo vm (step vm) := by
  -- It is enough to find some case, since each case determines the step.
  suffices hcase : ∃ result, StepsTo vm result by
    obtain ⟨result, hresult⟩ := hcase
    rwa [hresult.eq_step]
  cases hrunning : vm.machine.halted with
  | true => exact ⟨_, .halted hrunning⟩
  | false =>
    cases hword : wordAt vm.script.bytes vm.machine.pc with
    | error fault => exact ⟨_, .unreadable hrunning hword⟩
    | ok word =>
      cases hdecode : Opcode.ofWord? word with
      | none => exact ⟨_, .undecodable hrunning hword hdecode⟩
      | some op =>
        have hpending : vm.pending? = some op := by
          rw [pending?_eq_some_iff, Opcode.ofWord?_eq_some_iff.mp hdecode]
          exact ⟨hrunning, hword⟩
        cases hlimit : vm.withinLimit with
        | false =>
          obtain ⟨limit, hmax, hspent⟩ := withinLimit_eq_false_iff.mp hlimit
          exact ⟨_, .refused hpending hmax hspent⟩
        | true =>
          have hnext : vm.next? = some op := next?_eq_some_iff.mpr ⟨hlimit, hpending⟩
          cases hoperand : operandAt vm.script.bytes vm.machine.pc op with
          | error fault => exact ⟨_, .truncated hnext hoperand⟩
          | ok operand =>
            cases hexecute : Machine.execute vm.catalog operand op vm.machine with
            | error fault m => exact ⟨_, .failed hnext hoperand hexecute⟩
            | ok flow m => exact ⟨_, .executed hnext hoperand hexecute⟩

/-! ## What every step keeps -/

/-- The next step executes nothing when no instruction is pending. -/
theorem next?_eq_none_of_pending? {vm : Interpreter} (h : vm.pending? = none) :
    vm.next? = none := by
  simp [next?, h]

/-- Nothing is pending on a halted machine. -/
theorem pending?_of_halted {vm : Interpreter} (h : vm.machine.halted = true) :
    vm.pending? = none := by
  simp [pending?, h]

/-- Nothing is pending where there is no word. -/
theorem pending?_of_unreadable {vm : Interpreter} {fault : Fault}
    (h : wordAt vm.script.bytes vm.machine.pc = .error fault) : vm.pending? = none := by
  simp [pending?, h]

/-- Nothing is pending at a word that is not an instruction. -/
theorem pending?_of_undecodable {vm : Interpreter} {word : UInt16}
    (hword : wordAt vm.script.bytes vm.machine.pc = .ok word) (hop : Opcode.ofWord? word = none) :
    vm.pending? = none := by
  simp [pending?, hword, hop]

/-- A step leaves the code, the catalog and the configuration alone. -/
theorem StepsTo.fixed {vm : Interpreter} {result : EStateM.Result Failure Interpreter Status}
    (h : StepsTo vm result) :
    (finalState result).script.bytes = vm.script.bytes ∧
      (finalState result).catalog = vm.catalog ∧ (finalState result).config = vm.config := by
  cases h <;> exact ⟨rfl, rfl, rfl⟩

/-- A step counts an instruction exactly when it executes one. -/
theorem StepsTo.steps_eq {vm : Interpreter} {result : EStateM.Result Failure Interpreter Status}
    (h : StepsTo vm result) :
    (finalState result).steps = if vm.next?.isSome then vm.steps + 1 else vm.steps := by
  cases h with
  | halted hhalted => simp [finalState, next?_eq_none_of_pending? (pending?_of_halted hhalted)]
  | unreadable hrunning hword =>
    simp [finalState, withCursor, next?_eq_none_of_pending? (pending?_of_unreadable hword)]
  | undecodable hrunning hword hop =>
    simp [finalState, withCursor, logged,
      next?_eq_none_of_pending? (pending?_of_undecodable hword hop)]
  | refused hop hlimit hspent =>
    have hwithin := withinLimit_eq_false_iff.mpr ⟨_, hlimit, hspent⟩
    simp [finalState, withCursor, logged, next?, hwithin]
  | truncated hop hoperand => simp [finalState, withCursor, counted, hop]
  | failed hop hoperand hexecute => simp [finalState, withCursor, counted, hop]
  | executed hop hoperand hexecute => simp [finalState, withCursor, counted, hop]

/-- A step that succeeds on an instruction has read its operand, executed it and moved on. -/
theorem exists_executed_of_step_eq_ok {vm u : Interpreter} {op : Opcode} {status : Status}
    (hop : vm.next? = some op) (hstep : step vm = .ok status u) :
    ∃ operand flow m, operandAt vm.script.bytes vm.machine.pc op = .ok operand ∧
      Machine.execute vm.catalog operand op vm.machine = .ok flow m ∧
      status = (if m.halted then .halted else .running) ∧
      u = { (vm.counted op).withCursor (vm.machine.pc + op.encodedLength) with
            machine := { m with pc := flow.target (vm.machine.pc + op.encodedLength) } } := by
  rw [step_of_next hop] at hstep
  split at hstep
  · cases hstep
  · rename_i operand hoperand
    split at hstep
    · cases hstep
    · rename_i flow m hexecute
      cases hstep
      exact ⟨operand, flow, m, hoperand, hexecute, rfl, rfl⟩

/-- Only a step that executes an instruction lets the machine run on. -/
theorem next?_isSome_of_running {vm vm' : Interpreter} (h : step vm = .ok .running vm') :
    vm.next?.isSome := by
  have hstep := stepsTo_step vm
  rw [h] at hstep
  generalize hresult : EStateM.Result.ok Status.running vm' = result at hstep
  cases hstep with
  | executed hop hoperand hexecute => simp [hop]
  | _ => cases hresult

end Interpreter

end ScriptMachine
