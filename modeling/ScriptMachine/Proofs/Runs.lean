import ScriptMachine.Proofs.Stepping

/-!
# Runs, their instructions and their ends

A run is followed by `runFor`. When it is still `unfinished` after `n` steps, all of these were
`running`, and the interpreter given is the one before step `n + 1`. A run that has `Ended` stays as
it is however much longer it is followed.

`executing` lists the interpreters in which a run executes its instructions, so its length is the
number of instructions of the run. `Executes` is the same for a sequence of instructions that all
succeed, with their opcodes as its trace.
-/

namespace ScriptMachine

/-- What a step that has come to a status means for the run. -/
def Status.toOutcome : Status → Outcome
  | running => .unfinished
  | halted => .halted
  | stopped stop => .stopped stop

namespace Interpreter

/-- The run has not merely been left: the machine halted, stopped or failed. -/
def Ended : EStateM.Result Failure Interpreter Outcome → Prop
  | .ok .unfinished _ => False
  | _ => True

instance : DecidablePred Ended
  | .ok .unfinished _ => inferInstanceAs (Decidable False)
  | .ok .halted _ | .ok (.stopped _) _ | .error .. => inferInstanceAs (Decidable True)

/-- A run that has not ended is unfinished. -/
theorem exists_unfinished_of_not_ended {result : EStateM.Result Failure Interpreter Outcome}
    (h : ¬ Ended result) : ∃ u, result = .ok .unfinished u := by
  match result with
  | .ok .unfinished u => exact ⟨u, rfl⟩
  | .ok .halted u => exact absurd trivial h
  | .ok (.stopped stop) u => exact absurd trivial h
  | .error failure u => exact absurd trivial h

/-- Whether a run has ended does not depend on the state it is in. -/
theorem ended_mapState {f : Interpreter → Interpreter}
    {result : EStateM.Result Failure Interpreter Outcome} :
    Ended (mapState f result) ↔ Ended result := by
  match result with
  | .ok .unfinished u => exact Iff.rfl
  | .ok .halted u => exact Iff.rfl
  | .ok (.stopped stop) u => exact Iff.rfl
  | .error failure u => exact Iff.rfl

/-! ## Following a run -/

/-- One step, seen as a run. -/
theorem runFor_one (vm : Interpreter) :
    runFor 1 vm =
      match step vm with
      | .ok status u => .ok status.toOutcome u
      | .error failure u => .error failure u := by
  simp only [runFor]
  cases step vm with
  | error failure u => rfl
  | ok status u => cases status <;> rfl

/-- An unfinished run goes on from where it was left. -/
theorem runFor_add_of_unfinished {n : Nat} {vm u : Interpreter} (more : Nat)
    (h : runFor n vm = .ok .unfinished u) : runFor (n + more) vm = runFor more u := by
  rw [runFor_add, h]

/-- A run that has ended does not change when it is followed for longer. -/
theorem runFor_add_of_ended {n : Nat} {vm : Interpreter} (more : Nat)
    (h : Ended (runFor n vm)) : runFor (n + more) vm = runFor n vm := by
  rw [runFor_add]
  generalize runFor n vm = result at h ⊢
  match result, h with
  | .ok .halted u, _ => rfl
  | .ok (.stopped stop) u, _ => rfl
  | .error failure u, _ => rfl

/-- A run has one end. -/
theorem runFor_eq_of_ended {n m : Nat} {vm : Interpreter} (hn : Ended (runFor n vm))
    (hm : Ended (runFor m vm)) : runFor n vm = runFor m vm := by
  rw [← runFor_add_of_ended m hn, Nat.add_comm, runFor_add_of_ended n hm]

/-- A step that runs on is followed by the rest of the run. -/
theorem runFor_succ_of_running {vm u : Interpreter} (n : Nat) (h : step vm = .ok .running u) :
    runFor (n + 1) vm = runFor n u := by
  simp only [runFor, h]

/-- A run that is unfinished after `n + 1` steps was unfinished before the last of them. -/
theorem runFor_succ_eq_unfinished_iff {n : Nat} {vm u : Interpreter} :
    runFor (n + 1) vm = .ok .unfinished u ↔
      ∃ mid, runFor n vm = .ok .unfinished mid ∧ step mid = .ok .running u := by
  constructor
  · intro h
    by_cases hended : Ended (runFor n vm)
    · rw [runFor_add_of_ended 1 hended] at h
      rw [h] at hended
      exact hended.elim
    · obtain ⟨mid, hmid⟩ := exists_unfinished_of_not_ended hended
      refine ⟨mid, hmid, ?_⟩
      rw [runFor_add_of_unfinished 1 hmid, runFor_one] at h
      split at h
      · rename_i status w hstep
        cases status with
        | running => simpa [hstep, Status.toOutcome] using h
        | halted => cases h
        | stopped stop => cases h
      · cases h
  · intro h
    obtain ⟨mid, hmid, hstep⟩ := h
    rw [runFor_add_of_unfinished 1 hmid, runFor_one, hstep]
    rfl

/-- A run that is unfinished was unfinished at every earlier point. -/
theorem exists_unfinished_of_le {n m : Nat} {vm u : Interpreter} (hle : n ≤ m)
    (h : runFor m vm = .ok .unfinished u) : ∃ mid, runFor n vm = .ok .unfinished mid := by
  apply exists_unfinished_of_not_ended
  intro hended
  obtain ⟨more, rfl⟩ := Nat.exists_eq_add_of_le hle
  rw [runFor_add_of_ended more hended] at h
  rw [h] at hended
  exact hended

/-- A run that has ended made a last step, and was unfinished before it. -/
theorem exists_last_step {n : Nat} {vm : Interpreter} (h : Ended (runFor n vm)) :
    ∃ k u, runFor k vm = .ok .unfinished u ∧ runFor 1 u = runFor n vm := by
  induction n with
  | zero => exact h.elim
  | succ n ih =>
    by_cases hended : Ended (runFor n vm)
    · rw [runFor_add_of_ended 1 hended]
      exact ih hended
    · obtain ⟨u, hu⟩ := exists_unfinished_of_not_ended hended
      exact ⟨n, u, hu, (runFor_add_of_unfinished 1 hu).symm⟩

/-- What every step preserves, a run preserves, however it ends. -/
theorem runFor_preserves {P : Interpreter → Prop}
    (hstep : ∀ vm, P vm → P (finalState (step vm))) (n : Nat) {vm : Interpreter} (h : P vm) :
    P (finalState (runFor n vm)) := by
  induction n generalizing vm with
  | zero => exact h
  | succ n ih =>
    have hnext := hstep vm h
    simp only [runFor]
    split
    · rename_i u heq
      rw [heq] at hnext
      exact ih hnext
    all_goals
      rename_i heq
      rw [heq] at hnext
      exact hnext

/-- A run keeps the code, the catalog and the configuration. -/
theorem runFor_fixed (n : Nat) (vm : Interpreter) :
    (finalState (runFor n vm)).script.bytes = vm.script.bytes ∧
      (finalState (runFor n vm)).catalog = vm.catalog ∧
        (finalState (runFor n vm)).config = vm.config := by
  refine runFor_preserves (P := fun u => u.script.bytes = vm.script.bytes ∧
    u.catalog = vm.catalog ∧ u.config = vm.config) ?_ n ⟨rfl, rfl, rfl⟩
  intro u hu
  obtain ⟨hbytes, hcatalog, hconfig⟩ := hu
  obtain ⟨hbytes', hcatalog', hconfig'⟩ := (stepsTo_step u).fixed
  exact ⟨hbytes'.trans hbytes, hcatalog'.trans hcatalog, hconfig'.trans hconfig⟩

/-! ## The instructions of a run -/

/-- The interpreters in which a run that is followed for some steps executes its instructions, a
failing or halting last one included. -/
def executing : Nat → Interpreter → List Interpreter
  | 0, _ => []
  | fuel + 1, vm =>
    if vm.next?.isSome then
      vm :: match step vm with
        | .ok .running u => executing fuel u
        | _ => []
    else []

/-- An instruction that runs on is executed before those of the rest of the run. -/
theorem executing_of_running {vm u : Interpreter} (fuel : Nat)
    (h : step vm = .ok .running u) : executing (fuel + 1) vm = vm :: executing fuel u := by
  simp only [executing, next?_isSome_of_running h, if_true, h]

/-- After a step that does not run on nothing more is executed. -/
theorem executing_of_not_running {vm : Interpreter} (fuel : Nat)
    (h : ¬ ∃ u, step vm = .ok .running u) :
    executing (fuel + 1) vm = if vm.next?.isSome then [vm] else [] := by
  simp only [executing]
  split
  · split
    · rename_i u hstep
      exact absurd ⟨u, hstep⟩ h
    · rfl
  · rfl

/-- A step that does not run on ends the run in the interpreter it leaves. -/
theorem runFor_of_not_running {vm : Interpreter} (fuel : Nat)
    (h : ¬ ∃ u, step vm = .ok .running u) :
    Ended (runFor (fuel + 1) vm) ∧ finalState (runFor (fuel + 1) vm) = finalState (step vm) := by
  simp only [runFor]
  split
  · rename_i u hstep
    exact absurd ⟨u, hstep⟩ h
  all_goals
    rename_i hstep
    rw [hstep]
    exact ⟨trivial, rfl⟩

/-- The first step of an unfinished run ran on. -/
theorem exists_running_of_unfinished {n : Nat} {vm u : Interpreter}
    (h : runFor (n + 1) vm = .ok .unfinished u) :
    ∃ mid, step vm = .ok .running mid ∧ runFor n mid = .ok .unfinished u := by
  by_cases hrun : ∃ mid, step vm = .ok .running mid
  · obtain ⟨mid, hmid⟩ := hrun
    rw [runFor_succ_of_running n hmid] at h
    exact ⟨mid, hmid, h⟩
  · have hended := (runFor_of_not_running n hrun).1
    rw [h] at hended
    exact hended.elim

/-- A run begins with the interpreter itself, if it has an instruction to execute. -/
private theorem head?_executing (fuel : Nat) (vm : Interpreter) :
    (executing (fuel + 1) vm)[0]? = if vm.next?.isSome then some vm else none := by
  simp only [executing]
  split <;> rfl

/-- The instruction with index `i` is executed after `i` steps that ran on. -/
theorem getElem?_executing_eq_some_iff {fuel i : Nat} {vm u : Interpreter} :
    (executing fuel vm)[i]? = some u ↔
      i < fuel ∧ runFor i vm = .ok .unfinished u ∧ u.next?.isSome := by
  induction fuel generalizing i vm with
  | zero => simp [executing]
  | succ fuel ih =>
    cases i with
    | zero =>
      have hfirst : runFor 0 vm = .ok .unfinished u ↔ vm = u := by simp [runFor]
      rw [head?_executing, hfirst]
      constructor
      · intro h
        obtain ⟨hnext, hu⟩ := Option.ite_none_right_eq_some.mp h
        cases hu
        exact ⟨Nat.succ_pos fuel, rfl, hnext⟩
      · intro h
        obtain ⟨-, rfl, hnext⟩ := h
        exact if_pos hnext
    | succ i =>
      by_cases hrun : ∃ mid, step vm = .ok .running mid
      · obtain ⟨mid, hmid⟩ := hrun
        rw [executing_of_running fuel hmid, List.getElem?_cons_succ, ih,
          runFor_succ_of_running i hmid, Nat.add_lt_add_iff_right]
      -- After a step that does not run on nothing more is executed, and the run has ended.
      · have hnone : (executing (fuel + 1) vm)[i + 1]? = none := by
          rw [executing_of_not_running fuel hrun]
          split <;> simp
        rw [hnone]
        constructor
        · intro h
          cases h
        · intro h
          have hended := (runFor_of_not_running i hrun).1
          rw [h.2.1] at hended
          exact hended.elim

/-- The step counter advances once for each instruction of a run, modulo the width of the counter. -/
theorem runFor_steps (fuel : Nat) (vm : Interpreter) :
    (finalState (runFor fuel vm)).steps = vm.steps + UInt64.ofNat (executing fuel vm).length := by
  induction fuel generalizing vm with
  | zero => simp [runFor, executing, finalState]
  | succ fuel ih =>
    have hsteps := (stepsTo_step vm).steps_eq
    by_cases hrun : ∃ mid, step vm = .ok .running mid
    · obtain ⟨mid, hmid⟩ := hrun
      have hcount : mid.steps = vm.steps + 1 := by
        simpa [hmid, finalState, next?_isSome_of_running hmid] using hsteps
      rw [runFor_succ_of_running fuel hmid, executing_of_running fuel hmid, ih, hcount,
        List.length_cons, UInt64.ofNat_add, UInt64.add_assoc, UInt64.add_comm 1]
      rfl
    · rw [(runFor_of_not_running fuel hrun).2, executing_of_not_running fuel hrun, hsteps]
      split <;> simp

/-! ## Step by step -/

/-- What the first steps of a run come to, each with the state it leaves, up to the first step that
does not run on. -/
def results (next : Session Status) : Nat → Interpreter →
    List (EStateM.Result Failure Interpreter Status)
  | 0, _ => []
  | n + 1, vm => next vm ::
      match next vm with
      | .ok .running u => results next n u
      | _ => []

/-- What a run that starts in an interpreter has come to after its first steps. -/
def endOf : Interpreter → List (EStateM.Result Failure Interpreter Status) →
    EStateM.Result Failure Interpreter Outcome
  | vm, [] => .ok .unfinished vm
  | _, .ok .running u :: rest => endOf u rest
  | _, .ok .halted u :: _ => .ok .halted u
  | _, .ok (.stopped stop) u :: _ => .ok (.stopped stop) u
  | _, .error failure u :: _ => .error failure u

/-- A run comes to what its steps come to. -/
theorem runFor_eq_endOf (n : Nat) (vm : Interpreter) :
    runFor n vm = endOf vm (results step n vm) := by
  induction n generalizing vm with
  | zero => rfl
  | succ n ih =>
    simp only [runFor, results]
    cases step vm with
    | error failure u => rfl
    | ok status u =>
      cases status with
      | running => exact ih u
      | halted => rfl
      | stopped stop => rfl

/-- The end of a run changes with its steps. -/
theorem mapState_endOf (f : Interpreter → Interpreter) (vm : Interpreter)
    (steps : List (EStateM.Result Failure Interpreter Status)) :
    mapState f (endOf vm steps) = endOf (f vm) (steps.map (mapState f)) := by
  induction steps generalizing vm with
  | nil => rfl
  | cons first rest ih =>
    cases first with
    | error failure u => rfl
    | ok status u =>
      cases status with
      | running => exact ih u
      | halted => rfl
      | stopped stop => rfl

section Results

variable {next : Session Status} {P : Nat → Interpreter → Prop}
  (hnext : ∀ n vm u, P (n + 1) vm → next vm = .ok .running u → P n u)

include hnext

/-- Two ways to step that agree up to a change of state, wherever a run gets to, agree on the run. -/
theorem results_map {f : Interpreter → Interpreter} {next' : Session Status}
    (hstep : ∀ n vm, P (n + 1) vm → mapState f (next vm) = next' (f vm)) {n : Nat} {vm : Interpreter}
    (h : P n vm) : (results next n vm).map (mapState f) = results next' n (f vm) := by
  induction n generalizing vm with
  | zero => rfl
  | succ n ih =>
    rw [results, results, List.map_cons, hstep n vm h]
    congr 1
    rw [← hstep n vm h]
    cases hresult : next vm with
    | error failure u => rfl
    | ok status u =>
      cases status with
      | running => exact ih (hnext n vm u h hresult)
      | halted => rfl
      | stopped stop => rfl

/-- What holds of each step wherever a run gets to holds of all steps of the run. -/
theorem results_forall {Q : EStateM.Result Failure Interpreter Status → Prop}
    (hstep : ∀ n vm, P (n + 1) vm → Q (next vm)) {n : Nat} {vm : Interpreter} (h : P n vm) :
    ∀ result ∈ results next n vm, Q result := by
  induction n generalizing vm with
  | zero => simp [results]
  | succ n ih =>
    rw [results, List.forall_mem_cons]
    refine ⟨hstep n vm h, ?_⟩
    split
    · rename_i u hresult
      exact ih (hnext n vm u h hresult)
    · simp

end Results

section Passing

variable {P : Nat → Interpreter → Prop}
  (hnext : ∀ n vm u, P (n + 1) vm → step vm = .ok .running u → P n u)

include hnext

/-- A change of state that commutes with every step of a run commutes with the run. -/
theorem runFor_map {f : Interpreter → Interpreter}
    (hstep : ∀ n vm, P (n + 1) vm → mapState f (step vm) = step (f vm)) {n : Nat} {vm : Interpreter}
    (h : P n vm) : mapState f (runFor n vm) = runFor n (f vm) := by
  rw [runFor_eq_endOf, runFor_eq_endOf, mapState_endOf, results_map hnext hstep h]

/-- What passes on from step to step holds where an unfinished run was left. -/
theorem of_runFor_eq_unfinished {n : Nat} {vm u : Interpreter} (h : P n vm)
    (hrun : runFor n vm = .ok .unfinished u) : P 0 u := by
  induction n generalizing vm with
  | zero =>
    cases hrun
    exact h
  | succ n ih =>
    obtain ⟨mid, hstep, hrest⟩ := exists_running_of_unfinished hrun
    exact ih (hnext n vm mid h hstep) hrest

end Passing

/-! ## Sequences of successful instructions -/

/-- Instructions executed one after another, each with success, and their opcodes in order. -/
inductive Executes : Interpreter → List Opcode → Interpreter → Prop
  | nil (vm : Interpreter) : Executes vm [] vm
  | cons {vm mid u : Interpreter} {op : Opcode} {ops : List Opcode} {status : Status}
      (hop : vm.next? = some op) (hstep : step vm = .ok status mid) (hrest : Executes mid ops u) :
      Executes vm (op :: ops) u

/-- A sequence splits where its trace does. -/
theorem executes_append_iff {vm u : Interpreter} {first second : List Opcode} :
    Executes vm (first ++ second) u ↔ ∃ mid, Executes vm first mid ∧ Executes mid second u := by
  induction first generalizing vm with
  | nil =>
    constructor
    · intro h
      exact ⟨vm, .nil vm, h⟩
    · intro h
      obtain ⟨mid, hfirst, hsecond⟩ := h
      cases hfirst
      exact hsecond
  | cons op first ih =>
    constructor
    · intro h
      cases h with
      | cons hop hstep hrest =>
        obtain ⟨mid, hfirst, hsecond⟩ := ih.mp hrest
        exact ⟨mid, .cons hop hstep hfirst, hsecond⟩
    · intro h
      obtain ⟨mid, hfirst, hsecond⟩ := h
      cases hfirst with
      | cons hop hstep hrest => exact .cons hop hstep (ih.mpr ⟨mid, hrest, hsecond⟩)

/-- A sequence of one instruction is one successful step. -/
theorem executes_singleton_iff {vm u : Interpreter} {op : Opcode} :
    Executes vm [op] u ↔ vm.next? = some op ∧ ∃ status, step vm = .ok status u := by
  constructor
  · intro h
    cases h with
    | cons hop hstep hrest =>
      cases hrest
      exact ⟨hop, _, hstep⟩
  · intro h
    obtain ⟨hop, status, hstep⟩ := h
    exact .cons hop hstep (.nil u)

/-- One successful instruction, seen on the machine. -/
theorem exists_execute_of_executes {vm u : Interpreter} {op : Opcode} (h : Executes vm [op] u) :
    ∃ operand flow m, Machine.execute vm.catalog operand op vm.machine = .ok flow m ∧
      u.machine = { m with pc := flow.target (vm.machine.pc + op.encodedLength) } := by
  obtain ⟨hop, status, hstep⟩ := executes_singleton_iff.mp h
  obtain ⟨operand, flow, m, -, hexecute, -, rfl⟩ := exists_executed_of_step_eq_ok hop hstep
  exact ⟨operand, flow, m, hexecute, rfl⟩

/-- A run follows a sequence of successful instructions to its end, and ends there if the last of
them halts the machine. -/
theorem Executes.runFor_eq {vm u : Interpreter} {ops : List Opcode} (h : Executes vm ops u)
    (hops : ops ≠ []) :
    runFor ops.length vm = .ok (if u.machine.halted then .halted else .unfinished) u := by
  induction h with
  | nil vm => exact absurd rfl hops
  | @cons vm mid u op ops status hop hstep hrest ih =>
    obtain ⟨operand, flow, m, -, -, hstatus, hmid⟩ := exists_executed_of_step_eq_ok hop hstep
    have hhalted : m.halted = mid.machine.halted := by rw [hmid]
    rw [hhalted] at hstatus
    -- Only the last instruction can halt the machine: the others have a successor.
    cases hrest with
    | nil =>
      rw [List.length_singleton, runFor_one, hstep, hstatus]
      cases mid.machine.halted <;> rfl
    | cons hop' hstep' hrest' =>
      have hrunning := (pending?_eq_some_iff.mp (next?_eq_some_iff.mp hop').2).1
      rw [hrunning] at hstatus
      rw [hstatus] at hstep
      rw [List.length_cons, runFor_succ_of_running _ hstep]
      exact ih (List.cons_ne_nil _ _)

/-- A step limit bounds the instructions that can follow each other. -/
theorem Executes.length_le {vm u : Interpreter} {ops : List Opcode} {limit : UInt64}
    (h : Executes vm ops u) (hlimit : vm.config.maxSteps = some limit) (hle : vm.steps ≤ limit) :
    vm.steps.toNat + ops.length ≤ limit.toNat := by
  induction h with
  | nil vm => exact UInt64.le_iff_toNat_le.mp hle
  | @cons vm mid u op ops status hop hstep hrest ih =>
    obtain ⟨operand, flow, m, -, -, -, rfl⟩ := exists_executed_of_step_eq_ok hop hstep
    have hroom := lt_limit_of_next? hop hlimit
    have hcount := toNat_steps_succ hroom
    have hlength := ih hlimit (by
      rw [UInt64.le_iff_toNat_le]
      exact hcount ▸ UInt64.lt_iff_toNat_lt.mp hroom)
    change (vm.steps + 1).toNat + ops.length ≤ limit.toNat at hlength
    rw [List.length_cons]
    omega

/-- The opcodes that a run executes when it is followed for some steps. -/
def trace (fuel : Nat) (vm : Interpreter) : List Opcode :=
  (executing fuel vm).filterMap next?

/-- A step that halts a running machine executes an instruction. -/
theorem next?_isSome_of_halted {vm u : Interpreter} (hrunning : vm.machine.halted = false)
    (h : step vm = .ok .halted u) : vm.next?.isSome := by
  have hstep := stepsTo_step vm
  rw [h] at hstep
  generalize hresult : EStateM.Result.ok Status.halted u = result at hstep
  cases hstep with
  | halted hhalted =>
    rw [hrunning] at hhalted
    cases hhalted
  | executed hop hoperand hexecute => simp [hop]
  | _ => cases hresult

/-- A run that halts has executed its trace, each instruction with success. -/
theorem executes_trace_of_halted {fuel : Nat} {vm u : Interpreter}
    (hrunning : vm.machine.halted = false) (h : runFor fuel vm = .ok .halted u) :
    Executes vm (trace fuel vm) u := by
  induction fuel generalizing vm with
  | zero => cases h
  | succ fuel ih =>
    cases hstep : step vm with
    | error failure mid => simp [runFor, hstep] at h
    | ok status mid =>
      cases status with
      | stopped stop => simp [runFor, hstep] at h
      | running =>
        obtain ⟨op, hop⟩ := Option.isSome_iff_exists.mp (next?_isSome_of_running hstep)
        have htrace : trace (fuel + 1) vm = op :: trace fuel mid := by
          rw [trace, executing_of_running fuel hstep, List.filterMap_cons_some hop]
          rfl
        obtain ⟨operand, flow, m, -, -, hstatus, hmid⟩ := exists_executed_of_step_eq_ok hop hstep
        have hrunning' : mid.machine.halted = false := by
          have hhalted : m.halted = mid.machine.halted := by rw [hmid]
          rw [← hhalted]
          cases hm : m.halted with
          | false => rfl
          | true => simp [hm] at hstatus
        rw [htrace]
        rw [runFor_succ_of_running fuel hstep] at h
        exact .cons hop hstep (ih hrunning' h)
      | halted =>
        obtain ⟨op, hop⟩ := Option.isSome_iff_exists.mp (next?_isSome_of_halted hrunning hstep)
        have htrace : trace (fuel + 1) vm = [op] := by
          rw [trace, executing_of_not_running fuel (by simp [hstep])]
          simp [hop]
        simp only [runFor, hstep, EStateM.Result.ok.injEq, true_and] at h
        rw [htrace, ← h]
        exact .cons hop hstep (.nil mid)

end Interpreter

end ScriptMachine
