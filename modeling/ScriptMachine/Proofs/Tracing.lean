import ScriptMachine.Proofs.CallHistories
import ScriptMachine.Proofs.Resumption

/-!
# Tracing

The configuration can ask for a report of each instruction before it is executed. An interpreter
without these reports, `untraced`, does the same and tells its host the same: forgetting the reports
commutes with every step (`step_untraced`), and so with runs, calls and histories.

The log of a run is the sequence of its instructions, if they are reported, and the warning that the
run ends with, if there is one (`log_runFor`). From this the reports of a run can be counted and
located: `tracing_only_observes`.
-/

namespace ScriptMachine

/-- A change of state does not change the answer. -/
theorem answer_mapState {ε σ τ α : Type} (f : σ → τ) (result : EStateM.Result ε σ α) :
    answer (mapState f result) = answer result := by
  cases result <;> rfl

namespace Interpreter

/-! ## An interpreter without its reports -/

/-- The interpreter without reports of instructions, those already made and those to come. -/
def untraced (vm : Interpreter) : Interpreter :=
  { vm with
    config := { vm.config with traceInstructions := false }
    log := vm.log.filter fun event => event.level ≠ .trace }

section Untraced

variable (vm : Interpreter)

/-- Other events are kept. -/
theorem untraced_logged {event : Event} (h : event.level ≠ .trace) :
    (vm.logged event).untraced = vm.untraced.logged event := by
  simp [untraced, logged, h]

/-- The report of an instruction is forgotten, the count is not. -/
theorem untraced_counted (op : Opcode) : (vm.counted op).untraced = vm.untraced.counted op := by
  cases htrace : vm.config.traceInstructions with
  | false => simp [untraced, counted, htrace]
  | true => simp [untraced, counted, htrace, Event.level]

/-- Without reports the same step is taken. -/
theorem step_untraced : step vm.untraced = mapState untraced (step vm) := by
  suffices hcase : StepsTo vm.untraced (mapState untraced (step vm)) from hcase.eq_step
  have hstep := stepsTo_step vm
  generalize step vm = result at hstep ⊢
  cases hstep with
  | halted hhalted => exact .halted hhalted
  | unreadable hrunning hword => exact .unreadable hrunning hword
  | undecodable hrunning hword hop =>
    rw [mapState, untraced_logged]
    · exact .undecodable hrunning hword hop
    · exact nofun
  | refused hop hlimit hspent =>
    rw [mapState, untraced_logged]
    · exact .refused hop hlimit hspent
    · exact nofun
  | truncated hop hoperand =>
    have hcase : StepsTo vm.untraced _ := .truncated hop hoperand
    rw [← untraced_counted] at hcase
    exact hcase
  | failed hop hoperand hexecute =>
    have hcase : StepsTo vm.untraced _ := .failed hop hoperand hexecute
    rw [← untraced_counted] at hcase
    exact hcase
  | executed hop hoperand hexecute =>
    have hcase : StepsTo vm.untraced _ := .executed hop hoperand hexecute
    rw [← untraced_counted] at hcase
    exact hcase

/-- A run of some steps is the same without reports. -/
theorem runFor_untraced (n : Nat) : runFor n vm.untraced = mapState untraced (runFor n vm) :=
  (runFor_map (P := fun _ _ => True) (fun _ _ _ _ _ => trivial)
    (fun _ u _ => (step_untraced u).symm) trivial).symm

/-- A run is the same without reports. -/
theorem runWithin_untraced (fuel : Nat) :
    runWithin fuel vm.untraced = mapState untraced (runWithin fuel vm) :=
  runFor_untraced vm.restart fuel

/-- The conclusion of a call is the same without reports. -/
theorem conclude_untraced (name : String) (result : EStateM.Result Failure Interpreter Outcome) :
    conclude name (mapState untraced result) = mapState untraced (conclude name result) := by
  match result with
  | .error failure u => rfl
  | .ok (.stopped stop) u => rfl
  | .ok .unfinished u => rfl
  | .ok .halted u =>
    cases htop : u.machine.data.back? with
    | none =>
      have htop' : u.untraced.machine.data.back? = none := htop
      rw [mapState, conclude_of_empty name htop, conclude_of_empty name htop', mapState]
    | some value =>
      have htop' : u.untraced.machine.data.back? = some value := htop
      rw [mapState, conclude_of_result name htop, conclude_of_result name htop', mapState,
        untraced_logged]
      · rfl
      · exact nofun

/-- The reports of a call that was resolved are not among those of instructions. -/
theorem untraced_resolved (name : String) (args : List Value) (procedure : Procedure) (m : Machine) :
    (vm.resolved name args procedure m).untraced = vm.untraced.resolved name args procedure m := by
  have hlog : ((vm.logged (.called name args.length)).logged (.resolved procedure.offset)).untraced =
      (vm.untraced.logged (.called name args.length)).logged (.resolved procedure.offset) := by
    rw [untraced_logged, untraced_logged]
    all_goals exact nofun
  rw [resolved, resolved, ← hlog]
  rfl

/-- A call is the same without reports. -/
theorem callWithin_untraced (fuel : Nat) (name : String) (args : List Value) :
    callWithin fuel name args vm.untraced = mapState untraced (callWithin fuel name args vm) := by
  cases hname : vm.catalog.procedure? name with
  | none =>
    have hname' : vm.untraced.catalog.procedure? name = none := hname
    rw [callWithin_of_unknown fuel args hname, callWithin_of_unknown fuel args hname', mapState,
      untraced_logged]
    exact nofun
  | some procedure =>
    have hname' : vm.untraced.catalog.procedure? name = some procedure := hname
    cases henter : Machine.enter procedure.offset args vm.machine with
    | error fault m =>
      have henter' : Machine.enter procedure.offset args vm.untraced.machine = .error fault m := henter
      rw [callWithin_of_layout_error fuel hname henter,
        callWithin_of_layout_error fuel hname' henter', mapState, untraced_resolved]
    | ok u m =>
      have henter' : Machine.enter procedure.offset args vm.untraced.machine = .ok u m := henter
      rw [callWithin_of_layout fuel hname henter, callWithin_of_layout fuel hname' henter',
        ← untraced_resolved, runWithin_untraced, conclude_untraced]

end Untraced

/-! ## What the host is told -/

/-- What the host is told of an operation. -/
inductive Reply where
  | status (result : Except Failure Status)
  | outcome (result : Except Failure Outcome)
  | value (result : Except Failure (Option Value))
  | edit (result : Except Fault (Option Value))

/-- What the host is told of its own edit of a machine: the fault, or the value that was popped. -/
def editReply : Machine.HostEdit → Machine → Except Fault (Option Value)
  | .push value, m => (fun _ => none) <$> answer (Machine.push value m)
  | .pop, m => some <$> answer (Machine.pop m)
  | .pushReturn value, m => (fun _ => none) <$> answer (Machine.pushReturn value m)
  | .popReturn, m => some <$> answer (Machine.popReturn m)
  | .setPc _, _ => .ok none
  | .reset, _ => .ok none

/-- What the host is told of an operation. -/
def Operation.reply : Operation → Interpreter → Reply
  | step, vm => .status (answer (Interpreter.step vm))
  | run fuel, vm => .outcome (answer (runWithin fuel vm))
  | call fuel name args, vm => .value (answer (callWithin fuel name args vm))
  | edit change, vm => .edit (editReply change vm.machine)

/-- What the host is told of operations in the order of the list. -/
def replies : List Operation → Interpreter → List Reply
  | [], _ => []
  | operation :: history, vm => operation.reply vm :: replies history (operation.perform vm)

/-- The host is told the same of an operation without reports. -/
theorem reply_untraced (operation : Operation) (vm : Interpreter) :
    operation.reply vm.untraced = operation.reply vm := by
  cases operation with
  | step => rw [Operation.reply, step_untraced, answer_mapState, Operation.reply]
  | run fuel => rw [Operation.reply, runWithin_untraced, answer_mapState, Operation.reply]
  | call fuel name args =>
    rw [Operation.reply, callWithin_untraced, answer_mapState, Operation.reply]
  | edit change => rfl

/-- An operation does the same without reports. -/
theorem perform_untraced (operation : Operation) (vm : Interpreter) :
    operation.perform vm.untraced = (operation.perform vm).untraced := by
  cases operation with
  | step => rw [Operation.perform, step_untraced, finalState_mapState, Operation.perform]
  | run fuel => rw [Operation.perform, runWithin_untraced, finalState_mapState, Operation.perform]
  | call fuel name args =>
    rw [Operation.perform, callWithin_untraced, finalState_mapState, Operation.perform]
  | edit change => rfl

/-- Operations in order do the same without reports. -/
theorem after_untraced (history : List Operation) (vm : Interpreter) :
    after history vm.untraced = (after history vm).untraced := by
  induction history generalizing vm with
  | nil => rfl
  | cons operation history ih =>
    change after history (operation.perform vm.untraced) = _
    rw [perform_untraced, ih]
    rfl

/-- The host is told the same of operations in order without reports. -/
theorem replies_untraced (history : List Operation) (vm : Interpreter) :
    replies history vm.untraced = replies history vm := by
  induction history generalizing vm with
  | nil => rfl
  | cons operation history ih =>
    rw [replies, replies, reply_untraced, perform_untraced, ih]

/-! ## The log of a run -/

/-- The report of the instruction that the next step executes, if the configuration asks for it. -/
def report? (vm : Interpreter) : Option Event :=
  if vm.config.traceInstructions then
    vm.next?.map fun op => .executing vm.machine.pc op vm.machine.data.size vm.machine.ret.size
  else none

/-- The warning that a run ends with: that it stopped, or that the step limit cut it. -/
def warning? : EStateM.Result Failure Interpreter Outcome → Option Event
  | .ok (.stopped stop) _ => some (.unimplemented stop.word stop.pc)
  | .ok _ _ => none
  | .error failure vm =>
    match failure.fault with
    | .stepLimit limit => some (.stepLimitReached vm.machine.pc limit)
    | _ => none

/-- The reports of the instructions of a run. -/
def reports (n : Nat) (vm : Interpreter) : List Event :=
  (executing n vm).filterMap report?

section Log

variable {vm : Interpreter}

/-- An instruction is reported when the configuration asks for it and there is one to execute. -/
theorem report?_eq_some_iff {event : Event} :
    vm.report? = some event ↔ vm.config.traceInstructions = true ∧ ∃ op, vm.next? = some op ∧
      event = .executing vm.machine.pc op vm.machine.data.size vm.machine.ret.size := by
  unfold report?
  cases vm.config.traceInstructions with
  | false => simp
  | true => simp [eq_comm]

/-- Without an instruction to execute there is no report. -/
theorem report?_of_next? (h : vm.next? = none) : vm.report? = none := by
  simp [report?, h]

/-- Failures other than by the step limit end without a warning. -/
theorem warning?_of_ne_stepLimit {failure : Failure} {u : Interpreter}
    (h : ∀ limit, failure.fault ≠ .stepLimit limit) : warning? (.error failure u) = none := by
  simp only [warning?]

/-- A fault of reading the code is not one of the step limit. -/
theorem ne_stepLimit_of_ofReading {fault : Fault} (h : fault.ofReading = true) (limit : UInt64) :
    fault ≠ .stepLimit limit := by
  rintro rfl
  cases h

/-- Beginning an instruction reports it if the configuration asks for it. -/
theorem log_counted {op : Opcode} (hop : vm.next? = some op) :
    (vm.counted op).log.toList = vm.log.toList ++ vm.report?.toList := by
  simp only [counted, report?, hop, Option.map_some]
  split
  · exact Array.toList_push
  · exact (List.append_nil _).symm

/-- The log of one step: the report of the instruction that it executes, and the warning that it ends
with. -/
theorem log_runFor_one (vm : Interpreter) :
    (finalState (runFor 1 vm)).log.toList =
      vm.log.toList ++ (vm.report?.toList ++ (warning? (runFor 1 vm)).toList) := by
  rw [runFor_one]
  have hstep := stepsTo_step vm
  generalize step vm = result at hstep ⊢
  cases hstep with
  | halted hhalted =>
    rw [report?_of_next? (next?_eq_none_of_pending? (pending?_of_halted hhalted))]
    simp [finalState, warning?, Status.toOutcome]
  | unreadable hrunning hword =>
    rw [report?_of_next? (next?_eq_none_of_pending? (pending?_of_unreadable hword)),
      warning?_of_ne_stepLimit (ne_stepLimit_of_ofReading (Reader.ofReading_of_wordAt hword))]
    simp [finalState, withCursor]
  | undecodable hrunning hword hop =>
    rw [report?_of_next? (next?_eq_none_of_pending? (pending?_of_undecodable hword hop))]
    simp [finalState, warning?, Status.toOutcome, logged, withCursor]
  | refused hop hlimit hspent =>
    have hwithin := withinLimit_eq_false_iff.mpr ⟨_, hlimit, hspent⟩
    rw [report?_of_next? (by simp [next?, hwithin])]
    simp [finalState, warning?, Failure.atInstruction, logged, withCursor]
  | truncated hop hoperand =>
    rw [warning?_of_ne_stepLimit (ne_stepLimit_of_ofReading (Reader.ofReading_of_operandAt hoperand)),
      Option.toList_none, List.append_nil]
    exact log_counted hop
  | @failed op operand fault m hop hoperand hexecute =>
    have hfault (limit : UInt64) : fault ≠ .stepLimit limit := by
      rintro rfl
      have hforeseen := Machine.execute_raises vm.catalog operand op vm.machine
      rw [hexecute] at hforeseen
      cases hforeseen
    rw [warning?_of_ne_stepLimit hfault, Option.toList_none, List.append_nil]
    exact log_counted hop
  | @executed op operand flow m hop hoperand hexecute =>
    have hquiet (u : Interpreter) :
        warning? (.ok (if m.halted then Status.halted else .running).toOutcome u) = none := by
      cases m.halted <;> rfl
    dsimp only
    rw [hquiet, Option.toList_none, List.append_nil]
    exact log_counted hop

/-- The reports of a run are that of its first step and those of the rest. -/
theorem reports_of_running {u : Interpreter} (n : Nat) (h : step vm = .ok .running u) :
    reports (n + 1) vm = vm.report?.toList ++ reports n u := by
  rw [reports, executing_of_running n h, List.filterMap_cons]
  cases vm.report? <;> rfl

/-- A run that its first step ends has at most the report of that step. -/
theorem reports_of_not_running (n : Nat) (h : ¬ ∃ u, step vm = .ok .running u) :
    reports (n + 1) vm = vm.report?.toList := by
  rw [reports, executing_of_not_running n h]
  cases hop : vm.next? with
  | none => simp [report?_of_next? hop]
  | some op => cases hreport : vm.report? <;> simp [hreport]

/-- The log of a run: the reports of its instructions, and the warning that it ends with. -/
theorem log_runFor (n : Nat) (vm : Interpreter) :
    (finalState (runFor n vm)).log.toList =
      vm.log.toList ++ (reports n vm ++ (warning? (runFor n vm)).toList) := by
  induction n generalizing vm with
  | zero => simp [runFor, finalState, reports, executing, warning?]
  | succ n ih =>
    have hfirst := log_runFor_one vm
    by_cases hrun : ∃ u, step vm = .ok .running u
    · obtain ⟨u, hstep⟩ := hrun
      rw [runFor_one, hstep] at hfirst
      have hlog : u.log.toList = vm.log.toList ++ vm.report?.toList := by
        simpa [finalState, warning?, Status.toOutcome] using hfirst
      rw [runFor_succ_of_running n hstep, ih u, hlog, reports_of_running n hstep]
      simp only [List.append_assoc]
    · have hended : runFor (n + 1) vm = runFor 1 vm := by
        rw [Nat.add_comm]
        exact runFor_add_of_ended n (runFor_of_not_running 0 hrun).1
      rw [hended, reports_of_not_running n hrun]
      exact hfirst

/-! ## Reports and warnings -/

/-- A run ends with a warning when it stopped or the step limit cut it. -/
def endsInWarning : EStateM.Result Failure Interpreter Outcome → Bool
  | .ok (.stopped _) _ => true
  | result => isCut result

/-- A run has a warning when it ends in one. -/
theorem isSome_warning? (result : EStateM.Result Failure Interpreter Outcome) :
    (warning? result).isSome = endsInWarning result := by
  match result with
  | .ok (.stopped stop) u => rfl
  | .ok .halted u => rfl
  | .ok .unfinished u => rfl
  | .error failure u =>
    simp only [warning?, endsInWarning, isCut]
    split <;> simp_all

/-- Warnings have the level of warnings. -/
theorem level_of_warning? {result : EStateM.Result Failure Interpreter Outcome} {event : Event}
    (h : warning? result = some event) : event.level = .warn := by
  unfold warning? at h
  split at h
  · cases h
    rfl
  · cases h
  · split at h <;> cases h
    rfl

/-- Reports have the level of traces. -/
theorem level_of_mem_reports {n : Nat} {event : Event} (h : event ∈ reports n vm) :
    event.level = .trace := by
  obtain ⟨u, -, hreport⟩ := List.mem_filterMap.mp h
  obtain ⟨-, op, -, rfl⟩ := report?_eq_some_iff.mp hreport
  rfl

/-- Of what a run logs, the reports of instructions are those at the level of traces. -/
theorem filter_trace_log (n : Nat) (result : EStateM.Result Failure Interpreter Outcome) :
    (reports n vm ++ (warning? result).toList).filter (fun event => event.level = .trace) =
      reports n vm := by
  have hwarning : (warning? result).toList.filter (fun event => event.level = .trace) = [] := by
    cases hevent : warning? result with
    | none => rfl
    | some event => simp [level_of_warning? hevent]
  rw [List.filter_append, hwarning, List.append_nil, List.filter_eq_self]
  intro event hevent
  exact decide_eq_true (level_of_mem_reports hevent)

/-- Where no entry is dropped, the entries keep their places. -/
private theorem getElem?_filterMap_of_isSome {α β : Type} {f : α → Option β} {l : List α}
    (h : ∀ a ∈ l, (f a).isSome) (i : Nat) : (l.filterMap f)[i]? = l[i]?.bind f := by
  induction l generalizing i with
  | nil => rfl
  | cons a l ih =>
    rw [List.forall_mem_cons] at h
    obtain ⟨b, hb⟩ := Option.isSome_iff_exists.mp h.1
    rw [List.filterMap_cons_some hb]
    cases i with
    | zero => exact hb.symm
    | succ i => exact ih h.2 i

/-- A run does not change the configuration. -/
theorem config_of_mem_executing {n : Nat} {u : Interpreter} (h : u ∈ executing n vm) :
    u.config = vm.config := by
  obtain ⟨i, hi⟩ := List.mem_iff_getElem?.mp h
  have hfixed := (runFor_fixed i vm).2.2
  rw [(getElem?_executing_eq_some_iff.mp hi).2.1] at hfixed
  exact hfixed

/-- Where the configuration asks for reports, every instruction that is executed has one. -/
theorem isSome_report? {n : Nat} {u : Interpreter} (htrace : vm.config.traceInstructions = true)
    (h : u ∈ executing n vm) : u.report?.isSome := by
  obtain ⟨i, hi⟩ := List.mem_iff_getElem?.mp h
  rw [report?, config_of_mem_executing h, if_pos htrace, Option.isSome_map]
  exact (getElem?_executing_eq_some_iff.mp hi).2.2

/-- The instructions of a run that is traced are reported one for one. -/
theorem length_reports (n : Nat) (htrace : vm.config.traceInstructions = true) :
    (reports n vm).length = (executing n vm).length := by
  rw [reports, List.length_filterMap_eq_countP, List.countP_eq_length]
  intro u hu
  exact isSome_report? htrace hu

/-- The report of an instruction tells where it stands and the sizes of the stacks before it. -/
theorem getElem?_reports {n i : Nat} {event : Event} (htrace : vm.config.traceInstructions = true)
    (hended : Ended (runFor n vm)) :
    (reports n vm)[i]? = some event ↔ ∃ u op, runFor i vm = .ok .unfinished u ∧ u.next? = some op ∧
      event = .executing u.machine.pc op u.machine.data.size u.machine.ret.size := by
  rw [reports, getElem?_filterMap_of_isSome (fun _ hu => isSome_report? htrace hu) i,
    Option.bind_eq_some_iff]
  constructor
  · rintro ⟨u, hu, hreport⟩
    obtain ⟨-, op, hop, rfl⟩ := report?_eq_some_iff.mp hreport
    exact ⟨u, op, (getElem?_executing_eq_some_iff.mp hu).2.1, hop, rfl⟩
  · rintro ⟨u, op, hrun, hop, rfl⟩
    -- A run that has ended is not unfinished when it is followed for as long or longer.
    have hlt : i < n := by
      by_contra hle
      obtain ⟨mid, hmid⟩ := exists_unfinished_of_le (Nat.not_lt.mp hle) hrun
      rw [hmid] at hended
      exact hended
    have hu : (executing n vm)[i]? = some u :=
      getElem?_executing_eq_some_iff.mpr ⟨hlt, hrun, hop ▸ rfl⟩
    have hconfig := config_of_mem_executing (List.mem_of_getElem? hu)
    exact ⟨u, hu, report?_eq_some_iff.mpr ⟨hconfig ▸ htrace, op, hop, rfl⟩⟩

/-- What a run logs ends with its one warning, if it ends with a warning. -/
theorem warning_last {n : Nat} {result : EStateM.Result Failure Interpreter Outcome}
    (h : endsInWarning result = true) :
    ∃ earlier warning, reports n vm ++ (warning? result).toList = earlier ++ [warning] ∧
      warning.level = .warn ∧ ∀ event ∈ earlier, event.level ≠ .warn := by
  rw [← isSome_warning?] at h
  obtain ⟨warning, hwarning⟩ := Option.isSome_iff_exists.mp h
  refine ⟨reports n vm, warning, ?_, level_of_warning? hwarning, ?_⟩
  · rw [hwarning]
    rfl
  · intro event hevent
    rw [level_of_mem_reports hevent]
    exact nofun

/-- A run that does not end with a warning logs none. -/
theorem no_warning {n : Nat} {result : EStateM.Result Failure Interpreter Outcome}
    (h : endsInWarning result = false) :
    ∀ event ∈ reports n vm ++ (warning? result).toList, event.level ≠ .warn := by
  rw [← isSome_warning?, Option.isSome_eq_false_iff, Option.isNone_iff_eq_none] at h
  intro event hevent
  rw [h, Option.toList_none, List.append_nil] at hevent
  rw [level_of_mem_reports hevent]
  exact nofun

end Log

/-- Tracing observes and does not interfere.

Two new interpreters whose configurations differ in nothing but the reporting of instructions tell the
host the same of any operations. After them the silent one is the other one without its reports, so
machine and step counter are the same and the log is that of the other one without traces.

What a run adds to the log are the reports of its instructions, if it is traced, and then at most one
warning. If the run has ended and the counter has not overflowed, the reports are as many as the
counted instructions, and each gives the address, the opcode and the sizes of the stacks just before
its instruction, also if that fails. There is a warning exactly if the run stopped or the step limit
cut it. -/
theorem tracing_only_observes :
    (∀ (code : Array UInt8) (catalog : Catalog) (config : Config) (history : List Operation),
      replies history (ofCode code catalog { config with traceInstructions := false }) =
        replies history (ofCode code catalog { config with traceInstructions := true }) ∧
      after history (ofCode code catalog { config with traceInstructions := false }) =
        (after history (ofCode code catalog { config with traceInstructions := true })).untraced) ∧
    ∀ (vm : Interpreter) (fuel : Nat), ∃ emitted,
      (finalState (runWithin fuel vm)).log.toList = vm.log.toList ++ emitted ∧
      (vm.config.traceInstructions = true → Ended (runWithin fuel vm) →
        (executing fuel vm.restart).length < 2 ^ 64 →
        (emitted.filter fun event => event.level = .trace).length =
          (finalState (runWithin fuel vm)).steps.toNat ∧
        ∀ (i : Nat) (event : Event),
          (emitted.filter fun event => event.level = .trace)[i]? = some event ↔
            ∃ u op, runFor i vm.restart = .ok .unfinished u ∧ u.next? = some op ∧
              event = .executing u.machine.pc op u.machine.data.size u.machine.ret.size) ∧
      (vm.config.traceInstructions = false → ∀ event ∈ emitted, event.level ≠ .trace) ∧
      (endsInWarning (runWithin fuel vm) = true → ∃ earlier warning, emitted = earlier ++ [warning] ∧
        warning.level = .warn ∧ ∀ event ∈ earlier, event.level ≠ .warn) ∧
      (endsInWarning (runWithin fuel vm) = false → ∀ event ∈ emitted, event.level ≠ .warn) := by
  constructor
  · intro code catalog config history
    have hstart : ofCode code catalog { config with traceInstructions := false } =
        (ofCode code catalog { config with traceInstructions := true }).untraced := rfl
    rw [hstart]
    exact ⟨replies_untraced history _, after_untraced history _⟩
  · intro vm fuel
    refine ⟨_, log_runFor fuel vm.restart, ?_, ?_, warning_last, no_warning⟩
    · intro htrace hended hcount
      have hrestart : vm.restart.config.traceInstructions = true := htrace
      rw [filter_trace_log, length_reports fuel hrestart, toNat_steps_runWithin hcount]
      exact ⟨rfl, fun i event => getElem?_reports hrestart hended⟩
    · intro hsilent event hevent hlevel
      have hreport : event ∈ reports fuel vm.restart := by
        rw [← filter_trace_log fuel (runFor fuel vm.restart)]
        exact List.mem_filter.mpr ⟨hevent, decide_eq_true hlevel⟩
      obtain ⟨u, hu, hreport⟩ := List.mem_filterMap.mp hreport
      have htrace := (report?_eq_some_iff.mp hreport).1
      rw [config_of_mem_executing hu] at htrace
      exact Bool.false_ne_true (hsilent.symm.trans htrace)

/-- A traced script that pushes one and then stops at a word that is not an instruction. -/
def tracedStop : Interpreter :=
  ofCode #[0x01, 0xC0, 1, 0, 0, 0, 0xFF, 0xFF] .empty
    { Config.standard with traceInstructions := true }

/-- The log of its run is one report and one warning. -/
theorem tracing_only_observes_stop :
    tracedStop.config.traceInstructions = true ∧ Ended (runWithin 2 tracedStop) ∧
      (executing 2 tracedStop.restart).length < 2 ^ 64 ∧
      endsInWarning (runWithin 2 tracedStop) = true ∧
      (finalState (runWithin 2 tracedStop)).log =
        #[.executing 0 .pushD 0 0, .unimplemented 0xFFFF 6] ∧
      ∃ emitted, (finalState (runWithin 2 tracedStop)).log.toList = tracedStop.log.toList ++ emitted ∧
        (emitted.filter fun event => event.level = .trace).length =
          (finalState (runWithin 2 tracedStop)).steps.toNat ∧
        ∃ earlier warning, emitted = earlier ++ [warning] ∧ warning.level = .warn := by
  have hended : Ended (runWithin 2 tracedStop) := trivial
  have hcount : (executing 2 tracedStop.restart).length < 2 ^ 64 := by decide +kernel
  have hwarns : endsInWarning (runWithin 2 tracedStop) = true := by decide +kernel
  obtain ⟨emitted, hlog, hreports, -, hlast, -⟩ := tracing_only_observes.2 tracedStop 2
  obtain ⟨earlier, warning, hemitted, hlevel, -⟩ := hlast hwarns
  exact ⟨rfl, hended, hcount, hwarns, by decide +kernel, emitted, hlog,
    (hreports rfl hended hcount).1, earlier, warning, hemitted, hlevel⟩

end Interpreter

end ScriptMachine
