import Mathlib.Algebra.Order.Floor.Div
import ScriptMachine.Proofs.Instructions
import ScriptMachine.Proofs.Simulations
import ScriptMachine.Proofs.StepLimit

/-!
# Resuming a run that the step limit cut

A run that is cut leaves the machine before the instruction that was refused, so it can be run again
from there. `Resumes` is the sequence of runs that comes of doing this until a run is not cut. It
follows the run without a limit in segments of as many instructions as the limit allows
(`resumed_runs`).

Each segment but the last is a `Segment`. What remains of the run without a limit and the run that is
resumed differ in their counters, cursors and logs, and so are on the same course.
-/

namespace ScriptMachine.Interpreter

/-! ## Runs that are cut -/

/-- Whether a run was cut by the step limit. -/
def isCut : EStateM.Result Failure Interpreter Outcome → Bool
  | .ok .. => false
  | .error failure _ =>
    match failure.fault with
    | .stepLimit _ => true
    | _ => false

/-- Run, and run again for as long as the step limit cuts the run. -/
inductive Resumes : Interpreter → List (EStateM.Result Failure Interpreter Outcome) → Prop
  | last {vm : Interpreter} (h : isCut (run vm) = false) : Resumes vm [run vm]
  | again {vm : Interpreter} {rest : List (EStateM.Result Failure Interpreter Outcome)}
      (h : isCut (run vm) = true) (hrest : Resumes (finalState (run vm)) rest) :
      Resumes vm (run vm :: rest)

/-- There is one sequence of runs. -/
theorem Resumes.unique {vm : Interpreter}
    {runs runs' : List (EStateM.Result Failure Interpreter Outcome)} (h : Resumes vm runs)
    (h' : Resumes vm runs') : runs = runs' := by
  induction h generalizing runs' with
  | last hcut =>
    cases h' with
    | last _ => rfl
    | again hcut' _ =>
      rw [hcut] at hcut'
      cases hcut'
  | again hcut _ ih =>
    cases h' with
    | last hcut' =>
      rw [hcut] at hcut'
      cases hcut'
    | again _ hrest' => rw [ih hrest']

/-- Whether a run was cut does not depend on the state it is in. -/
theorem isCut_mapState {f : Interpreter → Interpreter}
    {result : EStateM.Result Failure Interpreter Outcome} :
    isCut (mapState f result) = isCut result := by
  cases result <;> rfl

/-- Only a step limit that is set can be reported as used up. -/
theorem maxSteps_of_step_eq_stepLimit {vm u : Interpreter} {site : Option Site} {limit : UInt64}
    (h : step vm = .error ⟨.stepLimit limit, site⟩ u) : vm.config.maxSteps = some limit := by
  have hstep := stepsTo_step vm
  rw [h] at hstep
  generalize hresult : EStateM.Result.error (⟨.stepLimit limit, site⟩ : Failure) u = result at hstep
  cases hstep with
  | halted | undecodable | executed => cases hresult
  | refused hop hlimit hspent =>
    cases hresult
    exact hlimit
  -- The other faults come from reading the code or from the instruction.
  | unreadable hrunning hword =>
    cases hresult
    cases Reader.ofReading_of_wordAt hword
  | truncated hop hoperand =>
    cases hresult
    cases Reader.ofReading_of_operandAt hoperand
  | @failed op operand fault m hop hoperand hexecute =>
    cases hresult
    have hforeseen := Machine.execute_raises vm.catalog operand op vm.machine
    rw [hexecute] at hforeseen
    cases hforeseen

/-- A run without a limit is not cut. -/
theorem isCut_runFor_of_unlimited (n : Nat) {vm : Interpreter} (h : vm.config.maxSteps = none) :
    isCut (runFor n vm) = false := by
  induction n generalizing vm with
  | zero => rfl
  | succ n ih =>
    have hconfig := (stepsTo_step vm).fixed.2.2
    simp only [runFor]
    split
    · rename_i u hstep
      rw [hstep] at hconfig
      exact ih ((congrArg Config.maxSteps hconfig).trans h)
    · rfl
    · rfl
    · rename_i failure u hstep
      obtain ⟨fault, site⟩ := failure
      cases fault with
      | stepLimit limit =>
        rw [maxSteps_of_step_eq_stepLimit hstep] at h
        cases h
      | _ => rfl

/-! ## Segments of a run -/

/-- A run goes on from where it was left, with the instructions that remain. -/
theorem length_executing_add {n : Nat} {vm u : Interpreter} (more : Nat)
    (h : runFor n vm = .ok .unfinished u) :
    (executing (n + more) vm).length = n + (executing more u).length := by
  induction n generalizing vm with
  | zero =>
    cases h
    rw [Nat.zero_add, Nat.zero_add]
  | succ n ih =>
    obtain ⟨mid, hstep, hrest⟩ := exists_running_of_unfinished h
    rw [Nat.add_right_comm, executing_of_running _ hstep, List.length_cons, ih hrest]
    omega

/-- A limit that is set already can be set again. -/
theorem withMaxSteps_of_maxSteps {vm : Interpreter} {limit : Option UInt64}
    (h : vm.config.maxSteps = limit) : vm.withMaxSteps limit = vm := by
  subst h
  rfl

/-- The run is cut, and what the run without a limit has left is on the course of the next run. -/
structure Segment (limit : UInt64) (vm u : Interpreter) : Prop where
  unfinished : runFor limit.toNat (vm.withMaxSteps none).restart = .ok .unfinished u
  cut : isCut (run vm) = true
  counted : (finalState (run vm)).steps = limit
  limited : (finalState (run vm)).config.maxSteps = some limit
  course : ∃ lead, SameCourse lead u ((finalState (run vm)).withMaxSteps none).restart

section Limited

variable {vm u : Interpreter} {limit : UInt64} (hmax : vm.config.maxSteps = some limit)

include hmax

/-- A run under a limit is followed for one step more than the limit. -/
private theorem run_of_limited :
    run vm = runFor (limit.toNat + 1) ((vm.withMaxSteps none).restart.withMaxSteps (some limit)) := by
  rw [← withMaxSteps_of_maxSteps hmax]
  rfl

/-- A run whose instructions are more than the limit is cut to a segment. -/
theorem segment_of_executing
    (h : (executing (limit.toNat + 1) (vm.withMaxSteps none).restart)[limit.toNat]? = some u) :
    Segment limit vm u := by
  obtain ⟨-, hunfinished, -⟩ := getElem?_executing_eq_some_iff.mp h
  obtain ⟨op, hop, hsteps, hcut⟩ := runFor_withMaxSteps_of_long rfl rfl h
  have hrun := (run_of_limited hmax).trans hcut
  have hrunning := (pending?_eq_some_iff.mp hop).1
  have hconfig := (runFor_fixed limit.toNat (vm.withMaxSteps none).restart).2.2
  rw [hunfinished] at hconfig
  refine ⟨hunfinished, ?_, ?_, ?_, 0 - u.steps, ?_⟩
  · rw [hrun]
    rfl
  · rw [hrun]
    exact hsteps
  · rw [hrun]
    rfl
  · rw [hrun]
    have hunlimited : u.config.maxSteps = none := congrArg Config.maxSteps hconfig
    exact {
      bytes := rfl
      catalog := rfl
      machine := by
        change { u.machine with halted := false } = u.machine
        rw [← hrunning]
      limit := hunlimited.symm
      counter := by
        change 0 = u.steps + (0 - u.steps)
        rw [UInt64.add_comm, UInt64.sub_add_cancel]
      unlimited := .inr hunlimited }

end Limited

/-! ## Sequences of runs -/

/-- A sequence of runs follows a run without a limit to its end. -/
structure Completes (limit : UInt64) (result : EStateM.Result Failure Interpreter Outcome)
    (count : Nat) (runs : List (EStateM.Result Failure Interpreter Outcome)) : Prop where
  /-- The last run comes to the same and leaves the same machine. -/
  last : runs.getLast?.map (mapState machine) = some (mapState machine result)
  /-- The runs together execute its instructions. -/
  counted : (runs.map fun r => (finalState r).steps.toNat).sum = count
  /-- Only as many runs are cut as the instructions make necessary. -/
  cuts : runs.countP isCut = if count = 0 then 0 else count ⌈/⌉ limit.toNat - 1

/-- As long as the counter has room, it has the number of the instructions of the run. -/
theorem toNat_steps_runWithin {fuel : Nat} {vm : Interpreter}
    (h : (executing fuel vm.restart).length < 2 ^ 64) :
    (finalState (runWithin fuel vm)).steps.toNat = (executing fuel vm.restart).length := by
  change (finalState (runFor fuel vm.restart)).steps.toNat = _
  rw [runFor_steps]
  change (0 + UInt64.ofNat _).toNat = _
  rw [UInt64.zero_add, UInt64.toNat_ofNat', Nat.mod_eq_of_lt h]

/-- A run without a limit whose instructions are no more than the limit is completed by one run. -/
theorem completes_of_length_le {limit : UInt64} {vm : Interpreter} {fuel : Nat} (hlimit : 0 < limit)
    (hmax : vm.config.maxSteps = some limit)
    (hended : Ended (runWithin fuel (vm.withMaxSteps none)))
    (hle : (executing fuel (vm.withMaxSteps none).restart).length ≤ limit.toNat) :
    Resumes vm [run vm] ∧ Completes limit (runWithin fuel (vm.withMaxSteps none))
      (executing fuel (vm.withMaxSteps none).restart).length [run vm] := by
  have hrun := run_withMaxSteps_of_length_le hended hle
  rw [withMaxSteps_of_maxSteps hmax] at hrun
  have hcut : isCut (run vm) = false := by
    rw [hrun, isCut_mapState]
    exact isCut_runFor_of_unlimited fuel rfl
  refine ⟨.last hcut, ?_, ?_, ?_⟩
  · rw [hrun, List.getLast?_singleton, Option.map_some]
    cases runWithin fuel (vm.withMaxSteps none) <;> rfl
  · rw [List.map_singleton, List.sum_singleton, hrun, finalState_mapState]
    exact toNat_steps_runWithin (Nat.lt_of_le_of_lt hle limit.toNat_lt)
  · have hpos : 0 < limit.toNat := UInt64.lt_iff_toNat_lt.mp hlimit
    have hone : (executing fuel (vm.withMaxSteps none).restart).length ⌈/⌉ limit.toNat ≤ 1 := by
      rw [ceilDiv_le_iff_le_mul hpos, Nat.mul_one]
      exact hle
    rw [List.countP_singleton, hcut, Nat.sub_eq_zero_of_le hone, ite_self]
    rfl

/-- A segment and the runs that complete what is left complete the run. -/
theorem Segment.completes {limit : UInt64} {vm u : Interpreter} {more : Nat}
    {runs : List (EStateM.Result Failure Interpreter Outcome)} (h : Segment limit vm u)
    (hlimit : 0 < limit) (hmore : 0 < (executing more u).length)
    (hruns : Completes limit (runWithin more ((finalState (run vm)).withMaxSteps none))
      (executing more ((finalState (run vm)).withMaxSteps none).restart).length runs) :
    Completes limit (runWithin (limit.toNat + more) (vm.withMaxSteps none))
      (executing (limit.toNat + more) (vm.withMaxSteps none).restart).length (run vm :: runs) := by
  obtain ⟨lead, hcourse⟩ := h.course
  have hlength := hcourse.length_executing more
  have hlast : mapState machine (runFor more u) =
      mapState machine (runWithin more ((finalState (run vm)).withMaxSteps none)) :=
    (hcourse.runFor more).mapState_eq fun _ _ hsame => hsame.machine.symm
  have hpos : 0 < limit.toNat := UInt64.lt_iff_toNat_lt.mp hlimit
  refine ⟨?_, ?_, ?_⟩
  · change _ = some (mapState machine (runFor (limit.toNat + more) (vm.withMaxSteps none).restart))
    rw [runFor_add_of_unfinished more h.unfinished, hlast, ← hruns.last]
    obtain ⟨final, hfinal, -⟩ := Option.map_eq_some_iff.mp hruns.last
    rw [List.getLast?_cons, hfinal]
    rfl
  · rw [List.map_cons, List.sum_cons, hruns.counted, h.counted, length_executing_add more h.unfinished,
      hlength]
  · have hceil : (limit.toNat + (executing more u).length) ⌈/⌉ limit.toNat =
        (executing more u).length ⌈/⌉ limit.toNat + 1 := by
      rw [Nat.ceilDiv_eq_add_pred_div, Nat.ceilDiv_eq_add_pred_div, ← Nat.add_div_right _ hpos]
      congr 1
      omega
    have hone : 0 < (executing more u).length ⌈/⌉ limit.toNat := by
      rw [Nat.ceilDiv_eq_add_pred_div]
      exact Nat.div_pos (by omega) hpos
    rw [List.countP_cons_of_pos h.cut, hruns.cuts, length_executing_add more h.unfinished, ← hlength,
      hceil, if_neg (by omega), if_neg (by omega)]
    omega

/-- When the run without a limit ends, a sequence of runs completes it. -/
theorem exists_resumes {limit : UInt64} {vm : Interpreter} {fuel : Nat} (hlimit : 0 < limit)
    (hmax : vm.config.maxSteps = some limit)
    (hended : Ended (runWithin fuel (vm.withMaxSteps none))) :
    ∃ runs, Resumes vm runs ∧ Completes limit (runWithin fuel (vm.withMaxSteps none))
      (executing fuel (vm.withMaxSteps none).restart).length runs := by
  -- The induction is on the number of instructions: every segment takes some of them away.
  induction hcount : (executing fuel (vm.withMaxSteps none).restart).length
    using Nat.strongRecOn generalizing vm fuel with
  | ind count ih =>
    subst hcount
    rcases Nat.lt_or_ge limit.toNat (executing fuel (vm.withMaxSteps none).restart).length with
      hlong | hshort
    · obtain ⟨hfuel, hunfinished, hnext⟩ :=
        getElem?_executing_eq_some_iff.mp (List.getElem?_eq_getElem hlong)
      obtain ⟨more, rfl⟩ := Nat.exists_eq_add_of_le (Nat.le_of_lt hfuel)
      have hsegment := segment_of_executing hmax
        (getElem?_executing_eq_some_iff.mpr ⟨Nat.lt_succ_self _, hunfinished, hnext⟩)
      obtain ⟨lead, hcourse⟩ := hsegment.course
      have hended' : Ended (runWithin more ((finalState (run vm)).withMaxSteps none)) := by
        refine (hcourse.runFor more).ended_iff.mp ?_
        rw [← runFor_add_of_unfinished more hunfinished]
        exact hended
      have hpos : 0 < limit.toNat := UInt64.lt_iff_toNat_lt.mp hlimit
      have hcount := length_executing_add more hunfinished
      have hcount' := hcourse.length_executing more
      obtain ⟨runs, hruns, hcompletes⟩ := ih _ (by omega) hsegment.limited hended' rfl
      exact ⟨_, .again hsegment.cut hruns, hsegment.completes hlimit (by omega) hcompletes⟩
    · exact ⟨_, completes_of_length_le hlimit hmax hended hshort⟩

/-- When a sequence of runs ends, so does the run without a limit. -/
theorem Resumes.exists_ended {limit : UInt64} {vm : Interpreter}
    {runs : List (EStateM.Result Failure Interpreter Outcome)} (h : Resumes vm runs)
    (hmax : vm.config.maxSteps = some limit) :
    ∃ fuel, Ended (runWithin fuel (vm.withMaxSteps none)) := by
  induction h with
  | @last vm hcut =>
    cases hentry : (executing (limit.toNat + 1) (vm.withMaxSteps none).restart)[limit.toNat]? with
    | none => exact ⟨_, (runFor_withMaxSteps_of_short rfl rfl hentry).1⟩
    | some u =>
      rw [(segment_of_executing hmax hentry).cut] at hcut
      cases hcut
  | @again vm rest hcut hrest ih =>
    cases hentry : (executing (limit.toNat + 1) (vm.withMaxSteps none).restart)[limit.toNat]? with
    | none => exact ⟨_, (runFor_withMaxSteps_of_short rfl rfl hentry).1⟩
    | some u =>
      have hsegment := segment_of_executing hmax hentry
      obtain ⟨more, hended⟩ := ih hsegment.limited
      obtain ⟨lead, hcourse⟩ := hsegment.course
      refine ⟨limit.toNat + more, ?_⟩
      change Ended (runFor (limit.toNat + more) (vm.withMaxSteps none).restart)
      rw [runFor_add_of_unfinished more hsegment.unfinished]
      exact (hcourse.runFor more).ended_iff.mpr hended

/-- A run that the step limit cuts can be resumed.

Run again and again under a limit of at least one instruction, for as long as the limit cuts the run.
This ends exactly when the run without a limit ends. The last run then comes to the same and leaves
the same machine. The step counters of all runs add up to the instructions of the run without a
limit, and a run of `k` instructions is cut `⌈k / limit⌉ - 1` times, or not at all if `k` is zero. -/
theorem resumed_runs (vm : Interpreter) {limit : UInt64} (hlimit : 0 < limit) :
    ((∃ runs, Resumes (vm.withMaxSteps (some limit)) runs) ↔
      ∃ fuel, Ended (runWithin fuel (vm.withMaxSteps none))) ∧
    ∀ runs fuel, Resumes (vm.withMaxSteps (some limit)) runs →
      Ended (runWithin fuel (vm.withMaxSteps none)) →
        Completes limit (runWithin fuel (vm.withMaxSteps none))
          (executing fuel (vm.withMaxSteps none).restart).length runs := by
  have hmax : (vm.withMaxSteps (some limit)).config.maxSteps = some limit := rfl
  refine ⟨⟨?_, ?_⟩, ?_⟩
  · intro h
    obtain ⟨runs, hruns⟩ := h
    exact hruns.exists_ended hmax
  · intro h
    obtain ⟨fuel, hended⟩ := h
    obtain ⟨runs, hruns, -⟩ := exists_resumes hlimit hmax hended
    exact ⟨runs, hruns⟩
  · intro runs fuel hruns hended
    obtain ⟨runs', hruns', hcompletes⟩ := exists_resumes hlimit hmax hended
    rw [hruns.unique hruns']
    exact hcompletes

/-- A critical section with nothing in it and the end of the program, three instructions. -/
def threeInstructions : Interpreter :=
  ofCode #[0x02, 0x80, 0x03, 0x80, 0x10, 0x80] .empty .standard

/-- Under a limit of two, three instructions are completed by two runs, of which one is cut. -/
theorem resumed_runs_threeInstructions :
    (0 : UInt64) < 2 ∧ Ended (runWithin 3 (threeInstructions.withMaxSteps none)) ∧
      ∃ runs, Resumes (threeInstructions.withMaxSteps (some 2)) runs ∧ runs.countP isCut = 1 := by
  have hlimit : (0 : UInt64) < 2 := by decide
  have hended : Ended (runWithin 3 (threeInstructions.withMaxSteps none)) := trivial
  have hlength : (executing 3 (threeInstructions.withMaxSteps none).restart).length = 3 := by
    decide +kernel
  obtain ⟨hends, hcompletes⟩ := resumed_runs threeInstructions hlimit
  obtain ⟨runs, hruns⟩ := hends.mpr ⟨3, hended⟩
  have hcuts := (hcompletes runs 3 hruns hended).cuts
  rw [hlength] at hcuts
  exact ⟨hlimit, hended, runs, hruns, hcuts⟩

end ScriptMachine.Interpreter
