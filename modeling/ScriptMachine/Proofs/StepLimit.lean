import ScriptMachine.Proofs.Calls

/-!
# The step limit

A step limit only truncates. The limited run goes step by step with the run without a limit, until
that ends or has executed as many instructions as the limit allows. In the second case the limited
run fails at the instruction that would be the next, and leaves the machine as it found it.

The limit is looked at after decoding. So a run that ends at a word it cannot read or decode ends in
the same way under a limit it has just used up.
-/

namespace ScriptMachine.Interpreter

/-- Replace the step limit. -/
def withMaxSteps (vm : Interpreter) (limit : Option UInt64) : Interpreter :=
  { vm with config := { vm.config with maxSteps := limit } }

/-! ## One step -/

/-- A limit allows an instruction as long as fewer have been counted. -/
theorem withinLimit_withMaxSteps {u : Interpreter} {limit : UInt64} :
    (u.withMaxSteps (some limit)).withinLimit = true ↔ u.steps < limit := by
  simp only [withinLimit, withMaxSteps, Option.all_some]
  exact decide_eq_true_iff

/-- While the limit is not used up, or no instruction is pending, a limited step is the step without
a limit. -/
theorem step_withMaxSteps {u : Interpreter} {limit : UInt64} (hunlimited : u.config.maxSteps = none)
    (h : u.steps < limit ∨ u.pending? = none) :
    step (u.withMaxSteps (some limit)) = mapState (·.withMaxSteps (some limit)) (step u) := by
  have hnext {op : Opcode} (hop : u.next? = some op) :
      (u.withMaxSteps (some limit)).next? = some op := by
    have hpending := (next?_eq_some_iff.mp hop).2
    refine next?_eq_some_iff.mpr ⟨withinLimit_withMaxSteps.mpr ?_, hpending⟩
    rcases h with hroom | hnone
    · exact hroom
    · rw [hnone] at hpending
      cases hpending
  have hstep := stepsTo_step u
  generalize step u = result at hstep ⊢
  apply StepsTo.eq_step
  cases hstep with
  | halted hhalted => exact .halted hhalted
  | unreadable hrunning hword => exact .unreadable hrunning hword
  | undecodable hrunning hword hop => exact .undecodable hrunning hword hop
  | refused hop hlimit hspent =>
    rw [hunlimited] at hlimit
    cases hlimit
  | truncated hop hoperand => exact .truncated (hnext hop) hoperand
  | failed hop hoperand hexecute => exact .failed (hnext hop) hoperand hexecute
  | executed hop hoperand hexecute => exact .executed (hnext hop) hoperand hexecute

/-- Without a limit, the pending instruction is the next. -/
theorem next?_of_unlimited {u : Interpreter} (h : u.config.maxSteps = none) :
    u.next? = u.pending? := by
  simp [next?, withinLimit, h]

/-- A step that runs on has counted one instruction, without loss while the counter has room. -/
theorem toNat_steps_of_running {u mid : Interpreter} (h : step u = .ok .running mid)
    (hroom : u.steps.toNat + 1 < 2 ^ 64) : mid.steps.toNat = u.steps.toNat + 1 := by
  have hsteps := (stepsTo_step u).steps_eq
  rw [h, if_pos (next?_isSome_of_running h)] at hsteps
  change mid.steps = u.steps + 1 at hsteps
  rw [hsteps, UInt64.toNat_add]
  exact Nat.mod_eq_of_lt hroom

/-! ## Whole runs -/

/-- Before the limit is used up, limited and unlimited runs agree. -/
theorem runFor_withMaxSteps {u : Interpreter} (n : Nat) (limit : UInt64)
    (hunlimited : u.config.maxSteps = none) (hroom : u.steps.toNat + n ≤ limit.toNat) :
    runFor n (u.withMaxSteps (some limit)) = mapState (·.withMaxSteps (some limit)) (runFor n u) := by
  have hlimit := limit.toNat_lt
  refine (runFor_map (f := fun u => u.withMaxSteps (some limit))
    (P := fun n u => u.config.maxSteps = none ∧ u.steps.toNat + n ≤ limit.toNat)
    ?_ ?_ ⟨hunlimited, hroom⟩).symm
  · intro n u mid hu hstep
    have hcount := toNat_steps_of_running hstep (by omega)
    have hfixed := (stepsTo_step u).fixed.2.2
    rw [hstep] at hfixed
    exact ⟨(congrArg Config.maxSteps hfixed).trans hu.1, by omega⟩
  · intro n u hu
    have hlt : u.steps < limit := by
      rw [UInt64.lt_iff_toNat_lt]
      omega
    exact (step_withMaxSteps hu.1 (.inl hlt)).symm

/-- Once as many instructions are counted as the limit allows, the pending instruction is refused. -/
theorem step_withMaxSteps_of_spent {u : Interpreter} {limit : UInt64} {op : Opcode}
    (hspent : limit ≤ u.steps) (hop : u.pending? = some op) :
    step (u.withMaxSteps (some limit)) =
      .error (.atInstruction u.machine.pc op.mnemonic (.stepLimit limit))
        (((u.withMaxSteps (some limit)).withCursor (u.machine.pc + 2)).logged
          (.stepLimitReached u.machine.pc limit)) :=
  StepsTo.eq_step (.refused hop rfl hspent)

/-- An unlimited run that goes on after `n` steps has counted `n` instructions. -/
theorem toNat_steps_of_unfinished {n : Nat} {u v : Interpreter} (h : runFor n u = .ok .unfinished v)
    (hroom : u.steps.toNat + n < 2 ^ 64) : v.steps.toNat = u.steps.toNat + n := by
  induction n generalizing v with
  | zero =>
    cases h
    rfl
  | succ n ih =>
    obtain ⟨mid, hmid, hstep⟩ := runFor_succ_eq_unfinished_iff.mp h
    have hbefore := ih hmid (by omega)
    rw [toNat_steps_of_running hstep (by omega), hbefore, Nat.add_assoc]

/-- A run without a limit stays without one. -/
private theorem maxSteps_of_unfinished {n : Nat} {u v : Interpreter}
    (hunlimited : u.config.maxSteps = none) (h : runFor n u = .ok .unfinished v) :
    v.config.maxSteps = none := by
  have hconfig := (runFor_fixed n u).2.2
  rw [h] at hconfig
  exact (congrArg Config.maxSteps hconfig).trans hunlimited

/-- A run without a limit that does not execute an instruction with the index `limit` ends in the
same way under the limit. -/
theorem runFor_withMaxSteps_of_short {u : Interpreter} {limit : UInt64}
    (hunlimited : u.config.maxSteps = none) (hzero : u.steps = 0)
    (hshort : (executing (limit.toNat + 1) u)[limit.toNat]? = none) :
    Ended (runFor (limit.toNat + 1) u) ∧
      runFor (limit.toNat + 1) (u.withMaxSteps (some limit)) =
        mapState (·.withMaxSteps (some limit)) (runFor (limit.toNat + 1) u) := by
  have hagree := runFor_withMaxSteps limit.toNat limit hunlimited (by simp [hzero])
  by_cases hended : Ended (runFor limit.toNat u)
  · have hended' : Ended (runFor limit.toNat (u.withMaxSteps (some limit))) := by
      rw [hagree]
      exact ended_mapState.mpr hended
    rw [runFor_add_of_ended 1 hended, runFor_add_of_ended 1 hended', hagree]
    exact ⟨hended, rfl⟩
  · obtain ⟨v, hv⟩ := exists_unfinished_of_not_ended hended
    have hnone : ¬ v.next?.isSome := by
      intro hsome
      have hentry := getElem?_executing_eq_some_iff.mpr ⟨Nat.lt_succ_self _, hv, hsome⟩
      rw [hshort] at hentry
      cases hentry
    have hv' : runFor limit.toNat (u.withMaxSteps (some limit)) =
        .ok .unfinished (v.withMaxSteps (some limit)) := by
      rw [hagree, hv]
      rfl
    have hunlimited' := maxSteps_of_unfinished hunlimited hv
    have hstep : step (v.withMaxSteps (some limit)) =
        mapState (·.withMaxSteps (some limit)) (step v) := by
      refine step_withMaxSteps hunlimited' (.inr ?_)
      simpa [next?_of_unlimited hunlimited'] using hnone
    rw [runFor_add_of_unfinished 1 hv, runFor_add_of_unfinished 1 hv']
    refine ⟨(runFor_of_not_running 0 ?_).1, ?_⟩
    · intro hrun
      obtain ⟨w, hrunning⟩ := hrun
      exact hnone (next?_isSome_of_running hrunning)
    · rw [runFor_one, runFor_one, hstep]
      cases step v <;> rfl

/-- A run without a limit that executes an instruction with the index `limit` is cut there. -/
theorem runFor_withMaxSteps_of_long {u v : Interpreter} {limit : UInt64}
    (hunlimited : u.config.maxSteps = none) (hzero : u.steps = 0)
    (hlong : (executing (limit.toNat + 1) u)[limit.toNat]? = some v) :
    ∃ op, v.pending? = some op ∧ v.steps = limit ∧
      runFor (limit.toNat + 1) (u.withMaxSteps (some limit)) =
        .error (.atInstruction v.machine.pc op.mnemonic (.stepLimit limit))
          (((v.withMaxSteps (some limit)).withCursor (v.machine.pc + 2)).logged
            (.stepLimitReached v.machine.pc limit)) := by
  obtain ⟨-, hv, hnext⟩ := getElem?_executing_eq_some_iff.mp hlong
  have hunlimited' := maxSteps_of_unfinished hunlimited hv
  rw [next?_of_unlimited hunlimited'] at hnext
  obtain ⟨op, hop⟩ := Option.isSome_iff_exists.mp hnext
  have hsteps : v.steps = limit := by
    have hlimit := limit.toNat_lt
    have hcount := toNat_steps_of_unfinished hv (by rw [hzero]; simpa using hlimit)
    apply UInt64.toNat_inj.mp
    simpa [hzero] using hcount
  have hv' : runFor limit.toNat (u.withMaxSteps (some limit)) =
      .ok .unfinished (v.withMaxSteps (some limit)) := by
    rw [runFor_withMaxSteps limit.toNat limit hunlimited (by simp [hzero]), hv]
    rfl
  refine ⟨op, hop, hsteps, ?_⟩
  rw [runFor_add_of_unfinished 1 hv', runFor_one,
    step_withMaxSteps_of_spent (UInt64.le_of_eq hsteps.symm) hop]

/-! ## The counter of a reachable interpreter -/

/-- The step counter of a reachable interpreter has not passed the limit. -/
theorem Reachable.steps_le {code : Array UInt8} {catalog : Catalog} {config : Config}
    {limit : UInt64} {vm : Interpreter} (hlimit : config.maxSteps = some limit)
    (h : Reachable code catalog config vm) : vm.config = config ∧ vm.steps ≤ limit := by
  refine h.preserves (P := fun vm => vm.config = config ∧ vm.steps ≤ limit) ?_ ?_ ?_ ?_ ?_
  · exact ⟨rfl, UInt64.zero_le⟩
  · intro vm hvm
    obtain ⟨hconfig, hle⟩ := hvm
    refine ⟨(stepsTo_step vm).fixed.2.2.trans hconfig, ?_⟩
    rw [(stepsTo_step vm).steps_eq]
    split
    · rename_i hnext
      obtain ⟨op, hop⟩ := Option.isSome_iff_exists.mp hnext
      have hroom := lt_limit_of_next? hop (hconfig ▸ hlimit)
      rw [UInt64.le_iff_toNat_le, toNat_steps_succ hroom]
      exact UInt64.lt_iff_toNat_lt.mp hroom
    · exact hle
  · intro vm hvm
    exact ⟨hvm.1, UInt64.zero_le⟩
  · intro vm m hvm
    exact hvm
  · intro vm event hvm
    exact hvm

/-- The run of `vm` under a limit is cut before the instruction that `u` is about to execute. -/
def CutAt (vm : Interpreter) (limit : UInt64) (u : Interpreter) : Prop :=
  ∃ op final, u.pending? = some op ∧
    run (vm.withMaxSteps (some limit)) =
      .error (.atInstruction u.machine.pc op.mnemonic (.stepLimit limit)) final ∧
    final.machine = u.machine ∧ final.steps = limit

/-- A run under a limit is followed for one step more than the limit. -/
private theorem run_withMaxSteps (vm : Interpreter) (limit : UInt64) :
    run (vm.withMaxSteps (some limit)) =
      runFor (limit.toNat + 1) ((vm.withMaxSteps none).restart.withMaxSteps (some limit)) := rfl

/-- The limit cuts the run before the instruction whose index it is. -/
theorem cutAt_of_executing {vm u : Interpreter} {fuel : Nat} {limit : UInt64}
    (h : (executing fuel (vm.withMaxSteps none).restart)[limit.toNat]? = some u) :
    CutAt vm limit u := by
  obtain ⟨-, hrun, hnext⟩ := getElem?_executing_eq_some_iff.mp h
  have hentry := getElem?_executing_eq_some_iff.mpr ⟨Nat.lt_succ_self limit.toNat, hrun, hnext⟩
  obtain ⟨op, hop, hsteps, hcut⟩ := runFor_withMaxSteps_of_long rfl rfl hentry
  refine ⟨op, _, hop, (run_withMaxSteps vm limit).trans hcut, rfl, hsteps⟩

/-- A run without a limit that ends with no more instructions than the limit allows ends in the same
way under the limit. -/
theorem run_withMaxSteps_of_length_le {vm : Interpreter} {fuel : Nat} {limit : UInt64}
    (hended : Ended (runWithin fuel (vm.withMaxSteps none)))
    (hle : (executing fuel (vm.withMaxSteps none).restart).length ≤ limit.toNat) :
    run (vm.withMaxSteps (some limit)) =
      mapState (·.withMaxSteps (some limit)) (runWithin fuel (vm.withMaxSteps none)) := by
  have hshort : (executing (limit.toNat + 1) (vm.withMaxSteps none).restart)[limit.toNat]? = none := by
    cases hentry : (executing (limit.toNat + 1) (vm.withMaxSteps none).restart)[limit.toNat]? with
    | none => rfl
    | some u =>
      obtain ⟨-, hrun, hnext⟩ := getElem?_executing_eq_some_iff.mp hentry
      rcases Nat.lt_or_ge limit.toNat fuel with hfuel | hfuel
      · have hlong := getElem?_executing_eq_some_iff.mpr ⟨hfuel, hrun, hnext⟩
        have hlt := (List.getElem?_eq_some_iff.mp hlong).1
        omega
      · -- A run that goes on after `limit` steps had not ended before.
        obtain ⟨w, hw⟩ := exists_unfinished_of_le hfuel hrun
        change Ended (runFor fuel (vm.withMaxSteps none).restart) at hended
        rw [hw] at hended
        exact hended.elim
  obtain ⟨hended', hagree⟩ := runFor_withMaxSteps_of_short rfl rfl hshort
  rw [run_withMaxSteps, hagree, runFor_eq_of_ended hended' hended]
  rfl

/-- A run under a limit ends. -/
theorem ended_run_withMaxSteps (vm : Interpreter) (limit : UInt64) :
    Ended (run (vm.withMaxSteps (some limit))) := by
  cases hentry : (executing (limit.toNat + 1) (vm.withMaxSteps none).restart)[limit.toNat]? with
  | none =>
    obtain ⟨hended, hagree⟩ := runFor_withMaxSteps_of_short rfl rfl hentry
    rw [run_withMaxSteps, hagree]
    exact ended_mapState.mpr hended
  | some u =>
    obtain ⟨op, final, -, hrun, -⟩ := cutAt_of_executing hentry
    rw [hrun]
    trivial

/-- The step limit only truncates.

Suppose the run without a limit ends, after fewer than `2 ^ 64` instructions. Then the step counter
has their number. Under a limit of at least that number the run ends in the same way, and under a
smaller limit it is cut before the instruction with the index `limit`, counted from zero. A run that
does not end without a limit is cut by every limit. So a run under a limit ends after at most
`limit + 1` steps, and the counter of a reachable interpreter neither passes the limit nor wraps
around. -/
theorem run_under_step_limit (vm : Interpreter) :
    (∀ fuel, Ended (runWithin fuel (vm.withMaxSteps none)) →
      (executing fuel (vm.withMaxSteps none).restart).length < 2 ^ 64 →
        (finalState (runWithin fuel (vm.withMaxSteps none))).steps.toNat =
          (executing fuel (vm.withMaxSteps none).restart).length ∧
        ∀ limit : UInt64,
          ((executing fuel (vm.withMaxSteps none).restart).length ≤ limit.toNat →
            run (vm.withMaxSteps (some limit)) =
              mapState (·.withMaxSteps (some limit)) (runWithin fuel (vm.withMaxSteps none))) ∧
          ∀ h : limit.toNat < (executing fuel (vm.withMaxSteps none).restart).length,
            CutAt vm limit (executing fuel (vm.withMaxSteps none).restart)[limit.toNat]) ∧
    ((∀ fuel, ¬ Ended (runWithin fuel (vm.withMaxSteps none))) →
      ∀ limit : UInt64, ∃ u,
        (executing (limit.toNat + 1) (vm.withMaxSteps none).restart)[limit.toNat]? = some u ∧
          CutAt vm limit u) ∧
    (∀ (limit : UInt64) (fuel : Nat), limit.toNat + 1 ≤ fuel →
      Ended (runWithin fuel (vm.withMaxSteps (some limit))) ∧
        runWithin fuel (vm.withMaxSteps (some limit)) = run (vm.withMaxSteps (some limit))) ∧
    (∀ code catalog config (limit : UInt64) w, config.maxSteps = some limit →
      Reachable code catalog config w → w.steps ≤ limit ∧
        ∀ op, w.next? = some op → (w.counted op).steps.toNat = w.steps.toNat + 1) := by
  refine ⟨fun fuel hended hcount => ⟨?_, fun limit => ⟨?_, ?_⟩⟩, ?_, ?_, ?_⟩
  · change (finalState (runFor fuel (vm.withMaxSteps none).restart)).steps.toNat = _
    rw [runFor_steps]
    change (0 + UInt64.ofNat _).toNat = _
    rw [UInt64.zero_add, UInt64.toNat_ofNat']
    exact Nat.mod_eq_of_lt hcount
  · exact run_withMaxSteps_of_length_le hended
  · intro hlt
    exact cutAt_of_executing (List.getElem?_eq_getElem hlt)
  · intro hnever limit
    obtain ⟨v, hv⟩ := exists_unfinished_of_not_ended (hnever (limit.toNat + 1))
    obtain ⟨u, hu, hstep⟩ := runFor_succ_eq_unfinished_iff.mp hv
    have hentry := getElem?_executing_eq_some_iff.mpr
      ⟨Nat.lt_succ_self limit.toNat, hu, next?_isSome_of_running hstep⟩
    exact ⟨u, hentry, cutAt_of_executing hentry⟩
  · intro limit fuel hfuel
    obtain ⟨more, rfl⟩ := Nat.exists_eq_add_of_le hfuel
    have hended := ended_run_withMaxSteps vm limit
    have hsame : runWithin (limit.toNat + 1 + more) (vm.withMaxSteps (some limit)) =
        run (vm.withMaxSteps (some limit)) :=
      runFor_add_of_ended more hended
    rw [hsame]
    exact ⟨hended, rfl⟩
  · intro code catalog config limit w hlimit hw
    obtain ⟨hconfig, hle⟩ := hw.steps_le hlimit
    refine ⟨hle, fun op hop => ?_⟩
    exact toNat_steps_succ (lt_limit_of_next? hop (hconfig ▸ hlimit))

/-- A script that pushes a number, drops it and halts. -/
def pushAndDrop : Interpreter :=
  ofCode #[0x01, 0xC0, 7, 0, 0, 0, 0x1A, 0x80, 0x10, 0x80] .empty .standard

/-- A limit of three instructions lets the script halt. A limit of one cuts it between the push and the
drop, with the number on the stack. -/
theorem run_under_step_limit_pushAndDrop :
    Ended (runWithin 3 (pushAndDrop.withMaxSteps none)) ∧
      (executing 3 (pushAndDrop.withMaxSteps none).restart).length = 3 ∧
      (answer (run (pushAndDrop.withMaxSteps (some 3)))).toOption = some .halted ∧
      ∃ u, CutAt pushAndDrop 1 u ∧ u.machine.pc = 6 ∧ u.machine.data = #[.int 7] := by
  have hlength : (executing 3 (pushAndDrop.withMaxSteps none).restart).length = 3 := by
    decide +kernel
  have hlimit := ((run_under_step_limit pushAndDrop).1 3 (by decide +kernel) (by rw [hlength]; decide)).2
  have hhalts : (answer (run (pushAndDrop.withMaxSteps (some 3)))).toOption = some .halted := by
    rw [(hlimit 3).1 (Nat.le_of_eq hlength)]
    decide +kernel
  have hcut : ∃ u, CutAt pushAndDrop 1 u ∧ u.machine.pc = 6 ∧ u.machine.data = #[.int 7] :=
    ⟨_, (hlimit 1).2 (by decide +kernel), by decide +kernel, by decide +kernel⟩
  exact ⟨by decide +kernel, hlength, hhalts, hcut⟩

end ScriptMachine.Interpreter
