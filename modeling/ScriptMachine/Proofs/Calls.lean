import ScriptMachine.Proofs.Runs

/-!
# Calls and reachable interpreters

A call looks its procedure up, lays out a frame, runs, and takes its result from the data stack.
The three `callWithin_of_…` lemmas say how far each call gets, and `conclude` what a call makes of
the end of its run.

A call is laid out on an empty machine: the arguments from the last to the first, their number, and the
host's address zero on the return stack. `Machine.enter_of_fits` and `Machine.enter_of_not_fits` say what
this comes to. A call that fits gives the machine `Machine.laidOut`. Every other call gives the machine
`Machine.holding`, with the arguments that there was room for, wherever in the layout it failed.

`Reachable` are the interpreters that a host can come to see. Between operations the host may
replace the machine by any other. Runs and calls may be followed for any number of steps, so the
interpreters in the middle of a run are reachable too.
-/

namespace ScriptMachine

open Interpreter

namespace Machine

/-! ## Pushing a list of values -/

/-- A list of values is pushed where there is room for it. -/
theorem forM_push_of_le {values : List Value} {m : Machine}
    (hroom : m.data.size + values.length ≤ m.maxDepth) :
    values.forM push m = .ok () { m with data := m.data ++ values } := by
  induction values generalizing m with
  | nil =>
    change EStateM.Result.ok () m = _
    simp
  | cons value values ih =>
    rw [List.length_cons] at hroom
    have hpush : push value m = .ok () { m with data := m.data.push value } :=
      push_eq_ok_iff.mpr ⟨by omega, rfl⟩
    refine (bind_of_ok hpush).trans ((ih ?_).trans ?_)
    · simp only [Array.size_push]
      omega
    · simp

/-- Where there is no room for all of a list of values, as many are pushed as there is room for. -/
theorem forM_push_of_lt {values : List Value} {m : Machine} (hsize : m.data.size ≤ m.maxDepth)
    (hfull : m.maxDepth < m.data.size + values.length) :
    values.forM push m =
      .error (.depthLimit m.maxDepth .data)
        { m with data := m.data ++ values.take (m.maxDepth - m.data.size) } := by
  induction values generalizing m with
  | nil => exact absurd hsize (Nat.not_le.mpr hfull)
  | cons value values ih =>
    rw [List.length_cons] at hfull
    by_cases hroom : m.data.size < m.maxDepth
    · have hpush : push value m = .ok () { m with data := m.data.push value } :=
        push_eq_ok_iff.mpr ⟨hroom, rfl⟩
      have hleft : m.maxDepth - m.data.size = m.maxDepth - (m.data.size + 1) + 1 := by omega
      refine (bind_of_ok hpush).trans ((ih ?_ ?_).trans ?_)
      · rw [Array.size_push]
        exact hroom
      · simp only [Array.size_push]
        omega
      · rw [hleft, List.take_succ_cons]
        simp
    · have hpush : push value m = .error (.depthLimit m.maxDepth .data) m := by
        rw [push, if_neg hroom]
      have hleft : m.maxDepth - m.data.size = 0 := by omega
      refine (bind_of_error hpush).trans ?_
      simp [hleft]

/-! ## Laying out a call -/

/-- The machine that holds as many of the arguments as there is room for, and nothing else. -/
def holding (maxDepth : Nat) (args : List Value) : Machine where
  data := (args.reverse.take (min args.length maxDepth)).toArray
  ret := #[]
  pc := 0
  globalBase := 0
  frameBase := 0
  halted := false
  maxDepth := maxDepth

/-- The machine at the start of a called procedure. -/
def laidOut (maxDepth offset : Nat) (args : List Value) : Machine where
  data := (args.reverse ++ [Value.int (Int32.ofNat args.length)]).toArray
  ret := #[.int 0]
  pc := offset
  globalBase := 0
  frameBase := 0
  halted := false
  maxDepth := maxDepth

/-- A call fits a machine when there is room for the arguments and their number, and the number is a
32-bit integer. -/
def CallFits (maxDepth count : Nat) : Prop :=
  count + 1 ≤ maxDepth ∧ count ≤ 2 ^ 31 - 1

instance (maxDepth count : Nat) : Decidable (CallFits maxDepth count) :=
  inferInstanceAs (Decidable (_ ∧ _))

/-- The fault of a call that does not fit. -/
def layoutFault (maxDepth count : Nat) : Fault :=
  if count ≤ maxDepth ∧ 2 ^ 31 - 1 < count then .indexOutOfBounds (Int64.ofNat count) count
  else .depthLimit maxDepth .data

section Layout

variable {args : List Value} {m : Machine}

/-- Where there is room for all arguments, they are the data stack, the first of them on top. -/
theorem holding_of_le (h : args.length ≤ m.maxDepth) :
    holding m.maxDepth args = { m.reset with data := args.reverse.toArray } := by
  have htake : args.reverse.take (min args.length m.maxDepth) = args.reverse :=
    List.take_of_length_le (by rw [List.length_reverse]; omega)
  rw [holding, htake]
  rfl

/-- The arguments are pushed where there is room for them. -/
theorem forM_push_reset_of_le (h : args.length ≤ m.maxDepth) :
    args.reverse.forM push m.reset = .ok () (holding m.maxDepth args) := by
  rw [holding_of_le h]
  refine (forM_push_of_le ?_).trans ?_
  · simpa [reset, ofDepth] using h
  · simp [reset, ofDepth]

/-- Where there are too many arguments, the depth refuses the first for which there is no room. -/
theorem forM_push_reset_of_lt (h : m.maxDepth < args.length) :
    args.reverse.forM push m.reset =
      .error (.depthLimit m.maxDepth .data) (holding m.maxDepth args) := by
  refine (forM_push_of_lt (Nat.zero_le _) ?_).trans ?_
  · simpa [reset, ofDepth] using h
  · simp [reset, ofDepth, holding, Nat.min_eq_right (Nat.le_of_lt h)]

/-- The number of the arguments is pushed where there is room for one more entry. -/
theorem push_holding_of_lt (value : Value) (h : args.length < m.maxDepth) :
    push value (holding m.maxDepth args) =
      .ok () { holding m.maxDepth args with data := (args.reverse ++ [value]).toArray } := by
  rw [holding_of_le (Nat.le_of_lt h)]
  refine push_eq_ok_iff.mpr ⟨?_, ?_⟩
  · rw [List.size_toArray, List.length_reverse]
    exact h
  · simp

/-- Where the arguments just fit, there is no room for their number. -/
theorem push_holding_of_eq (value : Value) (h : args.length = m.maxDepth) :
    push value (holding m.maxDepth args) =
      .error (.depthLimit m.maxDepth .data) (holding m.maxDepth args) := by
  rw [holding_of_le (Nat.le_of_eq h), push, if_neg]
  · rfl
  · rw [List.size_toArray, List.length_reverse, h]
    exact Nat.lt_irrefl _

/-- A call that fits is laid out. -/
theorem enter_of_fits (offset : Nat) (h : CallFits m.maxDepth args.length) :
    enter offset args m = .ok () (laidOut m.maxDepth offset args) := by
  obtain ⟨hroom, hcount⟩ := h
  have hencode : encodeIndex args.length = .ok (Int32.ofNat args.length) :=
    encodeIndex_eq_ok_iff.mpr ⟨by omega, rfl⟩
  -- The return stack has the same depth, so that the host's address has room where the number has.
  have hreturn (data : Array Value) :
      pushReturn (.int 0) { holding m.maxDepth args with data := data } =
        .ok () { holding m.maxDepth args with data := data, ret := #[.int 0] } :=
    pushReturn_eq_ok_iff.mpr ⟨Nat.zero_lt_of_lt hroom, rfl⟩
  unfold enter
  refine (bind_of_ok rfl).trans ?_
  refine (bind_of_ok (forM_push_reset_of_le (Nat.le_of_succ_le hroom))).trans ?_
  refine (bind_of_ok (ofExcept_eq_ok_iff.mpr ⟨hencode, rfl⟩)).trans ?_
  refine (bind_of_ok (push_holding_of_lt _ hroom)).trans ?_
  exact (bind_of_ok (hreturn _)).trans rfl

/-- A call that does not fit leaves the arguments that there is room for. They are pushed before they
are counted, and the number is pushed last. -/
theorem enter_of_not_fits (offset : Nat) (h : ¬ CallFits m.maxDepth args.length) :
    enter offset args m =
      .error (layoutFault m.maxDepth args.length) (holding m.maxDepth args) := by
  unfold CallFits at h
  unfold enter layoutFault
  refine (bind_of_ok rfl).trans ?_
  by_cases hargs : args.length ≤ m.maxDepth
  · refine (bind_of_ok (forM_push_reset_of_le hargs)).trans ?_
    by_cases hcount : args.length < 2 ^ 31
    · have hencode : encodeIndex args.length = .ok (Int32.ofNat args.length) :=
        encodeIndex_eq_ok_iff.mpr ⟨hcount, rfl⟩
      rw [if_neg (by omega)]
      refine (bind_of_ok (ofExcept_eq_ok_iff.mpr ⟨hencode, rfl⟩)).trans ?_
      exact bind_of_error (push_holding_of_eq _ (by omega))
    · have hencode : encodeIndex args.length =
          .error (.indexOutOfBounds (Int64.ofNat args.length) args.length) := by
        rw [encodeIndex, if_neg (by omega)]
      rw [if_pos (by omega), hencode]
      rfl
  · rw [if_neg (by omega)]
    exact bind_of_error (forM_push_reset_of_lt (Nat.not_le.mp hargs))

/-- A call frame that could be laid out holds the arguments, the first on top, then their number,
and the host's address zero on the return stack. All else is as in a new machine. -/
theorem eq_of_enter {offset : Nat} {m' : Machine} {u : Unit} (h : enter offset args m = .ok u m') :
    m' = { ofDepth m.maxDepth with
           data := args.reverse.toArray.push (.int (Int32.ofNat args.length))
           ret := #[.int 0]
           pc := offset } := by
  by_cases hfits : CallFits m.maxDepth args.length
  · rw [enter_of_fits offset hfits] at h
    cases h
    simp [laidOut, ofDepth]
  · rw [enter_of_not_fits offset hfits] at h
    cases h

/-- A call that could not be laid out does not fit. -/
theorem eq_of_enter_eq_error {offset : Nat} {m' : Machine} {fault : Fault}
    (h : enter offset args m = .error fault m') :
    fault = layoutFault m.maxDepth args.length ∧ m' = holding m.maxDepth args := by
  by_cases hfits : CallFits m.maxDepth args.length
  · rw [enter_of_fits offset hfits] at h
    cases h
  · rw [enter_of_not_fits offset hfits] at h
    cases h
    exact ⟨rfl, rfl⟩

end Layout

end Machine

namespace Interpreter

/-! ## The course of a call -/

/-- What a call makes of the end of its run. -/
def conclude (name : String) :
    EStateM.Result Failure Interpreter Outcome → EStateM.Result Failure Interpreter (Option Value)
  | .ok .halted vm =>
    match vm.machine.data.back? with
    | some result => .ok (some result)
        ({ vm with machine := { vm.machine with data := vm.machine.data.pop } }.logged
          (.returned result vm.steps))
    | none => .error ((Failure.unlocated (.stackUnderflow .data)).within name) vm
  | .ok (.stopped stop) vm => .error ((Failure.unlocated stop.fault).within name) vm
  | .ok .unfinished vm => .ok none vm
  | .error failure vm => .error (failure.within name) vm

/-- A halted run gives the top of the data stack. -/
theorem conclude_of_result {vm : Interpreter} {result : Value} (name : String)
    (h : vm.machine.data.back? = some result) :
    conclude name (.ok .halted vm) =
      .ok (some result) ({ vm with machine := { vm.machine with data := vm.machine.data.pop } }.logged
        (.returned result vm.steps)) := by
  simp only [conclude, h]

/-- A halted run without anything on the data stack fails. -/
theorem conclude_of_empty {vm : Interpreter} (name : String) (h : vm.machine.data.back? = none) :
    conclude name (.ok .halted vm) =
      .error ((Failure.unlocated (.stackUnderflow .data)).within name) vm := by
  simp only [conclude, h]

/-- The interpreter after a procedure has been found, with the given machine. -/
def resolved (vm : Interpreter) (name : String) (args : List Value) (procedure : Procedure)
    (m : Machine) : Interpreter :=
  { (vm.logged (.called name args.length)).logged (.resolved procedure.offset) with machine := m }

/-- A report is logged and does nothing else. -/
theorem report_apply (event : Event) (vm : Interpreter) : report event vm = .ok () (vm.logged event) := rfl

/-- A logged event leaves the catalog alone. -/
theorem logged_catalog (vm : Interpreter) (event : Event) : (vm.logged event).catalog = vm.catalog := rfl

/-- A call of an unknown name is reported and fails at once. -/
theorem callWithin_of_unknown {vm : Interpreter} {name : String} (fuel : Nat) (args : List Value)
    (hname : vm.catalog.procedure? name = none) :
    callWithin fuel name args vm =
      .error (.unlocated (.unknownProcedure name)) (vm.logged (.called name args.length)) := by
  rw [callWithin, bind_of_ok (report_apply _ vm), get_bind_apply, logged_catalog, hname]
  rfl

/-- A call by a name that is found invokes the procedure, and its failures name the procedure. -/
private theorem callWithin_of_known {vm : Interpreter} {name : String} {procedure : Procedure}
    (fuel : Nat) (args : List Value) (hname : vm.catalog.procedure? name = some procedure) :
    callWithin fuel name args vm =
      EStateM.adaptExcept (Failure.within name) (invoke fuel procedure.offset args)
        (vm.resolved name args procedure vm.machine) := by
  rw [callWithin, bind_of_ok (report_apply _ vm), get_bind_apply, logged_catalog, hname]
  rfl

/-- A call whose frame cannot be laid out fails there. -/
theorem callWithin_of_layout_error {vm : Interpreter} {name : String} {args : List Value}
    {procedure : Procedure} {fault : Fault} {m : Machine} (fuel : Nat)
    (hname : vm.catalog.procedure? name = some procedure)
    (henter : Machine.enter procedure.offset args vm.machine = .error fault m) :
    callWithin fuel name args vm =
      .error ((Failure.unlocated fault).within name) (vm.resolved name args procedure m) := by
  rw [callWithin_of_known fuel args hname]
  simp only [EStateM.adaptExcept, invoke, bind, EStateM.bind, unlocated, onMachine_apply, resolved,
    henter]

/-- A call whose frame is laid out runs and concludes. -/
theorem callWithin_of_layout {vm : Interpreter} {name : String} {args : List Value}
    {procedure : Procedure} {m : Machine} {u : Unit} (fuel : Nat)
    (hname : vm.catalog.procedure? name = some procedure)
    (henter : Machine.enter procedure.offset args vm.machine = .ok u m) :
    callWithin fuel name args vm =
      conclude name (runWithin fuel (vm.resolved name args procedure m)) := by
  rw [callWithin_of_known fuel args hname]
  simp only [EStateM.adaptExcept, invoke, bind, EStateM.bind, unlocated, onMachine_apply, resolved,
    henter]
  generalize runWithin fuel _ = result
  cases result with
  | error failure vm => rfl
  | ok outcome vm =>
    cases outcome with
    | stopped stop => rfl
    | unfinished => rfl
    | halted =>
      simp only [EStateM.bind, EStateM.adaptExcept, onMachine_apply, Machine.pop, conclude]
      cases vm.machine.data.back? <;> rfl

/-! ## Reachable interpreters -/

/-- The interpreters that a host can come to see, or that a run of theirs passes through. -/
inductive Reachable (code : Array UInt8) (catalog : Catalog) (config : Config) : Interpreter → Prop
  | start : Reachable code catalog config (ofCode code catalog config)
  | step {vm : Interpreter} (h : Reachable code catalog config vm) :
      Reachable code catalog config (finalState (step vm))
  | run {vm : Interpreter} (fuel : Nat) (h : Reachable code catalog config vm) :
      Reachable code catalog config (finalState (runWithin fuel vm))
  | call {vm : Interpreter} (fuel : Nat) (name : String) (args : List Value)
      (h : Reachable code catalog config vm) :
      Reachable code catalog config (finalState (callWithin fuel name args vm))
  | edit {vm : Interpreter} (m : Machine) (h : Reachable code catalog config vm) :
      Reachable code catalog config { vm with machine := m }

/-- What concluding a call does is to take the result and to report it. -/
theorem conclude_preserves {P : Interpreter → Prop} (hedit : ∀ vm m, P vm → P { vm with machine := m })
    (hlog : ∀ vm event, P vm → P (vm.logged event)) (name : String)
    {result : EStateM.Result Failure Interpreter Outcome} (h : P (finalState result)) :
    P (finalState (conclude name result)) := by
  match result, h with
  | .error failure vm, h => exact h
  | .ok (.stopped stop) vm, h => exact h
  | .ok .unfinished vm, h => exact h
  | .ok .halted vm, h =>
    simp only [conclude]
    split
    · exact hlog _ _ (hedit _ _ h)
    · exact h

/-- A call preserves what steps, restarts, edits and reports preserve. -/
theorem callWithin_preserves {P : Interpreter → Prop}
    (hstep : ∀ vm, P vm → P (finalState (Interpreter.step vm)))
    (hrestart : ∀ vm, P vm → P vm.restart)
    (hedit : ∀ vm m, P vm → P { vm with machine := m })
    (hlog : ∀ vm event, P vm → P (vm.logged event)) (fuel : Nat) (name : String) (args : List Value)
    {vm : Interpreter} (h : P vm) : P (finalState (callWithin fuel name args vm)) := by
  cases hname : vm.catalog.procedure? name with
  | none =>
    rw [callWithin_of_unknown fuel args hname]
    exact hlog _ _ h
  | some procedure =>
    have hresolved (m : Machine) : P (vm.resolved name args procedure m) :=
      hedit _ m (hlog _ _ (hlog _ _ h))
    cases henter : Machine.enter procedure.offset args vm.machine with
    | error fault m =>
      rw [callWithin_of_layout_error fuel hname henter]
      exact hresolved m
    | ok u m =>
      rw [callWithin_of_layout fuel hname henter]
      exact conclude_preserves hedit hlog name (runFor_preserves hstep fuel (hrestart _ (hresolved m)))

/-- What steps, restarts, edits and reports preserve holds of every reachable interpreter. -/
theorem Reachable.preserves {P : Interpreter → Prop} {code : Array UInt8} {catalog : Catalog}
    {config : Config} (hstart : P (ofCode code catalog config))
    (hstep : ∀ vm, P vm → P (finalState (Interpreter.step vm)))
    (hrestart : ∀ vm, P vm → P vm.restart)
    (hedit : ∀ vm m, P vm → P { vm with machine := m })
    (hlog : ∀ vm event, P vm → P (vm.logged event)) {vm : Interpreter}
    (h : Reachable code catalog config vm) : P vm := by
  induction h with
  | start => exact hstart
  | step _ ih => exact hstep _ ih
  | run fuel _ ih => exact runFor_preserves hstep fuel (hrestart _ ih)
  | edit m _ ih => exact hedit _ m ih
  | call fuel name args _ ih => exact callWithin_preserves hstep hrestart hedit hlog fuel name args ih

end Interpreter

end ScriptMachine
