import ScriptMachine.Proofs.Depths
import ScriptMachine.Proofs.Runs

/-!
# The depth limit

The depth of the stacks only decides where a run is refused. Two runs from the same interpreter, one
with a smaller and one with a larger depth, go in lockstep as long as the stacks of the second fit
the smaller depth. At the first step after which they do not, or at which the second run is refused
itself, the first run is refused, and for the stack that had no room.

What one instruction does at all depths is `Machine.execute_exact`; here it is carried over to steps
(`step_exact`) and from there to runs.
-/

namespace ScriptMachine

/-- Both stacks hold at most the given number of entries. -/
def Machine.Fits (depth : Nat) (m : Machine) : Prop :=
  ∀ stack, m.size stack ≤ depth

/-- Whether a fault is a refusal for the depth of a stack. -/
def Fault.isDepthLimit : Fault → Bool
  | depthLimit .. => true
  | _ => false

namespace Interpreter

open Reader

/-- The interpreter with stacks of another depth. -/
def withDepth (vm : Interpreter) (depth : Nat) : Interpreter :=
  { vm with machine := vm.machine.withDepth depth }

instance (depth : Nat) (m : Machine) : Decidable (m.Fits depth) :=
  decidable_of_iff (m.size .data ≤ depth ∧ m.size .ret ≤ depth)
    ⟨fun h stack => StackName.casesOn stack h.1 h.2, fun h => ⟨h .data, h .ret⟩⟩

/-- Whether both stacks fit does not depend on the depth. -/
theorem fits_withDepth {vm : Interpreter} {depth other : Nat} :
    (vm.withDepth other).machine.Fits depth ↔ vm.machine.Fits depth := by
  change (∀ stack, (vm.machine.withDepth other).size stack ≤ depth) ↔ _
  rw [Machine.size_withDepth]
  exact Iff.rfl

/-- The step was refused for the depth of a stack. -/
def Refused : EStateM.Result Failure Interpreter Status → Prop
  | .ok _ _ => False
  | .error failure _ => failure.fault.isDepthLimit = true

instance : DecidablePred Refused
  | .ok _ _ => inferInstanceAs (Decidable False)
  | .error failure _ => inferInstanceAs (Decidable (failure.fault.isDepthLimit = true))

/-- Whether a step was refused does not depend on the state it leaves. -/
theorem refused_mapState {f : Interpreter → Interpreter}
    {result : EStateM.Result Failure Interpreter Status} :
    Refused (mapState f result) ↔ Refused result := by
  cases result <;> exact Iff.rfl

/-! ## One step -/

/-- The next step does the same at every depth; it makes no stack longer and is not refused for its
depth. -/
structure SteadyStep (vm : Interpreter) : Prop where
  step_withDepth (depth : Nat) : step (vm.withDepth depth) = mapState (·.withDepth depth) (step vm)
  size_le (stack : StackName) : (finalState (step vm)).machine.size stack ≤ vm.machine.size stack
  not_refused : ¬ Refused (step vm)

/-- The next step makes a stack longer. It succeeds at the depths that leave room for the longer
stack, and is refused at the others. -/
structure GrowingStep (vm : Interpreter) (op : Opcode) (status : Status)
    (refused grown : Interpreter) (stack : StackName) : Prop where
  next : vm.next? = some op
  step_withDepth (depth : Nat) :
    step (vm.withDepth depth) =
      if grown.machine.size stack ≤ depth then .ok status (grown.withDepth depth)
      else .error (.atInstruction vm.machine.pc op.mnemonic (.depthLimit depth stack))
        (refused.withDepth depth)
  size_le {other : StackName} (h : other ≠ stack) :
    grown.machine.size other ≤ vm.machine.size other

/-- A step that ends in the same way at every depth is steady. -/
theorem steadyStep_of_stepsTo {vm : Interpreter} {result : EStateM.Result Failure Interpreter Status}
    (hself : StepsTo vm result)
    (h : ∀ depth, StepsTo (vm.withDepth depth) (mapState (·.withDepth depth) result))
    (hsize : ∀ stack, (finalState result).machine.size stack ≤ vm.machine.size stack)
    (hrefused : ¬ Refused result) : SteadyStep vm := by
  have hstep := hself.eq_step
  refine ⟨fun depth => ?_, fun stack => ?_, ?_⟩
  · rw [(h depth).eq_step, hstep]
  · rw [hstep]
    exact hsize stack
  · rw [hstep]
    exact hrefused

/-- Reading the code is not refused for the depth. -/
theorem not_isDepthLimit_of_ofReading {fault : Fault} (h : fault.ofReading = true) :
    ¬ fault.isDepthLimit = true := by
  cases fault with
  | depthLimit limit stack => cases h
  | _ => exact nofun

/-- Moving the program counter leaves the stacks as they are. -/
theorem size_withPc (m : Machine) (pc : Nat) (stack : StackName) :
    { m with pc := pc }.size stack = m.size stack := by
  cases stack <;> rfl

/-- An instruction whose operand can be read depends on the depth as its execution does. -/
theorem step_exact_of_operand {vm : Interpreter} {op : Opcode} {operand : Int32}
    (hop : vm.next? = some op) (hoperand : operandAt vm.script.bytes vm.machine.pc op = .ok operand) :
    SteadyStep vm ∨ ∃ op status refused grown stack, GrowingStep vm op status refused grown stack := by
  have hop' (depth : Nat) : (vm.withDepth depth).next? = some op := hop
  obtain hsteady | ⟨flow, refused, grown, stack, hgrows⟩ :=
    Machine.execute_exact vm.catalog operand op vm.machine
  · have hdepth := hsteady.apply_withDepth
    have hsize := hsteady.size_le
    have hfault := hsteady.ne_depthLimit
    cases hexecute : Machine.execute vm.catalog operand op vm.machine with
    | error fault m =>
      rw [hexecute] at hdepth hsize hfault
      refine .inl (steadyStep_of_stepsTo (.failed hop hoperand hexecute)
        (fun depth => .failed (hop' depth) hoperand (hdepth depth)) hsize fun hrefused => ?_)
      cases fault with
      | depthLimit limit stack => exact hfault limit stack m rfl
      | _ => cases hrefused
    | ok flow m =>
      rw [hexecute] at hdepth hsize
      refine .inl (steadyStep_of_stepsTo (.executed hop hoperand hexecute)
        (fun depth => .executed (hop' depth) hoperand (hdepth depth)) (fun stack => ?_) id)
      exact Nat.le_trans (Nat.le_of_eq (size_withPc m _ stack)) (hsize stack)
  · let following := (vm.counted op).withCursor (vm.machine.pc + op.encodedLength)
    let moved := { grown with pc := flow.target (vm.machine.pc + op.encodedLength) }
    refine .inr ⟨op, if grown.halted then .halted else .running, { following with machine := refused },
      { following with machine := moved }, stack, hop, fun depth => ?_, fun {other} hother => ?_⟩
    · have hexecute := hgrows.apply_withDepth depth
      have hmoved : moved.size stack = grown.size stack := size_withPc grown _ stack
      rw [hmoved]
      split
      · rename_i hroom
        rw [if_pos hroom] at hexecute
        exact (StepsTo.executed (hop' depth) hoperand hexecute).eq_step
      · rename_i hroom
        rw [if_neg hroom] at hexecute
        exact (StepsTo.failed (hop' depth) hoperand hexecute).eq_step
    · exact Nat.le_trans (Nat.le_of_eq (size_withPc grown _ other)) (hgrows.size_le hother)

/-- The depth matters to a step only where a stack would not have room. -/
theorem step_exact (vm : Interpreter) :
    SteadyStep vm ∨ ∃ op status refused grown stack, GrowingStep vm op status refused grown stack := by
  have hstep := stepsTo_step vm
  generalize step vm = result at hstep
  cases hstep with
  | halted hhalted =>
    exact .inl (steadyStep_of_stepsTo (.halted hhalted) (fun _ => .halted hhalted)
      (fun _ => Nat.le_refl _) id)
  | unreadable hrunning hword =>
    exact .inl (steadyStep_of_stepsTo (.unreadable hrunning hword)
      (fun _ => .unreadable hrunning hword) (fun _ => Nat.le_refl _)
      (not_isDepthLimit_of_ofReading (ofReading_of_wordAt hword)))
  | undecodable hrunning hword hop =>
    exact .inl (steadyStep_of_stepsTo (.undecodable hrunning hword hop)
      (fun _ => .undecodable hrunning hword hop) (fun _ => Nat.le_refl _) id)
  | refused hop hlimit hspent =>
    exact .inl (steadyStep_of_stepsTo (.refused hop hlimit hspent)
      (fun _ => .refused hop hlimit hspent) (fun _ => Nat.le_refl _) nofun)
  | truncated hop hoperand =>
    exact .inl (steadyStep_of_stepsTo (.truncated hop hoperand)
      (fun _ => .truncated hop hoperand) (fun _ => Nat.le_refl _)
      (not_isDepthLimit_of_ofReading (ofReading_of_operandAt hoperand)))
  | failed hop hoperand hexecute => exact step_exact_of_operand hop hoperand
  | executed hop hoperand hexecute => exact step_exact_of_operand hop hoperand

/-! ## Two depths -/

/-- The step leaves a stack with more entries than the given depth, or was refused for its own. -/
def Exceeds (depth : Nat) (result : EStateM.Result Failure Interpreter Status) : Prop :=
  ¬ (finalState result).machine.Fits depth ∨ Refused result

instance (depth : Nat) (result : EStateM.Result Failure Interpreter Status) :
    Decidable (Exceeds depth result) :=
  inferInstanceAs (Decidable (_ ∨ _))

/-- A steady step exceeds no depth that the stacks fit. -/
theorem SteadyStep.not_exceeds {vm : Interpreter} (h : SteadyStep vm) {small large : Nat}
    (hfits : vm.machine.Fits small) : ¬ Exceeds small (step (vm.withDepth large)) := by
  have hfinal : (finalState (step vm)).machine.Fits small :=
    fun stack => Nat.le_trans (h.size_le stack) (hfits stack)
  unfold Exceeds
  rw [h.step_withDepth, finalState_mapState, fits_withDepth, refused_mapState]
  intro hexceeds
  obtain hlonger | hrefused := hexceeds
  · exact hlonger hfinal
  · exact h.not_refused hrefused

/-- A growing step exceeds a depth exactly when that depth has no room for the longer stack. -/
theorem GrowingStep.exceeds_iff {vm refused grown : Interpreter} {op : Opcode} {status : Status}
    {stack : StackName} (h : GrowingStep vm op status refused grown stack) {small large : Nat}
    (hle : small ≤ large) (hfits : vm.machine.Fits small) :
    Exceeds small (step (vm.withDepth large)) ↔ small < grown.machine.size stack := by
  rw [h.step_withDepth]
  by_cases hroom : grown.machine.size stack ≤ large
  -- With room at the larger depth the step succeeds, and only the grown stack can be too long.
  · rw [if_pos hroom]
    constructor
    · intro hexceeds
      have hlonger := hexceeds.resolve_right id
      rw [finalState, fits_withDepth] at hlonger
      apply Nat.lt_of_not_le
      intro hsize
      apply hlonger
      intro other
      by_cases hother : other = stack
      · rw [hother]
        exact hsize
      · exact Nat.le_trans (h.size_le hother) (hfits other)
    · intro hlt
      refine .inl fun hgrown => ?_
      have hsize := fits_withDepth.mp hgrown stack
      omega
  -- Otherwise it is refused at both.
  · rw [if_neg hroom]
    constructor
    · intro _
      omega
    · intro _
      exact .inr rfl

/-- A step at the larger depth that does not exceed the smaller is the same at both. -/
theorem step_withDepth_of_not_exceeds {vm : Interpreter} {small large : Nat} (hle : small ≤ large)
    (hfits : vm.machine.Fits small) (h : ¬ Exceeds small (step (vm.withDepth large))) :
    step (vm.withDepth small) = mapState (·.withDepth small) (step (vm.withDepth large)) := by
  obtain hsteady | ⟨op, status, refused, grown, stack, hgrowing⟩ := step_exact vm
  · rw [hsteady.step_withDepth, hsteady.step_withDepth]
    cases step vm <;> rfl
  · rw [hgrowing.exceeds_iff hle hfits] at h
    rw [hgrowing.step_withDepth, hgrowing.step_withDepth, if_pos (by omega), if_pos (by omega)]
    rfl

/-- A step at the larger depth that exceeds the smaller is refused at the smaller, for the stack that
it makes too long. -/
theorem refused_of_exceeds {vm : Interpreter} {small large : Nat} (hle : small ≤ large)
    (hfits : vm.machine.Fits small) (h : Exceeds small (step (vm.withDepth large))) :
    ∃ op stack u, vm.next? = some op ∧
      step (vm.withDepth small) =
        .error (.atInstruction vm.machine.pc op.mnemonic (.depthLimit small stack)) u ∧
      ((∃ status w, step (vm.withDepth large) = .ok status w ∧ small < w.machine.size stack) ∨
        ∃ w, step (vm.withDepth large) =
          .error (.atInstruction vm.machine.pc op.mnemonic (.depthLimit large stack)) w) := by
  obtain hsteady | ⟨op, status, refused, grown, stack, hgrowing⟩ := step_exact vm
  · exact absurd h (hsteady.not_exceeds hfits)
  · rw [hgrowing.exceeds_iff hle hfits] at h
    refine ⟨op, stack, refused.withDepth small, hgrowing.next, ?_, ?_⟩
    · rw [hgrowing.step_withDepth, if_neg (by omega)]
    · rw [hgrowing.step_withDepth]
      by_cases hroom : grown.machine.size stack ≤ large
      · refine .inl ⟨status, grown.withDepth large, if_pos hroom, ?_⟩
        exact (Machine.size_withDepth grown.machine large) ▸ h
      · exact .inr ⟨refused.withDepth large, if_neg hroom⟩

/-- A step that is refused for the depth succeeds at every depth that is large enough, and leaves the
stack with more entries than it had room for. -/
theorem exists_enough_of_refused {vm u : Interpreter} {depth limit : Nat} {stack : StackName}
    {failure : Failure} (hstep : step (vm.withDepth depth) = .error failure u)
    (hfault : failure.fault = .depthLimit limit stack) :
    limit = depth ∧ ∃ enough, ∀ large, enough ≤ large →
      ∃ status w, step (vm.withDepth large) = .ok status w ∧ depth < w.machine.size stack := by
  obtain hsteady | ⟨op, status, refused, grown, stack', hgrowing⟩ := step_exact vm
  -- A steady step would be refused at no depth.
  · have hrefused : Refused (step (vm.withDepth depth)) := by
      rw [hstep, Refused, hfault]
      rfl
    rw [hsteady.step_withDepth, refused_mapState] at hrefused
    exact absurd hrefused hsteady.not_refused
  · rw [hgrowing.step_withDepth] at hstep
    split at hstep
    · cases hstep
    · rename_i hroom
      cases hstep
      cases hfault
      refine ⟨rfl, grown.machine.size stack, fun large henough => ?_⟩
      refine ⟨status, grown.withDepth large, ?_, ?_⟩
      · rw [hgrowing.step_withDepth, if_pos henough]
      · exact (Machine.size_withDepth grown.machine large) ▸ Nat.lt_of_not_le hroom

/-! ## Runs at two depths -/

/-- The run from an interpreter of the larger depth fits the smaller depth, now and for `n` steps. -/
structure Lockstep (small large n : Nat) (vm : Interpreter) : Prop where
  depth : vm.withDepth large = vm
  fits : vm.machine.Fits small
  not_exceeds : ∀ result ∈ results step n vm, ¬ Exceeds small result

/-- A step keeps the depth. -/
theorem withDepth_finalState_step {vm : Interpreter} {depth : Nat} (h : vm.withDepth depth = vm) :
    (finalState (step vm)).withDepth depth = finalState (step vm) := by
  rw [← h]
  obtain hsteady | ⟨op, status, refused, grown, stack, hgrowing⟩ := step_exact vm
  · rw [hsteady.step_withDepth, finalState_mapState]
    rfl
  · rw [hgrowing.step_withDepth]
    split <;> rfl

/-- Lockstep passes on from step to step. -/
theorem Lockstep.next {small large n : Nat} {vm u : Interpreter}
    (h : Lockstep small large (n + 1) vm) (hstep : step vm = .ok .running u) :
    Lockstep small large n u := by
  have hresults : results step (n + 1) vm = step vm :: results step n u := by
    simp only [results, hstep]
  have hall := h.not_exceeds
  rw [hresults, List.forall_mem_cons] at hall
  obtain ⟨hfirst, hrest⟩ := hall
  have hdepth := withDepth_finalState_step h.depth
  rw [hstep] at hfirst hdepth
  exact ⟨hdepth, Classical.not_not.mp fun hlonger => hfirst (.inl hlonger), hrest⟩

/-- In lockstep, the next step is the same at both depths. -/
theorem Lockstep.step_eq {small large n : Nat} {vm : Interpreter} (hle : small ≤ large)
    (h : Lockstep small large (n + 1) vm) :
    mapState (·.withDepth small) (step vm) = step (vm.withDepth small) := by
  have hfirst := h.not_exceeds (step vm) List.mem_cons_self
  rw [← h.depth] at hfirst ⊢
  exact (step_withDepth_of_not_exceeds hle h.fits hfirst).symm

/-- The depth limit is exact and otherwise invisible.

Follow a run from an interpreter whose stacks fit the smaller depth, once at that depth and once at a
larger one. As long as no step at the larger depth exceeds the smaller, the two come to the same,
step by step and as a whole. At the first step that does, the run at the smaller depth is refused for
the stack that this step makes too long. So a step is refused only when it succeeds at every depth
that is large enough, leaving more entries on the stack than it had room for. -/
theorem depth_limit_exact (vm : Interpreter) {small large : Nat} (hle : small ≤ large)
    (hfits : vm.machine.Fits small) :
    (∀ n, (∀ result ∈ results step n (vm.withDepth large), ¬ Exceeds small result) →
      results step n (vm.withDepth small) =
        (results step n (vm.withDepth large)).map (mapState (·.withDepth small)) ∧
      runFor n (vm.withDepth small) = mapState (·.withDepth small) (runFor n (vm.withDepth large)) ∧
      ∀ v, runFor n (vm.withDepth large) = .ok .unfinished v → Exceeds small (step v) →
        ∃ op stack u, v.next? = some op ∧
          runFor (n + 1) (vm.withDepth small) =
            .error (.atInstruction v.machine.pc op.mnemonic (.depthLimit small stack)) u ∧
          ((∃ status w, step v = .ok status w ∧ small < w.machine.size stack) ∨
            ∃ w, step v =
              .error (.atInstruction v.machine.pc op.mnemonic (.depthLimit large stack)) w)) ∧
    ∀ failure u limit stack, step (vm.withDepth small) = .error failure u →
      failure.fault = .depthLimit limit stack →
        limit = small ∧ ∃ enough, ∀ depth, enough ≤ depth →
          ∃ status w, step (vm.withDepth depth) = .ok status w ∧ small < w.machine.size stack := by
  refine ⟨fun n hn => ?_, fun failure u limit stack => exists_enough_of_refused⟩
  have hlockstep : Lockstep small large n (vm.withDepth large) :=
    ⟨rfl, fits_withDepth.mpr hfits, hn⟩
  have hnext (n : Nat) (w u : Interpreter) (hw : Lockstep small large (n + 1) w)
      (hstep : step w = .ok .running u) : Lockstep small large n u := hw.next hstep
  have hresults := results_map hnext (fun n w hw => hw.step_eq hle) hlockstep
  have hruns : mapState (·.withDepth small) (runFor n (vm.withDepth large)) =
      runFor n (vm.withDepth small) := runFor_map hnext (fun n w hw => hw.step_eq hle) hlockstep
  refine ⟨hresults.symm, hruns.symm, fun v hv hexceeds => ?_⟩
  have hreached := of_runFor_eq_unfinished hnext hlockstep hv
  rw [← hreached.depth] at hexceeds
  obtain ⟨op, stack, u, hop, hstep, hlarge⟩ := refused_of_exceeds hle hreached.fits hexceeds
  rw [hreached.depth] at hlarge
  refine ⟨op, stack, u, hop, ?_, hlarge⟩
  rw [hv] at hruns
  rw [runFor_add_of_unfinished 1 hruns.symm, runFor_one, hstep]

/-- A script that pushes two values and halts. -/
def twoPushes : Interpreter :=
  ofCode #[0x01, 0xC0, 1, 0, 0, 0, 0x01, 0xC0, 2, 0, 0, 0, 0x10, 0x80] .empty .standard

/-- With room for one value the second push is refused, and only then. -/
theorem depth_limit_exact_twoPushes :
    (∀ result ∈ results step 1 (twoPushes.withDepth 2), ¬ Exceeds 1 result) ∧
      ∃ stack u, runFor 2 (twoPushes.withDepth 1) =
        .error (.atInstruction 6 "push_d" (.depthLimit 1 stack)) u := by
  have hfirst : ∀ result ∈ results step 1 (twoPushes.withDepth 2), ¬ Exceeds 1 result := by
    decide +kernel
  have hfits : twoPushes.machine.Fits 1 := by decide
  let v := finalState (runFor 1 (twoPushes.withDepth 2))
  have hv : runFor 1 (twoPushes.withDepth 2) = .ok .unfinished v := rfl
  have hexceeds : Exceeds 1 (step v) := by decide +kernel
  have hnext : v.next? = some .pushD := by decide +kernel
  have hpc : v.machine.pc = 6 := by decide +kernel
  have hmain := (depth_limit_exact twoPushes (by decide : 1 ≤ 2) hfits).1 1 hfirst
  obtain ⟨op, stack, u, hop, hrun, -⟩ := hmain.2.2 v hv hexceeds
  rw [hnext] at hop
  cases hop
  rw [hpc] at hrun
  exact ⟨hfirst, stack, u, hrun⟩

end Interpreter

end ScriptMachine
