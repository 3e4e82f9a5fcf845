import ScriptMachine.Proofs.Calls

/-!
# Invariants of the machine

A property of machines is an `Invariant` under a catalog when every instruction preserves it, also one
that fails, and when neither the program counter nor the halted flag matters to it. Steps and runs
preserve an invariant, and so do calls, provided that laying out their frame does.

`Machine.Reachable` are the machines that an empty machine can become in the hands of a host. The host
uses the operations that it is offered for this, and steps, runs and calls of interpreters, each with
any code, catalog and configuration. Runs and calls may be followed for any number of steps, so the
machines in the middle of a run are reachable too.
-/

namespace ScriptMachine

namespace Machine

/-! ## What an action preserves -/

/-- An action preserves a property of the machine, whether or not it succeeds. -/
def Preserves {α : Type} (P : Machine → Prop) (x : Action α) : Prop :=
  ∀ m, P m → P (finalState (x m))

section Preserves

variable {α β : Type} {P : Machine → Prop}

/-- To return a value preserves every property. -/
theorem preserves_pure (a : α) : Preserves P (pure a : Action α) := fun _ h => h

/-- A conversion preserves every property, since it does not touch the machine. -/
theorem preserves_ofExcept (e : Except Fault α) : Preserves P (ofExcept e : Action α) := by
  cases e <;> exact fun _ h => h

/-- An update preserves the properties that it carries over. -/
theorem preserves_modify {f : Machine → Machine} (h : ∀ m, P m → P (f m)) :
    Preserves P (modify f : Action Unit) := h

/-- A sequence preserves what its parts preserve. -/
theorem Preserves.bind {x : Action α} {f : α → Action β} (hx : Preserves P x)
    (hf : ∀ a, Preserves P (f a)) : Preserves P (x >>= f) := by
  intro m h
  have hfirst := hx m h
  cases hresult : x m with
  | error fault m' =>
    rw [hresult] at hfirst
    rw [bind_of_error hresult]
    exact hfirst
  | ok a m' =>
    rw [hresult] at hfirst
    rw [bind_of_ok hresult]
    exact hf a m' hfirst

/-- An action for each value of a list preserves what each of them preserves. -/
theorem preserves_forM {f : α → Action Unit} {values : List α} (h : ∀ a ∈ values, Preserves P (f a)) :
    Preserves P (values.forM f) := by
  induction values with
  | nil => exact preserves_pure ()
  | cons a values ih =>
    rw [List.forall_mem_cons] at h
    exact h.1.bind fun _ => ih h.2

/-- Laying out a call preserves what clearing the machine, the two pushes and a jump preserve. -/
theorem preserves_enter {args : List Value} (offset : Nat) (hreset : ∀ m, P m → P m.reset)
    (hargs : ∀ value ∈ args, Preserves P (push value)) (hcount : ∀ n, Preserves P (push (.int n)))
    (hreturn : Preserves P (pushReturn (.int 0))) (hmoved : ∀ m pc, P m → P { m with pc := pc }) :
    Preserves P (enter offset args) := by
  have hreversed : ∀ value ∈ args.reverse, Preserves P (push value) :=
    fun value hvalue => hargs value (List.mem_reverse.mp hvalue)
  refine (preserves_modify hreset).bind fun _ => (preserves_forM hreversed).bind fun _ => ?_
  refine (preserves_ofExcept _).bind fun count => (hcount count).bind fun _ => ?_
  exact hreturn.bind fun _ => preserves_modify fun m => hmoved m offset

end Preserves

end Machine

/-! ## What steps, runs and calls preserve -/

namespace Interpreter

/-- A property that survives whatever an interpreter with the given catalog executes. -/
structure Invariant (catalog : Catalog) (P : Machine → Prop) : Prop where
  execute (operand : Int32) (op : Opcode) : Machine.Preserves P (Machine.execute catalog operand op)
  moved (m : Machine) (pc : Nat) (h : P m) : P { m with pc := pc }
  woken (m : Machine) (h : P m) : P { m with halted := false }

section Invariant

variable {P : Machine → Prop} {vm : Interpreter}

/-- One step preserves an invariant. -/
theorem Invariant.step (hP : Invariant vm.catalog P) (h : P vm.machine) :
    P (finalState (step vm)).machine := by
  have hstep := stepsTo_step vm
  generalize Interpreter.step vm = result at hstep ⊢
  cases hstep with
  | @failed op operand fault m hop hoperand hexecute =>
    have hafter := hP.execute operand op vm.machine h
    rw [hexecute] at hafter
    exact hafter
  | @executed op operand flow m hop hoperand hexecute =>
    have hafter := hP.execute operand op vm.machine h
    rw [hexecute] at hafter
    exact hP.moved m _ hafter
  | _ => exact h

/-- Steps that are followed as a run preserve an invariant, however the run ends. -/
theorem Invariant.runFor (hP : Invariant vm.catalog P) (fuel : Nat) (h : P vm.machine) :
    P (finalState (runFor fuel vm)).machine := by
  have hrun : (finalState (Interpreter.runFor fuel vm)).catalog = vm.catalog ∧
      P (finalState (Interpreter.runFor fuel vm)).machine := by
    refine runFor_preserves (P := fun u => u.catalog = vm.catalog ∧ P u.machine) ?_ fuel ⟨rfl, h⟩
    intro u hu
    obtain ⟨hcatalog, hmachine⟩ := hu
    rw [← hcatalog] at hP
    exact ⟨(stepsTo_step u).fixed.2.1.trans hcatalog, hP.step hmachine⟩
  exact hrun.2

/-- A run preserves an invariant, however it ends. -/
theorem Invariant.runWithin (hP : Invariant vm.catalog P) (fuel : Nat) (h : P vm.machine) :
    P (finalState (runWithin fuel vm)).machine := by
  have hrestart : Invariant vm.restart.catalog P := hP
  exact hrestart.runFor fuel (hP.woken _ h)

/-- A call preserves an invariant that its frame and taking its result preserve. -/
theorem Invariant.callWithin (hP : Invariant vm.catalog P) (fuel : Nat) (name : String)
    {args : List Value} (henter : ∀ offset, Machine.Preserves P (Machine.enter offset args))
    (hpop : Machine.Preserves P Machine.pop) (h : P vm.machine) :
    P (finalState (callWithin fuel name args vm)).machine := by
  cases hname : vm.catalog.procedure? name with
  | none =>
    rw [callWithin_of_unknown fuel args hname]
    exact h
  | some procedure =>
    have hlayout := henter procedure.offset vm.machine h
    cases hresult : Machine.enter procedure.offset args vm.machine with
    | error fault m =>
      rw [hresult] at hlayout
      rw [callWithin_of_layout_error fuel hname hresult]
      exact hlayout
    | ok u m =>
      rw [hresult] at hlayout
      rw [callWithin_of_layout fuel hname hresult]
      have hresolved : Invariant (vm.resolved name args procedure m).catalog P := hP
      have hrun := hresolved.runWithin fuel hlayout
      generalize Interpreter.runWithin fuel _ = result at hrun ⊢
      match result, hrun with
      | .error failure w, hrun => exact hrun
      | .ok (.stopped stop) w, hrun => exact hrun
      | .ok .unfinished w, hrun => exact hrun
      | .ok .halted w, hrun =>
        have htaken := hpop w.machine hrun
        cases htop : w.machine.data.back? with
        | none =>
          rw [conclude_of_empty name htop]
          exact hrun
        | some value =>
          rw [Machine.pop_eq_ok_iff.mpr ⟨htop, rfl⟩] at htaken
          rw [conclude_of_result name htop]
          exact htaken

end Invariant

end Interpreter

/-! ## Reachable machines -/

namespace Machine

/-- What a host can do to a machine by itself. -/
inductive HostEdit where
  | push (value : Value)
  | pop
  | pushReturn (value : Value)
  | popReturn
  | setPc (pc : Nat)
  | reset

/-- The machine after an edit. One that fails is an edit too. -/
def HostEdit.apply : HostEdit → Machine → Machine
  | push value, m => finalState (Machine.push value m)
  | pop, m => finalState (Machine.pop m)
  | pushReturn value, m => finalState (Machine.pushReturn value m)
  | popReturn, m => finalState (Machine.popReturn m)
  | setPc pc, m => { m with pc := pc }
  | reset, m => m.reset

/-- The machines that an empty machine of the given depth can become. -/
inductive Reachable (depth : Nat) : Machine → Prop
  | empty : Reachable depth (ofDepth depth)
  | edit {m : Machine} (change : HostEdit) (h : Reachable depth m) :
      Reachable depth (change.apply m)
  | step {vm : Interpreter} (h : Reachable depth vm.machine) :
      Reachable depth (finalState (Interpreter.step vm)).machine
  | run {vm : Interpreter} (fuel : Nat) (h : Reachable depth vm.machine) :
      Reachable depth (finalState (Interpreter.runWithin fuel vm)).machine
  | call {vm : Interpreter} (fuel : Nat) (name : String) (args : List Value)
      (h : Reachable depth vm.machine) :
      Reachable depth (finalState (Interpreter.callWithin fuel name args vm)).machine

/-- What edits preserve, and instructions under every catalog, holds of every reachable machine. -/
theorem Reachable.preserves {P : Machine → Prop} {depth : Nat} {m : Machine}
    (hempty : P (ofDepth depth)) (hedit : ∀ change m, P m → P (HostEdit.apply change m))
    (hinvariant : ∀ catalog, Interpreter.Invariant catalog P) (h : Reachable depth m) : P m := by
  induction h with
  | empty => exact hempty
  | edit change _ ih => exact hedit change _ ih
  | step _ ih => exact (hinvariant _).step ih
  | run fuel _ ih => exact (hinvariant _).runWithin fuel ih
  | call fuel name args _ ih =>
    refine (hinvariant _).callWithin fuel name (fun offset => ?_) (hedit .pop) ih
    exact preserves_enter offset (hedit .reset) (fun value _ => hedit (.push value))
      (fun n => hedit (.push (.int n))) (hedit (.pushReturn (.int 0))) fun m pc => hedit (.setPc pc) m

end Machine

end ScriptMachine
