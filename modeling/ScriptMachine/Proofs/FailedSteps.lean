import ScriptMachine.Proofs.Instructions
import ScriptMachine.Proofs.Stepping

/-!
# What a failed step leaves behind

Instructions pop their operands before they check them, so a step that fails may leave the stacks shorter
than it found them. That is all the damage: nothing is rewritten, no register is set, and no instruction
pops from both stacks. `Popped` is this relation between machines, with a bound for each stack.

The bounds add up along the parts of an instruction that come before the one that fails (`Pops`), and that
part itself leaves the stacks alone when it is one that makes them grow (`PopsOnFailure`). For each
opcode this comes to the number of its operands (`execute_popsOnFailure`).
-/

namespace ScriptMachine

namespace Opcode

/-- How many entries the instruction pops from the data stack. -/
def pops : Opcode → Nat
  | store _ | branch | binary _ => 2
  | dToA | pop | pushBase | fetch _ | jmp | call | negate => 1
  | _ => 0

/-- How many entries the instruction pops from the return stack. Exchanging two entries pops none. -/
def popsReturn : Opcode → Nat
  | aToD | popBase | popReturn => 1
  | _ => 0

/-- An instruction pops at most two entries of the data stack or one of the return stack, and it does not
pop from both. -/
theorem pops_bounds (op : Opcode) :
    op.pops ≤ 2 ∧ op.popsReturn ≤ 1 ∧ (op.pops = 0 ∨ op.popsReturn = 0) := by
  have table : ∀ op ∈ all, op.pops ≤ 2 ∧ op.popsReturn ≤ 1 ∧ (op.pops = 0 ∨ op.popsReturn = 0) := by
    decide
  exact table op (mem_all op)

end Opcode

namespace Machine

/-! ## Popped entries -/

/-- The second machine is the first without some entries from the tops of its stacks, at most so many of
the data stack and so many of the return stack. -/
def Popped (data ret : Nat) (m m' : Machine) : Prop :=
  ∃ fromData fromRet : Array Value, fromData.size ≤ data ∧ fromRet.size ≤ ret ∧
    m = { m' with data := m'.data ++ fromData, ret := m'.ret ++ fromRet }

/-- A machine that is left alone has lost nothing. -/
theorem popped_refl (m : Machine) : Popped 0 0 m m :=
  ⟨#[], #[], Nat.le_refl _, Nat.le_refl _, by simp⟩

/-- What is popped one after the other adds up. -/
theorem Popped.trans {d d' r r' : Nat} {m m' m'' : Machine} (h : Popped d r m m')
    (h' : Popped d' r' m' m'') : Popped (d' + d) (r' + r) m m'' := by
  obtain ⟨fromData, fromRet, hdata, hret, rfl⟩ := h
  obtain ⟨fromData', fromRet', hdata', hret', rfl⟩ := h'
  refine ⟨fromData' ++ fromData, fromRet' ++ fromRet, ?_, ?_, ?_⟩
  · rw [Array.size_append]
    omega
  · rw [Array.size_append]
    omega
  · simp

/-- The bounds on what is popped may be larger than needed. -/
theorem Popped.mono {d d' r r' : Nat} {m m' : Machine} (h : Popped d r m m') (hd : d ≤ d')
    (hr : r ≤ r') : Popped d' r' m m' := by
  obtain ⟨fromData, fromRet, hdata, hret, rfl⟩ := h
  exact ⟨fromData, fromRet, Nat.le_trans hdata hd, Nat.le_trans hret hr, rfl⟩

section Popped

variable {d r : Nat} {m m' : Machine}

/-- Popping sets no register. -/
theorem Popped.registers (h : Popped d r m m') :
    m'.pc = m.pc ∧ m'.frameBase = m.frameBase ∧ m'.globalBase = m.globalBase ∧
      m'.halted = m.halted ∧ m'.maxDepth = m.maxDepth := by
  obtain ⟨_, _, -, -, rfl⟩ := h
  exact ⟨rfl, rfl, rfl, rfl, rfl⟩

/-- What is left of the data stack is its lower part. -/
theorem Popped.exists_data (h : Popped d r m m') :
    ∃ popped : Array Value, popped.size ≤ d ∧ m.data = m'.data ++ popped := by
  obtain ⟨popped, _, hsize, -, rfl⟩ := h
  exact ⟨popped, hsize, rfl⟩

/-- What is left of the return stack is its lower part. -/
theorem Popped.exists_ret (h : Popped d r m m') :
    ∃ popped : Array Value, popped.size ≤ r ∧ m.ret = m'.ret ++ popped := by
  obtain ⟨_, popped, -, hsize, rfl⟩ := h
  exact ⟨popped, hsize, rfl⟩

/-- With nothing to pop from it, the data stack is as it was. -/
theorem Popped.data_eq (h : Popped 0 r m m') : m'.data = m.data := by
  obtain ⟨popped, hsize, hdata⟩ := h.exists_data
  rw [hdata, Array.eq_empty_of_size_eq_zero (Nat.le_zero.mp hsize), Array.append_empty]

/-- With nothing to pop from it, the return stack is as it was. -/
theorem Popped.ret_eq (h : Popped d 0 m m') : m'.ret = m.ret := by
  obtain ⟨popped, hsize, hret⟩ := h.exists_ret
  rw [hret, Array.eq_empty_of_size_eq_zero (Nat.le_zero.mp hsize), Array.append_empty]

end Popped

/-- An action pops at most so many entries and does nothing else, whether or not it succeeds. -/
def Pops {α : Type} (data ret : Nat) (x : Action α) : Prop :=
  ∀ m, Popped data ret m (finalState (x m))

/-- An action that fails has popped at most so many entries and has done nothing else. -/
def PopsOnFailure {α : Type} (data ret : Nat) (x : Action α) : Prop :=
  ∀ m fault m', x m = .error fault m' → Popped data ret m m'

/-- An action that does not fail. -/
def Succeeds {α : Type} (x : Action α) : Prop :=
  ∀ m, ∃ a m', x m = .ok a m'

section Rules

variable {α β : Type} {d d' r r' : Nat} {x : Action α} {f : α → Action β}

/-- To return a value pops nothing. -/
theorem pops_pure (a : α) : Pops 0 0 (pure a : Action α) := popped_refl

/-- To look at the machine pops nothing. -/
theorem pops_get : Pops 0 0 (get : Action Machine) := popped_refl

/-- To fail on the spot pops nothing. -/
theorem pops_throw (fault : Fault) : Pops 0 0 (throw fault : Action α) := popped_refl

/-- A conversion pops nothing. -/
theorem pops_ofExcept (e : Except Fault α) : Pops 0 0 (ofExcept e : Action α) := by
  cases e <;> exact popped_refl

/-- An update does not fail. -/
theorem succeeds_modify (g : Machine → Machine) : Succeeds (modify g : Action Unit) :=
  fun m => ⟨(), g m, rfl⟩

/-- To return a value does not fail. -/
theorem succeeds_pure (a : α) : Succeeds (pure a : Action α) :=
  fun m => ⟨a, m, rfl⟩

/-- A sequence of actions that do not fail does not fail. -/
theorem Succeeds.bind (hx : Succeeds x) (hf : ∀ a, Succeeds (f a)) : Succeeds (x >>= f) := by
  intro m
  obtain ⟨a, m', hfirst⟩ := hx m
  rw [bind_of_ok hfirst]
  exact hf a m'

/-- What bounds the pops of an action in any case bounds them on failure. -/
theorem Pops.onFailure (hx : Pops d r x) : PopsOnFailure d r x := by
  intro m fault m' h
  have hpopped := hx m
  rw [h] at hpopped
  exact hpopped

/-- An action that does not fail pops nothing on failure. -/
theorem Succeeds.popsOnFailure (hx : Succeeds x) : PopsOnFailure 0 0 x := by
  intro m fault m' h
  obtain ⟨a, m'', hok⟩ := hx m
  rw [hok] at h
  cases h

/-- What the parts of a sequence pop adds up. -/
theorem Pops.bind (hx : Pops d r x) (hf : ∀ a, Pops d' r' (f a)) :
    Pops (d' + d) (r' + r) (x >>= f) := by
  intro m
  have hfirst := hx m
  cases hresult : x m with
  | error fault m' =>
    rw [hresult] at hfirst
    rw [bind_of_error hresult]
    exact hfirst.mono (Nat.le_add_left ..) (Nat.le_add_left ..)
  | ok a m' =>
    rw [hresult] at hfirst
    rw [bind_of_ok hresult]
    exact hfirst.trans (hf a m')

/-- What the parts of a sequence pop adds up when the last of them fails. -/
theorem Pops.bind_onFailure (hx : Pops d r x) (hf : ∀ a, PopsOnFailure d' r' (f a)) :
    PopsOnFailure (d' + d) (r' + r) (x >>= f) := by
  intro m fault m'' h
  have hfirst := hx m
  obtain herror | ⟨a, m', hok, hrest⟩ := cases_of_bind_eq_error h
  · rw [herror] at hfirst
    exact hfirst.mono (Nat.le_add_left ..) (Nat.le_add_left ..)
  · rw [hok] at hfirst
    exact hfirst.trans (hf a m' fault m'' hrest)

/-- A sequence fails in its first part when the second does not fail. -/
theorem PopsOnFailure.bind (hx : PopsOnFailure d r x) (hf : ∀ a, Succeeds (f a)) :
    PopsOnFailure d r (x >>= f) := by
  intro m fault m'' h
  obtain herror | ⟨a, m', -, hrest⟩ := cases_of_bind_eq_error h
  · exact hx m fault m'' herror
  · obtain ⟨b, m₁, hok⟩ := hf a m'
    rw [hok] at hrest
    cases hrest

end Rules

/-! ## The parts of instructions -/

/-- A pop takes one entry of the data stack, or none if it fails. -/
theorem pops_pop : Pops 1 0 pop := by
  intro m
  unfold pop
  split
  · rename_i value htop
    obtain ⟨below, hdata⟩ := Array.back?_eq_some_iff.mp htop
    have hpopped : m.data.pop ++ #[value] = m.data := by simp [hdata]
    exact ⟨#[value], #[], Nat.le_refl _, Nat.le_refl _, by simp [finalState, hpopped]⟩
  · exact (popped_refl m).mono (Nat.zero_le _) (Nat.le_refl _)

/-- A pop of a number takes one entry of the data stack, also if that is text. -/
theorem pops_popInt : Pops 1 0 popInt :=
  pops_pop.bind fun _ => pops_ofExcept _

/-- A pop from the return stack takes one entry of it, or none if it fails. -/
theorem pops_popReturn : Pops 0 1 popReturn := by
  intro m
  unfold popReturn
  split
  · rename_i value htop
    obtain ⟨below, hret⟩ := Array.back?_eq_some_iff.mp htop
    have hpopped : m.ret.pop ++ #[value] = m.ret := by simp [hret]
    exact ⟨#[], #[value], Nat.le_refl _, Nat.le_refl _, by simp [finalState, hpopped]⟩
  · exact (popped_refl m).mono (Nat.le_refl _) (Nat.zero_le _)

/-- A load takes no entry. -/
theorem pops_load (register : BaseRegister) (var : Int32) : Pops 0 0 (load register var) := by
  intro m
  unfold load
  split
  · exact popped_refl m
  · split <;> exact popped_refl m

/-- A push that fails leaves the stacks alone. -/
theorem popsOnFailure_push (value : Value) : PopsOnFailure 0 0 (push value) := by
  intro m fault m' h
  unfold push at h
  split at h
  · cases h
  · cases h
    exact popped_refl m

/-- A push on the return stack that fails leaves the stacks alone. -/
theorem popsOnFailure_pushReturn (value : Value) : PopsOnFailure 0 0 (pushReturn value) := by
  intro m fault m' h
  unfold pushReturn at h
  split at h
  · cases h
  · cases h
    exact popped_refl m

/-- An exchange on the return stack that fails leaves the stacks alone. -/
theorem popsOnFailure_swapReturn : PopsOnFailure 0 0 swapReturn := by
  intro m fault m' h
  unfold swapReturn at h
  split at h
  · cases h
    exact popped_refl m
  · cases h

/-- A store that fails leaves the stacks alone. -/
theorem popsOnFailure_store (register : BaseRegister) (var : Int32) (value : Value) :
    PopsOnFailure 0 0 (store register var value) := by
  intro m fault m' h
  unfold store at h
  split at h
  · cases h
    exact popped_refl m
  · split at h
    · cases h
    · split at h
      · cases h
      · cases h
        exact popped_refl m

/-- An instruction that fails has popped at most its operands and has done nothing else. -/
theorem execute_popsOnFailure (catalog : Catalog) (operand : Int32) (op : Opcode) :
    PopsOnFailure op.pops op.popsReturn (execute catalog operand op) := by
  -- The parts in their order: those that pop or check, then the one that makes a stack grow, then those
  -- that cannot fail.
  cases op with
  | startCritical => exact (pops_pure _).onFailure
  | criticalDone => exact (pops_pure _).onFailure
  | pushD => exact (popsOnFailure_push _).bind fun _ => succeeds_pure _
  | pushString =>
    simp only [execute]
    split
    · exact (popsOnFailure_push _).bind fun _ => succeeds_pure _
    · exact (pops_throw _).onFailure
  | dToA =>
    refine pops_pop.bind_onFailure fun value => ?_
    exact (popsOnFailure_pushReturn value).bind fun _ => succeeds_pure _
  | aToD =>
    refine pops_popReturn.bind_onFailure fun value => ?_
    exact (popsOnFailure_push value).bind fun _ => succeeds_pure _
  | pop => exact pops_pop.onFailure.bind fun _ => succeeds_pure _
  | swapA => exact popsOnFailure_swapReturn.bind fun _ => succeeds_pure _
  | pushBase =>
    refine PopsOnFailure.bind ?_ fun _ => succeeds_pure _
    refine pops_popInt.bind_onFailure fun argc => pops_get.bind_onFailure fun _ => ?_
    refine (pops_ofExcept _).bind_onFailure fun base => pops_get.bind_onFailure fun _ => ?_
    refine (pops_ofExcept _).bind_onFailure fun saved => ?_
    exact (popsOnFailure_pushReturn _).bind fun _ => succeeds_modify _
  | popBase =>
    refine PopsOnFailure.bind ?_ fun _ => succeeds_pure _
    refine pops_popReturn.bind_onFailure fun value => (pops_ofExcept _).bind_onFailure fun base => ?_
    dsimp only
    split
    · refine pops_get.bind_onFailure fun _ => (pops_throw _).onFailure.bind fun _ => ?_
      exact succeeds_modify _
    · exact (succeeds_modify _).popsOnFailure
  | popToBase => exact (succeeds_modify _).popsOnFailure.bind fun _ => succeeds_pure _
  | setGlobal => exact (succeeds_modify _).popsOnFailure.bind fun _ => succeeds_pure _
  | store register =>
    refine pops_popInt.bind_onFailure fun var => pops_pop.bind_onFailure fun value => ?_
    exact (popsOnFailure_store register var value).bind fun _ => succeeds_pure _
  | fetch register =>
    refine pops_popInt.bind_onFailure fun var => (pops_load register var).bind_onFailure fun value => ?_
    exact (popsOnFailure_push value).bind fun _ => succeeds_pure _
  | jmp =>
    refine pops_pop.bind_onFailure fun value => ?_
    exact (pops_ofExcept _).onFailure.bind fun _ => succeeds_pure _
  | branch =>
    refine pops_pop.bind_onFailure fun condition => pops_pop.bind_onFailure fun target => ?_
    split
    · exact (pops_pure _).onFailure
    · exact (pops_ofExcept _).onFailure.bind fun _ => succeeds_pure _
  | call =>
    refine pops_popInt.bind_onFailure fun index => ?_
    split
    · exact (pops_pure _).onFailure
    · exact (pops_throw _).onFailure
  | popReturn =>
    refine pops_popReturn.bind_onFailure fun value => ?_
    refine (pops_ofExcept _).onFailure.bind fun target => ?_
    dsimp only
    split
    · exact (succeeds_modify _).bind fun _ => succeeds_pure _
    · exact succeeds_pure _
  | exitProg => exact (succeeds_modify _).popsOnFailure.bind fun _ => succeeds_pure _
  | binary op =>
    refine PopsOnFailure.bind ?_ fun _ => succeeds_pure _
    refine pops_pop.bind_onFailure fun b => pops_pop.bind_onFailure fun a => ?_
    exact (pops_ofExcept _).bind_onFailure fun result => popsOnFailure_push result
  | negate =>
    refine pops_pop.bind_onFailure fun value => (pops_ofExcept _).bind_onFailure fun result => ?_
    exact (popsOnFailure_push result).bind fun _ => succeeds_pure _

end Machine

namespace Interpreter

open Reader

/-! ## Steps -/

section Steps

variable {vm u : Interpreter} {failure : Failure} {op : Opcode}

/-- A step that fails although it executes an instruction has counted it, and has popped at most its
operands. This includes instructions whose immediate is cut off. -/
theorem popped_of_executed (hop : vm.next? = some op) (h : step vm = .error failure u) :
    Machine.Popped op.pops op.popsReturn vm.machine u.machine ∧ u.steps = vm.steps + 1 ∧
      ∃ fault, failure = .atInstruction vm.machine.pc op.mnemonic fault := by
  have hstep := stepsTo_step vm
  rw [h] at hstep
  generalize hresult : EStateM.Result.error failure u = result at hstep
  cases hstep with
  | halted | undecodable | executed => cases hresult
  | unreadable hrunning hword =>
    rw [next?_eq_none_of_pending? (pending?_of_unreadable hword)] at hop
    cases hop
  | refused hpending hlimit hspent =>
    have hwithin := withinLimit_eq_false_iff.mpr ⟨_, hlimit, hspent⟩
    rw [(next?_eq_some_iff.mp hop).1] at hwithin
    cases hwithin
  | truncated hnext hoperand =>
    cases hresult
    obtain rfl := Option.some.inj (hnext.symm.trans hop)
    exact ⟨(Machine.popped_refl _).mono (Nat.zero_le _) (Nat.zero_le _), rfl, _, rfl⟩
  | failed hnext hoperand hexecute =>
    cases hresult
    obtain rfl := Option.some.inj (hnext.symm.trans hop)
    exact ⟨Machine.execute_popsOnFailure _ _ _ _ _ _ hexecute, rfl, _, rfl⟩

/-- A step that fails before it executes an instruction leaves the machine as it was and counts nothing.
It finds no word, or the step limit refuses the instruction. -/
theorem unchanged_of_unexecuted (hop : vm.next? = none) (h : step vm = .error failure u) :
    u.machine = vm.machine ∧ u.steps = vm.steps ∧
      ((∃ fault, wordAt vm.script.bytes vm.machine.pc = .error fault ∧ failure = .unlocated fault) ∨
        ∃ op limit, vm.pending? = some op ∧ vm.config.maxSteps = some limit ∧ limit ≤ vm.steps ∧
          failure = .atInstruction vm.machine.pc op.mnemonic (.stepLimit limit)) := by
  have hstep := stepsTo_step vm
  rw [h] at hstep
  generalize hresult : EStateM.Result.error failure u = result at hstep
  cases hstep with
  | halted | undecodable | executed => cases hresult
  | unreadable hrunning hword =>
    cases hresult
    exact ⟨rfl, rfl, .inl ⟨_, hword, rfl⟩⟩
  | refused hpending hlimit hspent =>
    cases hresult
    exact ⟨rfl, rfl, .inr ⟨_, _, hpending, hlimit, hspent, rfl⟩⟩
  | truncated hnext | failed hnext =>
    rw [hop] at hnext
    cases hnext

/-- A failed step has popped from one stack at most. -/
theorem popped_of_step_eq_error (h : step vm = .error failure u) :
    Machine.Popped 2 0 vm.machine u.machine ∨ Machine.Popped 0 1 vm.machine u.machine := by
  cases hop : vm.next? with
  | none =>
    rw [(unchanged_of_unexecuted hop h).1]
    exact .inl ((Machine.popped_refl _).mono (Nat.zero_le _) (Nat.le_refl _))
  | some op =>
    have hpopped := (popped_of_executed hop h).1
    obtain ⟨hdata, hret, hnone | hnone⟩ := op.pops_bounds
    · exact .inr (hpopped.mono (Nat.le_of_eq hnone) hret)
    · exact .inl (hpopped.mono hdata (Nat.le_of_eq hnone))

end Steps

/-- A failing step does bounded damage.

The registers, the halted flag and the depth are as they were. The data stack has lost at most its top two
entries and the return stack at most its top entry, only one of them has lost any, and what is left is as
it was. If the failure came from executing an instruction, which includes reading its immediate, exactly
one more instruction is counted. If it came from finding no word at the program counter or from the step
limit, none is counted and the stacks are as they were. -/
theorem failed_step_damage {vm u : Interpreter} {failure : Failure}
    (hsteps : vm.steps.toNat < 2 ^ 64 - 1) (h : step vm = .error failure u) :
    (u.machine.pc = vm.machine.pc ∧ u.machine.frameBase = vm.machine.frameBase ∧
      u.machine.globalBase = vm.machine.globalBase ∧ u.machine.halted = vm.machine.halted ∧
      u.machine.maxDepth = vm.machine.maxDepth) ∧
    ((∃ popped : Array Value, popped.size ≤ 2 ∧ vm.machine.data = u.machine.data ++ popped) ∧
      (∃ popped : Array Value, popped.size ≤ 1 ∧ vm.machine.ret = u.machine.ret ++ popped) ∧
      (u.machine.data = vm.machine.data ∨ u.machine.ret = vm.machine.ret)) ∧
    (∀ op, vm.next? = some op →
      u.steps.toNat = vm.steps.toNat + 1 ∧
        ∃ fault, failure = .atInstruction vm.machine.pc op.mnemonic fault) ∧
    (vm.next? = none →
      u.steps = vm.steps ∧ u.machine.data = vm.machine.data ∧ u.machine.ret = vm.machine.ret ∧
        ((∃ fault, wordAt vm.script.bytes vm.machine.pc = .error fault ∧
            failure = .unlocated fault) ∨
          ∃ op limit, vm.pending? = some op ∧ vm.config.maxSteps = some limit ∧ limit ≤ vm.steps ∧
            failure = .atInstruction vm.machine.pc op.mnemonic (.stepLimit limit))) := by
  have hone := popped_of_step_eq_error h
  have hpopped : Machine.Popped 2 1 vm.machine u.machine := by
    obtain hdata | hret := hone
    · exact hdata.mono (Nat.le_refl _) (Nat.zero_le _)
    · exact hret.mono (Nat.zero_le _) (Nat.le_refl _)
  refine ⟨hpopped.registers, ⟨hpopped.exists_data, hpopped.exists_ret, ?_⟩, ?_, ?_⟩
  · obtain hdata | hret := hone
    · exact .inr hdata.ret_eq
    · exact .inl hret.data_eq
  · intro op hop
    obtain ⟨-, hcount, hfault⟩ := popped_of_executed hop h
    have hlimit : vm.steps < 18446744073709551615 := UInt64.lt_iff_toNat_lt.mpr hsteps
    rw [hcount]
    exact ⟨toNat_steps_succ hlimit, hfault⟩
  · intro hop
    obtain ⟨hmachine, hcount, hcause⟩ := unchanged_of_unexecuted hop h
    rw [hmachine]
    exact ⟨hcount, rfl, rfl, hcause⟩

/-- A machine about to divide by zero, with five instructions counted. -/
def dividingByZero : Interpreter :=
  { ofCode #[0x3C, 0x80] .empty .standard with
    machine := { data := #[.string "kept", .int 7, .int 0], ret := #[.int 3], maxDepth := 8 }
    steps := 5 }

/-- Both operands are gone, what lies below them stays, and the division is counted. -/
theorem failed_step_damage_division :
    dividingByZero.steps.toNat < 2 ^ 64 - 1 ∧
      ∃ failure u, step dividingByZero = .error failure u ∧ failure.fault = .divisionByZero ∧
        u.machine.data = #[.string "kept"] ∧ u.machine.pc = dividingByZero.machine.pc ∧
        u.steps.toNat = dividingByZero.steps.toNat + 1 := by
  have hsteps : dividingByZero.steps.toNat < 2 ^ 64 - 1 := by decide
  have hop : dividingByZero.next? = some (.binary .div) := by decide +kernel
  have hstep : step dividingByZero =
      .error (.atInstruction 0 "div" .divisionByZero) (finalState (step dividingByZero)) := rfl
  obtain ⟨⟨hpc, -⟩, -, hcounted, -⟩ := failed_step_damage hsteps hstep
  exact ⟨hsteps, _, _, hstep, rfl, by decide +kernel, hpc, (hcounted _ hop).1⟩

end Interpreter

end ScriptMachine
