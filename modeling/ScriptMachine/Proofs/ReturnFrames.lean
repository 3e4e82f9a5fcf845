import ScriptMachine.Proofs.Instructions
import ScriptMachine.Proofs.Simulations

/-!
# What lies under the return stack

Instructions reach the return stack from its top. Steps that succeed do so, too, on a machine whose
return stack has further entries underneath and that has as much more depth: they do the same and leave
those entries where they are (`return_stack_frame`). This is what lets a call run on top of the return
addresses and saved bases of its callers.

Only success carries over. A step that fails because the return stack is empty may succeed over
further entries.
-/

namespace ScriptMachine

namespace Machine

/-- The machine with further entries under those of its return stack, and with as much more depth. -/
def stackedOn (m : Machine) (below : Array Value) : Machine :=
  { m with
    ret := below ++ m.ret
    maxDepth := m.maxDepth + below.size }

/-- Whatever the action does with success, it does over further entries of the return stack. -/
def CarriesOver {α : Type} (below : Array Value) (x : Action α) : Prop :=
  ∀ m a m', x m = .ok a m' → x (m.stackedOn below) = .ok a (m'.stackedOn below)

section CarriesOver

variable {α β : Type} {below : Array Value}

/-- To return a value carries over. -/
theorem carriesOver_pure (a : α) : CarriesOver below (pure a : Action α) := by
  intro m a' m' h
  cases h
  rfl

/-- To fail carries over, since only success counts. -/
theorem carriesOver_throw (fault : Fault) : CarriesOver below (throw fault : Action α) := by
  intro m a m' h
  cases h

/-- A conversion carries over, since it does not touch the machine. -/
theorem carriesOver_ofExcept (e : Except Fault α) : CarriesOver below (ofExcept e : Action α) := by
  cases e with
  | ok a => exact carriesOver_pure a
  | error fault => exact carriesOver_throw fault

/-- An update carries over if it does not look at the entries below. -/
theorem carriesOver_modify {f : Machine → Machine}
    (hf : ∀ m, f (m.stackedOn below) = (f m).stackedOn below) :
    CarriesOver below (modify f : Action Unit) := by
  intro m u m' h
  cases h
  exact congrArg (EStateM.Result.ok ()) (hf m)

/-- Sequences carry over when their parts do. -/
theorem CarriesOver.bind {x : Action α} {f : α → Action β} (hx : CarriesOver below x)
    (hf : ∀ a, CarriesOver below (f a)) : CarriesOver below (x >>= f) := by
  intro m b m'' h
  obtain ⟨a, m', hfirst, hrest⟩ := exists_of_bind_eq_ok h
  rw [bind_of_ok (hx m a m' hfirst)]
  exact hf a m' b m'' hrest

/-- Reading from the machine what does not depend on the return stack or the depth changes nothing. -/
theorem carriesOver_get_bind {f : Machine → Action β} (hsame : ∀ m, f (m.stackedOn below) = f m)
    (hf : ∀ m, CarriesOver below (f m)) : CarriesOver below (get >>= f) := by
  intro m b m' h
  have hread : (get >>= f) (m.stackedOn below) = f m (m.stackedOn below) := by
    rw [← hsame m]
    rfl
  rw [hread]
  exact hf m m b m' h

end CarriesOver

/-! ## The parts of instructions -/

variable {below : Array Value}

/-- A push carries over, since the data stack has room to spare. -/
theorem carriesOver_push (value : Value) : CarriesOver below (push value) := by
  intro m u m' h
  obtain ⟨hroom, rfl⟩ := push_eq_ok_iff.mp h
  exact push_eq_ok_iff.mpr ⟨Nat.lt_add_right _ hroom, rfl⟩

/-- A pop carries over. -/
theorem carriesOver_pop : CarriesOver below pop := by
  intro m value m' h
  obtain ⟨htop, rfl⟩ := pop_eq_ok_iff.mp h
  exact pop_eq_ok_iff.mpr ⟨htop, rfl⟩

/-- A push on the return stack carries over, with as much room as before. -/
theorem carriesOver_pushReturn (value : Value) : CarriesOver below (pushReturn value) := by
  intro m u m' h
  obtain ⟨hroom, rfl⟩ := pushReturn_eq_ok_iff.mp h
  refine pushReturn_eq_ok_iff.mpr ⟨?_, ?_⟩
  · simp only [stackedOn, Array.size_append]
    omega
  · simp only [stackedOn, Array.append_push]

/-- A pop that succeeds takes an entry above those below. -/
theorem carriesOver_popReturn : CarriesOver below popReturn := by
  intro m value m' h
  obtain ⟨htop, rfl⟩ := popReturn_eq_ok_iff.mp h
  have hne : m.ret ≠ #[] := by
    rintro hempty
    rw [hempty] at htop
    cases htop
  refine popReturn_eq_ok_iff.mpr ⟨?_, ?_⟩
  · simp [stackedOn, htop]
  · simp [stackedOn, hne]

/-- An exchange of the top two entries does not reach further. -/
theorem swapIfInBounds_append (below s : Array Value) (hsize : 2 ≤ s.size) :
    (below ++ s).swapIfInBounds ((below ++ s).size - 2) ((below ++ s).size - 1) =
      below ++ s.swapIfInBounds (s.size - 2) (s.size - 1) := by
  apply Array.ext_getElem?
  intro i
  grind

/-- An exchange that succeeds is of two entries above those below. -/
theorem carriesOver_swapReturn : CarriesOver below swapReturn := by
  intro m u m' h
  unfold swapReturn at h ⊢
  split at h
  · cases h
  · rename_i hsize
    cases h
    have hroom : ¬ (below ++ m.ret).size < 2 := by
      rw [Array.size_append]
      omega
    have hswap := swapIfInBounds_append below m.ret (Nat.not_lt.mp hsize)
    simp only [stackedOn, hroom, if_false, hswap]

/-- Slots are not found through the return stack. -/
theorem slotIndex_stackedOn (m : Machine) (register : BaseRegister) (var : Int32) :
    (m.stackedOn below).slotIndex register var = m.slotIndex register var := by
  cases register <;> rfl

/-- A load carries over. -/
theorem carriesOver_load (register : BaseRegister) (var : Int32) :
    CarriesOver below (load register var) := by
  intro m value m' h
  unfold load at h ⊢
  rw [slotIndex_stackedOn]
  split at h
  · cases h
  · rename_i index hindex
    split at h
    · rename_i hentry
      cases h
      simp only [stackedOn, hentry]
    · cases h

/-- A store carries over, with more room for the data stack if anything. -/
theorem carriesOver_store (register : BaseRegister) (var : Int32) (value : Value) :
    CarriesOver below (store register var value) := by
  intro m u m' h
  unfold store at h ⊢
  rw [slotIndex_stackedOn]
  split at h
  · cases h
  · rename_i index hindex
    split at h
    · rename_i hslot
      cases h
      simp only [stackedOn, hslot, if_true]
    · rename_i hslot
      split at h
      · rename_i hdepth
        cases h
        have hroom : index < m.maxDepth + below.size := Nat.lt_add_right _ hdepth
        simp only [stackedOn, hslot, hroom, if_true, if_false]
      · cases h

/-- Opening a frame carries over. -/
theorem carriesOver_pushBase : CarriesOver below pushBase := by
  have hpopInt : CarriesOver below popInt := carriesOver_pop.bind fun _ => carriesOver_ofExcept _
  refine hpopInt.bind fun argc => carriesOver_get_bind (fun _ => rfl) fun m => ?_
  refine (carriesOver_ofExcept _).bind fun base => carriesOver_get_bind (fun _ => rfl) fun m => ?_
  refine (carriesOver_ofExcept _).bind fun saved => (carriesOver_pushReturn _).bind fun _ => ?_
  exact carriesOver_modify fun _ => rfl

/-- Closing a frame carries over. -/
theorem carriesOver_popBase : CarriesOver below popBase := by
  refine carriesOver_popReturn.bind fun value => (carriesOver_ofExcept _).bind fun base => ?_
  dsimp only
  split
  · refine carriesOver_get_bind (fun _ => rfl) fun m => (carriesOver_throw _).bind fun _ => ?_
    exact carriesOver_modify fun _ => rfl
  · exact carriesOver_modify fun _ => rfl

/-- Every instruction carries over. -/
theorem carriesOver_execute (catalog : Catalog) (operand : Int32) (op : Opcode) :
    CarriesOver below (execute catalog operand op) := by
  refine execute_of_parts (P := fun x => CarriesOver below x) (Q := fun x => CarriesOver below x) ?_
    catalog operand
  exact {
    pure := carriesOver_pure
    bind := CarriesOver.bind
    check := fun _ => carriesOver_ofExcept _
    pop := carriesOver_pop
    load := carriesOver_load
    popToBase := carriesOver_modify fun _ => rfl
    popReturn := fun _ => carriesOver_popReturn
    swapReturn := fun _ => carriesOver_swapReturn
    popBase := fun _ => carriesOver_popBase
    setGlobal := fun _ => carriesOver_modify fun _ => rfl
    halt := fun _ => carriesOver_modify fun _ => rfl
    last := fun hx => hx
    before := CarriesOver.bind
    after := fun b hx => hx.bind fun _ => carriesOver_pure b
    push := carriesOver_push
    store := carriesOver_store
    pushReturn := fun _ => carriesOver_pushReturn
    pushBase := fun _ => carriesOver_pushBase }

end Machine

namespace Interpreter

/-! ## Steps -/

/-- The interpreter with further entries under those of its return stack and as much more depth. -/
def stackedOn (vm : Interpreter) (below : Array Value) : Interpreter :=
  { vm with machine := vm.machine.stackedOn below }

/-- The second interpreter is the first with further entries under those of its return stack, apart
from the cursor and the log. -/
structure StackedOn (below : Array Value) (u v : Interpreter) : Prop where
  bytes : v.script.bytes = u.script.bytes
  catalog : v.catalog = u.catalog
  config : v.config = u.config
  steps : v.steps = u.steps
  machine : v.machine = u.machine.stackedOn below

/-- An interpreter goes together with itself over further entries. -/
theorem stackedOn_self (vm : Interpreter) (below : Array Value) :
    StackedOn below vm (vm.stackedOn below) :=
  ⟨rfl, rfl, rfl, rfl, rfl⟩

/-- Whether an action succeeded. -/
def succeeded {ε σ α : Type} : EStateM.Result ε σ α → Bool
  | .ok .. => true
  | .error .. => false

section StackedOn

variable {below : Array Value} {u v : Interpreter}

/-- Interpreters that go together are at the same address. -/
theorem StackedOn.pc_eq (h : StackedOn below u v) : v.machine.pc = u.machine.pc := by
  rw [h.machine]
  rfl

/-- Interpreters that go together have halted together. -/
theorem StackedOn.halted_eq (h : StackedOn below u v) : v.machine.halted = u.machine.halted := by
  rw [h.machine]
  rfl

/-- Interpreters that go together execute the same instruction next. -/
theorem StackedOn.next?_eq (h : StackedOn below u v) : v.next? = u.next? := by
  have hlimit : v.withinLimit = u.withinLimit := by rw [withinLimit, withinLimit, h.config, h.steps]
  have hpending : v.pending? = u.pending? := by
    simp only [pending?, h.bytes, h.pc_eq, h.halted_eq]
  rw [next?, next?, hlimit, hpending]

/-- A step that succeeds comes to the same status over further entries, which stay underneath. -/
theorem StackedOn.step (h : StackedOn below u v) (hok : succeeded (step u) = true) :
    Alike (StackedOn below) (step u) (step v) := by
  have hpc := h.pc_eq
  have hhalted := h.halted_eq
  have hstep := stepsTo_step u
  generalize Interpreter.step u = x at hstep hok ⊢
  cases hstep with
  | unreadable | refused | truncated | failed => cases hok
  | halted hself =>
    rw [← hhalted] at hself
    rw [(StepsTo.halted hself).eq_step]
    exact .ok h
  | undecodable hrunning hword hop =>
    rw [← h.bytes, ← hpc] at hword
    rw [← hhalted] at hrunning
    rw [← hpc, (StepsTo.undecodable hrunning hword hop).eq_step]
    exact .ok { h with }
  | @executed op operand flow m hop hoperand hexecute =>
    have hexecute' : Machine.execute u.catalog operand op (u.machine.stackedOn below) =
        .ok flow (m.stackedOn below) := Machine.carriesOver_execute _ _ _ _ _ _ hexecute
    rw [← h.catalog, ← h.machine] at hexecute'
    rw [← h.bytes, ← hpc] at hoperand
    rw [← h.next?_eq] at hop
    rw [← hpc, (StepsTo.executed hop hoperand hexecute').eq_step]
    exact .ok { h with steps := congrArg (· + 1) h.steps, machine := rfl }

end StackedOn

/-! ## Sequences of steps -/

/-- What steps come to that are taken one after another, also after the machine has halted. -/
def consecutive : Nat → Interpreter → List (EStateM.Result Failure Interpreter Status)
  | 0, _ => []
  | n + 1, vm => step vm :: consecutive n (finalState (step vm))

/-- What every step that succeeds takes from related interpreters to alike results, consecutive steps
that succeed do. -/
theorem forall₂_consecutive {R : Interpreter → Interpreter → Prop}
    (hstep : ∀ u v, R u v → succeeded (step u) = true → Alike R (step u) (step v)) (n : Nat)
    {u v : Interpreter} (h : R u v) (hsucceed : ∀ result ∈ consecutive n u, succeeded result = true) :
    List.Forall₂ (Alike R) (consecutive n u) (consecutive n v) := by
  induction n generalizing u v with
  | zero => exact .nil
  | succ n ih =>
    rw [consecutive, List.forall_mem_cons] at hsucceed
    have hfirst := hstep u v h hsucceed.1
    exact .cons hfirst (ih hfirst.finalState hsucceed.2)

/-- The return stack is reached only from the top.

If steps that are taken one after another all succeed, whether the machine runs, halts or stops, they
also succeed with further entries under those of the return stack and as much more depth. They come to
the same statuses, and after each of them the registers, the data stack, the halted flag and the step
counter are the same. The return stack is then that of the original steps on top of the further
entries. -/
theorem return_stack_frame (below : Array Value) (n : Nat) (vm : Interpreter)
    (hsucceed : ∀ result ∈ consecutive n vm, succeeded result = true) :
    List.Forall₂ (Alike (StackedOn below)) (consecutive n vm) (consecutive n (vm.stackedOn below)) :=
  forall₂_consecutive (fun _ _ => StackedOn.step) n (stackedOn_self vm below) hsucceed

/-- A script that puts three and four on the return stack, exchanges them, takes one back and ends. -/
def exchangeScript : Interpreter :=
  ofCode #[0x01, 0xC0, 3, 0, 0, 0, 0x0D, 0x80, 0x01, 0xC0, 4, 0, 0, 0, 0x0D, 0x80,
    0x19, 0x80, 0x0C, 0x80, 0x10, 0x80] .empty .standard

/-- Its seven instructions and a step after the end succeed, and over two further entries the exchange
does not reach them. -/
theorem return_stack_frame_exchange :
    (∀ result ∈ consecutive 8 exchangeScript, succeeded result = true) ∧
      (consecutive 8 (exchangeScript.stackedOn #[.int 9, .string "left"])).map
          (fun result => (finalState result).machine.ret) =
        [#[.int 9, .string "left"], #[.int 9, .string "left", .int 3],
          #[.int 9, .string "left", .int 3], #[.int 9, .string "left", .int 3, .int 4],
          #[.int 9, .string "left", .int 4, .int 3], #[.int 9, .string "left", .int 4],
          #[.int 9, .string "left", .int 4], #[.int 9, .string "left", .int 4]] ∧
      List.Forall₂ (Alike (StackedOn #[.int 9, .string "left"])) (consecutive 8 exchangeScript)
        (consecutive 8 (exchangeScript.stackedOn #[.int 9, .string "left"])) := by
  have hsucceed : ∀ result ∈ consecutive 8 exchangeScript, succeeded result = true := by
    rw [← List.all_eq_true]
    decide +kernel
  exact ⟨hsucceed, by decide +kernel, return_stack_frame _ 8 exchangeScript hsucceed⟩

end Interpreter

end ScriptMachine
