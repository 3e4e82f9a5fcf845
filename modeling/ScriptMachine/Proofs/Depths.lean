import ScriptMachine.Proofs.Instructions

/-!
# Instructions at every depth

How an instruction depends on the depth of the stacks. From a given machine there are two cases. It
may be `Steady`: it does the same at every depth and makes no stack longer. Or it `Grows` one stack:
from a certain depth on it succeeds, always with the same result, and at every smaller depth it is
refused. The depth from which it succeeds is the number of entries that the stack has then.

`execute_exact` proves this of every instruction. It rests on the order of the parts of an
instruction: what makes a stack grow comes last, after the operands have been popped and checked.
-/

namespace ScriptMachine.Machine

/-- The machine with stacks of another depth. -/
def withDepth (m : Machine) (depth : Nat) : Machine :=
  { m with maxDepth := depth }

/-- The number of entries of a stack. -/
def size (m : Machine) : StackName → Nat
  | .data => m.data.size
  | .ret => m.ret.size

/-- The lengths of the stacks do not depend on the depth. -/
@[simp] theorem size_withDepth (m : Machine) (depth : Nat) : (m.withDepth depth).size = m.size := by
  funext stack
  cases stack <;> rfl

/-- From this machine the action does the same at every depth; it makes no stack longer and is never
refused for its depth. -/
structure Steady {α : Type} (x : Action α) (m : Machine) : Prop where
  apply_withDepth (depth : Nat) : x (m.withDepth depth) = mapState (·.withDepth depth) (x m)
  size_le (stack : StackName) : (finalState (x m)).size stack ≤ m.size stack
  ne_depthLimit (limit : Nat) (stack : StackName) (m' : Machine) :
    x m ≠ .error (.depthLimit limit stack) m'

/-- From this machine the action makes a stack longer. It succeeds at the depths that leave room for
the longer stack, and is refused at the others. -/
structure Grows {α : Type} (x : Action α) (m : Machine) (a : α) (refused grown : Machine)
    (stack : StackName) : Prop where
  apply_withDepth (depth : Nat) :
    x (m.withDepth depth) =
      if grown.size stack ≤ depth then .ok a (grown.withDepth depth)
      else .error (.depthLimit depth stack) (refused.withDepth depth)
  size_le {other : StackName} (h : other ≠ stack) : grown.size other ≤ m.size other

/-- From this machine the depth matters only where a stack would not have room. -/
def Exact {α : Type} (x : Action α) (m : Machine) : Prop :=
  Steady x m ∨ ∃ a refused grown stack, Grows x m a refused grown stack

/-! ## Sequences -/

section Sequences

variable {α β : Type} {x : Action α} {f : α → Action β} {m m' : Machine} {a : α}

/-- What follows a steady action acts on the machine that it leaves, at every depth. -/
theorem Steady.bind_withDepth (hx : Steady x m) (h : x m = .ok a m') (depth : Nat) :
    (x >>= f) (m.withDepth depth) = f a (m'.withDepth depth) := by
  have hx' := hx.apply_withDepth depth
  rw [h] at hx'
  exact bind_of_ok hx'

/-- A steady action that fails makes a sequence fail, at every depth. -/
theorem Steady.bind_of_error {fault : Fault} (hx : Steady x m) (h : x m = .error fault m') :
    Steady (x >>= f) m := by
  have hbind : (x >>= f) m = .error fault m' := ScriptMachine.bind_of_error h
  have hsize := hx.size_le
  have hfault := hx.ne_depthLimit
  rw [h] at hsize hfault
  refine ⟨fun depth => ?_, fun stack => ?_, fun limit stack m'' heq => ?_⟩
  · have hx' := hx.apply_withDepth depth
    rw [h] at hx'
    rw [hbind]
    exact ScriptMachine.bind_of_error hx'
  · rw [hbind]
    exact hsize stack
  · rw [hbind] at heq
    cases heq
    exact hfault limit stack m' rfl

/-- Two steady actions in sequence are steady. -/
theorem Steady.bind_of_ok (hx : Steady x m) (h : x m = .ok a m') (hf : Steady (f a) m') :
    Steady (x >>= f) m := by
  have hbind : (x >>= f) m = f a m' := ScriptMachine.bind_of_ok h
  have hsize := hx.size_le
  rw [h] at hsize
  refine ⟨fun depth => ?_, fun stack => ?_, fun limit stack m'' heq => ?_⟩
  · rw [hx.bind_withDepth h, hbind]
    exact hf.apply_withDepth depth
  · rw [hbind]
    exact Nat.le_trans (hf.size_le stack) (hsize stack)
  · rw [hbind] at heq
    exact hf.ne_depthLimit limit stack m'' heq

/-- A sequence of steady actions is steady. -/
theorem Steady.bind (hx : Steady x m) (hf : ∀ a m', Steady (f a) m') : Steady (x >>= f) m := by
  cases h : x m with
  | error fault m' => exact hx.bind_of_error h
  | ok a m' => exact hx.bind_of_ok h (hf a m')

/-- A stack may grow after a steady action. -/
theorem Steady.bind_exact (hx : Steady x m) (hf : ∀ a m', Exact (f a) m') : Exact (x >>= f) m := by
  cases h : x m with
  | error fault m' => exact .inl (hx.bind_of_error h)
  | ok a m' =>
    -- What follows starts from a machine whose stacks are no longer than before.
    obtain hsteady | ⟨b, refused, grown, stack, hgrows⟩ := hf a m'
    · exact .inl (hx.bind_of_ok h hsteady)
    · have hsize := hx.size_le
      rw [h] at hsize
      refine .inr ⟨b, refused, grown, stack, fun depth => ?_, fun {other} hother => ?_⟩
      · rw [hx.bind_withDepth h]
        exact hgrows.apply_withDepth depth
      · exact Nat.le_trans (hgrows.size_le hother) (hsize other)

/-- Reading from the machine what does not depend on the depth changes nothing. -/
theorem Exact.get_bind {f : Machine → Action β} (hf : ∀ depth, f (m.withDepth depth) = f m)
    (h : Exact (f m) m) : Exact (get >>= f) m := by
  have hget (depth : Nat) : (get >>= f) (m.withDepth depth) = f m (m.withDepth depth) := by
    rw [← hf depth]
    rfl
  have hself : (get >>= f) m = f m m := rfl
  obtain hsteady | ⟨a, refused, grown, stack, hgrows⟩ := h
  · refine .inl ⟨fun depth => ?_, hsteady.size_le, hsteady.ne_depthLimit⟩
    rw [hget, hself]
    exact hsteady.apply_withDepth depth
  · refine .inr ⟨a, refused, grown, stack, fun depth => ?_, hgrows.size_le⟩
    rw [hget]
    exact hgrows.apply_withDepth depth

end Sequences

/-! ## The parts of instructions -/

section Parts

variable {α β : Type} {x : Action α} {m m' : Machine} {a : α}

/-- An action that succeeds at every depth and makes no stack longer is steady. -/
theorem steady_of_ok (h : ∀ depth, x (m.withDepth depth) = .ok a (m'.withDepth depth))
    (hsize : ∀ stack, m'.size stack ≤ m.size stack) : Steady x m := by
  have hself : x m = .ok a (m'.withDepth m.maxDepth) := h m.maxDepth
  refine ⟨fun depth => ?_, fun stack => ?_, fun limit stack m'' heq => ?_⟩
  · rw [h, hself]
    rfl
  · rw [hself]
    exact (size_withDepth m' m.maxDepth) ▸ hsize stack
  · rw [hself] at heq
    cases heq

/-- An action that fails at every depth, but not for the depth, is steady. -/
theorem steady_of_error (fault : Fault)
    (h : ∀ depth, x (m.withDepth depth) = .error fault (m.withDepth depth))
    (hfault : ∀ limit stack, fault ≠ .depthLimit limit stack) : Steady x m := by
  have hself : x m = .error fault m := h m.maxDepth
  refine ⟨fun depth => ?_, fun stack => ?_, fun limit stack m'' heq => ?_⟩
  · rw [h, hself]
    rfl
  · rw [hself]
    exact Nat.le_refl _
  · rw [hself] at heq
    cases heq
    exact hfault limit stack rfl

/-- A checked conversion is not refused for the depth. -/
theorem ne_depthLimit_of_checks {e : Except Fault α} {fault : Fault} (he : Checks e)
    (h : e = .error fault) (limit : Nat) (stack : StackName) : fault ≠ .depthLimit limit stack := by
  intro heq
  subst heq
  cases he _ h

/-- An update of the registers can follow a growing stack. -/
theorem Exact.bind_update {y : Action β} {b : β} {g : Machine → Machine} (hx : Exact x m)
    (hy : ∀ m depth, y (m.withDepth depth) = .ok b ((g m).withDepth depth))
    (hsize : ∀ m stack, (g m).size stack = m.size stack) : Exact (x >>= fun _ => y) m := by
  obtain hsteady | ⟨a, refused, grown, stack, hgrows⟩ := hx
  · exact .inl (hsteady.bind fun _ m => steady_of_ok (hy m) fun stack => Nat.le_of_eq (hsize m stack))
  · refine .inr ⟨b, refused, g grown, stack, fun depth => ?_, fun {other} hother => ?_⟩
    · have hx' := hgrows.apply_withDepth depth
      rw [hsize]
      split
      · rename_i hroom
        rw [if_pos hroom] at hx'
        rw [bind_of_ok hx', hy]
      · rename_i hroom
        rw [if_neg hroom] at hx'
        exact bind_of_error hx'
    · rw [hsize]
      exact hgrows.size_le hother

/-- A conversion does not look at the depth. -/
theorem steady_ofExcept {e : Except Fault α} (he : Checks e) (m : Machine) :
    Steady (ofExcept e : Action α) m := by
  cases e with
  | ok a => exact steady_of_ok (fun _ => rfl) fun _ => Nat.le_refl _
  | error fault => exact steady_of_error fault (fun _ => rfl) (ne_depthLimit_of_checks he rfl)

end Parts

/-- A pop does not look at the depth. -/
theorem steady_pop (m : Machine) : Steady pop m := by
  cases hback : m.data.back? with
  | none =>
    have hpop (depth : Nat) :
        pop (m.withDepth depth) = .error (.stackUnderflow .data) (m.withDepth depth) := by
      simp only [pop, withDepth, hback]
    exact steady_of_error _ hpop nofun
  | some value =>
    have hpop (depth : Nat) :
        pop (m.withDepth depth) = .ok value ({ m with data := m.data.pop }.withDepth depth) := by
      simp only [pop, withDepth, hback]
    refine steady_of_ok hpop fun stack => ?_
    cases stack with
    | data => simp [size]
    | ret => exact Nat.le_refl _

/-- A pop from the return stack does not look at the depth. -/
theorem steady_popReturn (m : Machine) : Steady popReturn m := by
  cases hback : m.ret.back? with
  | none =>
    have hpop (depth : Nat) :
        popReturn (m.withDepth depth) = .error (.stackUnderflow .ret) (m.withDepth depth) := by
      simp only [popReturn, withDepth, hback]
    exact steady_of_error _ hpop nofun
  | some value =>
    have hpop (depth : Nat) :
        popReturn (m.withDepth depth) = .ok value ({ m with ret := m.ret.pop }.withDepth depth) := by
      simp only [popReturn, withDepth, hback]
    refine steady_of_ok hpop fun stack => ?_
    cases stack with
    | data => exact Nat.le_refl _
    | ret => simp [size]

/-- An exchange on the return stack does not look at the depth. -/
theorem steady_swapReturn (m : Machine) : Steady swapReturn m := by
  by_cases hshort : m.ret.size < 2
  · exact steady_of_error (.stackUnderflow .ret) (fun _ => if_pos hshort) nofun
  · have hswap (depth : Nat) : swapReturn (m.withDepth depth) = .ok ()
        ({ m with ret := m.ret.swapIfInBounds (m.ret.size - 2) (m.ret.size - 1) }.withDepth depth) :=
      if_neg hshort
    refine steady_of_ok hswap fun stack => ?_
    cases stack with
    | data => exact Nat.le_refl _
    | ret => simp [size]

/-- Where a variable slot lies does not depend on the depth. -/
theorem slotIndex_withDepth (m : Machine) (depth : Nat) (register : BaseRegister) (var : Int32) :
    (m.withDepth depth).slotIndex register var = m.slotIndex register var := by
  cases register <;> rfl

/-- A load does not look at the depth. -/
theorem steady_load (register : BaseRegister) (var : Int32) (m : Machine) :
    Steady (load register var) m := by
  cases hindex : m.slotIndex register var with
  | error fault =>
    have hload (depth : Nat) :
        load register var (m.withDepth depth) = .error fault (m.withDepth depth) := by
      simp only [load, slotIndex_withDepth, hindex]
    exact steady_of_error fault hload (ne_depthLimit_of_checks (checks_slotIndex m register var) hindex)
  | ok index =>
    cases hvalue : m.data[index]? with
    | none =>
      have hload (depth : Nat) : load register var (m.withDepth depth) =
          .error (.indexOutOfBounds (Int64.ofNat index) m.data.size) (m.withDepth depth) := by
        simp only [load, slotIndex_withDepth, hindex]
        simp only [withDepth, hvalue]
      exact steady_of_error _ hload nofun
    | some value =>
      have hload (depth : Nat) :
          load register var (m.withDepth depth) = .ok value (m.withDepth depth) := by
        simp only [load, slotIndex_withDepth, hindex]
        simp only [withDepth, hvalue]
      exact steady_of_ok hload fun _ => Nat.le_refl _

/-- To cut the data stack down needs no room. -/
theorem steady_popToBase (m : Machine) : Steady popToBase m := by
  have hpop (depth : Nat) : popToBase (m.withDepth depth) =
      .ok () ({ m with data := m.data.extract m.frameBase m.data.size }.withDepth depth) := rfl
  refine steady_of_ok hpop fun stack => ?_
  cases stack with
  | data => simp [size]
  | ret => exact Nat.le_refl _

/-- Setting the registers leaves the stacks as they are. -/
theorem steady_of_registers {x : Action Unit} {m : Machine} (globalBase frameBase : Nat)
    (halted : Bool)
    (h : ∀ depth, x (m.withDepth depth) =
      .ok () ({ m with globalBase := globalBase, frameBase := frameBase, halted := halted }.withDepth
        depth)) : Steady x m := by
  refine steady_of_ok h fun stack => ?_
  cases stack <;> exact Nat.le_refl _

/-- To close a frame needs no room. -/
theorem steady_popBase (m : Machine) : Steady popBase m := by
  refine (steady_popReturn m).bind fun value m => ?_
  refine (steady_ofExcept (checks_toNumber value) m).bind fun base m => ?_
  dsimp only
  split
  · exact steady_of_error (.indexOutOfBounds base.toInt64 m.data.size) (fun _ => rfl) nofun
  · exact steady_of_registers m.globalBase base.toNatClampNeg m.halted fun _ => rfl

/-- The depth matters to a push where the data stack is full. -/
theorem exact_push (value : Value) (m : Machine) : Exact (push value) m := by
  refine .inr ⟨(), m, { m with data := m.data.push value }, .data, fun depth => ?_, fun {other} h => ?_⟩
  · simp only [push, withDepth, size, Array.size_push]
    rfl
  · cases other with
    | data => exact absurd rfl h
    | ret => exact Nat.le_refl _

/-- The depth matters to a push on the return stack where that is full. -/
theorem exact_pushReturn (value : Value) (m : Machine) : Exact (pushReturn value) m := by
  refine .inr ⟨(), m, { m with ret := m.ret.push value }, .ret, fun depth => ?_, fun {other} h => ?_⟩
  · simp only [pushReturn, withDepth, size, Array.size_push]
    rfl
  · cases other with
    | data => exact Nat.le_refl _
    | ret => exact absurd rfl h

/-- A store grows the data stack when its slot lies past the top. -/
theorem exact_store (register : BaseRegister) (var : Int32) (value : Value) (m : Machine) :
    Exact (store register var value) m := by
  cases hindex : m.slotIndex register var with
  | error fault =>
    have hstore (depth : Nat) :
        store register var value (m.withDepth depth) = .error fault (m.withDepth depth) := by
      simp only [store, slotIndex_withDepth, hindex]
    have hfault := ne_depthLimit_of_checks (checks_slotIndex m register var) hindex
    exact .inl (steady_of_error fault hstore hfault)
  | ok index =>
    by_cases hinside : index < m.data.size
    · have hstore (depth : Nat) : store register var value (m.withDepth depth) =
          .ok () ({ m with data := m.data.setIfInBounds index value }.withDepth depth) := by
        simp only [store, slotIndex_withDepth, hindex]
        exact if_pos hinside
      refine .inl (steady_of_ok hstore fun stack => ?_)
      cases stack with
      | data => simp [size]
      | ret => exact Nat.le_refl _
    -- Past the top the stack ends with the new entry, whatever the depth.
    · let gap := Array.replicate (index - m.data.size) (Value.int 0)
      have hsize : ((m.data ++ gap).push value).size = index + 1 := by
        rw [Array.size_push, Array.size_append, Array.size_replicate]
        omega
      refine .inr ⟨(), m, { m with data := (m.data ++ gap).push value }, .data, fun depth => ?_,
        fun {other} h => ?_⟩
      · simp only [store, slotIndex_withDepth, hindex]
        refine (if_neg hinside).trans ?_
        simp only [size, hsize]
        rfl
      · cases other with
        | data => exact absurd rfl h
        | ret => exact Nat.le_refl _

/-- Opening a frame grows the return stack once the number of arguments and the frame base have been
checked. -/
theorem exact_pushBase (m : Machine) : Exact pushBase m := by
  have hpopInt : Steady popInt m :=
    (steady_pop m).bind fun value m => steady_ofExcept (checks_toNumber value) m
  -- The size of the data stack and the old frame base are read in between.
  refine hpopInt.bind_exact fun argc m => .get_bind (fun _ => rfl) ?_
  refine (steady_ofExcept (checks_frameStart argc _) m).bind_exact fun base m => ?_
  refine .get_bind (fun _ => rfl) ?_
  refine (steady_ofExcept (checks_encodeIndex _) m).bind_exact fun saved m => ?_
  refine (exact_pushReturn (.int saved) m).bind_update (g := fun m => { m with frameBase := base })
    (fun _ _ => rfl) fun m stack => ?_
  cases stack <;> rfl

/-- The depth matters to an instruction only where a stack would not have room. -/
theorem execute_exact (catalog : Catalog) (operand : Int32) (op : Opcode) (m : Machine) :
    Exact (execute catalog operand op) m := by
  refine execute_of_parts (P := fun x => ∀ m, Steady x m) (Q := fun x => ∀ m, Exact x m) ?_
    catalog operand m
  exact {
    pure := fun a _ => steady_of_ok (fun _ => rfl) fun _ => Nat.le_refl _
    bind := fun hx hf m => (hx m).bind hf
    check := steady_ofExcept
    pop := steady_pop
    load := steady_load
    popToBase := steady_popToBase
    popReturn := fun _ => steady_popReturn
    swapReturn := fun _ => steady_swapReturn
    popBase := fun _ => steady_popBase
    setGlobal := fun _ m => steady_of_registers m.data.size m.frameBase m.halted fun _ => rfl
    halt := fun _ m => steady_of_registers m.globalBase m.frameBase true fun _ => rfl
    last := fun hx m => .inl (hx m)
    before := fun hx hf m => (hx m).bind_exact hf
    after := fun b hx m => (hx m).bind_update (g := id) (fun _ _ => rfl) fun _ _ => rfl
    push := exact_push
    store := exact_store
    pushReturn := fun _ => exact_pushReturn
    pushBase := fun _ => exact_pushBase }

end ScriptMachine.Machine
