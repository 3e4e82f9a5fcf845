import ScriptMachine.Proofs.Instructions
import ScriptMachine.Proofs.Invariants

/-!
# The bounds of a machine

The depth bounds both stacks. The base registers are set from sizes of the data stack, and the frame
base also from a number that was popped from the return stack, which arbitrary code may have put there.
When the data stack shrinks they keep their values. So they need not point into the data stack, but
they are bounded too: `Bounded` holds of every reachable machine.

The bounds are what the conversions between machine words rely on. With stacks of any practical depth,
the 64-bit sums of bases and variable numbers are exact. With stacks whose indices are 32-bit integers,
every index that has to be put on a stack can be.
-/

namespace ScriptMachine

namespace Machine

/-- The stacks of a machine of the given depth have at most that many entries. The frame base may also
be any nonnegative 32-bit integer. -/
structure Bounded (depth : Nat) (m : Machine) : Prop where
  maxDepth : m.maxDepth = depth
  data : m.data.size ≤ depth
  ret : m.ret.size ≤ depth
  globalBase : m.globalBase ≤ depth
  frameBase : m.frameBase ≤ max depth (2 ^ 31 - 1)

/-! ## Actions keep the bounds -/

section Bounded

variable {depth : Nat} {m : Machine}

/-- Either base register is bounded. -/
theorem Bounded.base (h : Bounded depth m) (register : BaseRegister) :
    m.base register ≤ max depth (2 ^ 31 - 1) := by
  cases register with
  | global => exact Nat.le_trans h.globalBase (Nat.le_max_left ..)
  | frame => exact h.frameBase

/-- The bounds hold with any other data stack that is short enough. -/
theorem Bounded.withData {data : Array Value} (h : Bounded depth m) (hdata : data.size ≤ depth) :
    Bounded depth { m with data := data } :=
  { h with data := hdata }

/-- The bounds hold with any other return stack that is short enough. -/
theorem Bounded.withRet {ret : Array Value} (h : Bounded depth m) (hret : ret.size ≤ depth) :
    Bounded depth { m with ret := ret } :=
  { h with ret := hret }

/-- The bounds hold with any other frame base that is small enough. -/
theorem Bounded.withFrameBase {base : Nat} (h : Bounded depth m)
    (hbase : base ≤ max depth (2 ^ 31 - 1)) : Bounded depth { m with frameBase := base } :=
  { h with frameBase := hbase }

/-- A fresh machine is within the bounds. -/
theorem bounded_ofDepth (depth : Nat) : Bounded depth (ofDepth depth) :=
  ⟨rfl, Nat.zero_le _, Nat.zero_le _, Nat.zero_le _, Nat.zero_le _⟩

/-- A push is refused before it goes beyond the depth. -/
theorem preserves_bounded_push (value : Value) : Preserves (Bounded depth) (push value) := by
  intro m h
  unfold push
  split
  · rename_i hroom
    refine h.withData ?_
    rw [Array.size_push, ← h.maxDepth]
    exact hroom
  · exact h

/-- A pop only shortens the data stack. -/
theorem preserves_bounded_pop : Preserves (Bounded depth) pop := by
  intro m h
  unfold pop
  split
  · refine h.withData (Nat.le_trans ?_ h.data)
    rw [Array.size_pop]
    exact Nat.sub_le ..
  · exact h

/-- A push on the return stack is refused before it goes beyond the depth. -/
theorem preserves_bounded_pushReturn (value : Value) :
    Preserves (Bounded depth) (pushReturn value) := by
  intro m h
  unfold pushReturn
  split
  · rename_i hroom
    refine h.withRet ?_
    rw [Array.size_push, ← h.maxDepth]
    exact hroom
  · exact h

/-- A pop from the return stack only shortens it. -/
theorem preserves_bounded_popReturn : Preserves (Bounded depth) popReturn := by
  intro m h
  unfold popReturn
  split
  · refine h.withRet (Nat.le_trans ?_ h.ret)
    rw [Array.size_pop]
    exact Nat.sub_le ..
  · exact h

/-- An exchange leaves the return stack as long as it is. -/
theorem preserves_bounded_swapReturn : Preserves (Bounded depth) swapReturn := by
  intro m h
  unfold swapReturn
  split
  · exact h
  · refine h.withRet ?_
    rw [Array.size_swapIfInBounds]
    exact h.ret

/-- The data stack is cut down, if it changes at all. -/
theorem preserves_bounded_popToBase : Preserves (Bounded depth) popToBase := by
  intro m h
  refine h.withData (Nat.le_trans ?_ h.data)
  rw [Array.size_extract]
  omega

/-- A store past the top ends the data stack at its slot, which lies below the depth. -/
theorem preserves_bounded_store (register : BaseRegister) (var : Int32) (value : Value) :
    Preserves (Bounded depth) (store register var value) := by
  intro m h
  unfold store
  split
  · exact h
  · split
    · refine h.withData ?_
      rw [Array.size_setIfInBounds]
      exact h.data
    · split
      · rename_i hroom
        refine h.withData ?_
        rw [Array.size_push, Array.size_append, Array.size_replicate, ← h.maxDepth]
        omega
      · exact h

/-- A load leaves the machine alone. -/
theorem preserves_bounded_load (register : BaseRegister) (var : Int32) :
    Preserves (Bounded depth) (load register var) := by
  intro m h
  unfold load
  split
  · exact h
  · split <;> exact h

/-- A frame begins within the data stack. -/
theorem le_of_frameStart {argc : Int32} {size start : Nat} (h : frameStart argc size = .ok start) :
    start ≤ size := by
  unfold frameStart at h
  split at h
  · cases h
    exact Nat.sub_le ..
  · cases h

/-- Opening a frame: the number of arguments is popped, then the new frame base is computed, then the
old one is encoded and saved. -/
theorem pushBase_eq (m : Machine) :
    pushBase m =
      match popInt m with
      | .error fault m' => .error fault m'
      | .ok argc m' =>
        match frameStart argc m'.data.size with
        | .error fault => .error fault m'
        | .ok start =>
          match encodeIndex m'.frameBase with
          | .error fault => .error fault m'
          | .ok saved =>
            if m'.ret.size < m'.maxDepth then
              .ok () { m' with ret := m'.ret.push (.int saved), frameBase := start }
            else .error (.depthLimit m'.maxDepth .ret) m' := by
  unfold pushBase
  cases hargc : popInt m with
  | error fault m' => exact bind_of_error hargc
  | ok argc m' =>
    rw [bind_of_ok hargc, get_bind_apply]
    dsimp only
    cases frameStart argc m'.data.size with
    | error fault => rfl
    | ok start =>
      have hstart : (ofExcept (.ok start) : Action Nat) m' = .ok start m' := rfl
      rw [bind_of_ok hstart, get_bind_apply]
      dsimp only
      cases encodeIndex m'.frameBase with
      | error fault => rfl
      | ok saved =>
        have hsaved : (ofExcept (.ok saved) : Action Int32) m' = .ok saved m' := rfl
        rw [bind_of_ok hsaved]
        by_cases hroom : m'.ret.size < m'.maxDepth
        · have hpush : pushReturn (.int saved) m' =
              .ok () { m' with ret := m'.ret.push (.int saved) } := if_pos hroom
          rw [bind_of_ok hpush]
          exact (if_pos hroom).symm
        · have hpush : pushReturn (.int saved) m' = .error (.depthLimit m'.maxDepth .ret) m' :=
            if_neg hroom
          rw [bind_of_error hpush]
          exact (if_neg hroom).symm

/-- A frame opens at an index of the data stack, which is within the depth. -/
theorem preserves_bounded_pushBase : Preserves (Bounded depth) pushBase := by
  have hpopInt : Preserves (Bounded depth) popInt :=
    preserves_bounded_pop.bind fun value => preserves_ofExcept _
  intro m h
  have hpopped := hpopInt m h
  rw [pushBase_eq]
  cases hresult : popInt m with
  | error fault m' =>
    rw [hresult] at hpopped
    exact hpopped
  | ok argc m' =>
    rw [hresult] at hpopped
    change Bounded depth m' at hpopped
    dsimp only
    split
    · exact hpopped
    · rename_i start hstart
      split
      · exact hpopped
      · split
        -- The new base is at most the size of the data stack.
        · rename_i hroom
          have hbound : start ≤ depth := Nat.le_trans (le_of_frameStart hstart) hpopped.data
          have hret : m'.ret.size + 1 ≤ depth := hpopped.maxDepth ▸ hroom
          rw [← Array.size_push] at hret
          exact (hpopped.withRet hret).withFrameBase (Nat.le_trans hbound (Nat.le_max_left ..))
        · exact hpopped

/-- A frame closes to a base that was read from a 32-bit integer. -/
theorem preserves_bounded_popBase : Preserves (Bounded depth) popBase := by
  have hset (base : Int32) :
      Preserves (Bounded depth) (modify fun m => { m with frameBase := base.toNatClampNeg }) := by
    refine preserves_modify fun m hm => hm.withFrameBase ?_
    have hbase := base.toNatClampNeg_lt
    omega
  refine preserves_bounded_popReturn.bind fun value => (preserves_ofExcept _).bind fun base => ?_
  dsimp only
  split
  · intro m h
    exact h
  · exact hset base

/-- Every instruction keeps the bounds, also one that fails. -/
theorem preserves_bounded_execute (catalog : Catalog) (operand : Int32) (op : Opcode) :
    Preserves (Bounded depth) (execute catalog operand op) := by
  refine execute_of_parts (P := fun x => Preserves (Bounded depth) x)
    (Q := fun x => Preserves (Bounded depth) x) ?_ catalog operand
  exact {
    pure := preserves_pure
    bind := Preserves.bind
    check := fun {_ e} _ => preserves_ofExcept e
    pop := preserves_bounded_pop
    load := preserves_bounded_load
    popToBase := preserves_bounded_popToBase
    popReturn := fun _ => preserves_bounded_popReturn
    swapReturn := fun _ => preserves_bounded_swapReturn
    popBase := fun _ => preserves_bounded_popBase
    setGlobal := fun _ => preserves_modify fun m h => { h with globalBase := h.data }
    halt := fun _ => preserves_modify fun m h => { h with }
    last := fun hx => hx
    before := Preserves.bind
    after := fun b hx => hx.bind fun _ => preserves_pure b
    push := preserves_bounded_push
    store := preserves_bounded_store
    pushReturn := fun _ => preserves_bounded_pushReturn
    pushBase := fun _ => preserves_bounded_pushBase }

/-- Every reachable machine is within its bounds. -/
theorem Reachable.bounded (h : Reachable depth m) : Bounded depth m := by
  refine h.preserves (bounded_ofDepth depth) ?_ fun catalog => ?_
  · intro change m hm
    cases change with
    | push value => exact preserves_bounded_push value m hm
    | pop => exact preserves_bounded_pop m hm
    | pushReturn value => exact preserves_bounded_pushReturn value m hm
    | popReturn => exact preserves_bounded_popReturn m hm
    | setPc pc => exact { hm with }
    | reset =>
      rw [← hm.maxDepth]
      exact bounded_ofDepth m.maxDepth
  · exact {
      execute := preserves_bounded_execute catalog
      moved := fun m pc hm => { hm with }
      woken := fun m hm => { hm with } }

end Bounded

/-! ## Slots and frames in 64-bit words -/

/-- The sum of a base and a variable number is exact, unless the base is out of all proportion. -/
theorem toInt_slotSum {base : Nat} (h : base ≤ 2 ^ 62) (var : Int32) :
    (slotSum base var).toInt = base + var.toInt := by
  have hlower := var.le_toInt
  have hupper := var.toInt_lt
  have hbase : (Int64.ofNat base).toInt = base := Int64.toInt_ofNat_of_lt (by omega)
  rw [slotSum, Int64.toInt_add, hbase, Int32.toInt_toInt64]
  exact Int.bmod_eq_of_le (by omega) (by omega)

/-- A variable slot lies at the exact sum of base and variable number, where that is not negative. -/
theorem slotIndex_eq_ok_iff {m : Machine} {register : BaseRegister} {var : Int32} {index : Nat}
    (h : m.base register ≤ 2 ^ 62) :
    m.slotIndex register var = .ok index ↔ (index : Int) = m.base register + var.toInt := by
  have hsum := toInt_slotSum h var
  have hsign : slotSum (m.base register) var < 0 ↔ (m.base register : Int) + var.toInt < 0 := by
    rw [Int64.lt_iff_toInt_lt, hsum]
    rfl
  have hindex : (slotSum (m.base register) var).toNatClampNeg =
      ((m.base register : Int) + var.toInt).toNat := by
    rw [← Int64.toNat_toInt, hsum]
  unfold slotIndex
  dsimp only
  rw [hindex]
  split
  · rename_i hnegative
    rw [hsign] at hnegative
    simp only [reduceCtorEq, false_iff]
    omega
  · rename_i hnegative
    rw [hsign] at hnegative
    simp only [Except.ok.injEq]
    omega

/-- A frame that would begin below the data stack is reported with the exact index of its begin. -/
theorem toInt_of_frameStart_eq_error {argc : Int32} {size length : Nat} {index : Int64}
    (hsize : size ≤ 2 ^ 62) (h : frameStart argc size = .error (.indexOutOfBounds index length)) :
    index.toInt = size - argc.toInt := by
  have hlower := argc.le_toInt
  have hupper := argc.toInt_lt
  have hcast : (Int64.ofNat size).toInt = size := Int64.toInt_ofNat_of_lt (by omega)
  unfold frameStart at h
  split at h
  · cases h
  · cases h
    rw [Int64.toInt_sub, hcast, Int32.toInt_toInt64]
    exact Int.bmod_eq_of_le (by omega) (by omega)

/-! ## Indices on the stacks -/

/-- An index below `2 ^ 31` is encoded as itself. -/
theorem exists_encodeIndex {index : Nat} (h : index < 2 ^ 31) :
    ∃ n, encodeIndex index = .ok n ∧ n.toInt = index :=
  ⟨Int32.ofNat index, encodeIndex_eq_ok_iff.mpr ⟨h, rfl⟩, Int32.toInt_ofNat_of_lt h⟩

/-- When the old frame base can be encoded, opening a frame fails only for the number of arguments or
for the depth of the return stack. -/
theorem cases_of_pushBase_eq_error {m m' : Machine} {fault : Fault} (hbase : m.frameBase < 2 ^ 31)
    (h : pushBase m = .error fault m') :
    popInt m = .error fault m' ∨
      (∃ argc, popInt m = .ok argc m' ∧ frameStart argc m'.data.size = .error fault) ∨
        fault = .depthLimit m.maxDepth .ret := by
  rw [pushBase_eq] at h
  cases hargc : popInt m with
  | error fault m₁ =>
    rw [hargc] at h
    cases h
    exact .inl rfl
  | ok argc m₁ =>
    obtain ⟨value, -, -, rfl⟩ := popInt_eq_ok_iff.mp hargc
    obtain ⟨saved, hsaved, -⟩ := exists_encodeIndex hbase
    rw [hargc] at h
    dsimp only at h
    split at h
    · rename_i fault' hstart
      cases h
      exact .inr (.inl ⟨argc, rfl, hstart⟩)
    · rw [hsaved] at h
      dsimp only at h
      split at h
      · cases h
      · cases h
        exact .inr (.inr rfl)

/-- Laying out a call fails for the depth of the data stack, or because the arguments fit but cannot be
counted. -/
theorem cases_of_enter_eq_error {offset : Nat} {args : List Value} {m m' : Machine} {fault : Fault}
    (h : enter offset args m = .error fault m') :
    fault = .depthLimit m.maxDepth .data ∨
      (2 ^ 31 ≤ args.length ∧ args.length ≤ m.maxDepth) ∧
        fault = .indexOutOfBounds (Int64.ofNat args.length) args.length := by
  obtain ⟨rfl, -⟩ := eq_of_enter_eq_error h
  unfold layoutFault
  split
  · rename_i hlarge
    exact .inr ⟨⟨by omega, hlarge.1⟩, rfl⟩
  · exact .inl rfl

/-- On a machine whose depth is a 32-bit integer, laying out a call fails only for that depth: as many
arguments as fit can be counted. -/
theorem eq_depthLimit_of_enter {offset : Nat} {args : List Value} {m m' : Machine} {fault : Fault}
    (hdepth : m.maxDepth < 2 ^ 31) (h : enter offset args m = .error fault m') :
    fault = .depthLimit m.maxDepth .data := by
  obtain hfault | ⟨⟨hlarge, hlength⟩, -⟩ := cases_of_enter_eq_error h
  · exact hfault
  · omega

/-- A reachable machine is within its bounds, and the machine words suffice for it.

Both stacks have at most as many entries as the depth, the global base is at most the depth, and the
frame base is at most the depth or the largest 32-bit integer. So with a depth of at most `2 ^ 62` the
64-bit sums that locate variable slots and the differences that locate frames are exact, and the size
of a data stack that grows up to a slot is a 64-bit word. With a depth that is a 32-bit integer the
frame base can always be saved on the return stack and the arguments of a call can always be counted:
opening a frame fails only for its own operand or for the depth, and laying out a call only for the
depth. -/
theorem reachable_machine_bounds {depth : Nat} {m : Machine} (h : Reachable depth m) :
    (m.data.size ≤ depth ∧ m.ret.size ≤ depth ∧ m.globalBase ≤ depth ∧
      m.frameBase ≤ max depth (2 ^ 31 - 1)) ∧
    (depth ≤ 2 ^ 62 →
      (∀ register var, (slotSum (m.base register) var).toInt = m.base register + var.toInt) ∧
      (∀ argc size index length, size ≤ m.data.size →
        frameStart argc size = .error (.indexOutOfBounds index length) →
          index.toInt = size - argc.toInt) ∧
      ∀ register var index, m.slotIndex register var = .ok index →
        (index : Int) = m.base register + var.toInt ∧ index + 1 < 2 ^ 64) ∧
    (depth ≤ 2 ^ 31 - 1 →
      (∃ saved, encodeIndex m.frameBase = .ok saved ∧ saved.toInt = m.frameBase) ∧
      (∀ fault m', pushBase m = .error fault m' →
        popInt m = .error fault m' ∨
          (∃ argc, popInt m = .ok argc m' ∧ frameStart argc m'.data.size = .error fault) ∨
            fault = .depthLimit depth .ret) ∧
      ∀ offset args fault m', enter offset args m = .error fault m' →
        fault = .depthLimit depth .data) := by
  have hbounded := h.bounded
  refine ⟨⟨hbounded.data, hbounded.ret, hbounded.globalBase, hbounded.frameBase⟩,
    fun hdepth => ?_, fun hdepth => ?_⟩
  · have hbase (register : BaseRegister) : m.base register ≤ 2 ^ 62 := by
      have hregister := hbounded.base register
      omega
    refine ⟨fun register => toInt_slotSum (hbase register), ?_, ?_⟩
    · intro argc size index length hsize
      exact toInt_of_frameStart_eq_error (Nat.le_trans hsize (Nat.le_trans hbounded.data hdepth))
    · intro register var index hindex
      have hsum := (slotIndex_eq_ok_iff (hbase register)).mp hindex
      have hregister := hbase register
      have hvar := var.toInt_lt
      exact ⟨hsum, by omega⟩
  · have hframe := hbounded.frameBase
    have hbase : m.frameBase < 2 ^ 31 := by omega
    refine ⟨exists_encodeIndex hbase, ?_, ?_⟩
    · intro fault m' hpush
      rw [← hbounded.maxDepth]
      exact cases_of_pushBase_eq_error hbase hpush
    · intro offset args fault m' henter
      rw [← hbounded.maxDepth]
      exact eq_depthLimit_of_enter (by rw [hbounded.maxDepth]; omega) henter

/-- A machine of depth two on whose return stack the host has put the largest integer. -/
def overstated : Machine :=
  { maxDepth := 2, ret := #[.int 2147483647] }

/-- That machine, when a script takes the integer for a saved frame base. -/
def strayed : Machine :=
  (finalState (Interpreter.step
    { Interpreter.ofCode #[0x29, 0x80] .empty .standard with machine := overstated })).machine

/-- The frame base is far beyond the data stack, and the sum for the highest slot is exact. -/
theorem reachable_machine_bounds_strayed :
    Reachable 2 strayed ∧ strayed.frameBase = 2 ^ 31 - 1 ∧ strayed.data.size = 0 ∧
      (slotSum (strayed.base .frame) 2147483647).toInt = 2 ^ 32 - 2 := by
  have hreachable : Reachable 2 strayed :=
    .step (.edit (.pushReturn (.int 2147483647)) .empty)
  have hframe : strayed.frameBase = 2 ^ 31 - 1 := by decide +kernel
  have hsum := ((reachable_machine_bounds hreachable).2.1 (by decide)).1 .frame 2147483647
  refine ⟨hreachable, hframe, by decide +kernel, hsum.trans ?_⟩
  change (strayed.frameBase : Int) + _ = _
  rw [hframe]
  rfl

end Machine

end ScriptMachine
