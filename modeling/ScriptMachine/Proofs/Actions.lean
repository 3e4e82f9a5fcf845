import Mathlib.Algebra.Group.Int.Defs
import Mathlib.Algebra.Group.Nat.Defs
import ScriptMachine.Machine.Execute

/-!
# What the actions of the machine come to

For each action that instructions are made of, when it succeeds and with which machine. Proofs about
instructions take a sequence apart with `exists_of_bind_eq_ok` and read its parts off these lemmas.
-/

namespace ScriptMachine

/-! ## Results of actions -/

section Results

variable {ε σ τ α β : Type}

/-- The state in which an action ends, whether or not it fails. -/
def finalState : EStateM.Result ε σ α → σ
  | .ok _ s => s
  | .error _ s => s

/-- What an action comes to, without the state in which it ends. -/
def answer : EStateM.Result ε σ α → Except ε α
  | .ok a _ => .ok a
  | .error e _ => .error e

/-- Change the state in which an action ends. -/
def mapState (f : σ → τ) : EStateM.Result ε σ α → EStateM.Result ε τ α
  | .ok a s => .ok a (f s)
  | .error e s => .error e (f s)

/-- The state in which a result leaves off is mapped with the result. -/
theorem finalState_mapState (f : σ → τ) (result : EStateM.Result ε σ α) :
    finalState (mapState f result) = f (finalState result) := by
  cases result <;> rfl

/-- A sequence that begins by looking at the state goes on from the same state. -/
theorem get_bind_apply (f : σ → EStateM ε σ β) (s : σ) :
    ((get : EStateM ε σ σ) >>= f) s = f s s := rfl

/-- To fail on the spot leaves the state alone. -/
theorem throw_apply (e : ε) (s : σ) : (throw e : EStateM ε σ α) s = .error e s := rfl

/-- An action that succeeds hands its value and its state on. -/
theorem bind_of_ok {x : EStateM ε σ α} {f : α → EStateM ε σ β} {s s' : σ} {a : α}
    (h : x s = .ok a s') : (x >>= f) s = f a s' := by
  simp only [bind, EStateM.bind, h]

/-- Nothing follows an action that fails. -/
theorem bind_of_error {x : EStateM ε σ α} {f : α → EStateM ε σ β} {s s' : σ} {e : ε}
    (h : x s = .error e s') : (x >>= f) s = .error e s' := by
  simp only [bind, EStateM.bind, h]

/-- A sequence succeeds when both of its parts do. -/
theorem exists_of_bind_eq_ok {x : EStateM ε σ α} {f : α → EStateM ε σ β} {s s'' : σ} {b : β}
    (h : (x >>= f) s = .ok b s'') : ∃ a s', x s = .ok a s' ∧ f a s' = .ok b s'' := by
  cases hx : x s with
  | ok a s' =>
    rw [bind_of_ok hx] at h
    exact ⟨a, s', rfl, h⟩
  | error e s' =>
    rw [bind_of_error hx] at h
    cases h

/-- A sequence fails in its first part, or in the second after the first has succeeded. -/
theorem cases_of_bind_eq_error {x : EStateM ε σ α} {f : α → EStateM ε σ β} {s s'' : σ} {e : ε}
    (h : (x >>= f) s = .error e s'') :
    x s = .error e s'' ∨ ∃ a s', x s = .ok a s' ∧ f a s' = .error e s'' := by
  cases hx : x s with
  | ok a s' =>
    rw [bind_of_ok hx] at h
    exact .inr ⟨a, s', rfl, h⟩
  | error e' s' =>
    rw [bind_of_error hx] at h
    cases h
    exact .inl rfl

end Results

/-! ## Checked conversions -/

/-- A conversion that is checked within an action leaves the state alone. -/
theorem ofExcept_eq_ok_iff {ε σ α : Type} {e : Except ε α} {s s' : σ} {a : α} :
    (ofExcept e : EStateM ε σ α) s = .ok a s' ↔ e = .ok a ∧ s' = s := by
  cases e with
  | error fault => simp only [ofExcept, throw_apply, reduceCtorEq, false_and]
  | ok b =>
    simp only [ofExcept, pure, EStateM.pure, EStateM.Result.ok.injEq, Except.ok.injEq]
    exact and_congr_right fun _ => eq_comm

/-- The integer reading, where there is one, is the number. -/
theorem Value.toNumber_eq_ok_iff {v : Value} {n : Int32} :
    v.toNumber = .ok n ↔ v.asInt? = some n := by
  unfold Value.toNumber
  cases v.asInt? <;> simp

/-- A value is a code address when its integer reading is not negative. -/
theorem Value.toAddress_eq_ok_iff {v : Value} {target : Nat} :
    v.toAddress = .ok target ↔ ∃ n, v.asInt? = some n ∧ 0 ≤ n ∧ target = n.toNatClampNeg := by
  cases hv : v.asInt? with
  | none => simp [toAddress, toNumber, hv, bind, Except.bind]
  | some n =>
    by_cases hn : n < 0
    · have hsign : ¬ 0 ≤ n := Int32.not_le.mpr hn
      simp [toAddress, toNumber, hv, bind, Except.bind, hn, hsign, throw, throwThe,
        MonadExceptOf.throw]
    · have hsign : 0 ≤ n := Int32.not_lt.mp hn
      simp [toAddress, toNumber, hv, bind, Except.bind, hn, hsign, pure, Except.pure, eq_comm]

/-- A stack index can be held by a stack when it is below `2 ^ 31`. -/
theorem encodeIndex_eq_ok_iff {index : Nat} {n : Int32} :
    encodeIndex index = .ok n ↔ index < 2 ^ 31 ∧ n = Int32.ofNat index := by
  have hlimit : index < 2 ^ 31 ↔ index < 0x80000000 := by omega
  unfold encodeIndex
  rw [hlimit]
  split
  · rename_i hindex
    simp only [hindex, true_and, Except.ok.injEq]
    exact eq_comm
  · rename_i hindex
    simp only [hindex, false_and, reduceCtorEq]

namespace Machine

variable {m m' : Machine}

/-! ## The stacks -/

/-- A push succeeds when the data stack is below its depth, and the value is the new top. -/
theorem push_eq_ok_iff {value : Value} {u : Unit} :
    push value m = .ok u m' ↔
      m.data.size < m.maxDepth ∧ m' = { m with data := m.data.push value } := by
  unfold push
  split
  · rename_i hroom
    simp only [hroom, true_and, EStateM.Result.ok.injEq]
    exact eq_comm
  · rename_i hfull
    simp [hfull]

/-- A pop succeeds when the data stack has a top, and takes it off. -/
theorem pop_eq_ok_iff {value : Value} :
    pop m = .ok value m' ↔ m.data.back? = some value ∧ m' = { m with data := m.data.pop } := by
  unfold pop
  cases m.data.back? with
  | none => simp
  | some top =>
    simp only [EStateM.Result.ok.injEq, Option.some.injEq]
    exact and_congr_right fun _ => eq_comm

/-- A pop of a number succeeds when the top has an integer reading, and gives the reading. -/
theorem popInt_eq_ok_iff {n : Int32} :
    popInt m = .ok n m' ↔
      ∃ value, m.data.back? = some value ∧ value.asInt? = some n ∧
        m' = { m with data := m.data.pop } := by
  constructor
  · intro h
    obtain ⟨value, m₁, hpop, hnumber⟩ := exists_of_bind_eq_ok h
    obtain ⟨htop, rfl⟩ := pop_eq_ok_iff.mp hpop
    obtain ⟨hn, rfl⟩ := ofExcept_eq_ok_iff.mp hnumber
    exact ⟨value, htop, Value.toNumber_eq_ok_iff.mp hn, rfl⟩
  · intro h
    obtain ⟨value, htop, hn, rfl⟩ := h
    rw [popInt, bind_of_ok (pop_eq_ok_iff.mpr ⟨htop, rfl⟩)]
    exact ofExcept_eq_ok_iff.mpr ⟨Value.toNumber_eq_ok_iff.mpr hn, rfl⟩

/-- A push on the return stack succeeds when it is below its depth, and the value is the new top. -/
theorem pushReturn_eq_ok_iff {value : Value} {u : Unit} :
    pushReturn value m = .ok u m' ↔
      m.ret.size < m.maxDepth ∧ m' = { m with ret := m.ret.push value } := by
  unfold pushReturn
  split
  · rename_i hroom
    simp only [hroom, true_and, EStateM.Result.ok.injEq]
    exact eq_comm
  · rename_i hfull
    simp [hfull]

/-- A pop from the return stack succeeds when it has a top, and takes it off. -/
theorem popReturn_eq_ok_iff {value : Value} :
    popReturn m = .ok value m' ↔ m.ret.back? = some value ∧ m' = { m with ret := m.ret.pop } := by
  unfold popReturn
  cases m.ret.back? with
  | none => simp
  | some top =>
    simp only [EStateM.Result.ok.injEq, Option.some.injEq]
    exact and_congr_right fun _ => eq_comm

/-! ## Frames -/

/-- Opening a frame pops the number of arguments and saves the frame base. -/
theorem pushBase_eq_ok {u : Unit} (h : pushBase m = .ok u m') :
    m.frameBase < 2 ^ 31 ∧
      ∃ base, m' = { m with
        data := m.data.pop
        ret := m.ret.push (.int (Int32.ofNat m.frameBase))
        frameBase := base } := by
  unfold pushBase at h
  obtain ⟨argc, m₁, hargc, h⟩ := exists_of_bind_eq_ok h
  obtain ⟨value, -, -, rfl⟩ := popInt_eq_ok_iff.mp hargc
  obtain ⟨m₂, m₃, hget, h⟩ := exists_of_bind_eq_ok h
  cases hget
  obtain ⟨base, m₄, hbase, h⟩ := exists_of_bind_eq_ok h
  obtain ⟨-, rfl⟩ := ofExcept_eq_ok_iff.mp hbase
  obtain ⟨m₅, m₆, hget, h⟩ := exists_of_bind_eq_ok h
  cases hget
  obtain ⟨saved, m₇, hsaved, h⟩ := exists_of_bind_eq_ok h
  obtain ⟨hencode, rfl⟩ := ofExcept_eq_ok_iff.mp hsaved
  obtain ⟨hindex, rfl⟩ := encodeIndex_eq_ok_iff.mp hencode
  obtain ⟨_, m₈, hpush, h⟩ := exists_of_bind_eq_ok h
  obtain ⟨-, rfl⟩ := pushReturn_eq_ok_iff.mp hpush
  cases h
  exact ⟨hindex, base, rfl⟩

/-- Closing a frame makes the number on top of the return stack the frame base. -/
theorem popBase_eq_ok {u : Unit} (h : popBase m = .ok u m') :
    ∃ value n, m.ret.back? = some value ∧ value.asInt? = some n ∧ 0 ≤ n ∧
      m' = { m with ret := m.ret.pop, frameBase := n.toNatClampNeg } := by
  unfold popBase at h
  obtain ⟨value, m₁, hpop, h⟩ := exists_of_bind_eq_ok h
  obtain ⟨htop, rfl⟩ := popReturn_eq_ok_iff.mp hpop
  obtain ⟨n, m₂, hnumber, h⟩ := exists_of_bind_eq_ok h
  obtain ⟨hn, rfl⟩ := ofExcept_eq_ok_iff.mp hnumber
  by_cases hnegative : n < 0
  · simp only [hnegative, if_true] at h
    cases h
  · simp only [hnegative, if_false] at h
    cases h
    exact ⟨value, n, htop, Value.toNumber_eq_ok_iff.mp hn, Int32.not_lt.mp hnegative, rfl⟩

/-! ## Instructions on the return stack -/

section Instructions

variable {catalog : Catalog} {operand : Int32} {flow : Flow}

/-- The top of the data stack has moved to the return stack. -/
theorem execute_dToA_eq_ok (h : execute catalog operand .dToA m = .ok flow m') :
    flow = .next ∧ ∃ value, m.data.back? = some value ∧
      m' = { m with data := m.data.pop, ret := m.ret.push value } := by
  obtain ⟨value, m₁, hpop, h⟩ := exists_of_bind_eq_ok h
  obtain ⟨htop, rfl⟩ := pop_eq_ok_iff.mp hpop
  obtain ⟨_, m₂, hpush, h⟩ := exists_of_bind_eq_ok h
  obtain ⟨-, rfl⟩ := pushReturn_eq_ok_iff.mp hpush
  cases h
  exact ⟨rfl, value, htop, rfl⟩

/-- The top of the return stack has moved to the data stack. -/
theorem execute_aToD_eq_ok (h : execute catalog operand .aToD m = .ok flow m') :
    flow = .next ∧ ∃ value, m.ret.back? = some value ∧
      m' = { m with data := m.data.push value, ret := m.ret.pop } := by
  obtain ⟨value, m₁, hpop, h⟩ := exists_of_bind_eq_ok h
  obtain ⟨htop, rfl⟩ := popReturn_eq_ok_iff.mp hpop
  obtain ⟨_, m₂, hpush, h⟩ := exists_of_bind_eq_ok h
  obtain ⟨-, rfl⟩ := push_eq_ok_iff.mp hpush
  cases h
  exact ⟨rfl, value, htop, rfl⟩

/-- A return goes to the address on top of the return stack, and halts when that is zero. -/
theorem execute_popReturn_eq_ok (h : execute catalog operand .popReturn m = .ok flow m') :
    ∃ value n, m.ret.back? = some value ∧ value.asInt? = some n ∧ 0 ≤ n ∧
      flow = .jump n.toNatClampNeg ∧
      m' = { m with ret := m.ret.pop, halted := m.halted || n.toNatClampNeg == 0 } := by
  obtain ⟨value, m₁, hpop, h⟩ := exists_of_bind_eq_ok h
  obtain ⟨htop, rfl⟩ := popReturn_eq_ok_iff.mp hpop
  obtain ⟨target, m₂, haddress, h⟩ := exists_of_bind_eq_ok h
  obtain ⟨htarget, rfl⟩ := ofExcept_eq_ok_iff.mp haddress
  obtain ⟨n, hn, hsign, rfl⟩ := Value.toAddress_eq_ok_iff.mp htarget
  refine ⟨value, n, htop, hn, hsign, ?_⟩
  by_cases hzero : n.toNatClampNeg = 0
  · simp only [hzero, if_true] at h
    cases h
    simp [hzero]
  · simp only [hzero, if_false] at h
    cases h
    simp [hzero]

/-- The old frame base, which fits in 31 bits, has been saved on the return stack. -/
theorem execute_pushBase_eq_ok (h : execute catalog operand .pushBase m = .ok flow m') :
    m.frameBase < 2 ^ 31 ∧
      ∃ base, m' = { m with
        data := m.data.pop
        ret := m.ret.push (.int (Int32.ofNat m.frameBase))
        frameBase := base } := by
  obtain ⟨_, m₁, hbase, h⟩ := exists_of_bind_eq_ok h
  cases h
  exact pushBase_eq_ok hbase

/-- The frame base is what was saved on the return stack, which was not negative. -/
theorem execute_popBase_eq_ok (h : execute catalog operand .popBase m = .ok flow m') :
    ∃ value n, m.ret.back? = some value ∧ value.asInt? = some n ∧ 0 ≤ n ∧
      m' = { m with ret := m.ret.pop, frameBase := n.toNatClampNeg } := by
  obtain ⟨_, m₁, hbase, h⟩ := exists_of_bind_eq_ok h
  cases h
  exact popBase_eq_ok hbase

end Instructions

end Machine

end ScriptMachine
