import ScriptMachine.Proofs.Instructions
import ScriptMachine.Proofs.Stepping

/-!
# What a successful instruction does

`Effect` gives the instructions as rules, one for each opcode and two for the branch: what the stacks
must hold on top, what has to hold of it, and which machine and which flow of control result. Every
instruction that succeeds follows its rule (`effect_of_execute`), so what can be read off the rules holds
of instructions.

`instruction_confined` reads off how far an instruction reaches. The registers and the return stack change
only under the opcodes that are made for it, and apart from two opcodes that work on the data stack as a
whole, an instruction puts its results in the place of its operands and leaves the data stack below them
as it was. `Exchange` lists operands and results.
-/

namespace ScriptMachine

namespace Machine

/-! ## Instructions as rules -/

section Actions

variable {m m' : Machine} {value : Value}

/-- A pop that succeeds leaves what was below the top. -/
theorem exists_below_of_pop (h : pop m = .ok value m') :
    ∃ below, m.data = below.push value ∧ m' = { m with data := below } := by
  obtain ⟨htop, rfl⟩ := pop_eq_ok_iff.mp h
  obtain ⟨below, hdata⟩ := Array.back?_eq_some_iff.mp htop
  exact ⟨below, hdata, by rw [hdata, Array.pop_push]⟩

/-- A pop of a number that succeeds leaves what was below the top. -/
theorem exists_below_of_popInt {n : Int32} (h : popInt m = .ok n m') :
    ∃ below value, m.data = below.push value ∧ value.asInt? = some n ∧
      m' = { m with data := below } := by
  obtain ⟨value, m₁, hpop, hnumber⟩ := exists_of_bind_eq_ok h
  obtain ⟨below, hdata, rfl⟩ := exists_below_of_pop hpop
  obtain ⟨hn, rfl⟩ := ofExcept_eq_ok_iff.mp hnumber
  exact ⟨below, value, hdata, Value.toNumber_eq_ok_iff.mp hn, rfl⟩

/-- A pop from the return stack that succeeds leaves what was below the top. -/
theorem exists_below_of_popReturn (h : popReturn m = .ok value m') :
    ∃ below, m.ret = below.push value ∧ m' = { m with ret := below } := by
  obtain ⟨htop, rfl⟩ := popReturn_eq_ok_iff.mp h
  obtain ⟨below, hret⟩ := Array.back?_eq_some_iff.mp htop
  exact ⟨below, hret, by rw [hret, Array.pop_push]⟩

/-- The top two entries are exchanged and nothing else. -/
theorem exists_below_of_swapReturn {u : Unit} (h : swapReturn m = .ok u m') :
    ∃ (below : Array Value) (first second : Value), m.ret = (below.push first).push second ∧
      m' = { m with ret := (below.push second).push first } := by
  unfold swapReturn at h
  split at h
  · cases h
  · rename_i hsize
    cases h
    have hfilled : m.ret.size ≠ 0 := by omega
    obtain ⟨above, second, hret⟩ := Array.eq_push_of_size_ne_zero hfilled
    rw [hret, Array.size_push] at hsize
    have habove : above.size ≠ 0 := by omega
    obtain ⟨below, first, rfl⟩ := Array.eq_push_of_size_ne_zero habove
    refine ⟨below, first, second, hret, ?_⟩
    rw [hret]
    congr 1
    apply Array.ext_getElem?
    intro i
    grind

/-- Where a variable slot lies does not depend on the data stack. -/
theorem slotIndex_of_data {register : BaseRegister} {var : Int32} {index : Nat} {data : Array Value}
    (h : { m with data := data }.slotIndex register var = .ok index) :
    m.slotIndex register var = .ok index := by
  have hbase : { m with data := data }.base register = m.base register := by cases register <;> rfl
  unfold slotIndex at h ⊢
  rw [hbase] at h
  dsimp only at h ⊢
  split at h
  · cases h
  · rename_i hsign
    rw [if_neg hsign]
    exact h

/-- A load that succeeds reads the entry at the slot's index. -/
theorem exists_index_of_load {register : BaseRegister} {var : Int32}
    (h : load register var m = .ok value m') :
    ∃ index, m.slotIndex register var = .ok index ∧ m.data[index]? = some value ∧ m' = m := by
  unfold load at h
  split at h
  · cases h
  · rename_i index hindex
    split at h
    · rename_i hentry
      cases h
      exact ⟨index, hindex, hentry, rfl⟩
    · cases h

/-- A store that succeeds changes the data stack only. -/
theorem exists_data_of_store {register : BaseRegister} {var : Int32} {u : Unit}
    (h : store register var value m = .ok u m') : ∃ data, m' = { m with data := data } := by
  unfold store at h
  split at h
  · cases h
  · split at h
    · cases h
      exact ⟨_, rfl⟩
    · split at h
      · cases h
        exact ⟨_, rfl⟩
      · cases h

end Actions

/-- What an instruction that succeeds makes of the machine, and where it lets control go. The program
counter is not moved yet. -/
inductive Effect (catalog : Catalog) (operand : Int32) (m : Machine) : Opcode → Flow → Machine → Prop
  | startCritical : Effect catalog operand m .startCritical .next m
  | criticalDone : Effect catalog operand m .criticalDone .next m
  | pushD : Effect catalog operand m .pushD .next { m with data := m.data.push (.int operand) }
  | pushString {text : String} (htext : catalog.string? operand = some text) :
      Effect catalog operand m .pushString .next { m with data := m.data.push (.string text) }
  | dToA {below : Array Value} {value : Value} (hdata : m.data = below.push value) :
      Effect catalog operand m .dToA .next { m with data := below, ret := m.ret.push value }
  | aToD {below : Array Value} {value : Value} (hret : m.ret = below.push value) :
      Effect catalog operand m .aToD .next { m with data := m.data.push value, ret := below }
  | pop {below : Array Value} {value : Value} (hdata : m.data = below.push value) :
      Effect catalog operand m .pop .next { m with data := below }
  | swapA {below : Array Value} {first second : Value}
      (hret : m.ret = (below.push first).push second) :
      Effect catalog operand m .swapA .next { m with ret := (below.push second).push first }
  | pushBase {below : Array Value} {value : Value} {argc saved : Int32} {start : Nat}
      (hdata : m.data = below.push value) (hargc : value.asInt? = some argc)
      (hstart : frameStart argc below.size = .ok start) (hsaved : encodeIndex m.frameBase = .ok saved) :
      Effect catalog operand m .pushBase .next
        { m with data := below, ret := m.ret.push (.int saved), frameBase := start }
  | popBase {below : Array Value} {value : Value} {base : Int32} (hret : m.ret = below.push value)
      (hbase : value.asInt? = some base) (hsign : 0 ≤ base) :
      Effect catalog operand m .popBase .next { m with ret := below, frameBase := base.toNatClampNeg }
  | popToBase :
      Effect catalog operand m .popToBase .next
        { m with data := m.data.extract m.frameBase m.data.size }
  | setGlobal : Effect catalog operand m .setGlobal .next { m with globalBase := m.data.size }
  | store {register : BaseRegister} {below data : Array Value} {value number : Value} {var : Int32}
      (hdata : m.data = (below.push value).push number) (hvar : number.asInt? = some var)
      (hstore : store register var value { m with data := below } = .ok () { m with data := data }) :
      Effect catalog operand m (.store register) .next { m with data := data }
  | fetch {register : BaseRegister} {below : Array Value} {value number : Value} {var : Int32}
      {index : Nat} (hdata : m.data = below.push number) (hvar : number.asInt? = some var)
      (hindex : m.slotIndex register var = .ok index) (hentry : below[index]? = some value) :
      Effect catalog operand m (.fetch register) .next { m with data := below.push value }
  | jmp {below : Array Value} {value : Value} {target : Nat} (hdata : m.data = below.push value)
      (htarget : value.toAddress = .ok target) :
      Effect catalog operand m .jmp (.jump target) { m with data := below }
  /-- A branch on a true condition goes on, whatever its target is. -/
  | fallThrough {below : Array Value} {value condition : Value}
      (hdata : m.data = (below.push value).push condition) (htrue : condition.isTruthy = true) :
      Effect catalog operand m .branch .next { m with data := below }
  | branch {below : Array Value} {value condition : Value} {target : Nat}
      (hdata : m.data = (below.push value).push condition) (hfalse : condition.isTruthy = false)
      (htarget : value.toAddress = .ok target) :
      Effect catalog operand m .branch (.jump target) { m with data := below }
  | call {below : Array Value} {value : Value} {index : Int32} {procedure : Procedure}
      (hdata : m.data = below.push value) (hindex : value.asInt? = some index)
      (hprocedure : catalog.procedureAt? index = some procedure) :
      Effect catalog operand m .call (.jump procedure.offset) { m with data := below }
  | popReturn {below : Array Value} {value : Value} {target : Nat} (hret : m.ret = below.push value)
      (htarget : value.toAddress = .ok target) :
      Effect catalog operand m .popReturn (.jump target)
        { m with ret := below, halted := m.halted || target == 0 }
  | exitProg : Effect catalog operand m .exitProg .next { m with halted := true }
  | binary {op : BinaryOp} {below : Array Value} {a b result : Value}
      (hdata : m.data = (below.push a).push b) (hresult : op.apply a b = .ok result) :
      Effect catalog operand m (.binary op) .next { m with data := below.push result }
  | negate {below : Array Value} {a result : Value} (hdata : m.data = below.push a)
      (hresult : a.negate = .ok result) :
      Effect catalog operand m .negate .next { m with data := below.push result }

/-- Every instruction that succeeds follows its rule. -/
theorem effect_of_execute {catalog : Catalog} {operand : Int32} {op : Opcode} {flow : Flow}
    {m m' : Machine} (h : execute catalog operand op m = .ok flow m') :
    Effect catalog operand m op flow m' := by
  cases op with
  | startCritical =>
    cases h
    exact .startCritical
  | criticalDone =>
    cases h
    exact .criticalDone
  | pushD =>
    obtain ⟨_, m₁, hpush, h⟩ := exists_of_bind_eq_ok h
    obtain ⟨-, rfl⟩ := push_eq_ok_iff.mp hpush
    cases h
    exact .pushD
  | pushString =>
    cases htext : catalog.string? operand with
    | none =>
      simp only [execute, htext] at h
      cases h
    | some text =>
      simp only [execute, htext] at h
      obtain ⟨_, m₁, hpush, h⟩ := exists_of_bind_eq_ok h
      obtain ⟨-, rfl⟩ := push_eq_ok_iff.mp hpush
      cases h
      exact .pushString htext
  | dToA =>
    obtain ⟨value, m₁, hpop, h⟩ := exists_of_bind_eq_ok h
    obtain ⟨below, hdata, rfl⟩ := exists_below_of_pop hpop
    obtain ⟨_, m₂, hpush, h⟩ := exists_of_bind_eq_ok h
    obtain ⟨-, rfl⟩ := pushReturn_eq_ok_iff.mp hpush
    cases h
    exact .dToA hdata
  | aToD =>
    obtain ⟨value, m₁, hpop, h⟩ := exists_of_bind_eq_ok h
    obtain ⟨below, hret, rfl⟩ := exists_below_of_popReturn hpop
    obtain ⟨_, m₂, hpush, h⟩ := exists_of_bind_eq_ok h
    obtain ⟨-, rfl⟩ := push_eq_ok_iff.mp hpush
    cases h
    exact .aToD hret
  | pop =>
    obtain ⟨value, m₁, hpop, h⟩ := exists_of_bind_eq_ok h
    obtain ⟨below, hdata, rfl⟩ := exists_below_of_pop hpop
    cases h
    exact .pop hdata
  | swapA =>
    obtain ⟨_, m₁, hswap, h⟩ := exists_of_bind_eq_ok h
    obtain ⟨below, first, second, hret, rfl⟩ := exists_below_of_swapReturn hswap
    cases h
    exact .swapA hret
  | pushBase =>
    obtain ⟨_, m₁, hbase, h⟩ := exists_of_bind_eq_ok h
    cases h
    obtain ⟨argc, m₁, hargc, h⟩ := exists_of_bind_eq_ok hbase
    obtain ⟨below, value, hdata, hvalue, rfl⟩ := exists_below_of_popInt hargc
    obtain ⟨m₂, m₃, hget, h⟩ := exists_of_bind_eq_ok h
    cases hget
    obtain ⟨start, m₄, hframe, h⟩ := exists_of_bind_eq_ok h
    obtain ⟨hstart, rfl⟩ := ofExcept_eq_ok_iff.mp hframe
    obtain ⟨m₅, m₆, hget, h⟩ := exists_of_bind_eq_ok h
    cases hget
    obtain ⟨saved, m₇, hencode, h⟩ := exists_of_bind_eq_ok h
    obtain ⟨hsaved, rfl⟩ := ofExcept_eq_ok_iff.mp hencode
    obtain ⟨_, m₈, hpush, h⟩ := exists_of_bind_eq_ok h
    obtain ⟨-, rfl⟩ := pushReturn_eq_ok_iff.mp hpush
    cases h
    exact .pushBase hdata hvalue hstart hsaved
  | popBase =>
    obtain ⟨_, m₁, hpop, h⟩ := exists_of_bind_eq_ok h
    cases h
    obtain ⟨value, base, htop, hbase, hsign, rfl⟩ := popBase_eq_ok hpop
    obtain ⟨below, hret⟩ := Array.back?_eq_some_iff.mp htop
    have hpopped : m.ret.pop = below := by rw [hret, Array.pop_push]
    rw [hpopped]
    exact .popBase hret hbase hsign
  | popToBase =>
    cases h
    exact .popToBase
  | setGlobal =>
    cases h
    exact .setGlobal
  | store register =>
    obtain ⟨var, m₁, hvar, h⟩ := exists_of_bind_eq_ok h
    obtain ⟨above, number, hdata, hnumber, rfl⟩ := exists_below_of_popInt hvar
    obtain ⟨value, m₂, hpop, h⟩ := exists_of_bind_eq_ok h
    obtain ⟨below, habove, rfl⟩ := exists_below_of_pop hpop
    obtain ⟨_, m₃, hstore, h⟩ := exists_of_bind_eq_ok h
    obtain ⟨data, rfl⟩ := exists_data_of_store hstore
    cases h
    subst habove
    exact .store hdata hnumber hstore
  | fetch register =>
    obtain ⟨var, m₁, hvar, h⟩ := exists_of_bind_eq_ok h
    obtain ⟨below, number, hdata, hnumber, rfl⟩ := exists_below_of_popInt hvar
    obtain ⟨value, m₂, hload, h⟩ := exists_of_bind_eq_ok h
    obtain ⟨index, hslot, hentry, rfl⟩ := exists_index_of_load hload
    obtain ⟨_, m₃, hpush, h⟩ := exists_of_bind_eq_ok h
    obtain ⟨-, rfl⟩ := push_eq_ok_iff.mp hpush
    cases h
    exact .fetch hdata hnumber (slotIndex_of_data hslot) hentry
  | jmp =>
    obtain ⟨value, m₁, hpop, h⟩ := exists_of_bind_eq_ok h
    obtain ⟨below, hdata, rfl⟩ := exists_below_of_pop hpop
    obtain ⟨target, m₂, haddress, h⟩ := exists_of_bind_eq_ok h
    obtain ⟨htarget, rfl⟩ := ofExcept_eq_ok_iff.mp haddress
    cases h
    exact .jmp hdata htarget
  | branch =>
    obtain ⟨condition, m₁, hpop, h⟩ := exists_of_bind_eq_ok h
    obtain ⟨above, hdata, rfl⟩ := exists_below_of_pop hpop
    obtain ⟨value, m₂, hpop, h⟩ := exists_of_bind_eq_ok h
    obtain ⟨below, habove, rfl⟩ := exists_below_of_pop hpop
    subst habove
    cases hcondition : condition.isTruthy with
    | true =>
      simp only [hcondition, if_true] at h
      cases h
      exact .fallThrough hdata hcondition
    | false =>
      simp only [hcondition, Bool.false_eq_true, if_false] at h
      obtain ⟨target, m₃, haddress, h⟩ := exists_of_bind_eq_ok h
      obtain ⟨htarget, rfl⟩ := ofExcept_eq_ok_iff.mp haddress
      cases h
      exact .branch hdata hcondition htarget
  | call =>
    obtain ⟨index, m₁, hindex, h⟩ := exists_of_bind_eq_ok h
    obtain ⟨below, value, hdata, hvalue, rfl⟩ := exists_below_of_popInt hindex
    cases hprocedure : catalog.procedureAt? index with
    | none =>
      simp only [hprocedure] at h
      cases h
    | some procedure =>
      simp only [hprocedure] at h
      cases h
      exact .call hdata hvalue hprocedure
  | popReturn =>
    obtain ⟨value, m₁, hpop, h⟩ := exists_of_bind_eq_ok h
    obtain ⟨below, hret, rfl⟩ := exists_below_of_popReturn hpop
    obtain ⟨target, m₂, haddress, h⟩ := exists_of_bind_eq_ok h
    obtain ⟨htarget, rfl⟩ := ofExcept_eq_ok_iff.mp haddress
    have heffect : Effect catalog operand m .popReturn (.jump target)
        { m with ret := below, halted := m.halted || target == 0 } := .popReturn hret htarget
    by_cases hzero : target = 0
    · subst hzero
      cases h
      rwa [beq_self_eq_true, Bool.or_true] at heffect
    · simp only [hzero, if_false] at h
      cases h
      rwa [beq_eq_false_iff_ne.mpr hzero, Bool.or_false] at heffect
  | exitProg =>
    cases h
    exact .exitProg
  | binary op =>
    obtain ⟨_, m₁, hbinary, h⟩ := exists_of_bind_eq_ok h
    cases h
    obtain ⟨b, m₂, hpop, h⟩ := exists_of_bind_eq_ok hbinary
    obtain ⟨above, hdata, rfl⟩ := exists_below_of_pop hpop
    obtain ⟨a, m₃, hpop, h⟩ := exists_of_bind_eq_ok h
    obtain ⟨below, habove, rfl⟩ := exists_below_of_pop hpop
    obtain ⟨result, m₄, happly, h⟩ := exists_of_bind_eq_ok h
    obtain ⟨hresult, rfl⟩ := ofExcept_eq_ok_iff.mp happly
    obtain ⟨-, rfl⟩ := push_eq_ok_iff.mp h
    subst habove
    exact .binary hdata hresult
  | negate =>
    obtain ⟨a, m₁, hpop, h⟩ := exists_of_bind_eq_ok h
    obtain ⟨below, hdata, rfl⟩ := exists_below_of_pop hpop
    obtain ⟨result, m₂, hnegate, h⟩ := exists_of_bind_eq_ok h
    obtain ⟨hresult, rfl⟩ := ofExcept_eq_ok_iff.mp hnegate
    obtain ⟨_, m₃, hpush, h⟩ := exists_of_bind_eq_ok h
    obtain ⟨-, rfl⟩ := push_eq_ok_iff.mp hpush
    cases h
    exact .negate hdata hresult

/-! ## How far an instruction reaches -/

/-- The operands of an opcode on the data stack and the results that it leaves there, with the top last
in both lists. Stores and the removal of what lies below the frame work on the data stack as a whole and
are not listed. -/
inductive Exchange (catalog : Catalog) (operand : Int32) (m : Machine) :
    Opcode → List Value → List Value → Prop
  | startCritical : Exchange catalog operand m .startCritical [] []
  | criticalDone : Exchange catalog operand m .criticalDone [] []
  | pushD : Exchange catalog operand m .pushD [] [.int operand]
  | pushString {text : String} (htext : catalog.string? operand = some text) :
      Exchange catalog operand m .pushString [] [.string text]
  | dToA (value : Value) : Exchange catalog operand m .dToA [value] []
  | aToD {value : Value} (htop : m.ret.back? = some value) :
      Exchange catalog operand m .aToD [] [value]
  | pop (value : Value) : Exchange catalog operand m .pop [value] []
  | swapA : Exchange catalog operand m .swapA [] []
  | pushBase (argc : Value) : Exchange catalog operand m .pushBase [argc] []
  | popBase : Exchange catalog operand m .popBase [] []
  | setGlobal : Exchange catalog operand m .setGlobal [] []
  | fetch {register : BaseRegister} {number value : Value} {var : Int32} {index : Nat}
      (hvar : number.asInt? = some var) (hindex : m.slotIndex register var = .ok index)
      (hentry : m.data.pop[index]? = some value) :
      Exchange catalog operand m (.fetch register) [number] [value]
  | jmp (target : Value) : Exchange catalog operand m .jmp [target] []
  | branch (target condition : Value) : Exchange catalog operand m .branch [target, condition] []
  | call (index : Value) : Exchange catalog operand m .call [index] []
  | popReturn : Exchange catalog operand m .popReturn [] []
  | exitProg : Exchange catalog operand m .exitProg [] []
  | binary {op : BinaryOp} {a b result : Value} (hresult : op.apply a b = .ok result) :
      Exchange catalog operand m (.binary op) [a, b] [result]
  | negate {a result : Value} (hresult : a.negate = .ok result) :
      Exchange catalog operand m .negate [a] [result]

section Effect

variable {catalog : Catalog} {operand : Int32} {m m' : Machine} {op : Opcode} {flow : Flow}

/-- The frame base is set by opening and closing frames alone. -/
theorem Effect.frameBase_eq (h : Effect catalog operand m op flow m') (hopen : op ≠ .pushBase)
    (hclose : op ≠ .popBase) : m'.frameBase = m.frameBase := by
  cases h with
  | pushBase => exact absurd rfl hopen
  | popBase => exact absurd rfl hclose
  | _ => rfl

/-- The global base is set by its own instruction alone. -/
theorem Effect.globalBase_eq (h : Effect catalog operand m op flow m') (hset : op ≠ .setGlobal) :
    m'.globalBase = m.globalBase := by
  cases h with
  | setGlobal => exact absurd rfl hset
  | _ => rfl

/-- The return stack is changed by the opcodes that use it alone. -/
theorem Effect.ret_eq (h : Effect catalog operand m op flow m') (huses : op.usesReturn = false) :
    m'.ret = m.ret := by
  cases h with
  | dToA | aToD | swapA | pushBase | popBase | popReturn => cases huses
  | _ => rfl

/-- Two opcodes append an entry to the return stack. -/
theorem Effect.exists_ret_push (h : Effect catalog operand m op flow m')
    (hop : op = .dToA ∨ op = .pushBase) : ∃ entry, m'.ret = m.ret.push entry := by
  obtain rfl | rfl := hop
  · cases h
    exact ⟨_, rfl⟩
  · cases h
    exact ⟨_, rfl⟩

/-- Three opcodes remove the top entry of the return stack. -/
theorem Effect.exists_push_ret (h : Effect catalog operand m op flow m')
    (hop : op = .aToD ∨ op = .popBase ∨ op = .popReturn) : ∃ entry, m.ret = m'.ret.push entry := by
  obtain rfl | rfl | rfl := hop
  · cases h with
    | aToD hret => exact ⟨_, hret⟩
  · cases h with
    | popBase hret => exact ⟨_, hret⟩
  · cases h with
    | popReturn hret => exact ⟨_, hret⟩

/-- A machine that runs is halted by the end of a program, and by a return to address zero. -/
theorem Effect.halted_iff (h : Effect catalog operand m op flow m') (hrunning : m.halted = false) :
    m'.halted = true ↔
      op = .exitProg ∨
        op = .popReturn ∧ ∃ entry, m.ret.back? = some entry ∧ entry.asInt? = some 0 := by
  cases h with
  | exitProg => simp
  | @popReturn below value target hret htarget =>
    obtain ⟨n, hn, hsign, rfl⟩ := Value.toAddress_eq_ok_iff.mp htarget
    have hzero : n.toNatClampNeg = 0 ↔ n = 0 := by
      rw [← Int32.toInt_inj, ← Int32.cast_toNatClampNeg n hsign]
      exact Int.natCast_eq_zero.symm
    simp [hrunning, hret, hn, hzero]
  | _ => simp [hrunning]

/-- Control goes on to the instruction that follows, unless the opcode is one that jumps. -/
theorem Effect.flow_eq_next (h : Effect catalog operand m op flow m') (hjmp : op ≠ .jmp)
    (hcall : op ≠ .call) (hreturn : op ≠ .popReturn)
    (hbranch : op = .branch →
      ∃ condition, m.data.back? = some condition ∧ condition.isTruthy = true) : flow = .next := by
  cases h with
  | jmp => exact absurd rfl hjmp
  | call => exact absurd rfl hcall
  | popReturn => exact absurd rfl hreturn
  | branch hdata hfalse htarget =>
    obtain ⟨condition, htop, htrue⟩ := hbranch rfl
    rw [hdata, Array.back?_push] at htop
    cases htop
    rw [hfalse] at htrue
    cases htrue
  | _ => rfl

/-- Results take the place of operands. -/
theorem Effect.exists_exchange (h : Effect catalog operand m op flow m') (hdiscard : op ≠ .popToBase)
    (hstore : ∀ register, op ≠ .store register) :
    ∃ (below : Array Value) (operands results : List Value),
      Exchange catalog operand m op operands results ∧
        m.data = below ++ operands ∧ m'.data = below ++ results := by
  cases h with
  | popToBase => exact absurd rfl hdiscard
  | store => exact absurd rfl (hstore _)
  | startCritical => exact ⟨_, _, _, .startCritical, rfl, rfl⟩
  | criticalDone => exact ⟨_, _, _, .criticalDone, rfl, rfl⟩
  | pushD => exact ⟨_, _, _, .pushD, rfl, rfl⟩
  | pushString htext => exact ⟨_, _, _, .pushString htext, rfl, rfl⟩
  | dToA hdata => exact ⟨_, _, _, .dToA _, hdata, rfl⟩
  | aToD hret =>
    have htop := Array.back?_eq_some_iff.mpr ⟨_, hret⟩
    exact ⟨_, _, _, .aToD htop, rfl, rfl⟩
  | pop hdata => exact ⟨_, _, _, .pop _, hdata, rfl⟩
  | swapA => exact ⟨_, _, _, .swapA, rfl, rfl⟩
  | pushBase hdata => exact ⟨_, _, _, .pushBase _, hdata, rfl⟩
  | popBase => exact ⟨_, _, _, .popBase, rfl, rfl⟩
  | setGlobal => exact ⟨_, _, _, .setGlobal, rfl, rfl⟩
  | @fetch register below value number var index hdata hvar hindex hentry =>
    have hbelow : m.data.pop = below := by rw [hdata, Array.pop_push]
    rw [← hbelow] at hentry
    exact ⟨_, _, _, .fetch hvar hindex hentry, hdata, rfl⟩
  | jmp hdata => exact ⟨_, _, _, .jmp _, hdata, rfl⟩
  | fallThrough hdata => exact ⟨_, _, _, .branch _ _, hdata, rfl⟩
  | branch hdata => exact ⟨_, _, _, .branch _ _, hdata, rfl⟩
  | call hdata => exact ⟨_, _, _, .call _, hdata, rfl⟩
  | popReturn => exact ⟨_, _, _, .popReturn, rfl, rfl⟩
  | exitProg => exact ⟨_, _, _, .exitProg, rfl, rfl⟩
  | binary hdata hresult => exact ⟨_, _, _, .binary hresult, hdata, rfl⟩
  | negate hdata hresult => exact ⟨_, _, _, .negate hresult, hdata, rfl⟩

end Effect

/-- An instruction has taken the first machine to the second and has changed only what its opcode may
change. -/
structure Confined (catalog : Catalog) (operand : Int32) (op : Opcode) (m m' : Machine) : Prop where
  frameBase (hopen : op ≠ .pushBase) (hclose : op ≠ .popBase) : m'.frameBase = m.frameBase
  globalBase (hset : op ≠ .setGlobal) : m'.globalBase = m.globalBase
  maxDepth : m'.maxDepth = m.maxDepth
  ret (huses : op.usesReturn = false) : m'.ret = m.ret
  retPushed (hop : op = .dToA ∨ op = .pushBase) : ∃ entry, m'.ret = m.ret.push entry
  retPopped (hop : op = .aToD ∨ op = .popBase ∨ op = .popReturn) : ∃ entry, m.ret = m'.ret.push entry
  retSwapped (hop : op = .swapA) :
    ∃ (below : Array Value) (first second : Value), m.ret = (below.push first).push second ∧
      m'.ret = (below.push second).push first
  /-- The machine halts at the end of a program, and by a return to address zero. -/
  halted : m'.halted = true ↔
    op = .exitProg ∨ op = .popReturn ∧ ∃ entry, m.ret.back? = some entry ∧ entry.asInt? = some 0
  /-- Control goes on to the instruction that follows, unless the opcode jumps; a branch does not when
  its condition is true. -/
  pc (hjmp : op ≠ .jmp) (hcall : op ≠ .call) (hreturn : op ≠ .popReturn)
    (hbranch : op = .branch →
      ∃ condition, m.data.back? = some condition ∧ condition.isTruthy = true) :
    m'.pc = m.pc + op.encodedLength
  /-- Results take the place of operands, and the data stack below them stays. -/
  data (hdiscard : op ≠ .popToBase) (hstore : ∀ register, op ≠ .store register) :
    ∃ (below : Array Value) (operands results : List Value),
      Exchange catalog operand m op operands results ∧
        m.data = below ++ operands ∧ m'.data = below ++ results

/-- The rules reach no further than their opcodes may. -/
theorem Effect.confined {catalog : Catalog} {operand : Int32} {m m' : Machine} {op : Opcode}
    {flow : Flow} (h : Effect catalog operand m op flow m') (hrunning : m.halted = false) :
    Confined catalog operand op m { m' with pc := flow.target (m.pc + op.encodedLength) } where
  frameBase := h.frameBase_eq
  globalBase := h.globalBase_eq
  maxDepth := by cases h <;> rfl
  ret := h.ret_eq
  retPushed := h.exists_ret_push
  retPopped := h.exists_push_ret
  retSwapped := by
    rintro rfl
    cases h with
    | swapA hret => exact ⟨_, _, _, hret, rfl⟩
  halted := h.halted_iff hrunning
  pc := by
    intro hjmp hcall hreturn hbranch
    rw [h.flow_eq_next hjmp hcall hreturn hbranch]
    rfl
  data := h.exists_exchange

end Machine

namespace Interpreter

open Reader

/-- An instruction that is pending is executed by a step that succeeds. -/
theorem next?_of_step_eq_ok {vm u : Interpreter} {op : Opcode} {status : Status}
    (hop : vm.pending? = some op) (hstep : step vm = .ok status u) : vm.next? = some op := by
  cases hlimit : vm.withinLimit with
  | true => exact next?_eq_some_iff.mpr ⟨hlimit, hop⟩
  | false =>
    obtain ⟨limit, hmax, hspent⟩ := withinLimit_eq_false_iff.mp hlimit
    rw [(StepsTo.refused hop hmax hspent).eq_step] at hstep
    cases hstep

/-- A successful instruction changes only what its opcode may change.

The frame base changes only when a frame is opened or closed, the global base only when it is set. The
return stack gets an entry, loses its top entry or has its top two entries exchanged under the six
opcodes that work on it, and is left alone by the others. The machine halts at the end of a program and
by a return to address zero, and not otherwise. Control goes on to the next instruction unless the opcode
jumps, calls, returns or branches on a false condition. And except for stores and for the removal of what
lies below the frame, the data stack keeps what lies below the operands, and the results lie on top of
that. -/
theorem instruction_confined {vm u : Interpreter} {op : Opcode} {status : Status}
    (hop : vm.pending? = some op) (hstep : step vm = .ok status u) :
    ∃ operand, operandAt vm.script.bytes vm.machine.pc op = .ok operand ∧
      Machine.Confined vm.catalog operand op vm.machine u.machine := by
  have hnext := next?_of_step_eq_ok hop hstep
  obtain ⟨operand, flow, m, hoperand, hexecute, -, rfl⟩ := exists_executed_of_step_eq_ok hnext hstep
  have hrunning := (pending?_eq_some_iff.mp hop).1
  exact ⟨operand, hoperand, (Machine.effect_of_execute hexecute).confined hrunning⟩

/-- A machine about to fetch the first slot of its frame, which holds a text. -/
def fetchingText : Interpreter :=
  { ofCode #[0x32, 0x80] .empty .standard with
    machine := { data := #[.bool true, .string "kept", .int 0], frameBase := 1, maxDepth := 3 } }

/-- The number of the slot gives way to the text, on top of what was there, and control goes on. -/
theorem instruction_confined_fetch :
    fetchingText.pending? = some (.fetch .frame) ∧
      ∃ u, step fetchingText = .ok .running u ∧
        u.machine.data = #[.bool true, .string "kept", .string "kept"] ∧ u.machine.pc = 2 := by
  have hop : fetchingText.pending? = some (.fetch .frame) := by decide +kernel
  have hstep : step fetchingText = .ok .running (finalState (step fetchingText)) := rfl
  obtain ⟨operand, -, hconfined⟩ := instruction_confined hop hstep
  have hpc := hconfined.pc nofun nofun nofun nofun
  exact ⟨hop, _, hstep, by decide +kernel, hpc⟩

end Interpreter

end ScriptMachine
