import ScriptMachine.Proofs.NumericPrograms

/-!
# No type errors among numbers

A program whose catalog has no strings, on stacks that hold no text, stays without text: immediates,
operators, zeros, saved bases and slots only give numbers. And it never fails for the kind of a value,
since a number is all that is ever expected of one: `numbers_never_mismatch`.

That machines stay without text comes from `SameNumbers`, which holds between a machine and itself
exactly when neither of its stacks holds text. `TypeSafe` adds what can go wrong, and passes along
sequences together with a property of the value that the first part hands on.
-/

namespace ScriptMachine

/-- Whether a fault is a complaint about the kind of a value. -/
def Fault.isTypeMismatch : Fault → Bool
  | typeMismatch .. => true
  | _ => false

/-- A fault of reading the code is not about the kind of a value. -/
theorem Fault.isTypeMismatch_of_ofReading {fault : Fault} (h : fault.ofReading = true) :
    fault.isTypeMismatch = false := by
  unfold ofReading at h
  split at h
  · rfl
  · rfl
  · cases h

/-- A value with one property or a failure with another, in a state with a third. -/
inductive ComesTo {ε σ α : Type} (V : α → Prop) (F : ε → Prop) (S : σ → Prop) :
    EStateM.Result ε σ α → Prop
  | ok {a : α} {s : σ} (hvalue : V a) (hstate : S s) : ComesTo V F S (.ok a s)
  | error {e : ε} {s : σ} (hfailure : F e) (hstate : S s) : ComesTo V F S (.error e s)

/-- The state has its property in either case. -/
theorem ComesTo.finalState {ε σ α : Type} {V : α → Prop} {F : ε → Prop} {S : σ → Prop}
    {result : EStateM.Result ε σ α} (h : ComesTo V F S result) : S (finalState result) := by
  cases h with
  | ok _ hstate => exact hstate
  | error _ hstate => exact hstate

namespace Value

/-! ## Operators on numbers -/

/-- What is not text is a number. -/
theorem toNumber_ne_error {v : Value} {fault : Fault} (hv : v.isString = false) :
    v.toNumber ≠ .error fault := by
  obtain ⟨n, hn⟩ := isString_eq_false_iff.mp hv
  rw [toNumber_of_asInt? hn]
  exact nofun

/-- A number can only be out of range as an address. -/
theorem isTypeMismatch_of_toAddress {v : Value} {fault : Fault} (hv : v.isString = false)
    (h : v.toAddress = .error fault) : fault.isTypeMismatch = false := by
  obtain ⟨n, hn⟩ := isString_eq_false_iff.mp hv
  simp only [toAddress, toNumber_of_asInt? hn, bind, Except.bind] at h
  split at h
  · cases h
    rfl
  · cases h

/-- What an operator can complain about in numbers is a division by zero. -/
theorem isTypeMismatch_of_apply {op : BinaryOp} {a b : Value} {fault : Fault}
    (ha : a.isString = false) (hb : b.isString = false) (h : op.apply a b = .error fault) :
    fault.isTypeMismatch = false := by
  obtain ⟨x, hx⟩ := isString_eq_false_iff.mp ha
  obtain ⟨y, hy⟩ := isString_eq_false_iff.mp hb
  have hdivision (quotient : Int32)
      (hquotient : Value.int <$> (if y = 0 then .error .divisionByZero else .ok quotient :
        Except Fault Int32) = .error fault) : fault.isTypeMismatch = false := by
    split at hquotient
    · cases hquotient
      rfl
    · cases hquotient
  cases op with
  | equal | notEqual | and | or => cases h
  | less | lessEqual | greater | greaterEqual =>
    simp only [BinaryOp.apply, order_of_asInt? hx hy] at h
    cases h
  | add =>
    rw [BinaryOp.apply, add_of_asInt? hx hy] at h
    cases h
  | sub | mul =>
    rw [BinaryOp.apply, arithmetic_of_asInt? _ hx hy] at h
    cases h
  | div | mod =>
    rw [BinaryOp.apply, arithmetic_of_asInt? _ hx hy] at h
    exact hdivision _ h

end Value

open Value

/-! ## Machines without text -/

/-- The stacks without text are those that have the same numbers as themselves. -/
theorem sameEntries_self_iff {s : Array Value} :
    SameEntries s s ↔ ∀ value ∈ s, value.isString = false := by
  constructor
  · intro h value hvalue
    obtain ⟨i, hi⟩ := Array.getElem?_of_mem hvalue
    have hentry := h i
    rw [hi] at hentry
    cases hentry with
    | some hself => exact hself.left
  · intro h i
    cases hi : s[i]? with
    | none => exact .none
    | some value => exact .some (sameNumber_self_iff.mpr (h value (Array.mem_of_getElem? hi)))

namespace Machine

/-- Neither stack holds text. -/
structure Numeric (m : Machine) : Prop where
  data : ∀ value ∈ m.data, value.isString = false
  ret : ∀ value ∈ m.ret, value.isString = false

/-- A machine has the same numbers as itself when neither stack holds text. -/
theorem sameNumbers_self_iff {m : Machine} : SameNumbers m m ↔ m.Numeric := by
  constructor
  · intro h
    exact ⟨sameEntries_self_iff.mp h.data, sameEntries_self_iff.mp h.ret⟩
  · intro h
    exact ⟨sameEntries_self_iff.mpr h.data, sameEntries_self_iff.mpr h.ret, rfl, rfl, rfl, rfl, rfl⟩

/-! ## Actions that are safe on them -/

/-- On machines without text the action comes to a value with the property, or fails for something
other than the kind of a value, and leaves the machine without text. -/
def TypeSafe {α : Type} (V : α → Prop) (x : Action α) : Prop :=
  ∀ m, m.Numeric → ComesTo V (fun fault => fault.isTypeMismatch = false) Numeric (x m)

section TypeSafe

variable {α β : Type} {V : α → Prop} {W : β → Prop}

/-- To return a value with the property is safe. -/
theorem typeSafe_pure {a : α} (h : V a) : TypeSafe V (pure a : Action α) :=
  fun _ hm => .ok h hm

/-- To fail for something other than the kind of a value is safe. -/
theorem typeSafe_throw {fault : Fault} (h : fault.isTypeMismatch = false) :
    TypeSafe V (throw fault : Action α) :=
  fun _ hm => .error h hm

/-- To look at the machine is safe. -/
theorem typeSafe_get : TypeSafe (fun _ => True) (get : Action Machine) :=
  fun _ hm => .ok trivial hm

/-- A sequence is safe when its parts are, the second after the values of the first. -/
theorem TypeSafe.bind {x : Action α} {f : α → Action β} (hx : TypeSafe V x)
    (hf : ∀ a, V a → TypeSafe W (f a)) : TypeSafe W (x >>= f) := by
  intro m hm
  have hfirst := hx m hm
  cases hresult : x m with
  | error fault m' =>
    rw [hresult] at hfirst
    rw [bind_of_error hresult]
    cases hfirst with
    | error hfault hm' => exact .error hfault hm'
  | ok a m' =>
    rw [hresult] at hfirst
    rw [bind_of_ok hresult]
    cases hfirst with
    | ok hvalue hm' => exact hf a hvalue m' hm'

/-- A checked conversion is safe when its result has the property and its fault is not about a kind. -/
theorem typeSafe_ofExcept {e : Except Fault α} (hok : ∀ a, e = .ok a → V a)
    (herror : ∀ fault, e = .error fault → fault.isTypeMismatch = false) :
    TypeSafe V (ofExcept e : Action α) := by
  cases e with
  | ok a => exact typeSafe_pure (hok a rfl)
  | error fault => exact typeSafe_throw (herror fault rfl)

/-- A result that goes together with itself is on a machine without text. -/
theorem comesTo_of_matches_self {U : α → α → Prop} {result : EStateM.Result Fault Machine α}
    (h : Matches U SameNumbers result result) (hvalue : ∀ a, U a a → V a)
    (hfault : ∀ fault m, result = .error fault m → fault.isTypeMismatch = false) :
    ComesTo V (fun fault => fault.isTypeMismatch = false) Numeric result := by
  cases result with
  | ok a m =>
    cases h with
    | ok hU hm => exact .ok (hvalue a hU) (sameNumbers_self_iff.mp hm)
  | error fault m =>
    cases h with
    | error hm => exact .error (hfault fault m rfl) (sameNumbers_self_iff.mp hm)

/-- An action that goes together with itself keeps machines without text, so it is safe if none of its
faults is about a kind. -/
theorem typeSafe_of_relates {U : α → α → Prop} {x : Action α} (hx : Relates SameNumbers U x x)
    (hvalue : ∀ a, U a a → V a)
    (hfault : ∀ m fault m', x m = .error fault m' → fault.isTypeMismatch = false) :
    TypeSafe V x := by
  intro m hm
  exact comesTo_of_matches_self (hx m m (sameNumbers_self_iff.mpr hm)) hvalue (hfault m)

/-- An update that keeps machines of the same numbers is safe. -/
theorem typeSafe_modify {f : Machine → Machine}
    (hf : Relates SameNumbers Eq (modify f : Action Unit) (modify f : Action Unit)) :
    TypeSafe (fun _ => True) (modify f : Action Unit) :=
  typeSafe_of_relates hf (fun _ _ => trivial) nofun

end TypeSafe

/-! ## The actions of the machine -/

/-- A push of a number is safe. -/
theorem typeSafe_push {value : Value} (hvalue : value.isString = false) :
    TypeSafe (fun _ => True) (push value) := by
  refine typeSafe_of_relates (relates_push (sameNumber_self_iff.mpr hvalue)) (fun _ _ => trivial) ?_
  intro m fault m' h
  unfold push at h
  split at h <;> cases h
  rfl

/-- A pop is safe and gives a number. -/
theorem typeSafe_pop : TypeSafe (fun value => value.isString = false) pop := by
  refine typeSafe_of_relates relates_pop (fun _ hself => hself.left) ?_
  intro m fault m' h
  unfold pop at h
  split at h <;> cases h
  rfl

/-- A push of a number on the return stack is safe. -/
theorem typeSafe_pushReturn {value : Value} (hvalue : value.isString = false) :
    TypeSafe (fun _ => True) (pushReturn value) := by
  refine typeSafe_of_relates (relates_pushReturn (sameNumber_self_iff.mpr hvalue))
    (fun _ _ => trivial) ?_
  intro m fault m' h
  unfold pushReturn at h
  split at h <;> cases h
  rfl

/-- A pop from the return stack is safe and gives a number. -/
theorem typeSafe_popReturn : TypeSafe (fun value => value.isString = false) popReturn := by
  refine typeSafe_of_relates relates_popReturn (fun _ hself => hself.left) ?_
  intro m fault m' h
  unfold popReturn at h
  split at h <;> cases h
  rfl

/-- An exchange on the return stack is safe. -/
theorem typeSafe_swapReturn : TypeSafe (fun _ => True) swapReturn := by
  refine typeSafe_of_relates relates_swapReturn (fun _ _ => trivial) ?_
  intro m fault m' h
  unfold swapReturn at h
  split at h <;> cases h
  rfl

/-- A slot is refused for its index, not for the kind of a value. -/
theorem isTypeMismatch_of_slotIndex {m : Machine} {register : BaseRegister} {var : Int32}
    {fault : Fault} (h : m.slotIndex register var = .error fault) : fault.isTypeMismatch = false := by
  simp only [slotIndex] at h
  split at h <;> cases h
  rfl

/-- A load is safe and gives a number. -/
theorem typeSafe_load (register : BaseRegister) (var : Int32) :
    TypeSafe (fun value => value.isString = false) (load register var) := by
  refine typeSafe_of_relates (relates_load register var) (fun _ hself => hself.left) ?_
  intro m fault m' h
  unfold load at h
  split at h
  · rename_i hindex
    cases h
    exact isTypeMismatch_of_slotIndex hindex
  · split at h <;> cases h
    rfl

/-- A store of a number is safe. -/
theorem typeSafe_store (register : BaseRegister) (var : Int32) {value : Value}
    (hvalue : value.isString = false) : TypeSafe (fun _ => True) (store register var value) := by
  refine typeSafe_of_relates (relates_store register var (sameNumber_self_iff.mpr hvalue))
    (fun _ _ => trivial) ?_
  intro m fault m' h
  unfold store at h
  split at h
  · rename_i hindex
    cases h
    exact isTypeMismatch_of_slotIndex hindex
  · split at h
    · cases h
    · split at h <;> cases h
      rfl

/-- A number has an integer reading. -/
theorem typeSafe_toNumber {value : Value} (hvalue : value.isString = false) :
    TypeSafe (fun _ => True) (ofExcept value.toNumber : Action Int32) :=
  typeSafe_ofExcept (fun _ _ => trivial) fun _ h => absurd h (toNumber_ne_error hvalue)

/-- A number may be refused as an address, but not for its kind. -/
theorem typeSafe_toAddress {value : Value} (hvalue : value.isString = false) :
    TypeSafe (fun _ => True) (ofExcept value.toAddress : Action Nat) :=
  typeSafe_ofExcept (fun _ _ => trivial) fun _ h => isTypeMismatch_of_toAddress hvalue h

/-- A stack index may be too large, which is not about the kind of a value. -/
theorem typeSafe_encodeIndex (index : Nat) :
    TypeSafe (fun _ => True) (ofExcept (encodeIndex index) : Action Int32) := by
  refine typeSafe_ofExcept (fun _ _ => trivial) fun fault h => ?_
  unfold encodeIndex at h
  split at h <;> cases h
  rfl

/-- A number of arguments may be refused, but not for its kind. -/
theorem typeSafe_frameStart (argc : Int32) (size : Nat) :
    TypeSafe (fun _ => True) (ofExcept (frameStart argc size) : Action Nat) := by
  refine typeSafe_ofExcept (fun _ _ => trivial) fun fault h => ?_
  unfold frameStart at h
  split at h <;> cases h
  rfl

/-- A pop of a number is safe, since there is no text to be popped. -/
theorem typeSafe_popInt : TypeSafe (fun _ => True) popInt :=
  typeSafe_pop.bind fun _ hvalue => typeSafe_toNumber hvalue

/-- Setting the frame base is safe. -/
theorem typeSafe_setFrameBase (base : Nat) :
    TypeSafe (fun _ => True) (modify fun m => { m with frameBase := base } : Action Unit) :=
  typeSafe_modify (relates_modify fun _ _ h => { h with frameBase := rfl })

/-- Opening a frame is safe. -/
theorem typeSafe_pushBase : TypeSafe (fun _ => True) pushBase := by
  refine typeSafe_popInt.bind fun argc _ => typeSafe_get.bind fun m _ => ?_
  refine (typeSafe_frameStart argc _).bind fun base _ => typeSafe_get.bind fun m _ => ?_
  refine (typeSafe_encodeIndex _).bind fun saved _ => ?_
  exact (typeSafe_pushReturn rfl).bind fun _ _ => typeSafe_setFrameBase base

/-- Closing a frame is safe. -/
theorem typeSafe_popBase : TypeSafe (fun _ => True) popBase := by
  refine typeSafe_popReturn.bind fun value hvalue => (typeSafe_toNumber hvalue).bind fun base _ => ?_
  dsimp only
  split
  · refine typeSafe_get.bind fun m _ => ?_
    exact (typeSafe_throw (V := fun _ => True) rfl).bind fun _ _ => typeSafe_setFrameBase _
  · exact typeSafe_setFrameBase _

/-- A binary operation is safe, since operators give numbers on numbers. -/
theorem typeSafe_applyBinary (op : BinaryOp) : TypeSafe (fun _ => True) (applyBinary op) := by
  refine typeSafe_pop.bind fun b hb => typeSafe_pop.bind fun a ha => ?_
  have hoperator : TypeSafe (fun value => value.isString = false)
      (ofExcept (op.apply a b) : Action Value) :=
    typeSafe_ofExcept (fun _ h => isString_of_apply ha hb h) fun _ h => isTypeMismatch_of_apply ha hb h
  exact hoperator.bind fun _ hvalue => typeSafe_push hvalue

/-! ## Instructions -/

/-- Under a catalog without strings every instruction is safe. -/
theorem typeSafe_execute {catalog : Catalog} (hstrings : ∀ index, catalog.string? index = none)
    (operand : Int32) (op : Opcode) : TypeSafe (fun _ => True) (execute catalog operand op) := by
  have hnext : TypeSafe (fun _ => True) (pure Flow.next : Action Flow) := typeSafe_pure trivial
  have hjump (target : Nat) : TypeSafe (fun _ => True) (pure (Flow.jump target) : Action Flow) :=
    typeSafe_pure trivial
  -- Case by case, the parts of the instruction in their order.
  cases op with
  | startCritical => exact hnext
  | criticalDone => exact hnext
  | pushD => exact (typeSafe_push rfl).bind fun _ _ => hnext
  | pushString =>
    simp only [execute, hstrings]
    exact typeSafe_throw rfl
  | dToA => exact typeSafe_pop.bind fun _ h => (typeSafe_pushReturn h).bind fun _ _ => hnext
  | aToD => exact typeSafe_popReturn.bind fun _ h => (typeSafe_push h).bind fun _ _ => hnext
  | pop => exact typeSafe_pop.bind fun _ _ => hnext
  | swapA => exact typeSafe_swapReturn.bind fun _ _ => hnext
  | pushBase => exact typeSafe_pushBase.bind fun _ _ => hnext
  | popBase => exact typeSafe_popBase.bind fun _ _ => hnext
  | popToBase => exact (typeSafe_modify relates_popToBase).bind fun _ _ => hnext
  | setGlobal => exact (typeSafe_modify relates_setGlobal).bind fun _ _ => hnext
  | store register =>
    refine typeSafe_popInt.bind fun var _ => typeSafe_pop.bind fun value hvalue => ?_
    exact (typeSafe_store register var hvalue).bind fun _ _ => hnext
  | fetch register =>
    refine typeSafe_popInt.bind fun var _ => (typeSafe_load register var).bind fun value hvalue => ?_
    exact (typeSafe_push hvalue).bind fun _ _ => hnext
  | jmp =>
    refine typeSafe_pop.bind fun value hvalue => ?_
    exact (typeSafe_toAddress hvalue).bind fun target _ => hjump target
  | branch =>
    refine typeSafe_pop.bind fun condition _ => typeSafe_pop.bind fun value hvalue => ?_
    split
    · exact hnext
    · exact (typeSafe_toAddress hvalue).bind fun target _ => hjump target
  | call =>
    refine typeSafe_popInt.bind fun index _ => ?_
    split
    · exact hjump _
    · exact typeSafe_throw rfl
  | popReturn =>
    refine typeSafe_popReturn.bind fun value hvalue => ?_
    refine (typeSafe_toAddress hvalue).bind fun target _ => ?_
    dsimp only
    split
    · exact (typeSafe_modify relates_halt).bind fun _ _ => hjump target
    · exact hjump target
  | exitProg => exact (typeSafe_modify relates_halt).bind fun _ _ => hnext
  | binary op => exact (typeSafe_applyBinary op).bind fun _ _ => hnext
  | negate =>
    refine typeSafe_pop.bind fun value hvalue => ?_
    obtain ⟨n, hn⟩ := isString_eq_false_iff.mp hvalue
    rw [negate_of_asInt? hn]
    exact (typeSafe_push rfl).bind fun _ _ => hnext

/-- Laying out a call with numbers is safe on any machine, since the machine is cleared first. -/
theorem comesTo_enter (offset : Nat) {args : List Value}
    (hargs : ∀ value ∈ args, value.isString = false) (m : Machine) :
    ComesTo (fun _ => True) (fun fault => fault.isTypeMismatch = false) Numeric
      (enter offset args m) := by
  have hself : List.Forall₂ SameNumber args args :=
    List.forall₂_same.mpr fun value hvalue => sameNumber_self_iff.mpr (hargs value hvalue)
  refine comesTo_of_matches_self (matches_enter (m := m) rfl offset hself) (fun _ _ => trivial) ?_
  intro fault m' h
  obtain rfl | ⟨-, rfl⟩ := cases_of_enter_eq_error h
  · rfl
  · rfl

end Machine

namespace Interpreter

/-! ## Steps, runs and calls -/

/-- An interpreter without text: its catalog has no strings and its machine holds none. -/
structure Numeric (vm : Interpreter) : Prop where
  strings : ∀ index, vm.catalog.string? index = none
  machine : vm.machine.Numeric

/-- The interpreter stays without text, and a failure is not about the kind of a value. -/
def NeverMismatches {α : Type} (V : α → Prop) (result : EStateM.Result Failure Interpreter α) : Prop :=
  ComesTo V (fun failure => failure.fault.isTypeMismatch = false) Numeric result

section Numeric

variable {vm : Interpreter}

/-- A step of a program without text does not fail for the kind of a value. -/
theorem neverMismatches_step (h : vm.Numeric) : NeverMismatches (fun _ => True) (step vm) := by
  have hstep := stepsTo_step vm
  generalize step vm = result at hstep ⊢
  cases hstep with
  | halted hhalted => exact .ok trivial h
  | unreadable hrunning hword =>
    exact .error (Fault.isTypeMismatch_of_ofReading (Reader.ofReading_of_wordAt hword))
      ⟨h.strings, h.machine⟩
  | undecodable hrunning hword hop => exact .ok trivial ⟨h.strings, h.machine⟩
  | refused hop hlimit hspent => exact .error rfl ⟨h.strings, h.machine⟩
  | truncated hop hoperand =>
    exact .error (Fault.isTypeMismatch_of_ofReading (Reader.ofReading_of_operandAt hoperand))
      ⟨h.strings, h.machine⟩
  | @failed op operand fault m hop hoperand hexecute =>
    have hafter := Machine.typeSafe_execute h.strings operand op vm.machine h.machine
    rw [hexecute] at hafter
    cases hafter with
    | error hfault hm => exact .error hfault ⟨h.strings, hm⟩
  | @executed op operand flow m hop hoperand hexecute =>
    have hafter := Machine.typeSafe_execute h.strings operand op vm.machine h.machine
    rw [hexecute] at hafter
    cases hafter with
    | ok _ hm => exact .ok trivial ⟨h.strings, hm.data, hm.ret⟩

/-- A run of some steps of a program without text does not fail for the kind of a value. -/
theorem neverMismatches_runFor (n : Nat) (h : vm.Numeric) :
    NeverMismatches (fun _ => True) (runFor n vm) := by
  induction n generalizing vm with
  | zero => exact .ok trivial h
  | succ n ih =>
    have hstep := neverMismatches_step h
    simp only [runFor]
    generalize step vm = result at hstep ⊢
    cases hstep with
    | error hfault hu => exact .error hfault hu
    | @ok status u _ hu =>
      cases status with
      | running => exact ih hu
      | halted => exact .ok trivial hu
      | stopped stop => exact .ok trivial hu

/-- A run of a program without text does not fail for the kind of a value. -/
theorem neverMismatches_runWithin (fuel : Nat) (h : vm.Numeric) :
    NeverMismatches (fun _ => True) (runWithin fuel vm) :=
  neverMismatches_runFor fuel ⟨h.strings, h.machine.data, h.machine.ret⟩

/-- A call takes a number from a stack without text, or has no result. -/
theorem neverMismatches_conclude (name : String)
    {result : EStateM.Result Failure Interpreter Outcome}
    (h : NeverMismatches (fun _ => True) result) :
    NeverMismatches (fun result => ∀ value ∈ result, value.isString = false)
      (conclude name result) := by
  cases h with
  | error hfault hu => exact .error hfault hu
  | @ok outcome u _ hu =>
    cases outcome with
    | stopped stop => exact .error rfl hu
    | unfinished => exact .ok nofun hu
    | halted =>
      have htaken := Machine.typeSafe_pop u.machine hu.machine
      cases htop : u.machine.data.back? with
      | none =>
        rw [conclude_of_empty name htop]
        exact .error rfl hu
      | some value =>
        rw [Machine.pop_eq_ok_iff.mpr ⟨htop, rfl⟩] at htaken
        rw [conclude_of_result name htop]
        cases htaken with
        | ok hvalue hm => exact .ok (fun v hv => Option.mem_some.mp hv ▸ hvalue) ⟨hu.strings, hm⟩

/-- A call with numbers starts from a cleared machine, so it does not matter what was there before. -/
theorem neverMismatches_callWithin {name : String} {args : List Value} {procedure : Procedure}
    (fuel : Nat) (hstrings : ∀ index, vm.catalog.string? index = none)
    (hargs : ∀ value ∈ args, value.isString = false)
    (hname : vm.catalog.procedure? name = some procedure) :
    NeverMismatches (fun result => ∀ value ∈ result, value.isString = false)
      (callWithin fuel name args vm) := by
  have hlayout := Machine.comesTo_enter procedure.offset hargs vm.machine
  cases henter : Machine.enter procedure.offset args vm.machine with
  | error fault m =>
    rw [henter] at hlayout
    rw [callWithin_of_layout_error fuel hname henter]
    cases hlayout with
    | error hfault hm => exact .error hfault ⟨hstrings, hm⟩
  | ok u m =>
    rw [henter] at hlayout
    rw [callWithin_of_layout fuel hname henter]
    cases hlayout with
    | ok _ hm => exact neverMismatches_conclude name (neverMismatches_runWithin fuel ⟨hstrings, hm⟩)

end Numeric

/-! ## Histories -/

/-- The operation brings no text into the interpreter. -/
def Operation.Numeric : Operation → Prop
  | call _ _ args => ∀ value ∈ args, value.isString = false
  | edit (.push value) | edit (.pushReturn value) => value.isString = false
  | _ => True

/-- Edits that bring no text keep the machine without text. -/
theorem numeric_edit {change : Machine.HostEdit} {m : Machine}
    (hchange : (Operation.edit change).Numeric) (h : m.Numeric) : (change.apply m).Numeric := by
  cases change with
  | push value => exact (Machine.typeSafe_push hchange m h).finalState
  | pop => exact (Machine.typeSafe_pop m h).finalState
  | pushReturn value => exact (Machine.typeSafe_pushReturn hchange m h).finalState
  | popReturn => exact (Machine.typeSafe_popReturn m h).finalState
  | setPc pc => exact ⟨h.data, h.ret⟩
  | reset => exact ⟨nofun, nofun⟩

/-- Operations that bring no text keep the interpreter without text. -/
theorem numeric_perform {operation : Operation} {vm : Interpreter} (hop : operation.Numeric)
    (h : vm.Numeric) : (operation.perform vm).Numeric := by
  cases operation with
  | step => exact (neverMismatches_step h).finalState
  | run fuel => exact (neverMismatches_runWithin fuel h).finalState
  | edit change => exact ⟨h.strings, numeric_edit hop h.machine⟩
  | call fuel name args =>
    simp only [Operation.perform]
    cases hname : vm.catalog.procedure? name with
    | none =>
      rw [callWithin_of_unknown fuel args hname]
      exact ⟨h.strings, h.machine⟩
    | some procedure => exact (neverMismatches_callWithin fuel h.strings hop hname).finalState

/-- Operations without text leave an interpreter without text. -/
theorem numeric_after {history : List Operation} {vm : Interpreter}
    (hhistory : ∀ operation ∈ history, operation.Numeric) (h : vm.Numeric) :
    (after history vm).Numeric := by
  induction history generalizing vm with
  | nil => exact h
  | cons operation history ih =>
    rw [List.forall_mem_cons] at hhistory
    exact ih hhistory.2 (numeric_perform hhistory.1 h)

/-- Programs without text have no type errors.

When neither the catalog nor the stacks hold text, and the host brings none, no text appears: after any
operations, and after every step of what is done next, both stacks are without it, and no failure
is about the kind of a value. Calls need no stacks without text to begin with. With numbers as arguments
they give a number, if they give a value, and leave the machine without text. A call of an unknown
procedure fails and leaves the machine as it was. -/
theorem numbers_never_mismatch :
    (∀ (vm : Interpreter) (history : List Operation), vm.Numeric →
      (∀ operation ∈ history, operation.Numeric) →
      (after history vm).Numeric ∧
      NeverMismatches (fun _ => True) (step (after history vm)) ∧
      (∀ fuel, NeverMismatches (fun _ => True) (runFor fuel (after history vm)) ∧
        NeverMismatches (fun _ => True) (runWithin fuel (after history vm))) ∧
      NeverMismatches (fun _ => True) (run (after history vm))) ∧
    ∀ (vm : Interpreter) (name : String) (args : List Value),
      (∀ index, vm.catalog.string? index = none) → (∀ value ∈ args, value.isString = false) →
      (∀ procedure, vm.catalog.procedure? name = some procedure →
        (∀ fuel, NeverMismatches (fun result => ∀ value ∈ result, value.isString = false)
          (callWithin fuel name args vm)) ∧
        NeverMismatches (fun result => ∀ value ∈ result, value.isString = false) (call name args vm)) ∧
      (vm.catalog.procedure? name = none → ∀ fuel,
        mapState Interpreter.machine (callWithin fuel name args vm) =
          .error (.unlocated (.unknownProcedure name)) vm.machine) := by
  constructor
  · intro vm history h hhistory
    have hafter := numeric_after hhistory h
    refine ⟨hafter, neverMismatches_step hafter, fun fuel => ?_, neverMismatches_runWithin _ hafter⟩
    exact ⟨neverMismatches_runFor fuel hafter, neverMismatches_runWithin fuel hafter⟩
  · intro vm name args hstrings hargs
    constructor
    · intro procedure hname
      have hcalls (fuel : Nat) := neverMismatches_callWithin fuel hstrings hargs hname
      exact ⟨hcalls, hcalls vm.config.stepBudget⟩
    · intro hname fuel
      rw [callWithin_of_unknown fuel args hname]
      rfl

/-- Operations that leave `true` alone on the data stack, before the sum is made. -/
def unfinishedSum : List Operation :=
  [.edit (.push (.bool true)), .edit (.setPc 8)]

/-- What is wrong with a sum of `true` alone is that an operand is missing. A call with `true` gives a
number also where text was left on the data stack. -/
theorem numbers_never_mismatch_successor :
    successorScript.Numeric ∧ (∀ operation ∈ unfinishedSum, operation.Numeric) ∧
      answer (step (after unfinishedSum successorScript)) =
        .error (.atInstruction 8 "add" (.stackUnderflow .data)) ∧
      NeverMismatches (fun _ => True) (step (after unfinishedSum successorScript)) ∧
      answer (callWithin 4 "next" [.bool true] (successorOf (.string "left"))) = .ok (some (.int 2)) ∧
      NeverMismatches (fun result => ∀ value ∈ result, value.isString = false)
        (callWithin 4 "next" [.bool true] (successorOf (.string "left"))) := by
  have hstrings : ∀ index, successorScript.catalog.string? index = none := by
    simp [successorScript, ofCode, Catalog.string?, Catalog.empty]
  have hname : (successorOf (.string "left")).catalog.procedure? "next" = some ⟨"next", 0⟩ := by
    simp [successorOf, successorScript, ofCode, Catalog.procedure?, Catalog.empty]
  have hstacks (value : Value) : value ∉ (#[] : Array Value) := Array.not_mem_empty value
  have hempty : successorScript.Numeric :=
    ⟨hstrings, fun value h => absurd h (hstacks value), fun value h => absurd h (hstacks value)⟩
  have hhistory : ∀ operation ∈ unfinishedSum, operation.Numeric := by
    simp [unfinishedSum, Operation.Numeric, Value.isString, Value.asString?]
  have hargs : ∀ value ∈ [Value.bool true], value.isString = false := by decide
  have hanswer : answer (callWithin 4 "next" [.bool true] (successorOf (.string "left"))) =
      .ok (some (.int 2)) := by
    rw [callWithin_of_layout 4 hname rfl]
    decide +kernel
  obtain ⟨hruns, hcalls⟩ := numbers_never_mismatch
  exact ⟨hempty, hhistory, by decide +kernel,
    (hruns successorScript unfinishedSum hempty hhistory).2.1, hanswer,
    ((hcalls (successorOf (.string "left")) "next" _ hstrings hargs).1 _ hname).1 4⟩

end Interpreter

end ScriptMachine
