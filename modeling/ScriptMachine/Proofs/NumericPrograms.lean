import ScriptMachine.Proofs.CallHistories
import ScriptMachine.Proofs.Operators

/-!
# Programs without text

In a program without strings nothing tells `true` from one or `false` from zero. Two values are the
`SameNumber` when neither is text and their integer readings agree; two machines have the
`SameNumbers` when their stacks do, entry by entry, and they agree in all else.

Operators, addresses, slot numbers and conditions all read a number through its integer reading, so
each action of the machine goes together with itself. From this every instruction does
(`correspondence_sameNumbers`), and with it steps, runs and calls:
`booleans_indistinguishable_from_numbers`.
-/

namespace ScriptMachine

namespace Value

/-! ## Numbers with the same reading -/

/-- Two numbers with the same integer reading, such as `true` and one. -/
structure SameNumber (a b : Value) : Prop where
  left : a.isString = false
  right : b.isString = false
  reading : a.asInt? = b.asInt?

/-- The values that are the same number as themselves are those that are not text. -/
theorem sameNumber_self_iff {v : Value} : SameNumber v v ↔ v.isString = false :=
  ⟨fun h => h.left, fun h => ⟨h, h, rfl⟩⟩

/-- The same numbers have a reading, and it is one. -/
theorem SameNumber.exists_asInt? {a b : Value} (h : SameNumber a b) :
    ∃ n, a.asInt? = some n ∧ b.asInt? = some n := by
  obtain ⟨n, hn⟩ := isString_eq_false_iff.mp h.left
  exact ⟨n, hn, h.reading ▸ hn⟩

/-! ## Operators see only the reading -/

/-- An operator does the same to the same numbers. -/
theorem SameNumber.apply_eq (op : BinaryOp) {a b a' b' : Value} (ha : SameNumber a a')
    (hb : SameNumber b b') : op.apply a b = op.apply a' b' := by
  obtain ⟨x, hx, hx'⟩ := ha.exists_asInt?
  obtain ⟨y, hy, hy'⟩ := hb.exists_asInt?
  cases op with
  | equal | notEqual =>
    simp only [BinaryOp.apply, looselyEqual_of_asInt? hx hy, looselyEqual_of_asInt? hx' hy']
  | less | lessEqual | greater | greaterEqual =>
    simp only [BinaryOp.apply, order_of_asInt? hx hy, order_of_asInt? hx' hy']
  | add => simp only [BinaryOp.apply, add_of_asInt? hx hy, add_of_asInt? hx' hy']
  | sub | mul | div | mod =>
    simp only [BinaryOp.apply, arithmetic_of_asInt? _ hx hy, arithmetic_of_asInt? _ hx' hy']
  | and | or => simp only [BinaryOp.apply, isTruthy_of_asInt? hx, isTruthy_of_asInt? hx',
      isTruthy_of_asInt? hy, isTruthy_of_asInt? hy']

/-- The result of an operator on numbers is a number. -/
theorem isString_of_apply {op : BinaryOp} {a b v : Value} (ha : a.isString = false)
    (hb : b.isString = false) (h : op.apply a b = .ok v) : v.isString = false := by
  obtain ⟨x, hx⟩ := isString_eq_false_iff.mp ha
  obtain ⟨y, hy⟩ := isString_eq_false_iff.mp hb
  cases op with
  | equal | notEqual | and | or =>
    cases h
    rfl
  | less | lessEqual | greater | greaterEqual =>
    simp only [BinaryOp.apply, order_of_asInt? hx hy] at h
    cases h
    rfl
  | add =>
    rw [BinaryOp.apply, add_of_asInt? hx hy] at h
    cases h
    rfl
  | sub | mul | div | mod =>
    rw [BinaryOp.apply, arithmetic_of_asInt? _ hx hy] at h
    exact isString_of_map_int h

/-- The same numbers are converted to one integer. -/
theorem SameNumber.toNumber_eq {a b : Value} (h : SameNumber a b) : a.toNumber = b.toNumber := by
  obtain ⟨n, ha, hb⟩ := h.exists_asInt?
  rw [toNumber_of_asInt? ha, toNumber_of_asInt? hb]

/-- The same numbers are one address, or are refused as one for the same reason. -/
theorem SameNumber.toAddress_eq {a b : Value} (h : SameNumber a b) : a.toAddress = b.toAddress := by
  rw [toAddress, toAddress, h.toNumber_eq]

/-- Of the same numbers both are true or neither. -/
theorem SameNumber.isTruthy_eq {a b : Value} (h : SameNumber a b) : a.isTruthy = b.isTruthy := by
  obtain ⟨n, ha, hb⟩ := h.exists_asInt?
  rw [isTruthy_of_asInt? ha, isTruthy_of_asInt? hb]

end Value

/-! ## Stacks and machines of the same numbers -/

open Value

/-- Two stacks of the same numbers, entry by entry. -/
def SameEntries (s t : Array Value) : Prop :=
  ∀ i : Nat, Option.Rel SameNumber s[i]? t[i]?

section SameEntries

variable {s t : Array Value}

/-- Empty stacks have the same numbers. -/
theorem sameEntries_empty : SameEntries #[] #[] :=
  fun _ => .none

/-- Stacks of the same numbers have as many entries. -/
theorem SameEntries.size_eq (h : SameEntries s t) : t.size = s.size := by
  have hend (i : Nat) : s[i]? = none ↔ t[i]? = none := by
    have hentries := h i
    generalize s[i]? = entry at hentries
    generalize t[i]? = entry' at hentries
    cases hentries <;> simp
  have hle (i : Nat) : s.size ≤ i ↔ t.size ≤ i := by
    rw [← Array.getElem?_eq_none_iff, ← Array.getElem?_eq_none_iff]
    exact hend i
  exact Nat.le_antisymm ((hle s.size).mp (Nat.le_refl _)) ((hle t.size).mpr (Nat.le_refl _))

/-- The tops of stacks of the same numbers are the same number, if there are any. -/
theorem SameEntries.back? (h : SameEntries s t) : Option.Rel SameNumber s.back? t.back? := by
  rw [Array.back?_eq_getElem?, Array.back?_eq_getElem?, h.size_eq]
  exact h _

/-- Pushing the same number keeps stacks of the same numbers. -/
theorem SameEntries.push {a b : Value} (h : SameEntries s t) (hab : SameNumber a b) :
    SameEntries (s.push a) (t.push b) := by
  intro i
  rw [Array.getElem?_push, Array.getElem?_push, h.size_eq]
  split
  · exact .some hab
  · exact h i

/-- Popping keeps stacks of the same numbers. -/
theorem SameEntries.pop (h : SameEntries s t) : SameEntries s.pop t.pop := by
  intro i
  rw [Array.getElem?_pop, Array.getElem?_pop, h.size_eq]
  split
  · exact h i
  · exact .none

/-- The same part of stacks of the same numbers has the same numbers. -/
theorem SameEntries.extract (h : SameEntries s t) (start stop : Nat) :
    SameEntries (s.extract start stop) (t.extract start stop) := by
  intro i
  rw [Array.getElem?_extract, Array.getElem?_extract, h.size_eq]
  split
  · exact h _
  · exact .none

/-- Writing the same number at the same place keeps stacks of the same numbers. -/
theorem SameEntries.setIfInBounds {a b : Value} (h : SameEntries s t) (i : Nat)
    (hab : SameNumber a b) : SameEntries (s.setIfInBounds i a) (t.setIfInBounds i b) := by
  intro j
  rw [Array.getElem?_setIfInBounds, Array.getElem?_setIfInBounds, h.size_eq]
  split
  · split
    · exact .some hab
    · exact .none
  · exact h j

/-- Filling up with zeros keeps the stacks the same. -/
theorem SameEntries.append_zeros (h : SameEntries s t) (count : Nat) :
    SameEntries (s ++ Array.replicate count (.int 0)) (t ++ Array.replicate count (.int 0)) := by
  intro i
  rw [Array.getElem?_append, Array.getElem?_append, h.size_eq]
  split
  · exact h i
  · rw [Array.getElem?_replicate]
    split
    · exact .some (sameNumber_self_iff.mpr rfl)
    · exact .none

/-- Exchanging the same two places keeps stacks of the same numbers. -/
theorem SameEntries.swapIfInBounds (h : SameEntries s t) (i j : Nat) :
    SameEntries (s.swapIfInBounds i j) (t.swapIfInBounds i j) := by
  intro k
  rw [Array.swapIfInBounds_def, Array.swapIfInBounds_def]
  by_cases hi : i < s.size
  · by_cases hj : j < s.size
    · have hi' : i < t.size := h.size_eq ▸ hi
      have hj' : j < t.size := h.size_eq ▸ hj
      have hentry := h i
      have hother := h j
      rw [Array.getElem?_eq_getElem hi, Array.getElem?_eq_getElem hi'] at hentry
      rw [Array.getElem?_eq_getElem hj, Array.getElem?_eq_getElem hj'] at hother
      rw [dif_pos hi, dif_pos hj, dif_pos hi', dif_pos hj', Array.getElem?_swap, Array.getElem?_swap]
      split
      · exact hentry
      · split
        · exact hother
        · exact h k
    · rw [dif_pos hi, dif_neg hj, dif_pos (h.size_eq ▸ hi), dif_neg (h.size_eq ▸ hj)]
      exact h k
  · rw [dif_neg hi, dif_neg (h.size_eq ▸ hi)]
    exact h k

end SameEntries

namespace Machine

/-- Two machines whose stacks hold the same numbers, and that agree in all else. -/
structure SameNumbers (m m' : Machine) : Prop where
  data : SameEntries m.data m'.data
  ret : SameEntries m.ret m'.ret
  pc : m'.pc = m.pc
  globalBase : m'.globalBase = m.globalBase
  frameBase : m'.frameBase = m.frameBase
  halted : m'.halted = m.halted
  maxDepth : m'.maxDepth = m.maxDepth

/-! ## Actions on machines of the same numbers -/

/-- Pushes of the same number go together. -/
theorem relates_push {a b : Value} (hab : SameNumber a b) :
    Relates SameNumbers Eq (push a) (push b) := by
  intro m m' h
  have hroom : m'.data.size < m'.maxDepth ↔ m.data.size < m.maxDepth := by
    rw [h.data.size_eq, h.maxDepth]
  simp only [push, hroom]
  split
  · exact .ok rfl { h with data := h.data.push hab }
  · rw [h.maxDepth]
    exact .error h

/-- Pops go together and give the same number. -/
theorem relates_pop : Relates SameNumbers SameNumber pop pop := by
  intro m m' h
  have htop := h.data.back?
  unfold pop
  generalize m.data.back? = top at htop
  generalize m'.data.back? = top' at htop
  cases htop with
  | none => exact .error h
  | some hvalue => exact .ok hvalue { h with data := h.data.pop }

/-- Pushes of the same number on the return stack go together. -/
theorem relates_pushReturn {a b : Value} (hab : SameNumber a b) :
    Relates SameNumbers Eq (pushReturn a) (pushReturn b) := by
  intro m m' h
  have hroom : m'.ret.size < m'.maxDepth ↔ m.ret.size < m.maxDepth := by
    rw [h.ret.size_eq, h.maxDepth]
  simp only [pushReturn, hroom]
  split
  · exact .ok rfl { h with ret := h.ret.push hab }
  · rw [h.maxDepth]
    exact .error h

/-- Pops from the return stack go together and give the same number. -/
theorem relates_popReturn : Relates SameNumbers SameNumber popReturn popReturn := by
  intro m m' h
  have htop := h.ret.back?
  unfold popReturn
  generalize m.ret.back? = top at htop
  generalize m'.ret.back? = top' at htop
  cases htop with
  | none => exact .error h
  | some hvalue => exact .ok hvalue { h with ret := h.ret.pop }

/-- Exchanges on the return stack go together. -/
theorem relates_swapReturn : Relates SameNumbers Eq swapReturn swapReturn := by
  intro m m' h
  simp only [swapReturn, h.ret.size_eq]
  split
  · exact .error h
  · exact .ok rfl { h with ret := h.ret.swapIfInBounds _ _ }

/-- What is computed from a number through its reading is the same for the same number. -/
theorem relates_check {α : Type} {f : Value → Except Fault α} {a b : Value} (h : f a = f b) :
    Relates SameNumbers Eq (ofExcept (f a) : Action α) (ofExcept (f b) : Action α) := by
  rw [h]
  exact relates_ofExcept fun _ _ => rfl

/-- Pops of a number go together and give one integer, since only readings are left. -/
theorem relates_popInt : Relates SameNumbers Eq popInt popInt :=
  relates_pop.bind fun _ _ h => relates_check h.toNumber_eq

/-- Frames open together, with the same base. -/
theorem relates_pushBase : Relates SameNumbers Eq pushBase pushBase := by
  refine relates_popInt.bind fun argc _ hargc => ?_
  subst hargc
  refine relates_get.bind fun m m' h => ?_
  rw [h.data.size_eq]
  refine (relates_ofExcept fun _ _ => rfl).bind fun base _ hbase => ?_
  subst hbase
  refine relates_get.bind fun m m' h => ?_
  rw [h.frameBase]
  refine (relates_ofExcept fun _ _ => rfl).bind fun saved _ hsaved => ?_
  subst hsaved
  refine (relates_pushReturn (sameNumber_self_iff.mpr rfl)).bind fun _ _ _ => ?_
  exact relates_modify fun _ _ h => { h with frameBase := rfl }

/-- Frames close together, back to the same base. -/
theorem relates_popBase : Relates SameNumbers Eq popBase popBase := by
  refine relates_popReturn.bind fun a b hab => ?_
  refine (relates_check hab.toNumber_eq).bind fun base _ hbase => ?_
  subst hbase
  dsimp only
  split
  · refine relates_get.bind fun m m' h => ?_
    rw [h.data.size_eq]
    refine (relates_throw (V := Eq) _).bind fun _ _ _ => ?_
    exact relates_modify fun _ _ h => { h with frameBase := rfl }
  · exact relates_modify fun _ _ h => { h with frameBase := rfl }

/-- Data stacks are cut down to the frame base together. -/
theorem relates_popToBase : Relates SameNumbers Eq popToBase popToBase := by
  refine relates_modify fun m m' h => { h with data := ?_ }
  rw [h.frameBase, h.data.size_eq]
  exact h.data.extract _ _

/-- Global bases are set together. -/
theorem relates_setGlobal : Relates SameNumbers Eq setGlobal setGlobal :=
  relates_modify fun _ _ h => { h with globalBase := h.data.size_eq }

/-- Machines of the same numbers have each slot at the same index. -/
theorem SameNumbers.slotIndex_eq {m m' : Machine} (h : SameNumbers m m') (register : BaseRegister)
    (var : Int32) : m'.slotIndex register var = m.slotIndex register var := by
  have hbase : m'.base register = m.base register := by
    cases register with
    | global => exact h.globalBase
    | frame => exact h.frameBase
  rw [slotIndex, slotIndex, hbase, h.data.size_eq]

/-- Loads from one slot go together and give the same number. -/
theorem relates_load (register : BaseRegister) (var : Int32) :
    Relates SameNumbers SameNumber (load register var) (load register var) := by
  intro m m' h
  simp only [load, h.slotIndex_eq, h.data.size_eq]
  split
  · exact .error h
  · rename_i index _
    have hentry := h.data index
    generalize m.data[index]? = entry at hentry
    generalize m'.data[index]? = entry' at hentry
    cases hentry with
    | none => exact .error h
    | some hvalue => exact .ok hvalue h

/-- Stores of the same number to one slot go together. -/
theorem relates_store (register : BaseRegister) (var : Int32) {a b : Value} (hab : SameNumber a b) :
    Relates SameNumbers Eq (store register var a) (store register var b) := by
  intro m m' h
  have hdepth (index : Nat) : index < m'.maxDepth ↔ index < m.maxDepth := by rw [h.maxDepth]
  simp only [store, h.slotIndex_eq, h.data.size_eq, hdepth]
  split
  · exact .error h
  · split
    · exact .ok rfl { h with data := h.data.setIfInBounds _ hab }
    · split
      · exact .ok rfl { h with data := (h.data.append_zeros _).push hab }
      · rw [h.maxDepth]
        exact .error h

/-! ## Instructions -/

/-- Machines halt together. -/
theorem relates_halt : Relates SameNumbers Eq (modify fun m => { m with halted := true } : Action Unit)
    (modify fun m => { m with halted := true } : Action Unit) :=
  relates_modify fun _ _ h => { h with halted := rfl }

/-- Under a catalog without strings every instruction goes together with itself. -/
theorem relates_execute {catalog : Catalog} (hstrings : ∀ index, catalog.string? index = none)
    (operand : Int32) (op : Opcode) :
    Relates SameNumbers Eq (execute catalog operand op) (execute catalog operand op) := by
  have hnext : Relates SameNumbers Eq (pure Flow.next : Action Flow) (pure Flow.next : Action Flow) :=
    relates_pure rfl
  -- Case by case, the parts of the instruction in their order.
  cases op with
  | startCritical => exact hnext
  | criticalDone => exact hnext
  | pushD => exact (relates_push (sameNumber_self_iff.mpr rfl)).bind fun _ _ _ => hnext
  | pushString =>
    simp only [execute, hstrings]
    exact relates_throw _
  | dToA => exact relates_pop.bind fun _ _ h => (relates_pushReturn h).bind fun _ _ _ => hnext
  | aToD => exact relates_popReturn.bind fun _ _ h => (relates_push h).bind fun _ _ _ => hnext
  | pop => exact relates_pop.bind fun _ _ _ => hnext
  | swapA => exact relates_swapReturn.bind fun _ _ _ => hnext
  | pushBase => exact relates_pushBase.bind fun _ _ _ => hnext
  | popBase => exact relates_popBase.bind fun _ _ _ => hnext
  | popToBase => exact relates_popToBase.bind fun _ _ _ => hnext
  | setGlobal => exact relates_setGlobal.bind fun _ _ _ => hnext
  | store register =>
    refine relates_popInt.bind fun var _ hvar => relates_pop.bind fun a b hab => ?_
    subst hvar
    exact (relates_store register var hab).bind fun _ _ _ => hnext
  | fetch register =>
    refine relates_popInt.bind fun var _ hvar => ?_
    subst hvar
    refine (relates_load register var).bind fun a b hab => ?_
    exact (relates_push hab).bind fun _ _ _ => hnext
  | jmp =>
    refine relates_pop.bind fun a b hab => (relates_check hab.toAddress_eq).bind fun _ _ htarget => ?_
    exact relates_pure (congrArg Flow.jump htarget)
  | branch =>
    refine relates_pop.bind fun a b hcondition => relates_pop.bind fun c d htarget => ?_
    rw [hcondition.isTruthy_eq]
    split
    · exact hnext
    · refine (relates_check htarget.toAddress_eq).bind fun _ _ heq => ?_
      exact relates_pure (congrArg Flow.jump heq)
  | call =>
    refine relates_popInt.bind fun index _ hindex => ?_
    subst hindex
    split
    · exact relates_pure rfl
    · exact relates_throw _
  | popReturn =>
    refine relates_popReturn.bind fun a b hab => ?_
    refine (relates_check hab.toAddress_eq).bind fun target _ htarget => ?_
    subst htarget
    dsimp only
    split
    · exact relates_halt.bind fun _ _ _ => relates_pure rfl
    · exact relates_pure rfl
  | exitProg => exact relates_halt.bind fun _ _ _ => hnext
  | binary op =>
    refine Relates.bind (V := Eq) ?_ fun _ _ _ => hnext
    refine relates_pop.bind fun b b' hb => relates_pop.bind fun a a' ha => ?_
    rw [ha.apply_eq op hb]
    refine (relates_ofExcept (V := SameNumber) fun v hv => ?_).bind fun _ _ hv => relates_push hv
    exact sameNumber_self_iff.mpr (isString_of_apply ha.right hb.right hv)
  | negate =>
    refine relates_pop.bind fun a b hab => ?_
    obtain ⟨n, ha, hb⟩ := hab.exists_asInt?
    rw [negate_of_asInt? ha, negate_of_asInt? hb]
    exact (relates_push (sameNumber_self_iff.mpr rfl)).bind fun _ _ _ => hnext

/-- Calls with the same numbers as arguments are laid out in the same way. -/
theorem matches_enter {m m' : Machine} (hdepth : m'.maxDepth = m.maxDepth) (offset : Nat)
    {args args' : List Value} (hargs : List.Forall₂ SameNumber args args') :
    Matches Eq SameNumbers (enter offset args m) (enter offset args' m') := by
  have hlayout : Relates SameNumbers Eq
      (do
        args.reverse.forM push
        push (.int (← ofExcept (encodeIndex args.length)))
        pushReturn (.int 0)
        modify fun m => { m with pc := offset })
      (do
        args'.reverse.forM push
        push (.int (← ofExcept (encodeIndex args'.length)))
        pushReturn (.int 0)
        modify fun m => { m with pc := offset }) := by
    refine (relates_forM (V := SameNumber) (fun _ _ => relates_push) (List.rel_reverse hargs)).bind
      fun _ _ _ => ?_
    rw [hargs.length_eq]
    refine (relates_ofExcept fun _ _ => rfl).bind fun count _ hcount => ?_
    subst hcount
    refine (relates_push (sameNumber_self_iff.mpr rfl)).bind fun _ _ _ => ?_
    refine (relates_pushReturn (sameNumber_self_iff.mpr rfl)).bind fun _ _ _ => ?_
    exact relates_modify fun _ _ h => { h with pc := rfl }
  exact hlayout m.reset m'.reset
    ⟨sameEntries_empty, sameEntries_empty, rfl, rfl, rfl, rfl, hdepth⟩

end Machine

namespace Interpreter

/-- Under a catalog without strings, machines of the same numbers correspond. -/
theorem correspondence_sameNumbers {catalog : Catalog}
    (hstrings : ∀ index, catalog.string? index = none) :
    Correspondence catalog Machine.SameNumbers where
  execute operand op m m' h := (Machine.relates_execute hstrings operand op m m' h).alike fun _ _ => id
  moved _ h := { h with pc := rfl }
  woken h := { h with halted := rfl }
  pc h := h.pc
  halted h := h.halted

/-! ## Calls -/

/-- The interpreters in which a call executes its instructions, when it is followed for some steps. -/
def executingCall (fuel : Nat) (name : String) (args : List Value) (vm : Interpreter) :
    List Interpreter :=
  match vm.catalog.procedure? name with
  | none => []
  | some procedure =>
    match Machine.enter procedure.offset args vm.machine with
    | .ok _ m => executing fuel (vm.resolved name args procedure m).restart
    | .error _ _ => []

/-- The addresses of executed instructions, each with the step counter before it. -/
def course (executed : List Interpreter) : List (Nat × UInt64) :=
  executed.map fun vm => (vm.machine.pc, vm.steps)

/-- The counters agree, and so do the machines, as numbers, if a procedure of the name was found. -/
def SameNumbersAfter (found : Option Procedure) (s t : Interpreter) : Prop :=
  t.steps = s.steps ∧ (found.isSome = true → s.machine.SameNumbers t.machine)

/-- Runs whose interpreters have the same numbers at each step take the same course. -/
theorem course_eq_of_paired {catalog : Catalog} {executed executed' : List Interpreter}
    (h : List.Forall₂ (Paired catalog Machine.SameNumbers 0) executed executed') :
    course executed = course executed' := by
  induction h with
  | nil => rfl
  | cons hpair _ ih =>
    simp only [course, List.map_cons] at ih ⊢
    rw [ih, hpair.counter, hpair.machine.pc, UInt64.add_zero]

/-- Calls with the same numbers as arguments execute the same instructions and come to the same number
or the same failure. -/
theorem callWithin_of_sameNumbers {vm : Interpreter}
    (hstrings : ∀ index, vm.catalog.string? index = none) (name : String) {args args' : List Value}
    (hargs : List.Forall₂ SameNumber args args') (fuel : Nat) :
    Matches (Option.Rel SameNumber) (SameNumbersAfter (vm.catalog.procedure? name))
        (callWithin fuel name args vm) (callWithin fuel name args' vm) ∧
      course (executingCall fuel name args vm) = course (executingCall fuel name args' vm) := by
  unfold executingCall
  cases hname : vm.catalog.procedure? name with
  | none =>
    rw [callWithin_of_unknown fuel args hname, callWithin_of_unknown fuel args' hname]
    exact ⟨.error ⟨rfl, nofun⟩, rfl⟩
  | some procedure =>
    have hlayout := Machine.matches_enter (m := vm.machine) rfl procedure.offset hargs
    dsimp only
    generalize henter : Machine.enter procedure.offset args vm.machine = x at hlayout
    generalize henter' : Machine.enter procedure.offset args' vm.machine = y at hlayout
    cases hlayout with
    | error hmachine =>
      rw [callWithin_of_layout_error fuel hname henter, callWithin_of_layout_error fuel hname henter']
      exact ⟨.error ⟨rfl, fun _ => hmachine⟩, rfl⟩
    | ok _ hmachine =>
      have hM := correspondence_sameNumbers hstrings
      have hsetup : SameSetup vm vm := ⟨rfl, rfl, rfl, rfl⟩
      have hpair := hM.paired_resolved hsetup rfl hmachine name args args' procedure
      refine ⟨?_, course_eq_of_paired (hM.executing fuel hpair)⟩
      refine (hM.callWithin hsetup rfl hmachine Machine.relates_pop fuel hname henter henter').imp ?_
      intro s t hend
      exact ⟨hend.counter.trans (UInt64.add_zero _), fun _ => hend.machine⟩

/-- In programs without strings, booleans are indistinguishable from zero and one.

On machines of the same numbers a step comes to the same status or failure, on machines of the same
numbers again, and so does a run of any length, which executes its instructions in pairs at the same
addresses. Calls with the same numbers as arguments execute instructions at the same addresses under the
same counts, and give the same number or fail alike. -/
theorem booleans_indistinguishable_from_numbers (catalog : Catalog)
    (hstrings : ∀ index, catalog.string? index = none) :
    (∀ (lead : UInt64) (u v : Interpreter), Paired catalog Machine.SameNumbers lead u v →
      Alike (Paired catalog Machine.SameNumbers lead) (step u) (step v) ∧
      ∀ n, Alike (Paired catalog Machine.SameNumbers lead) (runFor n u) (runFor n v) ∧
        Alike (Paired catalog Machine.SameNumbers 0) (runWithin n u) (runWithin n v) ∧
        List.Forall₂ (Paired catalog Machine.SameNumbers lead) (executing n u) (executing n v)) ∧
    ∀ (vm : Interpreter) (name : String) (args args' : List Value), vm.catalog = catalog →
      List.Forall₂ SameNumber args args' →
      (∀ fuel,
        Matches (Option.Rel SameNumber) (SameNumbersAfter (catalog.procedure? name))
          (callWithin fuel name args vm) (callWithin fuel name args' vm) ∧
        course (executingCall fuel name args vm) = course (executingCall fuel name args' vm)) ∧
      Matches (Option.Rel SameNumber) (SameNumbersAfter (catalog.procedure? name))
        (call name args vm) (call name args' vm) := by
  have hM := correspondence_sameNumbers hstrings
  constructor
  · intro lead u v hpair
    refine ⟨hM.step hpair, fun n => ⟨hM.runFor n hpair, ?_, hM.executing n hpair⟩⟩
    exact hM.runFor n (hM.restart hpair)
  · intro vm name args args' hcatalog hargs
    subst hcatalog
    have hcalls := callWithin_of_sameNumbers hstrings name hargs
    exact ⟨hcalls, (hcalls vm.config.stepBudget).1⟩

/-- A script with one procedure, which adds one to its argument. -/
def successorScript : Interpreter :=
  ofCode #[0x1A, 0x80, 0x01, 0xC0, 1, 0, 0, 0, 0x39, 0x80, 0x10, 0x80]
    (Catalog.empty.withProcedure "next" 0) .standard

/-- That script with one value on the data stack, before the sum is made. -/
def successorOf (value : Value) : Interpreter :=
  { successorScript with machine := { successorScript.machine with data := #[value], pc := 2 } }

/-- The successor of `true` is that of one. -/
theorem booleans_indistinguishable_from_numbers_successor :
    (∀ index, successorScript.catalog.string? index = none) ∧
      Paired successorScript.catalog Machine.SameNumbers 0 (successorOf (.bool true))
        (successorOf (.int 1)) ∧
      Alike (Paired successorScript.catalog Machine.SameNumbers 0)
        (runFor 3 (successorOf (.bool true))) (runFor 3 (successorOf (.int 1))) ∧
      List.Forall₂ SameNumber [.bool true] [.int 1] ∧
      answer (callWithin 4 "next" [.int 1] successorScript) = .ok (some (.int 2)) ∧
      Matches (Option.Rel SameNumber)
        (SameNumbersAfter (successorScript.catalog.procedure? "next"))
        (callWithin 4 "next" [.bool true] successorScript)
        (callWithin 4 "next" [.int 1] successorScript) := by
  have hstrings : ∀ index, successorScript.catalog.string? index = none := by
    simp [successorScript, ofCode, Catalog.string?, Catalog.empty]
  have hone : SameNumber (.bool true) (.int 1) := ⟨rfl, rfl, rfl⟩
  have hargs : List.Forall₂ SameNumber [.bool true] [.int 1] := .cons hone .nil
  have hpair : Paired successorScript.catalog Machine.SameNumbers 0 (successorOf (.bool true))
      (successorOf (.int 1)) := {
    bytes := rfl
    left := rfl
    right := rfl
    machine := ⟨sameEntries_empty.push hone, sameEntries_empty, rfl, rfl, rfl, rfl, rfl⟩
    limit := rfl
    counter := rfl
    unlimited := .inl rfl }
  have hname : successorScript.catalog.procedure? "next" = some ⟨"next", 0⟩ := by
    simp [successorScript, ofCode, Catalog.procedure?, Catalog.empty]
  have hanswer : answer (callWithin 4 "next" [.int 1] successorScript) = .ok (some (.int 2)) := by
    rw [callWithin_of_layout 4 hname rfl]
    decide +kernel
  obtain ⟨hruns, hcalls⟩ := booleans_indistinguishable_from_numbers _ hstrings
  exact ⟨hstrings, hpair, ((hruns 0 _ _ hpair).2 3).1, hargs, hanswer,
    ((hcalls successorScript "next" _ _ rfl hargs).1 4).1⟩

end Interpreter

end ScriptMachine
