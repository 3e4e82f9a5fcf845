import Mathlib.Data.List.Forall2
import ScriptMachine.Proofs.Runs

/-!
# Runs that go together

Two results are `Alike` when they have the same value or the same failure, in related states. With
`Matches` the values, too, are only related; actions that take related states to matching results go
together, `Relates`, and so do sequences of them. A relation that every step takes from related
interpreters to alike results is kept by whole runs (`runFor_alike`), and the runs then execute their
instructions in pairs (`forall₂_executing`).

A step depends on the interpreter through its code, its catalog, its step limit and its machine. So a
relation between machines that instructions keep, a `Correspondence`, gives such a relation between
interpreters, `Paired`. With equal machines this is `SameCourse`: the cursor, the log and the reporting
of instructions have no influence on a step, and neither has the step counter when there is no step
limit.
-/

namespace ScriptMachine

section Alike

variable {ε σ τ υ α β : Type} {R : σ → τ → Prop}

/-- The same value or the same failure, in related states. -/
inductive Alike (R : σ → τ → Prop) : EStateM.Result ε σ α → EStateM.Result ε τ α → Prop
  | ok {a : α} {s : σ} {t : τ} (h : R s t) : Alike R (.ok a s) (.ok a t)
  | error {e : ε} {s : σ} {t : τ} (h : R s t) : Alike R (.error e s) (.error e t)

/-- What related states have in common, alike results have in common. -/
theorem Alike.mapState_eq {f : σ → υ} {g : τ → υ} {x : EStateM.Result ε σ α}
    {y : EStateM.Result ε τ α} (h : Alike R x y) (hview : ∀ s t, R s t → f s = g t) :
    mapState f x = mapState g y := by
  cases h with
  | ok hst => exact congrArg (EStateM.Result.ok _) (hview _ _ hst)
  | error hst => exact congrArg (EStateM.Result.error _) (hview _ _ hst)

/-- Alike results are alike in what the relation of their states implies. -/
theorem Alike.imp {S : σ → τ → Prop} {x : EStateM.Result ε σ α} {y : EStateM.Result ε τ α}
    (h : Alike R x y) (himp : ∀ s t, R s t → S s t) : Alike S x y := by
  cases h with
  | ok hst => exact .ok (himp _ _ hst)
  | error hst => exact .error (himp _ _ hst)

/-- Alike results end in related states. -/
theorem Alike.finalState {x : EStateM.Result ε σ α} {y : EStateM.Result ε τ α} (h : Alike R x y) :
    R (finalState x) (finalState y) := by
  cases h with
  | ok hst => exact hst
  | error hst => exact hst

/-- Related values or the same failure, in related states. -/
inductive Matches (V : α → β → Prop) (R : σ → τ → Prop) :
    EStateM.Result ε σ α → EStateM.Result ε τ β → Prop
  | ok {a : α} {b : β} {s : σ} {t : τ} (hvalue : V a b) (h : R s t) : Matches V R (.ok a s) (.ok b t)
  | error {e : ε} {s : σ} {t : τ} (h : R s t) : Matches V R (.error e s) (.error e t)

/-- Matching results match in what the relation of their states implies. -/
theorem Matches.imp {V : α → β → Prop} {S : σ → τ → Prop} {x : EStateM.Result ε σ α}
    {y : EStateM.Result ε τ β} (h : Matches V R x y) (himp : ∀ s t, R s t → S s t) :
    Matches V S x y := by
  cases h with
  | ok hvalue hst => exact .ok hvalue (himp _ _ hst)
  | error hst => exact .error (himp _ _ hst)

/-- Matching results are alike when related values are equal. -/
theorem Matches.alike {V : α → α → Prop} {x : EStateM.Result ε σ α} {y : EStateM.Result ε τ α}
    (h : Matches V R x y) (hequal : ∀ a b, V a b → a = b) : Alike R x y := by
  cases h with
  | ok hvalue hst =>
    rw [hequal _ _ hvalue]
    exact .ok hst
  | error hst => exact .error hst

end Alike

/-! ## Actions that go together -/

section Relates

variable {ε σ τ α β γ δ : Type} {R : σ → τ → Prop} {V : α → β → Prop} {W : γ → δ → Prop}

/-- From related states the actions come to related values or to the same failure, in related states. -/
def Relates (R : σ → τ → Prop) (V : α → β → Prop) (x : EStateM ε σ α) (y : EStateM ε τ β) : Prop :=
  ∀ s t, R s t → Matches V R (x s) (y t)

/-- To return related values goes together. -/
theorem relates_pure {a : α} {b : β} (h : V a b) :
    Relates R V (pure a : EStateM ε σ α) (pure b : EStateM ε τ β) :=
  fun _ _ hst => .ok h hst

/-- To fail in the same way goes together. -/
theorem relates_throw (e : ε) : Relates R V (throw e : EStateM ε σ α) (throw e : EStateM ε τ β) :=
  fun _ _ hst => .error hst

/-- A checked conversion goes together with itself where its result is related to itself. -/
theorem relates_ofExcept {V : α → α → Prop} {e : Except ε α} (h : ∀ a, e = .ok a → V a a) :
    Relates R V (ofExcept e : EStateM ε σ α) (ofExcept e : EStateM ε τ α) := by
  cases e with
  | error fault => exact relates_throw fault
  | ok a => exact relates_pure (h a rfl)

/-- To look at the states goes together, and the states are related. -/
theorem relates_get : Relates R R (get : EStateM ε σ σ) (get : EStateM ε τ τ) :=
  fun _ _ hst => .ok hst hst

/-- Updates go together if they keep states related. -/
theorem relates_modify {f : σ → σ} {g : τ → τ} (h : ∀ s t, R s t → R (f s) (g t)) :
    Relates R Eq (modify f : EStateM ε σ PUnit) (modify g : EStateM ε τ PUnit) :=
  fun s t hst => .ok rfl (h s t hst)

/-- Sequences go together when their parts do. -/
theorem Relates.bind {x : EStateM ε σ α} {y : EStateM ε τ β} {f : α → EStateM ε σ γ}
    {g : β → EStateM ε τ δ} (hx : Relates R V x y) (hf : ∀ a b, V a b → Relates R W (f a) (g b)) :
    Relates R W (x >>= f) (y >>= g) := by
  intro s t hst
  have hfirst := hx s t hst
  cases hs : x s with
  | error e s' =>
    cases ht : y t with
    | error e' t' =>
      rw [hs, ht] at hfirst
      rw [bind_of_error hs, bind_of_error ht]
      cases hfirst with
      | error hst' => exact .error hst'
    | ok b t' =>
      rw [hs, ht] at hfirst
      cases hfirst
  | ok a s' =>
    cases ht : y t with
    | error e' t' =>
      rw [hs, ht] at hfirst
      cases hfirst
    | ok b t' =>
      rw [hs, ht] at hfirst
      rw [bind_of_ok hs, bind_of_ok ht]
      cases hfirst with
      | ok hvalue hst' => exact hf a b hvalue s' t' hst'

/-- Loops over related lists go together when their bodies do. -/
theorem relates_forM {f : α → EStateM ε σ PUnit} {g : β → EStateM ε τ PUnit} {as : List α}
    {bs : List β} (hbody : ∀ a b, V a b → Relates R Eq (f a) (g b)) (h : List.Forall₂ V as bs) :
    Relates R Eq (as.forM f) (bs.forM g) := by
  induction h with
  | nil => exact relates_pure rfl
  | cons hab _ ih => exact (hbody _ _ hab).bind fun _ _ _ => ih

end Relates

/-- Alike runs end together. -/
theorem Alike.ended_iff {R : Interpreter → Interpreter → Prop}
    {x y : EStateM.Result Failure Interpreter Outcome} (h : Alike R x y) :
    Interpreter.Ended x ↔ Interpreter.Ended y := by
  cases h with
  | @ok outcome u v _ => cases outcome <;> exact Iff.rfl
  | error _ => exact Iff.rfl

namespace Interpreter

/-! ## From steps to runs -/

section Runs

variable {R : Interpreter → Interpreter → Prop}
  (hstep : ∀ u v, R u v → Alike R (step u) (step v))

include hstep

/-- What every step takes from related interpreters to alike results, a run does. -/
theorem runFor_alike (n : Nat) {u v : Interpreter} (h : R u v) :
    Alike R (runFor n u) (runFor n v) := by
  induction n generalizing u v with
  | zero => exact .ok h
  | succ n ih =>
    have hfirst := hstep u v h
    simp only [runFor]
    generalize step u = x at hfirst ⊢
    generalize step v = y at hfirst ⊢
    cases hfirst with
    | error hst => exact .error hst
    | @ok status u' v' hst =>
      cases status with
      | running => exact ih hst
      | halted => exact .ok hst
      | stopped stop => exact .ok hst

/-- Runs that go together execute their instructions in pairs. -/
theorem forall₂_executing (hnext : ∀ u v, R u v → u.next? = v.next?) (n : Nat) {u v : Interpreter}
    (h : R u v) : List.Forall₂ R (executing n u) (executing n v) := by
  induction n generalizing u v with
  | zero => exact .nil
  | succ n ih =>
    have hfirst := hstep u v h
    simp only [executing, hnext u v h]
    split
    · refine .cons h ?_
      generalize step u = x at hfirst ⊢
      generalize step v = y at hfirst ⊢
      cases hfirst with
      | error hst => exact .nil
      | @ok status u' v' hst =>
        cases status with
        | running => exact ih hst
        | halted => exact .nil
        | stopped stop => exact .nil
    · exact .nil

end Runs

/-! ## Machines that correspond -/

/-- A relation between machines that instructions keep under the given catalog. Related machines stand
at the same address, and both are halted or neither is. -/
structure Correspondence (catalog : Catalog) (M : Machine → Machine → Prop) : Prop where
  execute (operand : Int32) (op : Opcode) {m m' : Machine} (h : M m m') :
    Alike M (Machine.execute catalog operand op m) (Machine.execute catalog operand op m')
  moved {m m' : Machine} (pc : Nat) (h : M m m') : M { m with pc := pc } { m' with pc := pc }
  woken {m m' : Machine} (h : M m m') : M { m with halted := false } { m' with halted := false }
  pc {m m' : Machine} (h : M m m') : m'.pc = m.pc
  halted {m m' : Machine} (h : M m m') : m'.halted = m.halted

/-- Two interpreters of the same code on related machines. The counter of the second is ahead of that
of the first; unless they agree, there must be no step limit. -/
structure Paired (catalog : Catalog) (M : Machine → Machine → Prop) (lead : UInt64)
    (u v : Interpreter) : Prop where
  bytes : v.script.bytes = u.script.bytes
  left : u.catalog = catalog
  right : v.catalog = catalog
  machine : M u.machine v.machine
  limit : v.config.maxSteps = u.config.maxSteps
  counter : v.steps = u.steps + lead
  unlimited : lead = 0 ∨ u.config.maxSteps = none

section Paired

variable {catalog : Catalog} {M : Machine → Machine → Prop} {lead : UInt64} {u v : Interpreter}

/-- The step limit allows both interpreters one more instruction or neither. -/
theorem Paired.withinLimit_eq (h : Paired catalog M lead u v) : v.withinLimit = u.withinLimit := by
  unfold withinLimit
  rw [h.limit]
  obtain hlead | hnone := h.unlimited
  · rw [h.counter, hlead, UInt64.add_zero]
  · rw [hnone]
    rfl

/-- Counting an instruction keeps the lead. -/
theorem Paired.counter_succ (h : Paired catalog M lead u v) : v.steps + 1 = u.steps + 1 + lead := by
  rw [h.counter, UInt64.add_assoc, UInt64.add_comm lead 1, UInt64.add_assoc]

variable (hM : Correspondence catalog M)

include hM

/-- The same instruction is pending in both interpreters. -/
theorem Correspondence.pending?_eq (h : Paired catalog M lead u v) : v.pending? = u.pending? := by
  simp only [pending?, h.bytes, hM.pc h.machine, hM.halted h.machine]

/-- Both interpreters execute the same instruction next. -/
theorem Correspondence.next?_eq (h : Paired catalog M lead u v) : v.next? = u.next? := by
  simp only [next?, h.withinLimit_eq, hM.pending?_eq h]

/-- Steps from corresponding machines come to the same, on corresponding machines. -/
theorem Correspondence.step (h : Paired catalog M lead u v) :
    Alike (Paired catalog M lead) (Interpreter.step u) (Interpreter.step v) := by
  have hpc := hM.pc h.machine
  have hhalted := hM.halted h.machine
  have hnext {op : Opcode} (hop : u.next? = some op) : v.next? = some op := (hM.next?_eq h).trans hop
  have hstep := stepsTo_step u
  generalize Interpreter.step u = x at hstep ⊢
  cases hstep with
  | halted hself =>
    rw [← hhalted] at hself
    rw [(StepsTo.halted hself).eq_step]
    exact .ok h
  | unreadable hrunning hword =>
    rw [← h.bytes, ← hpc] at hword
    rw [← hhalted] at hrunning
    rw [(StepsTo.unreadable hrunning hword).eq_step]
    exact .error { h with }
  | undecodable hrunning hword hop =>
    rw [← h.bytes, ← hpc] at hword
    rw [← hhalted] at hrunning
    rw [← hpc, (StepsTo.undecodable hrunning hword hop).eq_step]
    exact .ok { h with }
  | refused hop hlimit hspent =>
    have hsame : v.steps = u.steps := by
      obtain hlead | hnone := h.unlimited
      · rw [h.counter, hlead, UInt64.add_zero]
      · rw [hnone] at hlimit
        cases hlimit
    rw [← hM.pending?_eq h] at hop
    rw [← h.limit] at hlimit
    rw [← hsame] at hspent
    rw [← hpc, (StepsTo.refused hop hlimit hspent).eq_step]
    exact .error { h with }
  | truncated hop hoperand =>
    rw [← h.bytes, ← hpc] at hoperand
    rw [← hpc, (StepsTo.truncated (hnext hop) hoperand).eq_step]
    exact .error { h with counter := h.counter_succ }
  | @failed op operand fault m hop hoperand hexecute =>
    have hboth := hM.execute operand op h.machine
    rw [h.left] at hexecute
    rw [hexecute, ← h.right] at hboth
    rw [← h.bytes, ← hpc] at hoperand
    generalize hexecute' : Machine.execute v.catalog operand op v.machine = y at hboth
    cases hboth with
    | error hmachine =>
      rw [← hpc, (StepsTo.failed (hnext hop) hoperand hexecute').eq_step]
      exact .error { h with machine := hmachine, counter := h.counter_succ }
  | @executed op operand flow m hop hoperand hexecute =>
    have hboth := hM.execute operand op h.machine
    rw [h.left] at hexecute
    rw [hexecute, ← h.right] at hboth
    rw [← h.bytes, ← hpc] at hoperand
    generalize hexecute' : Machine.execute v.catalog operand op v.machine = y at hboth
    cases hboth with
    | @ok _ _ m' hmachine =>
      have hstatus : (if m'.halted then Status.halted else .running) =
          if m.halted then .halted else .running := by rw [hM.halted hmachine]
      rw [← hpc, (StepsTo.executed (hnext hop) hoperand hexecute').eq_step, hstatus]
      exact .ok { h with machine := hM.moved _ hmachine, counter := h.counter_succ }

/-- Runs from corresponding machines come to the same, on corresponding machines. -/
theorem Correspondence.runFor (n : Nat) (h : Paired catalog M lead u v) :
    Alike (Paired catalog M lead) (Interpreter.runFor n u) (Interpreter.runFor n v) :=
  runFor_alike (fun _ _ => hM.step) n h

/-- A run that starts anew starts counting anew. -/
theorem Correspondence.restart (h : Paired catalog M lead u v) :
    Paired catalog M 0 u.restart v.restart :=
  { h with machine := hM.woken h.machine, counter := rfl, unlimited := .inl rfl }

/-- Runs from corresponding machines execute their instructions in pairs. -/
theorem Correspondence.executing (n : Nat) (h : Paired catalog M lead u v) :
    List.Forall₂ (Paired catalog M lead) (executing n u) (executing n v) :=
  forall₂_executing (fun _ _ => hM.step) (fun _ _ hpair => (hM.next?_eq hpair).symm) n h

end Paired

/-! ## What has no influence on a run -/

/-- Every machine corresponds to itself. -/
theorem correspondence_eq (catalog : Catalog) : Correspondence catalog Eq where
  execute operand op m m' h := by
    subst h
    cases Machine.execute catalog operand op m with
    | ok flow m' => exact .ok rfl
    | error fault m' => exact .error rfl
  moved _ h := by rw [h]
  woken h := by rw [h]
  pc h := by rw [h]
  halted h := by rw [h]

/-- Two interpreters that agree in all that a step depends on. The counter of the second is ahead of
that of the first; unless they agree, there must be no step limit. -/
structure SameCourse (lead : UInt64) (u v : Interpreter) : Prop where
  bytes : v.script.bytes = u.script.bytes
  catalog : v.catalog = u.catalog
  machine : v.machine = u.machine
  limit : v.config.maxSteps = u.config.maxSteps
  counter : v.steps = u.steps + lead
  unlimited : lead = 0 ∨ u.config.maxSteps = none

variable {lead : UInt64} {u v : Interpreter}

/-- Interpreters on the same course are a pair on equal machines. -/
theorem sameCourse_iff_paired {catalog : Catalog} (hcatalog : u.catalog = catalog) :
    SameCourse lead u v ↔ Paired catalog Eq lead u v := by
  constructor
  · intro h
    exact { h with left := hcatalog, right := h.catalog.trans hcatalog, machine := h.machine.symm }
  · intro h
    exact { h with catalog := h.right.trans h.left.symm, machine := h.machine.symm }

/-- Runs on the same course come to the same and stay on it. -/
theorem SameCourse.runFor (n : Nat) (h : SameCourse lead u v) :
    Alike (SameCourse lead) (Interpreter.runFor n u) (Interpreter.runFor n v) := by
  have hruns := (correspondence_eq u.catalog).runFor n ((sameCourse_iff_paired rfl).mp h)
  exact hruns.imp fun s t hst => (sameCourse_iff_paired hst.left).mpr hst

/-- Runs on the same course execute equally many instructions. -/
theorem SameCourse.length_executing (n : Nat) (h : SameCourse lead u v) :
    (executing n u).length = (executing n v).length :=
  ((correspondence_eq u.catalog).executing n ((sameCourse_iff_paired rfl).mp h)).length_eq

end Interpreter

end ScriptMachine
