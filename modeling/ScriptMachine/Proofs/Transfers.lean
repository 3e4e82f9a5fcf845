import Mathlib.Data.List.Perm.Basic
import ScriptMachine.Proofs.Effects
import ScriptMachine.Proofs.Runs

/-!
# Transfers between the stacks

Laid end to end, the data stack from the bottom up and then the return stack from the top down, the entries of
a machine form one row. Moving a value from one stack to the other moves the border between the two parts
and leaves the row alone. An exchange on the return stack swaps the two entries next to the border.

So transfers neither lose nor duplicate a value, whatever its kind and however many transfers are made
(`transfers_keep_entries`). If nothing is exchanged and the border comes back to its place, both stacks are
what they were.
-/

namespace ScriptMachine

namespace Opcode

/-- Whether an opcode moves entries between the stacks or on the return stack, or does nothing. -/
def transfers : Opcode → Bool
  | dToA | aToD | swapA | startCritical | criticalDone => true
  | _ => false

end Opcode

namespace Machine

/-- All entries in one row: the data stack from the bottom up, then the return stack from the top down. -/
def entries (m : Machine) : List Value :=
  m.data.toList ++ m.ret.toList.reverse

/-- What transfers have made of a machine. -/
structure Moved (ops : List Opcode) (m m' : Machine) : Prop where
  globalBase : m'.globalBase = m.globalBase
  frameBase : m'.frameBase = m.frameBase
  halted : m'.halted = m.halted
  /-- No entry is lost or duplicated. -/
  perm : m'.entries.Perm m.entries
  /-- The row stays as it is when nothing is exchanged. -/
  row (hops : .swapA ∉ ops) : m'.entries = m.entries
  /-- Where the data stack ends in the row. -/
  border : m'.data.size + ops.count .dToA = m.data.size + ops.count .aToD

/-- The two entries of the row after the data stack are exchanged, and nothing else. -/
def Exchanged (m m' : Machine) : Prop :=
  ∃ first second rest, m.entries = m.data.toList ++ first :: second :: rest ∧
    m'.entries = m.data.toList ++ second :: first :: rest ∧ m'.data = m.data

/-! ## One transfer -/

section Effect

variable {catalog : Catalog} {operand : Int32} {m m' : Machine} {op : Opcode} {flow : Flow}

/-- The exchange instruction exchanges the two entries after the data stack. -/
theorem Effect.exchanged (h : Effect catalog operand m .swapA flow m') : Exchanged m m' := by
  cases h with
  | @swapA below first second hret =>
    refine ⟨second, first, below.toList.reverse, ?_, ?_, rfl⟩
    · simp [entries, hret]
    · simp [entries]

/-- An exchange neither loses nor duplicates an entry. -/
theorem Exchanged.perm (h : Exchanged m m') : m'.entries.Perm m.entries := by
  obtain ⟨first, second, rest, hbefore, hafter, -⟩ := h
  rw [hbefore, hafter]
  exact (List.Perm.swap first second rest).append_left m.data.toList

/-- Each transfer moves the border, exchanges the entries next to it, or does nothing. -/
theorem Effect.moved (h : Effect catalog operand m op flow m') (hop : op.transfers = true) :
    Moved [op] m m' := by
  have hexchanged : op = .swapA → Exchanged m m' := fun hswap => Effect.exchanged (hswap ▸ h)
  cases h with
  | startCritical => exact ⟨rfl, rfl, rfl, .refl _, fun _ => rfl, rfl⟩
  | criticalDone => exact ⟨rfl, rfl, rfl, .refl _, fun _ => rfl, rfl⟩
  | @dToA below value hdata =>
    have hrow : entries { m with data := below, ret := m.ret.push value } = m.entries := by
      simp [entries, hdata]
    exact ⟨rfl, rfl, rfl, .of_eq hrow, fun _ => hrow, by simp [hdata]⟩
  | @aToD below value hret =>
    have hrow : entries { m with data := m.data.push value, ret := below } = m.entries := by
      simp [entries, hret]
    exact ⟨rfl, rfl, rfl, .of_eq hrow, fun _ => hrow, by simp⟩
  | swapA => exact ⟨rfl, rfl, rfl, (hexchanged rfl).perm, fun hops => absurd (by simp) hops, rfl⟩
  | _ => cases hop

end Effect

/-! ## Sequences of transfers -/

section Moved

variable {m m' m'' : Machine} {first second : List Opcode}

/-- Without transfers nothing is moved. -/
theorem moved_nil (m : Machine) : Moved [] m m :=
  ⟨rfl, rfl, rfl, .refl _, fun _ => rfl, rfl⟩

/-- Transfers may be made in two parts. -/
theorem Moved.append (hfirst : Moved first m m') (hsecond : Moved second m' m'') :
    Moved (first ++ second) m m'' where
  globalBase := hsecond.globalBase.trans hfirst.globalBase
  frameBase := hsecond.frameBase.trans hfirst.frameBase
  halted := hsecond.halted.trans hfirst.halted
  perm := hsecond.perm.trans hfirst.perm
  row := by
    intro hops
    rw [List.mem_append, not_or] at hops
    exact (hsecond.row hops.2).trans (hfirst.row hops.1)
  border := by
    have hborder := hfirst.border
    have hborder' := hsecond.border
    simp only [List.count_append]
    omega

/-- A row that is cut at the same place gives the same stacks. -/
theorem stacks_eq_of_entries_eq (hrow : m'.entries = m.entries) (hborder : m'.data.size = m.data.size) :
    m'.data = m.data ∧ m'.ret = m.ret := by
  obtain ⟨hdata, hret⟩ := List.append_inj hrow (by simpa using hborder)
  exact ⟨Array.toList_inj.mp hdata, Array.toList_inj.mp (List.reverse_injective hret)⟩

end Moved

end Machine

namespace Interpreter

open Machine

variable {vm u : Interpreter} {ops : List Opcode}

/-- One transfer moves what it says. -/
theorem moved_of_executes_singleton {op : Opcode} (hop : op.transfers = true)
    (h : Executes vm [op] u) : Moved [op] vm.machine u.machine := by
  obtain ⟨operand, flow, m, hexecute, hu⟩ := exists_execute_of_executes h
  rw [hu]
  exact { (effect_of_execute hexecute).moved hop with }

/-- A step that executes the exchange instruction exchanges. -/
theorem exchanged_of_executes (h : Executes vm [.swapA] u) : Exchanged vm.machine u.machine := by
  obtain ⟨operand, flow, m, hexecute, hu⟩ := exists_execute_of_executes h
  rw [hu]
  exact (effect_of_execute hexecute).exchanged

/-- What each transfer keeps, any number of them keeps. -/
theorem moved_of_executes (hops : ∀ op ∈ ops, op.transfers = true) (h : Executes vm ops u) :
    Moved ops vm.machine u.machine := by
  induction ops generalizing vm with
  | nil =>
    cases h
    exact moved_nil _
  | cons op ops ih =>
    rw [List.forall_mem_cons] at hops
    obtain ⟨mid, hfirst, hrest⟩ := executes_append_iff.mp (List.singleton_append ▸ h)
    exact (moved_of_executes_singleton hops.1 hfirst).append (ih hops.2 hrest)

/-- Transfers between the stacks neither lose nor duplicate values.

Take any sequence of successful instructions that move values between the stacks, exchange the top of the
return stack, or do nothing. Each of them but an exchange leaves the row of all entries as it is, and an
exchange swaps the two entries of the row that come after the data stack. The entries at the end are those
at the beginning in some order, and the bases and the halted flag are the same. Without an exchange the
row is the same, and if as many values are moved one way as the other, so are both stacks. -/
theorem transfers_keep_entries (hops : ∀ op ∈ ops, op.transfers = true) (h : Executes vm ops u) :
    (∀ before op after, ops = before ++ op :: after →
      ∃ mid next, Executes vm before mid ∧ Executes mid [op] next ∧ Executes next after u ∧
        (op ≠ .swapA → next.machine.entries = mid.machine.entries) ∧
        (op = .swapA → Exchanged mid.machine next.machine)) ∧
    u.machine.entries.Perm vm.machine.entries ∧
    u.machine.globalBase = vm.machine.globalBase ∧ u.machine.frameBase = vm.machine.frameBase ∧
    u.machine.halted = vm.machine.halted ∧
    (.swapA ∉ ops → u.machine.entries = vm.machine.entries ∧
      (ops.count .dToA = ops.count .aToD →
        u.machine.data = vm.machine.data ∧ u.machine.ret = vm.machine.ret)) := by
  have hmoved := moved_of_executes hops h
  refine ⟨?_, hmoved.perm, hmoved.globalBase, hmoved.frameBase, hmoved.halted, fun hswap => ?_⟩
  · rintro before op after rfl
    obtain ⟨mid, hbefore, hrest⟩ := executes_append_iff.mp h
    obtain ⟨next, hop, hafter⟩ := executes_append_iff.mp (List.singleton_append ▸ hrest)
    have hmoved := moved_of_executes_singleton (hops op (by simp)) hop
    refine ⟨mid, next, hbefore, hop, hafter, fun hne => hmoved.row (by simpa using hne.symm), ?_⟩
    rintro rfl
    exact exchanged_of_executes hop
  · refine ⟨hmoved.row hswap, fun hcount => ?_⟩
    have hborder := hmoved.border
    rw [hcount] at hborder
    exact stacks_eq_of_entries_eq (hmoved.row hswap) (Nat.add_right_cancel hborder)

/-- A machine with values of every kind whose code moves one of them there and back, then moves two and
exchanges them, after a number of its instructions. -/
def shuffling (executed : Nat) (data ret : Array Value) : Interpreter where
  script := ⟨#[0x0D, 0x80, 0x0C, 0x80, 0x0D, 0x80, 0x0D, 0x80, 0x19, 0x80], 2 * executed⟩
  catalog := .empty
  machine := { data := data, ret := ret, pc := 2 * executed, frameBase := 1, maxDepth := 3 }
  config := .standard
  steps := UInt64.ofNat executed

/-- The first two instructions restore both stacks. After all five, the entries are the same ones, and the
two that were moved have changed places in the row. -/
theorem transfers_keep_entries_shuffling :
    (∃ u, Executes (shuffling 0 #[.int 3, .bool true, .string "x"] #[.int 0]) [.dToA, .aToD] u ∧
      u.machine.data = #[.int 3, .bool true, .string "x"] ∧ u.machine.ret = #[.int 0]) ∧
    ∃ u, Executes (shuffling 0 #[.int 3, .bool true, .string "x"] #[.int 0])
        [.dToA, .aToD, .dToA, .dToA, .swapA] u ∧
      u.machine.entries = [.int 3, .string "x", .bool true, .int 0] ∧
      u.machine.entries.Perm [.int 3, .bool true, .string "x", .int 0] := by
  have hthere : step (shuffling 0 #[.int 3, .bool true, .string "x"] #[.int 0]) =
      .ok .running (shuffling 1 #[.int 3, .bool true] #[.int 0, .string "x"]) := rfl
  have hback : step (shuffling 1 #[.int 3, .bool true] #[.int 0, .string "x"]) =
      .ok .running (shuffling 2 #[.int 3, .bool true, .string "x"] #[.int 0]) := rfl
  have hagain : step (shuffling 2 #[.int 3, .bool true, .string "x"] #[.int 0]) =
      .ok .running (shuffling 3 #[.int 3, .bool true] #[.int 0, .string "x"]) := rfl
  have hsecond : step (shuffling 3 #[.int 3, .bool true] #[.int 0, .string "x"]) =
      .ok .running (shuffling 4 #[.int 3] #[.int 0, .string "x", .bool true]) := rfl
  have hswap : step (shuffling 4 #[.int 3] #[.int 0, .string "x", .bool true]) =
      .ok .running (shuffling 5 #[.int 3] #[.int 0, .bool true, .string "x"]) := rfl
  have hfirst : Executes (shuffling 0 #[.int 3, .bool true, .string "x"] #[.int 0]) [.dToA, .aToD]
      (shuffling 2 #[.int 3, .bool true, .string "x"] #[.int 0]) :=
    .cons (by decide +kernel) hthere (.cons (by decide +kernel) hback (.nil _))
  have hrest : Executes (shuffling 2 #[.int 3, .bool true, .string "x"] #[.int 0])
      [.dToA, .dToA, .swapA] (shuffling 5 #[.int 3] #[.int 0, .bool true, .string "x"]) :=
    .cons (by decide +kernel) hagain
      (.cons (by decide +kernel) hsecond (.cons (by decide +kernel) hswap (.nil _)))
  have hall := executes_append_iff.mpr ⟨_, hfirst, hrest⟩
  obtain ⟨-, -, -, -, -, hrestored⟩ := transfers_keep_entries (by decide) hfirst
  obtain ⟨-, hperm, -⟩ := transfers_keep_entries (by decide) hall
  exact ⟨⟨_, hfirst, (hrestored (by decide)).2 rfl⟩, _, hall, rfl, hperm⟩

end Interpreter

end ScriptMachine
