import ScriptMachine.Proofs.AssemblySessions
import ScriptMachine.Proofs.Calls
import ScriptMachine.Proofs.ListedRuns
import ScriptMachine.Proofs.StepLimit

/-!
# Code for expressions

An expression over literals and strings has a value, computed by the operators alone
(`Expression.eval`), and code, in which each operation stands after its operands
(`Expression.assemble`). Calling the code gives the value, and when an operation fails, the failure
of the first one that does, at its own instruction: `expression_code_computes_value`.

The run is followed node by node. `Reached` says that the operations of some nodes have put their
values on the data stack and left what was there before. One more node is one more instruction
(`Reached.computes`), and whole expressions follow by induction (`computes_expression`).
-/

namespace ScriptMachine

open Assembler Instruction

/-- Expressions over literals and the strings of a script. -/
inductive Expression where
  | int (n : Int32)
  | string (index : Int32)
  | negate (operand : Expression)
  | binary (op : BinaryOp) (left right : Expression)
  deriving DecidableEq

/-- The fault of a computation that fails. -/
def fault? {α : Type} : Except Fault α → Option Fault
  | .ok _ => none
  | .error fault => some fault

namespace Expression

/-! ## Values -/

/-- The value of an expression. Operands are evaluated from left to right. -/
def eval (catalog : Catalog) : Expression → Except Fault Value
  | int n => .ok (.int n)
  | string index =>
    match catalog.string? index with
    | some text => .ok (.string text)
    | none => .error (.unknownString index)
  | negate operand => do (← operand.eval catalog).negate
  | binary op left right => do
    let a ← left.eval catalog
    let b ← right.eval catalog
    op.apply a b

/-- The nodes of an expression in postfix order: each stands for the expression of which it is the
root, after its operands. -/
def postorder : Expression → List Expression
  | int n => [int n]
  | string index => [string index]
  | negate operand => operand.postorder ++ [negate operand]
  | binary op left right => left.postorder ++ right.postorder ++ [binary op left right]

/-- The fault of the operation at the root, when the operands have values on which it fails. -/
def rootFault? (catalog : Catalog) : Expression → Option Fault
  | int _ => none
  | string index => fault? (eval catalog (string index))
  | negate operand =>
    match operand.eval catalog with
    | .ok a => fault? a.negate
    | .error _ => none
  | binary op left right =>
    match left.eval catalog, right.eval catalog with
    | .ok a, .ok b => fault? (op.apply a b)
    | _, _ => none

/-! ## Code -/

/-- The opcode of the operation at the root. -/
def opcode : Expression → Opcode
  | int _ => .pushD
  | string _ => .pushString
  | negate _ => .negate
  | binary op _ _ => .binary op

/-- The immediate of that operation. -/
def immediate : Expression → Option Int32
  | int n => some n
  | string index => some index
  | _ => none

/-- How many entries the code of an expression needs on the data stack. -/
def depth : Expression → Nat
  | int _ => 1
  | string _ => 1
  | negate operand => operand.depth
  | binary _ left right => max left.depth (right.depth + 1)

/-- Every expression takes at least the room for its own value. -/
theorem one_le_depth (e : Expression) : 1 ≤ e.depth := by
  induction e with
  | int n => exact Nat.le_refl 1
  | string index => exact Nat.le_refl 1
  | negate operand ih => exact ih
  | binary op left right ihleft ihright => exact Nat.le_trans ihleft (Nat.le_max_left _ _)

/-- A node of an expression and the offset of its operation in the code. -/
structure Node where
  offset : Nat
  expression : Expression
  deriving DecidableEq

/-- The first node whose operation fails, and its fault. -/
def firstFailing? (catalog : Catalog) (nodes : List Node) : Option (Node × Fault) :=
  nodes.findSome? fun node => (node.expression.rootFault? catalog).map fun fault => (node, fault)

/-- The line of a listing that a node is listed as. -/
def Node.line (node : Node) : Instruction where
  offset := node.offset
  word := node.expression.opcode.word
  opcode := some node.expression.opcode
  immediate := node.expression.immediate

/-- Append the operation at the root. -/
def emitRoot (e : Expression) : Assembly Node := do
  let offset ←
    match e with
    | int n => emitPush n
    | string index => emitPushString index
    | negate _ => emit .negate
    | binary op _ _ => emit (.binary op)
  return ⟨offset, e⟩

/-- Append the code of an expression in postfix order, and give its nodes in that order. -/
def assemble : Expression → Assembly (List Node)
  | int n => return [← emitRoot (int n)]
  | string index => return [← emitRoot (string index)]
  | negate operand => do
    let nodes ← operand.assemble
    return nodes ++ [← emitRoot (negate operand)]
  | binary op left right => do
    let first ← left.assemble
    let second ← right.assemble
    return first ++ second ++ [← emitRoot (binary op left right)]

/-- Append the code of a procedure that gives the value of an expression. -/
def assembleProcedure (e : Expression) : Assembly (List Node) := do
  let nodes ← e.assemble
  let _ ← emit .exitProg
  return nodes

/-- The line of a node is well formed: it has the opcode of its word, and an operand if that takes one. -/
theorem wellFormed_line (node : Node) : node.line.WellFormed := by
  refine ⟨(Opcode.ofWord?_word _).symm, ?_⟩
  obtain ⟨offset, e⟩ := node
  cases e <;> rfl

/-- The operation at the root is appended as its line. -/
theorem exists_emitRoot (e : Expression) (a : Assembler) :
    ∃ b, e.emitRoot a = .ok ⟨a.offset, e⟩ b ∧
      b.code.toList = a.code.toList ++ (Node.line ⟨a.offset, e⟩).encoding := by
  cases e <;> exact ⟨_, rfl, by simp [Node.line, encoding, opcode, immediate]⟩

/-- After some operations, that at the root is appended to the listing. -/
theorem exists_emitRoot_of_isListing (e : Expression) {a : Assembler} {lines : List Instruction}
    (h : IsListing a.code lines) :
    ∃ node b, e.emitRoot a = .ok node b ∧ node.expression = e ∧
      IsListing b.code (lines ++ [node.line]) := by
  obtain ⟨b, hemit, hcode⟩ := exists_emitRoot e a
  exact ⟨⟨a.offset, e⟩, b, hemit, rfl, isListing_append h (wellFormed_line _) rfl hcode⟩

/-- The code of an expression is listed as its nodes, in postfix order. -/
theorem exists_assemble (e : Expression) {a : Assembler} {lines : List Instruction}
    (h : IsListing a.code lines) :
    ∃ nodes b, e.assemble a = .ok nodes b ∧ nodes.map Node.expression = e.postorder ∧
      IsListing b.code (lines ++ nodes.map Node.line) := by
  induction e generalizing a lines with
  | int n =>
    obtain ⟨node, b, hemit, hnode, hlisting⟩ := exists_emitRoot_of_isListing (int n) h
    exact ⟨[node], b, bind_of_ok hemit, by simp [hnode, postorder], hlisting⟩
  | string index =>
    obtain ⟨node, b, hemit, hnode, hlisting⟩ := exists_emitRoot_of_isListing (string index) h
    exact ⟨[node], b, bind_of_ok hemit, by simp [hnode, postorder], hlisting⟩
  | negate operand ih =>
    obtain ⟨nodes, b, hassemble, hnodes, hlisting⟩ := ih h
    obtain ⟨node, c, hemit, hnode, hlisting'⟩ :=
      exists_emitRoot_of_isListing (negate operand) hlisting
    refine ⟨nodes ++ [node], c, ?_, by simp [hnodes, hnode, postorder], by simpa using hlisting'⟩
    rw [assemble, bind_of_ok hassemble, bind_of_ok hemit]
    rfl
  | binary op left right ihleft ihright =>
    obtain ⟨first, b, hfirst, hfirstNodes, hlisting⟩ := ihleft h
    obtain ⟨second, c, hsecond, hsecondNodes, hlisting'⟩ := ihright hlisting
    obtain ⟨node, d, hemit, hnode, hlisting''⟩ :=
      exists_emitRoot_of_isListing (binary op left right) hlisting'
    refine ⟨first ++ second ++ [node], d, ?_, by simp [hfirstNodes, hsecondNodes, hnode, postorder],
      by simpa using hlisting''⟩
    rw [assemble, bind_of_ok hfirst, bind_of_ok hsecond, bind_of_ok hemit]
    rfl

/-- The line that ends a procedure. -/
def exitLine (offset : Nat) : Instruction where
  offset := offset
  word := Opcode.exitProg.word
  opcode := some .exitProg
  immediate := none

/-- The code of a procedure is listed as the nodes of its expression and an exit. -/
theorem exists_assembleProcedure (e : Expression) :
    ∃ nodes assembler offset, e.assembleProcedure {} = .ok nodes assembler ∧
      nodes.map Node.expression = e.postorder ∧
      disassemble assembler.code = .ok (nodes.map Node.line ++ [exitLine offset]) := by
  have hempty : IsListing (Assembler.code {}) [] := ⟨by simp, trivial, rfl⟩
  obtain ⟨nodes, a, hassemble, hnodes, hlisting⟩ := exists_assemble e hempty
  refine ⟨nodes, _, a.offset, bind_of_ok hassemble, hnodes, disassemble_eq_ok_iff.mpr ?_⟩
  exact isListing_append hlisting ⟨rfl, rfl⟩ rfl (by simp [exitLine, encoding])

end Expression

/-! ## Operations on the data stack -/

namespace Machine

/-- An operation with the given result on a machine: a value goes onto the data stack, above the
entries below the operands. -/
inductive Gives (below : Array Value) (m : Machine) :
    Except Fault Value → EStateM.Result Fault Machine Flow → Prop
  | value (v : Value) : Gives below m (.ok v) (.ok .next { m with data := below ++ [v] })
  | failure (fault : Fault) (m' : Machine) : Gives below m (.error fault) (.error fault m')

section Gives

variable {below : Array Value} {m : Machine} (catalog : Catalog) (operand : Int32)

/-- A pop takes the last value and leaves those below it. -/
theorem pop_append_singleton {v : Value} (hdata : m.data = below ++ [v]) :
    pop m = .ok v { m with data := below } :=
  pop_eq_ok_iff.mpr ⟨by simp [hdata], by simp [hdata]⟩

/-- A push with room puts the value above the others. -/
theorem push_append_singleton (v : Value) (hdata : m.data = below) (hroom : below.size < m.maxDepth) :
    push v m = .ok () { m with data := below ++ [v] } :=
  push_eq_ok_iff.mpr ⟨by rwa [hdata], by simp [hdata]⟩

/-- Pushing an integer gives it. -/
theorem gives_pushD (hdata : m.data = below) (hroom : below.size < m.maxDepth) :
    Gives below m (.ok (.int operand)) (execute catalog operand .pushD m) := by
  rw [execute, bind_of_ok (push_append_singleton _ hdata hroom)]
  exact .value _

/-- Pushing a string gives the string at its index, or fails as the expression does. -/
theorem gives_pushString (hdata : m.data = below) (hroom : below.size < m.maxDepth) :
    Gives below m ((Expression.string operand).eval catalog) (execute catalog operand .pushString m) := by
  rw [execute, Expression.eval]
  cases catalog.string? operand with
  | none => exact .failure _ _
  | some text =>
    dsimp only
    rw [bind_of_ok (push_append_singleton _ hdata hroom)]
    exact .value _

/-- Negation gives the negative of its operand, or fails as the operator does. -/
theorem gives_negate {a : Value} (hdata : m.data = below ++ [a]) (hroom : below.size < m.maxDepth) :
    Gives below m a.negate (execute catalog operand .negate m) := by
  rw [execute, bind_of_ok (pop_append_singleton hdata)]
  cases hresult : a.negate with
  | error fault => exact .failure _ _
  | ok v =>
    rw [bind_of_ok (ofExcept_eq_ok_iff.mpr ⟨rfl, rfl⟩), bind_of_ok (push_append_singleton v rfl hroom)]
    exact .value v

/-- A binary operation gives what its operator gives on the two operands, or fails as that does. -/
theorem gives_binary {a b : Value} (op : BinaryOp) (hdata : m.data = below ++ [a, b])
    (hroom : below.size < m.maxDepth) :
    Gives below m (op.apply a b) (execute catalog operand (.binary op) m) := by
  have hright : pop m = .ok b { m with data := below ++ [a] } :=
    pop_append_singleton (by simp [hdata])
  have hleft : pop { m with data := below ++ [a] } = .ok a { m with data := below } :=
    pop_append_singleton rfl
  cases hresult : op.apply a b with
  | error fault =>
    have happly : applyBinary op m = .error fault { m with data := below } := by
      rw [applyBinary, bind_of_ok hright, bind_of_ok hleft, hresult]
      rfl
    rw [execute, bind_of_error happly]
    exact .failure _ _
  | ok v =>
    have happly : applyBinary op m = .ok () { m with data := below ++ [v] } := by
      rw [applyBinary, bind_of_ok hright, bind_of_ok hleft, hresult,
        bind_of_ok (ofExcept_eq_ok_iff.mpr ⟨rfl, rfl⟩)]
      exact push_append_singleton v rfl hroom
    rw [execute, bind_of_ok happly]
    exact .value v

end Gives

/-- The machine on which a call without arguments starts. -/
def emptyFrame (maxDepth offset : Nat) : Machine :=
  { ofDepth maxDepth with data := #[.int 0], ret := #[.int 0], pc := offset }

/-- Without arguments a call only needs room for their number. -/
theorem enter_nil {m : Machine} (offset : Nat) (hroom : 0 < m.maxDepth) :
    enter offset [] m = .ok () (emptyFrame m.maxDepth offset) :=
  enter_of_fits offset ⟨hroom, Nat.zero_le _⟩

end Machine

/-! ## Running the nodes of an expression -/

namespace Interpreter

open Expression

/-- The step limit allows some more instructions. -/
def HasSteps (vm : Interpreter) (n : Nat) : Prop :=
  ∀ limit, vm.config.maxSteps = some limit → vm.steps.toNat + n ≤ limit.toNat

/-- Where some more instructions are allowed, the next one is. -/
theorem HasSteps.withinLimit {vm : Interpreter} {n : Nat} (h : vm.HasSteps (n + 1)) :
    vm.withinLimit = true := by
  unfold Interpreter.withinLimit
  cases hlimit : vm.config.maxSteps with
  | none => rfl
  | some limit =>
    have hroom := h limit hlimit
    refine decide_eq_true (UInt64.lt_iff_toNat_lt.mpr ?_)
    omega

/-- Where some more instructions are allowed, fewer are. -/
theorem HasSteps.mono {vm : Interpreter} {n m : Nat} (h : vm.HasSteps n) (hle : m ≤ n) :
    vm.HasSteps m :=
  fun limit hlimit => Nat.le_trans (Nat.add_le_add_left hle _) (h limit hlimit)

/-- What is left of the limit after some instructions. -/
theorem HasSteps.after {vm u : Interpreter} {n more : Nat} (h : vm.HasSteps (n + more))
    (hrun : runFor n vm = .ok .unfinished u) : u.HasSteps more := by
  intro limit hlimit
  have hconfig := (runFor_fixed n vm).2.2
  rw [hrun] at hconfig
  change u.config = vm.config at hconfig
  rw [hconfig] at hlimit
  have hroom := h limit hlimit
  have hbound := limit.toNat_lt
  rw [toNat_steps_of_unfinished hrun (by omega)]
  omega

/-- The operations of some nodes have been executed with success. They have put values on the data
stack and left all else as it was. -/
structure Reached (vm : Interpreter) (nodes : List Node) (values : List Value) (finish : Nat)
    (u : Interpreter) : Prop where
  run : runFor nodes.length vm = .ok .unfinished u
  machine : u.machine = { vm.machine with data := vm.machine.data ++ values, pc := finish }
  sound : ∀ node ∈ nodes, node.expression.rootFault? vm.catalog = none

/-- What the run of the operations of some nodes comes to. The first operation that fails does so at
its own instruction. -/
inductive Computes (vm : Interpreter) (nodes : List Node) (finish : Nat) : Except Fault Value → Prop
  | value {v : Value} {u : Interpreter} (h : Reached vm nodes [v] finish u) :
      Computes vm nodes finish (.ok v)
  | failure {first rest : List Node} {node : Node} {fault : Fault} {u : Interpreter}
      (hnodes : nodes = first ++ node :: rest)
      (hsound : ∀ earlier ∈ first, earlier.expression.rootFault? vm.catalog = none)
      (hfault : node.expression.rootFault? vm.catalog = some fault)
      (hrun : runFor nodes.length vm =
        .error (.atInstruction node.offset node.expression.opcode.mnemonic fault) u) :
      Computes vm nodes finish (.error fault)

section Nodes

variable {vm u w : Interpreter} {first second : List Node} {xs ys : List Value} {mid finish : Nat}

/-- The code and the catalog are those of the beginning. -/
theorem Reached.fixed (h : Reached vm first xs mid u) :
    u.script.bytes = vm.script.bytes ∧ u.catalog = vm.catalog := by
  have hfixed := runFor_fixed first.length vm
  rw [h.run] at hfixed
  exact ⟨hfixed.1, hfixed.2.1⟩

/-- Further nodes put their values above the others. -/
theorem Reached.append (h : Reached vm first xs mid u) (h' : Reached u second ys finish w) :
    Reached vm (first ++ second) (xs ++ ys) finish w where
  run := by
    rw [List.length_append, runFor_add_of_unfinished second.length h.run]
    exact h'.run
  machine := by
    have hdata : vm.machine.data ++ xs ++ ys = vm.machine.data ++ (xs ++ ys) :=
      Array.toList_inj.mp (by simp)
    rw [h'.machine, h.machine, ← hdata]
  sound := by
    rw [List.forall_mem_append]
    refine ⟨h.sound, ?_⟩
    rw [← h.fixed.2]
    exact h'.sound

/-- A failure among further nodes is the first failure of all. -/
theorem Reached.append_failure {fault : Fault} (h : Reached vm first xs mid u)
    (h' : Computes u second finish (.error fault)) :
    Computes vm (first ++ second) finish (.error fault) := by
  have hcatalog := h.fixed.2
  cases h' with
  | @failure before rest node fault u' hnodes hsound hfault hrun =>
    rw [hcatalog] at hsound hfault
    have hsplit : first ++ second = (first ++ before) ++ node :: rest := by simp [hnodes]
    rw [← runFor_add_of_unfinished second.length h.run, ← List.length_append] at hrun
    exact .failure hsplit (List.forall_mem_append.mpr ⟨h.sound, hsound⟩) hfault hrun

/-- What comes after a failure is not executed. -/
theorem Computes.failure_append {fault : Fault} (h : Computes vm first mid (.error fault))
    (second : List Node) (finish : Nat) : Computes vm (first ++ second) finish (.error fault) := by
  cases h with
  | @failure before rest node fault u hnodes hsound hfault hrun =>
    have hsplit : first ++ second = before ++ node :: (rest ++ second) := by simp [hnodes]
    have hended : Ended (runFor first.length vm) := by
      rw [hrun]
      trivial
    rw [← runFor_add_of_ended second.length hended, ← List.length_append] at hrun
    exact .failure hsplit hsound hfault hrun

/-- One more operation is one more instruction. -/
theorem Reached.computes {node : Node} {after : List Instruction} {result : Except Fault Value}
    (h : Reached vm first xs node.offset u) (hrunning : vm.machine.halted = false)
    (hline : Lists vm.script.bytes node.line after) (hsteps : vm.HasSteps (first.length + 1))
    (hresult : node.expression.rootFault? vm.catalog = fault? result)
    (hgives : Machine.Gives vm.machine.data u.machine result (Machine.execute vm.catalog
      (node.expression.immediate.getD 0) node.expression.opcode u.machine)) :
    Computes vm (first ++ [node]) (startOf after vm.script.bytes.size) result := by
  obtain ⟨hbytes, hcatalog⟩ := h.fixed
  have hmachine := h.machine
  have hpc : u.machine.pc = node.line.offset := by
    rw [hmachine]
    rfl
  have hrunning' : u.machine.halted = false := by
    rw [hmachine]
    exact hrunning
  have hfollowing := following_of_line hline rfl
  have hrun : runFor (first ++ [node]).length vm = runFor 1 u := by
    rw [List.length_append, List.length_singleton, runFor_add_of_unfinished 1 h.run]
  rw [← hbytes] at hline
  have hstep := step_of_line hrunning' hline hpc rfl (hsteps.after h.run).withinLimit
  have hline' : Machine.execute u.catalog (node.line.immediate.getD 0) node.expression.opcode u.machine =
      Machine.execute vm.catalog (node.expression.immediate.getD 0) node.expression.opcode u.machine := by
    rw [hcatalog]
    rfl
  rw [hline'] at hstep
  generalize Machine.execute vm.catalog (node.expression.immediate.getD 0) node.expression.opcode
    u.machine = executed at hgives hstep
  cases hgives with
  | failure fault m =>
    rw [runFor_one, hstep] at hrun
    exact .failure rfl h.sound hresult hrun
  | value v =>
    rw [runFor_one, hstep] at hrun
    simp only [hrunning', hfollowing, Flow.target] at hrun
    refine .value ⟨hrun, ?_, ?_⟩
    · simp only [hmachine, hrunning]
    · rw [List.forall_mem_append, List.forall_mem_singleton]
      exact ⟨h.sound, hresult⟩

end Nodes

/-- The interpreter stands before the code of an expression, with room for it on the data stack and
under the step limit. -/
structure Ready (vm : Interpreter) (e : Expression) (nodes : List Node) (after : List Instruction) :
    Prop where
  order : nodes.map Node.expression = e.postorder
  listing : ∃ before, disassemble vm.script.bytes = .ok (before ++ (nodes.map Node.line ++ after))
  running : vm.machine.halted = false
  pc : vm.machine.pc = startOf (nodes.map Node.line ++ after) vm.script.bytes.size
  room : vm.machine.data.size + e.depth ≤ vm.machine.maxDepth
  steps : vm.HasSteps nodes.length

section Expressions

variable {vm u : Interpreter} {e operand : Expression} {nodes first second rest : List Node}
  {node : Node} {after : List Instruction} {values : List Value} {finish : Nat}

/-- Before the first node nothing is computed. -/
theorem Ready.reached_nil (h : Ready vm e nodes after) :
    Reached vm [] [] (startOf (nodes.map Node.line ++ after) vm.script.bytes.size) vm where
  run := rfl
  machine := by
    rw [← h.pc]
    simp
  sound := by simp

/-- After some nodes the interpreter stands before the code of the next operand. -/
theorem Ready.before_operand (h : Ready vm e (first ++ (second ++ rest)) after)
    (hreached : Reached vm first values
      (startOf ((second ++ rest).map Node.line ++ after) vm.script.bytes.size) u)
    (horder : second.map Node.expression = operand.postorder)
    (hdepth : values.length + operand.depth ≤ e.depth) :
    Ready u operand second (rest.map Node.line ++ after) where
  order := horder
  listing := by
    obtain ⟨before, hlisting⟩ := h.listing
    refine ⟨before ++ first.map Node.line, ?_⟩
    rw [hreached.fixed.1, hlisting]
    simp
  running := by
    rw [hreached.machine]
    exact h.running
  pc := by
    rw [hreached.machine, hreached.fixed.1, List.map_append, List.append_assoc]
  room := by
    have hroom := h.room
    have hsize : (vm.machine.data ++ values).size = vm.machine.data.size + values.length := by
      rw [← Array.length_toList]
      simp
    rw [hreached.machine]
    dsimp only
    omega
  steps := by
    have hsteps := h.steps
    rw [List.length_append, List.length_append] at hsteps
    exact (hsteps.after hreached.run).mono (Nat.le_add_right _ _)

/-- An expression is computed when its operands are. -/
theorem Ready.computes_root {result : Except Fault Value} (h : Ready vm e (first ++ [node]) after)
    (hreached : Reached vm first values node.offset u)
    (hresult : node.expression.rootFault? vm.catalog = fault? result)
    (hgives : Machine.Gives vm.machine.data u.machine result (Machine.execute vm.catalog
      (node.expression.immediate.getD 0) node.expression.opcode u.machine)) :
    Computes vm (first ++ [node]) (startOf after vm.script.bytes.size) result := by
  obtain ⟨before, hlisting⟩ := h.listing
  have hsplit : before ++ ((first ++ [node]).map Node.line ++ after) =
      (before ++ first.map Node.line) ++ node.line :: after := by simp
  have hsteps := h.steps
  rw [hsplit] at hlisting
  rw [List.length_append, List.length_singleton] at hsteps
  exact hreached.computes h.running (lists_of_disassemble hlisting) hsteps hresult hgives

/-- The data stack has room for the value in place of the operands. -/
theorem Ready.size_lt (h : Ready vm e nodes after) (hreached : Reached vm first values finish u) :
    vm.machine.data.size < u.machine.maxDepth := by
  have hroom := h.room
  have hdepth := one_le_depth e
  rw [hreached.machine]
  dsimp only
  omega

/-- The run of an expression's code computes its value. -/
theorem computes_expression (h : Ready vm e nodes after) :
    Computes vm nodes (startOf after vm.script.bytes.size) (e.eval vm.catalog) := by
  -- The code of an operand is followed by the rest of the code, so `after` varies.
  induction e generalizing vm nodes after with
  | int n =>
    obtain ⟨node, rfl, hnode⟩ := List.map_eq_singleton_iff.mp h.order
    have hnil : Ready vm (int n) ([] ++ [node]) after := h
    refine hnil.computes_root h.reached_nil ?_ ?_
    · rw [hnode]
      rfl
    · rw [hnode]
      exact Machine.gives_pushD _ n rfl h.room
  | string index =>
    obtain ⟨node, rfl, hnode⟩ := List.map_eq_singleton_iff.mp h.order
    have hnil : Ready vm (string index) ([] ++ [node]) after := h
    refine hnil.computes_root h.reached_nil ?_ ?_
    · rw [hnode]
      rfl
    · rw [hnode]
      exact Machine.gives_pushString _ index rfl h.room
  | negate operand ih =>
    obtain ⟨first, last, rfl, hfirst, hlast⟩ := List.map_eq_append_iff.mp h.order
    obtain ⟨node, rfl, hnode⟩ := List.map_eq_singleton_iff.mp hlast
    have hnil : Ready vm (negate operand) ([] ++ (first ++ [node])) after := h
    have hoperand := ih (hnil.before_operand h.reached_nil hfirst (by simp [depth]))
    cases hvalue : operand.eval vm.catalog with
    | error fault =>
      have heval : (negate operand).eval vm.catalog = .error fault := by
        rw [eval, hvalue]
        rfl
      rw [hvalue] at hoperand
      rw [heval]
      exact hoperand.failure_append [node] _
    | ok a =>
      have heval : (negate operand).eval vm.catalog = a.negate := by
        rw [eval, hvalue]
        rfl
      rw [hvalue] at hoperand
      rw [heval]
      cases hoperand with
      | value hreached =>
        refine h.computes_root hreached ?_ ?_
        · rw [hnode, rootFault?, hvalue]
        · rw [hnode]
          refine Machine.gives_negate _ _ ?_ (h.size_lt hreached)
          rw [hreached.machine]
  | binary op left right ihleft ihright =>
    obtain ⟨operands, last, rfl, hoperands, hlast⟩ := List.map_eq_append_iff.mp h.order
    obtain ⟨node, rfl, hnode⟩ := List.map_eq_singleton_iff.mp hlast
    obtain ⟨first, second, rfl, hfirst, hsecond⟩ := List.map_eq_append_iff.mp hoperands
    have hsplit : Ready vm (binary op left right) (first ++ (second ++ [node])) after := by
      rwa [← List.append_assoc]
    have hnil : Ready vm (binary op left right) ([] ++ (first ++ (second ++ [node]))) after := hsplit
    have hleft := ihleft (hnil.before_operand hsplit.reached_nil hfirst (by
      rw [List.length_nil, Nat.zero_add]
      exact Nat.le_max_left _ _))
    cases ha : left.eval vm.catalog with
    | error fault =>
      have heval : (binary op left right).eval vm.catalog = .error fault := by
        rw [eval, ha]
        rfl
      rw [ha] at hleft
      rw [heval, List.append_assoc]
      exact hleft.failure_append (second ++ [node]) _
    | ok a =>
      rw [ha] at hleft
      cases hleft with
      | value hreached =>
        have hright := ihright (hsplit.before_operand hreached hsecond (by
          rw [List.length_singleton, Nat.add_comm]
          exact Nat.le_max_right _ _))
        rw [hreached.fixed.2] at hright
        cases hb : right.eval vm.catalog with
        | error fault =>
          have heval : (binary op left right).eval vm.catalog = .error fault := by
            rw [eval, ha, hb]
            rfl
          rw [hb] at hright
          rw [heval]
          exact (hreached.append_failure hright).failure_append [node] _
        | ok b =>
          have heval : (binary op left right).eval vm.catalog = op.apply a b := by
            rw [eval, ha, hb]
            rfl
          rw [hb] at hright
          rw [heval]
          cases hright with
          | value hreached' =>
            have hboth := hreached.append hreached'
            refine h.computes_root hboth ?_ ?_
            · rw [hnode, rootFault?, ha, hb]
            · rw [hnode]
              refine Machine.gives_binary _ _ op ?_ (h.size_lt hboth)
              rw [hboth.machine]
              rfl

end Expressions

/-! ## Calling the code of an expression -/

/-- No operation fails on the way to a value. -/
theorem Computes.firstFailing?_of_value {vm : Interpreter} {nodes : List Node} {finish : Nat} {v : Value}
    (h : Computes vm nodes finish (.ok v)) : firstFailing? vm.catalog nodes = none := by
  cases h with
  | value hreached =>
    rw [firstFailing?, List.findSome?_eq_none_iff]
    intro node hnode
    rw [hreached.sound node hnode]
    rfl

/-- A failure is that of the first operation that fails. -/
theorem Computes.exists_of_failure {vm : Interpreter} {nodes : List Node} {finish : Nat} {fault : Fault}
    (h : Computes vm nodes finish (.error fault)) :
    ∃ node u, firstFailing? vm.catalog nodes = some (node, fault) ∧
      runFor nodes.length vm =
        .error (.atInstruction node.offset node.expression.opcode.mnemonic fault) u := by
  cases h with
  | @failure first rest node fault u hnodes hsound hfault hrun =>
    refine ⟨node, u, ?_, hrun⟩
    have hnone : first.findSome? (fun node =>
        (node.expression.rootFault? vm.catalog).map fun fault => (node, fault)) = none := by
      rw [List.findSome?_eq_none_iff]
      intro earlier hearlier
      rw [hsound earlier hearlier]
      rfl
    rw [firstFailing?, hnodes, List.findSome?_append, hnone, List.findSome?_cons, hfault]
    rfl

/-- A listing begins at the beginning of the code. -/
theorem startOf_of_disassemble {code : Array UInt8} {listing : List Instruction}
    (h : disassemble code = .ok listing) : startOf listing code.size = 0 := by
  obtain ⟨-, hcontiguous, hbytes⟩ := listing_of_disassembleFrom h
  cases listing with
  | nil =>
    rw [← Array.length_toList, ← hbytes]
    rfl
  | cons line rest => exact hcontiguous.1

/-- The interpreter in which a call without arguments starts to run. -/
def enteredEmpty (vm : Interpreter) (name : String) (procedure : Procedure) : Interpreter :=
  (vm.resolved name [] procedure (.emptyFrame vm.machine.maxDepth procedure.offset)).restart

section Calls

variable {vm : Interpreter} {name : String} {procedure : Procedure} {e : Expression}
  {nodes : List Node} {offset : Nat}

/-- A call of the code of an expression starts before that code. -/
theorem ready_enteredEmpty
    (hcode : disassemble vm.script.bytes = .ok (nodes.map Node.line ++ [exitLine offset]))
    (horder : nodes.map Node.expression = e.postorder) (hstart : procedure.offset = 0)
    (hroom : e.depth + 1 ≤ vm.machine.maxDepth)
    (hsteps : ∀ limit, vm.config.maxSteps = some limit → nodes.length + 1 ≤ limit.toNat) :
    Ready (vm.enteredEmpty name procedure) e nodes [exitLine offset] where
  order := horder
  listing := ⟨[], hcode⟩
  running := rfl
  pc := hstart.trans (startOf_of_disassemble hcode).symm
  room := by
    change 1 + e.depth ≤ vm.machine.maxDepth
    omega
  steps := by
    intro limit hlimit
    have hle := hsteps limit hlimit
    change 0 + nodes.length ≤ limit.toNat
    omega

/-- Once the value is computed, the exit halts the machine. -/
theorem Reached.exists_halted {v : Value} {u : Interpreter} (h : Reached vm nodes [v] offset u)
    (hcode : disassemble vm.script.bytes = .ok (nodes.map Node.line ++ [exitLine offset]))
    (hrunning : vm.machine.halted = false) (hsteps : vm.HasSteps (nodes.length + 1)) :
    ∃ w, runFor (nodes.length + 1) vm = .ok .halted w ∧
      w.machine.data = vm.machine.data.push v ∧ w.machine.ret = vm.machine.ret := by
  have hline := lists_of_disassemble hcode
  rw [← h.fixed.1] at hline
  have hmachine := h.machine
  have hrunning' : u.machine.halted = false := by
    rw [hmachine]
    exact hrunning
  have hpc : u.machine.pc = (exitLine offset).offset := by
    rw [hmachine]
    rfl
  have hstep := step_of_line hrunning' hline hpc rfl (hsteps.after h.run).withinLimit
  rw [runFor_add_of_unfinished 1 h.run, runFor_one, hstep]
  refine ⟨_, rfl, ?_, ?_⟩
  · change u.machine.data = vm.machine.data.push v
    rw [hmachine]
    simp
  · change u.machine.ret = vm.machine.ret
    rw [hmachine]

/-- The code of an expression leads to a value and an exit, or to the failure of the first operation
that fails. -/
theorem runFor_enteredEmpty (name : String)
    (hcode : disassemble vm.script.bytes = .ok (nodes.map Node.line ++ [exitLine offset]))
    (horder : nodes.map Node.expression = e.postorder) (hstart : procedure.offset = 0)
    (hroom : e.depth + 1 ≤ vm.machine.maxDepth)
    (hsteps : ∀ limit, vm.config.maxSteps = some limit → nodes.length + 1 ≤ limit.toNat) :
    (∃ v w, e.eval vm.catalog = .ok v ∧ firstFailing? vm.catalog nodes = none ∧
      runFor (nodes.length + 1) (vm.enteredEmpty name procedure) = .ok .halted w ∧
      w.machine.data = #[.int 0, v] ∧ w.machine.ret = #[.int 0]) ∨
    ∃ node fault u, e.eval vm.catalog = .error fault ∧
      firstFailing? vm.catalog nodes = some (node, fault) ∧
      runFor (nodes.length + 1) (vm.enteredEmpty name procedure) =
        .error (.atInstruction node.offset node.expression.opcode.mnemonic fault) u := by
  have hready : Ready (vm.enteredEmpty name procedure) e nodes [exitLine offset] :=
    ready_enteredEmpty hcode horder hstart hroom hsteps
  have hcomputes := computes_expression hready
  change Computes _ _ offset (e.eval vm.catalog) at hcomputes
  cases hvalue : e.eval vm.catalog with
  | ok v =>
    have hlimit : (vm.enteredEmpty name procedure).HasSteps (nodes.length + 1) := by
      intro limit hlimit
      rw [show (vm.enteredEmpty name procedure).steps.toNat = 0 from rfl, Nat.zero_add]
      exact hsteps limit hlimit
    rw [hvalue] at hcomputes
    have hnone := hcomputes.firstFailing?_of_value
    cases hcomputes with
    | value hreached =>
      obtain ⟨w, hrun, hdata, hret⟩ := hreached.exists_halted hcode rfl hlimit
      exact .inl ⟨v, w, rfl, hnone, hrun, hdata, hret⟩
  | error fault =>
    rw [hvalue] at hcomputes
    obtain ⟨node, u, hfirst, hrun⟩ := hcomputes.exists_of_failure
    have hended : Ended (runFor nodes.length (vm.enteredEmpty name procedure)) := by
      rw [hrun]
      trivial
    rw [← runFor_add_of_ended 1 hended] at hrun
    exact .inr ⟨node, fault, u, rfl, hfirst, hrun⟩

/-- A call without arguments concludes the run that starts with an empty frame. -/
theorem callWithin_nil (fuel : Nat) (hname : vm.catalog.procedure? name = some procedure)
    (hroom : 0 < vm.machine.maxDepth) :
    callWithin fuel name [] vm = conclude name (runFor fuel (vm.enteredEmpty name procedure)) :=
  callWithin_of_layout fuel hname (Machine.enter_nil procedure.offset hroom)

/-- A call takes the value from the top of its frame. -/
theorem exists_conclude_of_halted {w : Interpreter} {v : Value} (name : String)
    (hdata : w.machine.data = #[.int 0, v]) (hret : w.machine.ret = #[.int 0]) :
    ∃ final, conclude name (.ok .halted w) = .ok (some v) final ∧
      final.machine.data = #[.int 0] ∧ final.machine.ret = #[.int 0] := by
  have htop : w.machine.data.back? = some v := by
    rw [hdata]
    rfl
  refine ⟨_, conclude_of_result name htop, ?_, hret⟩
  change w.machine.data.pop = #[.int 0]
  rw [hdata]
  rfl

end Calls

/-- Postfix code computes the expression.

The code of an expression can be assembled in postfix order, and its nodes are those of the expression.
Let it be a procedure at the beginning of a script, with room for the expression on the data stack and
under the step limit. A call without arguments gives the value of the expression and leaves the number
of arguments and the host's address on the stacks. If an operation fails, the call fails with the fault
of the first one in postfix order, at the offset of that operation and with its mnemonic. The call needs
one step for each node and one for the exit, however much longer it is followed. -/
theorem expression_code_computes_value (e : Expression) :
    ∃ nodes assembler, e.assembleProcedure {} = .ok nodes assembler ∧
      nodes.map Node.expression = e.postorder ∧
      ∀ (vm : Interpreter) (name : String) (procedure : Procedure),
        vm.script.bytes = assembler.code → vm.catalog.procedure? name = some procedure →
        procedure.offset = 0 → e.depth + 1 ≤ vm.machine.maxDepth →
        (∀ limit, vm.config.maxSteps = some limit → nodes.length + 1 ≤ limit.toNat) →
        (∀ v, e.eval vm.catalog = .ok v →
          ∃ final, callWithin (nodes.length + 1) name [] vm = .ok (some v) final ∧
            final.machine.data = #[.int 0] ∧ final.machine.ret = #[.int 0]) ∧
        (∀ node fault, firstFailing? vm.catalog nodes = some (node, fault) →
          ∃ final, callWithin (nodes.length + 1) name [] vm =
            .error ((Failure.atInstruction node.offset node.expression.opcode.mnemonic fault).within name)
              final) ∧
        (firstFailing? vm.catalog nodes = none ↔ ∃ v, e.eval vm.catalog = .ok v) ∧
        (∀ fuel, nodes.length + 1 ≤ fuel →
          callWithin fuel name [] vm = callWithin (nodes.length + 1) name [] vm) ∧
        ((vm.config.maxSteps = none → nodes.length + 1 ≤ 2 ^ 64) →
          call name [] vm = callWithin (nodes.length + 1) name [] vm) := by
  obtain ⟨nodes, assembler, offset, hassemble, horder, hcode⟩ := exists_assembleProcedure e
  refine ⟨nodes, assembler, hassemble, horder, ?_⟩
  intro vm name procedure hbytes hname hstart hroom hsteps
  rw [← hbytes] at hcode
  have hcall (fuel : Nat) := callWithin_nil fuel hname (Nat.lt_of_lt_of_le (Nat.succ_pos _) hroom)
  have hruns := runFor_enteredEmpty name hcode horder hstart hroom hsteps
  have hended : Ended (runFor (nodes.length + 1) (vm.enteredEmpty name procedure)) := by
    obtain ⟨v, w, -, -, hrun, -⟩ | ⟨node, fault, u, -, -, hrun⟩ := hruns
    · rw [hrun]
      trivial
    · rw [hrun]
      trivial
  have hlonger (fuel : Nat) (hfuel : nodes.length + 1 ≤ fuel) :
      callWithin fuel name [] vm = callWithin (nodes.length + 1) name [] vm := by
    obtain ⟨more, rfl⟩ := Nat.exists_eq_add_of_le hfuel
    rw [hcall, hcall, runFor_add_of_ended more hended]
  have hbudget (hunlimited : vm.config.maxSteps = none → nodes.length + 1 ≤ 2 ^ 64) :
      nodes.length + 1 ≤ vm.config.stepBudget := by
    unfold Config.stepBudget
    cases hlimit : vm.config.maxSteps with
    | none => exact hunlimited hlimit
    | some limit => exact Nat.le_succ_of_le (hsteps limit hlimit)
  refine ⟨?_, ?_, ?_, hlonger, fun hunlimited => hlonger _ (hbudget hunlimited)⟩
  · intro v hv
    obtain ⟨v', w, heval, -, hrun, hdata, hret⟩ | ⟨node, fault, u, heval, -, -⟩ := hruns
    · rw [heval] at hv
      cases hv
      rw [hcall, hrun]
      exact exists_conclude_of_halted name hdata hret
    · rw [heval] at hv
      cases hv
  · intro node fault hfirst
    obtain ⟨v, w, -, hnone, -, -, -⟩ | ⟨node', fault', u, -, hfirst', hrun⟩ := hruns
    · rw [hnone] at hfirst
      cases hfirst
    · rw [hfirst'] at hfirst
      cases hfirst
      rw [hcall, hrun]
      exact ⟨u, rfl⟩
  · obtain ⟨v, w, heval, hnone, -, -, -⟩ | ⟨node, fault, u, heval, hfirst, -⟩ := hruns
    · simp [heval, hnone]
    · simp [heval, hfirst]

/-- A script whose one procedure gives the value of an expression. -/
def expressionScript (e : Expression) : Interpreter :=
  ofCode (finalState (e.assembleProcedure {})).code (Catalog.empty.withProcedure "main" 0) .standard

/-- The sum of one and the quotient of six by zero. -/
def faultySum : Expression :=
  .binary .add (.int 1) (.binary .div (.int 6) (.int 0))

/-- Its nodes in postfix order, with the offsets of their operations. -/
def faultySumNodes : List Node :=
  [⟨0, .int 1⟩, ⟨6, .int 6⟩, ⟨12, .int 0⟩, ⟨18, .binary .div (.int 6) (.int 0)⟩, ⟨20, faultySum⟩]

/-- The division fails before the sum is reached, and the call fails there. -/
theorem expression_code_computes_value_faultySum :
    faultySum.assembleProcedure {} =
        .ok faultySumNodes ⟨(expressionScript faultySum).script.bytes⟩ ∧
      faultySum.depth + 1 ≤ (expressionScript faultySum).machine.maxDepth ∧
      ∃ final, callWithin 6 "main" [] (expressionScript faultySum) =
        .error ((Failure.atInstruction 18 "div" .divisionByZero).within "main") final := by
  have hassembled : faultySum.assembleProcedure {} =
    .ok faultySumNodes ⟨(expressionScript faultySum).script.bytes⟩ := rfl
  have hdepth : faultySum.depth + 1 ≤ (expressionScript faultySum).machine.maxDepth := by decide
  have hname : (expressionScript faultySum).catalog.procedure? "main" = some ⟨"main", 0⟩ := by
    simp [expressionScript, ofCode, Catalog.procedure?, Catalog.empty]
  have hsteps (limit : UInt64) (hlimit : (expressionScript faultySum).config.maxSteps = some limit) :
      faultySumNodes.length + 1 ≤ limit.toNat := by
    cases hlimit
    decide
  obtain ⟨nodes, assembler, hassemble, -, hcalls⟩ := expression_code_computes_value faultySum
  rw [hassembled] at hassemble
  cases hassemble
  have hcall := hcalls (expressionScript faultySum) "main" ⟨"main", 0⟩ rfl hname rfl hdepth hsteps
  exact ⟨hassembled, hdepth,
    hcall.2.1 ⟨18, .binary .div (.int 6) (.int 0)⟩ .divisionByZero rfl⟩

end Interpreter

end ScriptMachine
