import ScriptMachine.Proofs.Calls
import ScriptMachine.Proofs.Instructions

/-!
# Balanced traces

Return addresses, saved frame bases and transferred values share the return stack, and nothing tells
them apart. A trace of executed opcodes is `Balanced` when every opcode that puts an entry there is
matched by one that takes it away: a frame that is opened is closed, and a transferred value either
comes back or is returned to.

Instructions that succeed with a balanced trace keep the return stack and the frame base, wherever
they jump. So a balanced procedure returns to the address it was given, and one that the host called
returns to the host.
-/

namespace ScriptMachine

/-- The balanced sequences of opcodes. An opcode by itself is balanced when it does not work on the
return stack. -/
inductive Balanced : List Opcode → Prop
  | empty : Balanced []
  | neutral {op : Opcode} (hneutral : op.usesReturn = false) : Balanced [op]
  | append {first second : List Opcode} (hfirst : Balanced first) (hsecond : Balanced second) :
      Balanced (first ++ second)
  /-- A frame is opened and closed. -/
  | frame {body : List Opcode} (hbody : Balanced body) :
      Balanced (.pushBase :: (body ++ [.popBase]))
  /-- A value is put aside and fetched back. -/
  | transfer {body : List Opcode} (hbody : Balanced body) :
      Balanced (.dToA :: (body ++ [.aToD]))
  /-- An address is put aside and returned to. -/
  | procedure {body : List Opcode} (hbody : Balanced body) :
      Balanced (.dToA :: (body ++ [.popReturn]))

namespace Interpreter

/-! ## Single instructions -/

/-- An opcode that does not work on the return stack keeps it, and keeps the frame base. -/
theorem keeps_of_neutral {vm u : Interpreter} {op : Opcode} (hneutral : op.usesReturn = false)
    (h : Executes vm [op] u) :
    u.machine.ret = vm.machine.ret ∧ u.machine.frameBase = vm.machine.frameBase := by
  obtain ⟨operand, flow, m, hexecute, hu⟩ := exists_execute_of_executes h
  have hframe : op.setsFrameBase = false := by
    cases op with
    | pushBase => cases hneutral
    | popBase => cases hneutral
    | _ => rfl
  have hkeeps := Machine.execute_keeps vm.catalog operand op (fun m => (m.ret, m.frameBase))
    (fun _ _ => rfl) (by simp [hneutral]) (by simp [hframe]) (fun _ _ _ => rfl) (fun _ _ _ => rfl)
    vm.machine
  rw [hexecute] at hkeeps
  rw [hu]
  exact ⟨congrArg Prod.fst hkeeps, congrArg Prod.snd hkeeps⟩

/-- A transfer puts the top of the data stack on the return stack. -/
theorem ret_of_dToA {vm u : Interpreter} (h : Executes vm [.dToA] u) :
    ∃ value, vm.machine.data.back? = some value ∧
      u.machine.ret = vm.machine.ret.push value ∧ u.machine.frameBase = vm.machine.frameBase := by
  obtain ⟨operand, flow, m, hexecute, hu⟩ := exists_execute_of_executes h
  obtain ⟨-, value, htop, rfl⟩ := Machine.execute_dToA_eq_ok hexecute
  exact ⟨value, htop, by rw [hu], by rw [hu]⟩

/-- Fetching a value back takes it from the return stack. -/
theorem ret_of_aToD {vm u : Interpreter} (h : Executes vm [.aToD] u) :
    u.machine.ret = vm.machine.ret.pop ∧ u.machine.frameBase = vm.machine.frameBase := by
  obtain ⟨operand, flow, m, hexecute, hu⟩ := exists_execute_of_executes h
  obtain ⟨-, value, -, rfl⟩ := Machine.execute_aToD_eq_ok hexecute
  exact ⟨by rw [hu], by rw [hu]⟩

/-- Opening a frame saves a frame base that can be read back. -/
theorem ret_of_pushBase {vm u : Interpreter} (h : Executes vm [.pushBase] u) :
    vm.machine.frameBase < 2 ^ 31 ∧
      u.machine.ret = vm.machine.ret.push (.int (Int32.ofNat vm.machine.frameBase)) := by
  obtain ⟨operand, flow, m, hexecute, hu⟩ := exists_execute_of_executes h
  obtain ⟨hindex, base, rfl⟩ := Machine.execute_pushBase_eq_ok hexecute
  exact ⟨hindex, by rw [hu]⟩

/-- Closing a frame takes the frame base from the return stack. -/
theorem ret_of_popBase {vm u : Interpreter} (h : Executes vm [.popBase] u) :
    ∃ value n, vm.machine.ret.back? = some value ∧ value.asInt? = some n ∧
      u.machine.ret = vm.machine.ret.pop ∧ u.machine.frameBase = n.toNatClampNeg := by
  obtain ⟨operand, flow, m, hexecute, hu⟩ := exists_execute_of_executes h
  obtain ⟨value, n, htop, hn, -, rfl⟩ := Machine.execute_popBase_eq_ok hexecute
  exact ⟨value, n, htop, hn, by rw [hu], by rw [hu]⟩

/-- A return takes its address from the return stack, goes there, and halts if it is zero. -/
theorem ret_of_popReturn {vm u : Interpreter} (h : Executes vm [.popReturn] u) :
    ∃ value n, vm.machine.ret.back? = some value ∧ value.asInt? = some n ∧
      (u.machine.pc : Int) = n.toInt ∧ u.machine.ret = vm.machine.ret.pop ∧
      u.machine.frameBase = vm.machine.frameBase ∧ u.machine.data = vm.machine.data ∧
      (n = 0 → u.machine.halted = true) := by
  obtain ⟨operand, flow, m, hexecute, hu⟩ := exists_execute_of_executes h
  obtain ⟨value, n, htop, hn, hsign, rfl, rfl⟩ := Machine.execute_popReturn_eq_ok hexecute
  refine ⟨value, n, htop, hn, ?_, ?_, ?_, ?_, ?_⟩
  · rw [hu]
    exact Int32.cast_toNatClampNeg n hsign
  · rw [hu]
  · rw [hu]
  · rw [hu]
  · intro hzero
    rw [hu, hzero]
    simp

/-! ## Balanced sequences -/

/-- A bracketed sequence is its opening, its body and its closing. -/
theorem executes_bracket_iff {vm u : Interpreter} {opening closing : Opcode} {body : List Opcode} :
    Executes vm (opening :: (body ++ [closing])) u ↔
      ∃ a b, Executes vm [opening] a ∧ Executes a body b ∧ Executes b [closing] u := by
  rw [← List.singleton_append, executes_append_iff]
  constructor
  · intro h
    obtain ⟨a, hopening, hrest⟩ := h
    obtain ⟨b, hbody, hclosing⟩ := executes_append_iff.mp hrest
    exact ⟨a, b, hopening, hbody, hclosing⟩
  · intro h
    obtain ⟨a, b, hopening, hbody, hclosing⟩ := h
    exact ⟨a, hopening, executes_append_iff.mpr ⟨b, hbody, hclosing⟩⟩

/-- Instructions with a balanced trace keep the return stack and the frame base. -/
theorem keeps_of_balanced {vm u : Interpreter} {ops : List Opcode} (hops : Balanced ops)
    (h : Executes vm ops u) :
    u.machine.ret = vm.machine.ret ∧ u.machine.frameBase = vm.machine.frameBase := by
  induction hops generalizing vm u with
  | empty =>
    cases h
    exact ⟨rfl, rfl⟩
  | neutral hneutral => exact keeps_of_neutral hneutral h
  | append _ _ ihfirst ihsecond =>
    obtain ⟨mid, hfirst, hsecond⟩ := executes_append_iff.mp h
    obtain ⟨hret, hframe⟩ := ihfirst hfirst
    obtain ⟨hret', hframe'⟩ := ihsecond hsecond
    exact ⟨hret'.trans hret, hframe'.trans hframe⟩
  | frame _ ih =>
    obtain ⟨a, b, hopening, hbody, hclosing⟩ := executes_bracket_iff.mp h
    obtain ⟨hindex, hpush⟩ := ret_of_pushBase hopening
    obtain ⟨hret, -⟩ := ih hbody
    obtain ⟨value, n, htop, hn, hpop, hbase⟩ := ret_of_popBase hclosing
    -- The frame base that is read back is the one that was saved.
    rw [hret, hpush] at htop hpop
    obtain rfl : Value.int (Int32.ofNat vm.machine.frameBase) = value := by simpa using htop
    obtain rfl : Int32.ofNat vm.machine.frameBase = n := by simpa [Value.asInt?] using hn
    refine ⟨by simpa using hpop, ?_⟩
    rw [hbase, Int32.toNatClampNeg_ofNat_of_lt hindex]
  | transfer _ ih =>
    obtain ⟨a, b, hopening, hbody, hclosing⟩ := executes_bracket_iff.mp h
    obtain ⟨value, -, hpush, hframe⟩ := ret_of_dToA hopening
    obtain ⟨hret, hframe'⟩ := ih hbody
    obtain ⟨hpop, hframe''⟩ := ret_of_aToD hclosing
    rw [hret, hpush] at hpop
    exact ⟨by simpa using hpop, hframe''.trans (hframe'.trans hframe)⟩
  | procedure _ ih =>
    obtain ⟨a, b, hopening, hbody, hclosing⟩ := executes_bracket_iff.mp h
    obtain ⟨value, -, hpush, hframe⟩ := ret_of_dToA hopening
    obtain ⟨hret, hframe'⟩ := ih hbody
    obtain ⟨_, _, -, -, -, hpop, hframe'', -⟩ := ret_of_popReturn hclosing
    rw [hret, hpush] at hpop
    exact ⟨by simpa using hpop, hframe''.trans (hframe'.trans hframe)⟩

/-- A return matched with a transfer goes to the address that was transferred. -/
theorem pc_of_procedure {vm u : Interpreter} {body : List Opcode} (hbody : Balanced body)
    (h : Executes vm (.dToA :: (body ++ [.popReturn])) u) :
    ∃ value n, vm.machine.data.back? = some value ∧ value.asInt? = some n ∧
      (u.machine.pc : Int) = n.toInt := by
  obtain ⟨a, b, hopening, hinner, hclosing⟩ := executes_bracket_iff.mp h
  obtain ⟨value, hvalue, hpush, -⟩ := ret_of_dToA hopening
  obtain ⟨hret, -⟩ := keeps_of_balanced hbody hinner
  obtain ⟨address, n, htop, hn, hpc, -⟩ := ret_of_popReturn hclosing
  rw [hret, hpush] at htop
  obtain rfl : value = address := by simpa using htop
  exact ⟨value, n, hvalue, hn, hpc⟩

/-! ## Calls from the host -/

/-- A balanced procedure that the host called returns to the host: its last return pops the host's
address and halts. -/
theorem halted_of_balanced_call {vm final : Interpreter} {name : String} {args : List Value}
    {procedure : Procedure} {m : Machine} {body : List Opcode} {u : Unit}
    (henter : Machine.enter procedure.offset args vm.machine = .ok u m) (hbody : Balanced body)
    (h : Executes (vm.resolved name args procedure m).restart (body ++ [.popReturn]) final) :
    ∃ before, Executes (vm.resolved name args procedure m).restart body before ∧
      before.machine.ret = #[.int 0] ∧ Executes before [.popReturn] final ∧
      final.machine.halted = true ∧ final.machine.ret = #[] ∧ final.machine.frameBase = 0 ∧
      final.machine.pc = 0 ∧ final.machine.data = before.machine.data := by
  obtain ⟨before, hinner, hreturn⟩ := executes_append_iff.mp h
  obtain ⟨hret, hframe⟩ := keeps_of_balanced hbody hinner
  obtain rfl := Machine.eq_of_enter henter
  obtain ⟨value, n, htop, hn, hpc, hpop, hframe', hdata, hhalted⟩ := ret_of_popReturn hreturn
  have hsentinel : before.machine.ret = #[.int 0] := hret
  rw [hsentinel] at htop hpop
  obtain rfl : Value.int 0 = value := by simpa using htop
  obtain rfl : 0 = n := by simpa [Value.asInt?] using hn
  refine ⟨before, hinner, hsentinel, hreturn, hhalted rfl, by simpa using hpop,
    hframe'.trans hframe, ?_, hdata⟩
  simpa using hpc

/-- The call of a balanced procedure concludes when its last return halts. -/
theorem callWithin_of_balanced {vm final : Interpreter} {name : String} {args : List Value}
    {procedure : Procedure} {m : Machine} {body : List Opcode} {u : Unit} {fuel : Nat}
    (hname : vm.catalog.procedure? name = some procedure)
    (henter : Machine.enter procedure.offset args vm.machine = .ok u m) (hbody : Balanced body)
    (h : Executes (vm.resolved name args procedure m).restart (body ++ [.popReturn]) final)
    (hfuel : body.length < fuel) :
    callWithin fuel name args vm = conclude name (.ok .halted final) := by
  obtain ⟨_, -, -, -, hhalted, -⟩ := halted_of_balanced_call henter hbody h
  have hrun := h.runFor_eq (by simp)
  rw [hhalted, List.length_append, List.length_singleton] at hrun
  obtain ⟨more, rfl⟩ := Nat.exists_eq_add_of_le hfuel
  have hlonger : runFor (body.length + 1 + more) (vm.resolved name args procedure m).restart =
      .ok .halted final := by
    rw [runFor_add_of_ended more (by rw [hrun]; trivial), hrun]
    rfl
  rw [callWithin_of_layout _ hname henter]
  exact congrArg (conclude name) hlonger

/-- Disciplined code keeps its frames.

Instructions that succeed with a balanced trace leave the return stack and the frame base as they
were, and each return among them that is matched with a transfer goes to the transferred address.
When the host calls a procedure whose trace is balanced up to one last return, that return pops the
host's address and halts with an empty return stack, and the call gives the top of the data stack. -/
theorem balanced_traces_keep_frames :
    (∀ (vm u : Interpreter) (ops : List Opcode), Balanced ops → Executes vm ops u →
      u.machine.ret = vm.machine.ret ∧ u.machine.frameBase = vm.machine.frameBase ∧
      ∀ before body after, ops = before ++ .dToA :: (body ++ .popReturn :: after) → Balanced body →
        ∃ a b, Executes vm before a ∧ Executes a (.dToA :: (body ++ [.popReturn])) b ∧
          Executes b after u ∧ ∃ value n, a.machine.data.back? = some value ∧
            value.asInt? = some n ∧ (b.machine.pc : Int) = n.toInt) ∧
    ∀ (vm final : Interpreter) (name : String) (args : List Value) (procedure : Procedure)
      (m : Machine) (body : List Opcode), vm.catalog.procedure? name = some procedure →
      Machine.enter procedure.offset args vm.machine = .ok () m → Balanced body →
      Executes (vm.resolved name args procedure m).restart (body ++ [.popReturn]) final →
      (∃ before, Executes (vm.resolved name args procedure m).restart body before ∧
        before.machine.ret = #[.int 0] ∧ Executes before [.popReturn] final ∧
        final.machine.halted = true ∧ final.machine.ret = #[] ∧ final.machine.frameBase = 0 ∧
        final.machine.pc = 0 ∧ final.machine.data = before.machine.data) ∧
      (∀ fuel, body.length < fuel →
        (∀ result, final.machine.data.back? = some result →
          ∃ after, callWithin fuel name args vm = .ok (some result) after) ∧
        (final.machine.data.back? = none →
          callWithin fuel name args vm =
            .error ((Failure.unlocated (.stackUnderflow .data)).within name) final)) ∧
      ((vm.config.maxSteps = none → body.length < 2 ^ 64) →
        call name args vm = callWithin (body.length + 1) name args vm) := by
  refine ⟨fun vm u ops hops h => ?_, fun vm final name args procedure m body hname henter hbody h => ?_⟩
  · obtain ⟨hret, hframe⟩ := keeps_of_balanced hops h
    refine ⟨hret, hframe, ?_⟩
    intro before body after hsplit hbody
    subst hsplit
    obtain ⟨a, hbefore, hrest⟩ := executes_append_iff.mp h
    have hsplit : Opcode.dToA :: (body ++ .popReturn :: after) =
        (.dToA :: (body ++ [.popReturn])) ++ after := by simp
    rw [hsplit] at hrest
    obtain ⟨b, hprocedure, hafter⟩ := executes_append_iff.mp hrest
    exact ⟨a, b, hbefore, hprocedure, hafter, pc_of_procedure hbody hprocedure⟩
  · refine ⟨halted_of_balanced_call henter hbody h, fun fuel hfuel => ?_, fun hunlimited => ?_⟩
    · rw [callWithin_of_balanced hname henter hbody h hfuel]
      exact ⟨fun result hresult => ⟨_, conclude_of_result name hresult⟩, conclude_of_empty name⟩
    · have hbudget : body.length < vm.config.stepBudget := by
        cases hlimit : vm.config.maxSteps with
        | none =>
          simp only [Config.stepBudget, hlimit]
          exact hunlimited hlimit
        | some limit =>
          have hlength := h.length_le hlimit UInt64.zero_le
          rw [List.length_append, List.length_singleton] at hlength
          simp only [Config.stepBudget, hlimit]
          omega
      change callWithin vm.config.stepBudget name args vm = _
      rw [callWithin_of_balanced hname henter hbody h hbudget,
        callWithin_of_balanced hname henter hbody h (Nat.lt_succ_self body.length)]

/-- A script with one procedure, which opens and closes a frame, pushes seven and returns. -/
def sevenScript : Interpreter :=
  ofCode #[0x2B, 0x80, 0x29, 0x80, 0x01, 0xC0, 7, 0, 0, 0, 0x1C, 0x80]
    (Catalog.empty.withProcedure "seven" 0) .standard

/-- The interpreter in which that procedure starts. -/
def sevenEntered : Interpreter :=
  (sevenScript.resolved "seven" [] ⟨"seven", 0⟩
    { data := #[.int 0], ret := #[.int 0], maxDepth := 65536 }).restart

/-- The trace of the procedure is balanced up to its return, and the call gives seven. -/
theorem balanced_traces_keep_frames_seven :
    trace 4 sevenEntered = [.pushBase, .popBase, .pushD] ++ [.popReturn] ∧
      ∃ after, callWithin 4 "seven" [] sevenScript = .ok (some (.int 7)) after := by
  have htrace : trace 4 sevenEntered = [.pushBase, .popBase, .pushD] ++ [.popReturn] := by
    decide +kernel
  have hhalted : (answer (runFor 4 sevenEntered)).toOption = some .halted := by decide +kernel
  have hdata : (finalState (runFor 4 sevenEntered)).machine.data.back? = some (.int 7) := by
    decide +kernel
  have hname : sevenScript.catalog.procedure? "seven" = some ⟨"seven", 0⟩ := by
    simp [sevenScript, ofCode, Catalog.procedure?, Catalog.empty]
  have hbody : Balanced ([.pushBase, .popBase] ++ [.pushD]) :=
    .append (.frame .empty) (.neutral rfl)
  cases hrun : runFor 4 sevenEntered with
  | error failure final =>
    rw [hrun] at hhalted
    cases hhalted
  | ok outcome final =>
    rw [hrun] at hhalted hdata
    cases hhalted
    have hexecutes : Executes sevenEntered ([.pushBase, .popBase, .pushD] ++ [.popReturn]) final := by
      rw [← htrace]
      exact executes_trace_of_halted rfl hrun
    obtain ⟨-, hcall, -⟩ := balanced_traces_keep_frames.2 sevenScript final "seven" [] ⟨"seven", 0⟩ _
      [.pushBase, .popBase, .pushD] hname rfl hbody hexecutes
    exact ⟨htrace, (hcall 4 (by decide)).1 _ hdata⟩

end Interpreter

end ScriptMachine
