import ScriptMachine.Proofs.CallHistories

/-!
# Where a call failed

A failure of a call passes through up to four hands: the frame is laid out, words are fetched, an
instruction is executed, the result is popped. Each may attach a site to it or leave it without one, and
the call adds the procedure. In the end the site is true: `failed_calls_say_where`.

The argument rests on two facts about a step that fails. It fails either for want of a word, without a
site, or at the instruction that was pending (`cases_of_step_eq_error`). And it leaves the registers as
they were (`registers_of_step_eq_error`), so the program counter still points at that instruction. What
holds of the last step of a run then holds of the run.
-/

namespace ScriptMachine

/-! ## Faults of fetching and of frames -/

namespace Reader

/-- There is no word at an address that lies past the end of the code, or that fewer than two bytes
follow. -/
theorem cases_of_wordAt_eq_error {bytes : Array UInt8} {pc : Nat} {fault : Fault}
    (h : wordAt bytes pc = .error fault) :
    bytes.size < pc ∧ fault = .invalidAddress (reportedAddress pc) ∨
      (pc ≤ bytes.size ∧ bytes.size < pc + 2) ∧ fault = .endOfCode pc bytes.size := by
  unfold wordAt at h
  split at h
  · rename_i haddress
    cases h
    exact .inl ⟨haddress, rfl⟩
  · rename_i haddress
    split at h
    · rename_i hend
      cases h
      exact .inr ⟨⟨Nat.not_lt.mp haddress, hend⟩, rfl⟩
    · cases h

end Reader

namespace Machine

/-- A machine on which a call could not be laid out is not halted. -/
theorem halted_of_enter_eq_error {offset : Nat} {args : List Value} {m m' : Machine} {fault : Fault}
    (h : enter offset args m = .error fault m') : m'.halted = false := by
  obtain ⟨-, rfl⟩ := eq_of_enter_eq_error h
  rfl

/-- Laying out a call takes nothing from a stack. -/
theorem ne_stackUnderflow_of_enter {offset : Nat} {args : List Value} {m m' : Machine} {fault : Fault}
    (h : enter offset args m = .error fault m') (stack : StackName) : fault ≠ .stackUnderflow stack := by
  obtain rfl | ⟨-, rfl⟩ := cases_of_enter_eq_error h
  · exact nofun
  · exact nofun

end Machine

namespace Interpreter

open Reader

/-! ## Steps that do not run on -/

section Steps

variable {vm u : Interpreter}

/-- A step fails for want of a word, without a site, or at the pending instruction. -/
theorem cases_of_step_eq_error {failure : Failure} (h : step vm = .error failure u) :
    (∃ fault, wordAt vm.script.bytes vm.machine.pc = .error fault ∧ failure = .unlocated fault) ∨
      ∃ (op : Opcode) (fault : Fault), wordAt vm.script.bytes vm.machine.pc = .ok op.word ∧
        failure = .atInstruction vm.machine.pc op.mnemonic fault := by
  have hword {op : Opcode} (hop : vm.next? = some op) :
      wordAt vm.script.bytes vm.machine.pc = .ok op.word :=
    (pending?_eq_some_iff.mp (next?_eq_some_iff.mp hop).2).2
  have hstep := stepsTo_step vm
  rw [h] at hstep
  generalize hresult : EStateM.Result.error failure u = result at hstep
  cases hstep with
  | halted | undecodable | executed => cases hresult
  | unreadable hrunning hnone =>
    cases hresult
    exact .inl ⟨_, hnone, rfl⟩
  | refused hop hlimit hspent =>
    cases hresult
    exact .inr ⟨_, _, (pending?_eq_some_iff.mp hop).2, rfl⟩
  | truncated hop hoperand =>
    cases hresult
    exact .inr ⟨_, _, hword hop, rfl⟩
  | failed hop hoperand hexecute =>
    cases hresult
    exact .inr ⟨_, _, hword hop, rfl⟩

/-- A step that fails has changed at most the stacks of the machine. -/
theorem registers_of_step_eq_error {β : Type} {aspect : Machine → β} {failure : Failure}
    (hdata : ∀ m data, aspect { m with data := data } = aspect m)
    (hret : ∀ m ret, aspect { m with ret := ret } = aspect m) (h : step vm = .error failure u) :
    aspect u.machine = aspect vm.machine := by
  have hstep := stepsTo_step vm
  rw [h] at hstep
  generalize hresult : EStateM.Result.error failure u = result at hstep
  cases hstep with
  | halted | undecodable | executed => cases hresult
  | unreadable | refused | truncated =>
    cases hresult
    rfl
  | failed hop hoperand hexecute =>
    cases hresult
    exact Machine.execute_keepsOnFailure _ _ _ aspect hdata hret _ _ _ hexecute

/-- Only a machine that is not halted fails a step. -/
theorem running_of_step_eq_error {failure : Failure} (h : step vm = .error failure u) :
    vm.machine.halted = false := by
  cases hhalted : vm.machine.halted with
  | false => rfl
  | true =>
    rw [(StepsTo.halted hhalted).eq_step] at h
    cases h

/-- A step stops at a word that is not an instruction, and leaves the machine as it is. -/
theorem eq_of_step_eq_stopped {stop : Stop} (h : step vm = .ok (.stopped stop) u) :
    u.machine = vm.machine ∧ vm.machine.halted = false ∧ stop.pc = vm.machine.pc ∧
      wordAt vm.script.bytes vm.machine.pc = .ok stop.word ∧ Opcode.ofWord? stop.word = none := by
  have hstep := stepsTo_step vm
  rw [h] at hstep
  generalize hresult : EStateM.Result.ok (Status.stopped stop) u = result at hstep
  cases hstep with
  | halted | unreadable | refused | truncated | failed => cases hresult
  | undecodable hrunning hword hop =>
    cases hresult
    exact ⟨rfl, hrunning, rfl, hword, hop⟩
  | @executed op operand flow m hop hoperand hexecute =>
    cases hhalted : m.halted <;> simp [hhalted] at hresult

/-- A step that finds or leaves the machine halted ends on a halted machine. -/
theorem halted_of_step_eq_halted (h : step vm = .ok .halted u) : u.machine.halted = true := by
  have hstep := stepsTo_step vm
  rw [h] at hstep
  generalize hresult : EStateM.Result.ok Status.halted u = result at hstep
  cases hstep with
  | unreadable | undecodable | refused | truncated | failed => cases hresult
  | halted hhalted =>
    cases hresult
    exact hhalted
  | @executed op operand flow m hop hoperand hexecute =>
    obtain ⟨hstatus, rfl⟩ := EStateM.Result.ok.inj hresult
    cases hhalted : m.halted with
    | true => rfl
    | false => simp [hhalted] at hstatus

end Steps

/-! ## Runs and their last step -/

section Runs

variable {n : Nat} {vm final : Interpreter}

/-- The code does not change before the last step. -/
private theorem bytes_of_unfinished {k : Nat} {u : Interpreter}
    (h : runFor k vm = .ok .unfinished u) : u.script.bytes = vm.script.bytes := by
  have hfixed := (runFor_fixed k vm).1
  rw [h] at hfixed
  exact hfixed

/-- A run fails where its program counter stands, and the machine is not halted. -/
theorem cases_of_runFor_eq_error {failure : Failure} (h : runFor n vm = .error failure final) :
    final.machine.halted = false ∧
      ((∃ fault, wordAt vm.script.bytes final.machine.pc = .error fault ∧
          failure = .unlocated fault) ∨
        ∃ (op : Opcode) (fault : Fault), wordAt vm.script.bytes final.machine.pc = .ok op.word ∧
          failure = .atInstruction final.machine.pc op.mnemonic fault) := by
  have hended : Ended (runFor n vm) := by
    rw [h]
    trivial
  obtain ⟨k, u, hu, hlast⟩ := exists_last_step hended
  rw [h, runFor_one] at hlast
  split at hlast
  · cases hlast
  · rename_i failure' final' hstep
    cases hlast
    have hpc : final.machine.pc = u.machine.pc :=
      registers_of_step_eq_error (fun _ _ => rfl) (fun _ _ => rfl) hstep
    have hhalted : final.machine.halted = u.machine.halted :=
      registers_of_step_eq_error (fun _ _ => rfl) (fun _ _ => rfl) hstep
    rw [hhalted, hpc, ← bytes_of_unfinished hu]
    exact ⟨running_of_step_eq_error hstep, cases_of_step_eq_error hstep⟩

/-- A run stops where its program counter stands, and the machine is not halted. -/
theorem eq_of_runFor_eq_stopped {stop : Stop} (h : runFor n vm = .ok (.stopped stop) final) :
    final.machine.halted = false ∧ stop.pc = final.machine.pc ∧
      wordAt vm.script.bytes final.machine.pc = .ok stop.word ∧ Opcode.ofWord? stop.word = none := by
  have hended : Ended (runFor n vm) := by
    rw [h]
    trivial
  obtain ⟨k, u, hu, hlast⟩ := exists_last_step hended
  rw [h, runFor_one] at hlast
  split at hlast
  · rename_i status final' hstep
    cases status with
    | running | halted => cases hlast
    | stopped stop' =>
      cases hlast
      obtain ⟨hmachine, hrest⟩ := eq_of_step_eq_stopped hstep
      rw [hmachine, ← bytes_of_unfinished hu]
      exact hrest
  · cases hlast

/-- A run that halts leaves the machine halted. -/
theorem halted_of_runFor_eq_halted (h : runFor n vm = .ok .halted final) :
    final.machine.halted = true := by
  have hended : Ended (runFor n vm) := by
    rw [h]
    trivial
  obtain ⟨k, u, -, hlast⟩ := exists_last_step hended
  rw [h, runFor_one] at hlast
  split at hlast
  · rename_i status final' hstep
    cases status with
    | running | stopped stop => cases hlast
    | halted =>
      cases hlast
      exact halted_of_step_eq_halted hstep
  · cases hlast

end Runs

/-! ## Calls -/

/-- Why a call of a procedure failed where no instruction is to blame. -/
inductive Unplaced (vm : Interpreter) (procedure : Procedure) (args : List Value) :
    Fault → Interpreter → Prop
  /-- The frame could not be laid out. -/
  | layout {fault : Fault} {final : Interpreter}
      (henter : Machine.enter procedure.offset args vm.machine = .error fault final.machine) :
      Unplaced vm procedure args fault final
  /-- The program counter is past the end of the code. -/
  | pastEnd {final : Interpreter} (hpc : vm.script.bytes.size < final.machine.pc) :
      Unplaced vm procedure args (.invalidAddress (reportedAddress final.machine.pc)) final
  /-- Fewer than two bytes are left at the program counter. -/
  | cutOff {final : Interpreter} (hpc : final.machine.pc ≤ vm.script.bytes.size)
      (hend : vm.script.bytes.size < final.machine.pc + 2) :
      Unplaced vm procedure args (.endOfCode final.machine.pc vm.script.bytes.size) final
  /-- The word at the program counter is not an instruction. -/
  | undecodable {word : UInt16} {final : Interpreter}
      (hword : wordAt vm.script.bytes final.machine.pc = .ok word) (hop : Opcode.ofWord? word = none) :
      Unplaced vm procedure args (.unimplementedOpcode word final.machine.pc) final
  /-- The machine halted with nothing on the data stack. -/
  | noResult {final : Interpreter} (hhalted : final.machine.halted = true)
      (hdata : final.machine.data = #[]) : Unplaced vm procedure args (.stackUnderflow .data) final

/-- The site of a failed call names the procedure. If it names an instruction, that is the one at the
program counter; if not, no instruction is to blame. -/
structure TrueSite (vm : Interpreter) (name : String) (procedure : Procedure) (args : List Value)
    (failure : Failure) (final : Interpreter) (site : Site) : Prop where
  attached : failure.site = some site
  named : site.procedure = some name
  instruction {pc : Nat} (h : site.pc = some pc) :
    pc = final.machine.pc ∧ ∃ word op, wordAt vm.script.bytes pc = .ok word ∧
      Opcode.ofWord? word = some op ∧ site.mnemonic = some op.mnemonic
  unplaced (h : site.pc = none) :
    site.mnemonic = none ∧ Unplaced vm procedure args failure.fault final
  halted_iff : final.machine.halted = true ↔ site.pc = none ∧ failure.fault = .stackUnderflow .data

section Calls

variable {vm final : Interpreter} {name : String} {procedure : Procedure} {args : List Value}

/-- A failure without an instruction to blame has a true site once the procedure is named. -/
theorem trueSite_of_unplaced {fault : Fault} (h : Unplaced vm procedure args fault final)
    (hhalted : final.machine.halted = true ↔ fault = .stackUnderflow .data) :
    TrueSite vm name procedure args ((Failure.unlocated fault).within name) final
      { procedure := some name } where
  attached := rfl
  named := rfl
  instruction := nofun
  unplaced _ := ⟨rfl, h⟩
  halted_iff := hhalted.trans ⟨fun hfault => ⟨rfl, hfault⟩, And.right⟩

/-- A failure at the instruction at the program counter has a true site once the procedure is named. -/
theorem trueSite_of_instruction {op : Opcode} (fault : Fault)
    (hword : wordAt vm.script.bytes final.machine.pc = .ok op.word)
    (hrunning : final.machine.halted = false) :
    TrueSite vm name procedure args
      ((Failure.atInstruction final.machine.pc op.mnemonic fault).within name) final
      { Site.instruction final.machine.pc op.mnemonic with procedure := some name } where
  attached := rfl
  named := rfl
  instruction h := by
    cases h
    exact ⟨rfl, op.word, op, hword, Opcode.ofWord?_word op, rfl⟩
  unplaced := nofun
  halted_iff := by
    rw [hrunning]
    exact ⟨nofun, fun h => nomatch h.1⟩

/-- A failure in the run of a call, or after it, has a true site. -/
theorem exists_trueSite_of_conclude {fuel : Nat} {failure : Failure} {start : Interpreter}
    (hbytes : start.script.bytes = vm.script.bytes)
    (h : conclude name (runFor fuel start) = .error failure final) :
    ∃ site, TrueSite vm name procedure args failure final site := by
  cases hrun : runFor fuel start with
  | error cause u =>
    rw [hrun] at h
    cases h
    obtain ⟨hrunning, hcause⟩ := cases_of_runFor_eq_error hrun
    rw [hbytes] at hcause
    obtain ⟨fault, hword, rfl⟩ | ⟨op, fault, hword, rfl⟩ := hcause
    · have hreading : fault ≠ .stackUnderflow .data := by
        have hfault := ofReading_of_wordAt hword
        rintro rfl
        cases hfault
      refine ⟨_, trueSite_of_unplaced ?_ (by simp [hrunning, hreading])⟩
      obtain ⟨hpc, rfl⟩ | ⟨⟨hpc, hend⟩, rfl⟩ := cases_of_wordAt_eq_error hword
      · exact .pastEnd hpc
      · exact .cutOff hpc hend
    · exact ⟨_, trueSite_of_instruction fault hword hrunning⟩
  | ok outcome u =>
    rw [hrun] at h
    cases outcome with
    | unfinished => cases h
    | stopped stop =>
      cases h
      obtain ⟨hrunning, hpc, hword, hop⟩ := eq_of_runFor_eq_stopped hrun
      rw [hbytes] at hword
      refine ⟨_, trueSite_of_unplaced ?_ (by simp [hrunning, Stop.fault])⟩
      rw [Stop.fault, hpc]
      exact .undecodable hword hop
    | halted =>
      have hhalted := halted_of_runFor_eq_halted hrun
      cases hresult : u.machine.data.back? with
      | some value =>
        rw [conclude_of_result name hresult] at h
        cases h
      | none =>
        rw [conclude_of_empty name hresult] at h
        cases h
        refine ⟨_, trueSite_of_unplaced (.noResult hhalted ?_) (by simp [hhalted])⟩
        simpa using hresult

/-- A failure of a call of a known procedure has a true site. -/
theorem exists_trueSite_of_callWithin {fuel : Nat} {failure : Failure}
    (hname : vm.catalog.procedure? name = some procedure)
    (h : callWithin fuel name args vm = .error failure final) :
    ∃ site, TrueSite vm name procedure args failure final site := by
  cases henter : Machine.enter procedure.offset args vm.machine with
  | error fault m =>
    rw [callWithin_of_layout_error fuel hname henter] at h
    cases h
    have hrunning : m.halted = false := Machine.halted_of_enter_eq_error henter
    have hfault := Machine.ne_stackUnderflow_of_enter henter .data
    exact ⟨_, trueSite_of_unplaced (.layout henter) (by simp [resolved, hrunning, hfault])⟩
  | ok _ m =>
    rw [callWithin_of_layout fuel hname henter] at h
    have hbytes : (vm.resolved name args procedure m).restart.script.bytes = vm.script.bytes := rfl
    exact exists_trueSite_of_conclude hbytes h

end Calls

/-- A failed call says truthfully where it failed.

The failure has a site, which names the procedure. If it names an address, that is the program counter
of the machine, and it names the mnemonic of the instruction there. If it names no address, then no
mnemonic either, and either the frame could not be laid out, or there is no word or no instruction at
the program counter, or the machine halted without a result. Only in the last case is the machine
halted. -/
theorem failed_calls_say_where {vm : Interpreter} {name : String} {procedure : Procedure}
    (hname : vm.catalog.procedure? name = some procedure) (args : List Value) :
    (∀ fuel failure final, callWithin fuel name args vm = .error failure final →
      ∃ site, TrueSite vm name procedure args failure final site) ∧
    ∀ failure final, call name args vm = .error failure final →
      ∃ site, TrueSite vm name procedure args failure final site := by
  have hcalls (fuel : Nat) (failure : Failure) (final : Interpreter)
      (hcall : callWithin fuel name args vm = .error failure final) :
      ∃ site, TrueSite vm name procedure args failure final site :=
    exists_trueSite_of_callWithin hname hcall
  exact ⟨hcalls, hcalls vm.config.stepBudget⟩

/-- A script with one procedure, which pops twice. Called without arguments it finds only their number
on the data stack. -/
def poppingScript : Interpreter :=
  ofCode #[0x1A, 0x80, 0x1A, 0x80] (Catalog.empty.withProcedure "drain" 0) .standard

/-- The second pop is named as the place of the failure, and the program counter is still there. -/
theorem failed_calls_say_where_drain :
    poppingScript.catalog.procedure? "drain" = some ⟨"drain", 0⟩ ∧
      ∃ failure final site, callWithin 2 "drain" [] poppingScript = .error failure final ∧
        TrueSite poppingScript "drain" ⟨"drain", 0⟩ [] failure final site ∧
        site.pc = some 2 ∧ site.mnemonic = some "pop" ∧ final.machine.pc = 2 := by
  have hname : poppingScript.catalog.procedure? "drain" = some ⟨"drain", 0⟩ := by
    simp [poppingScript, ofCode, Catalog.procedure?, Catalog.empty]
  have hanswer : answer (callWithin 2 "drain" [] poppingScript) =
      .error ⟨.stackUnderflow .data, some ⟨some "drain", some 2, some "pop"⟩⟩ := by
    rw [callWithin_of_layout 2 hname rfl]
    decide +kernel
  cases hcall : callWithin 2 "drain" [] poppingScript with
  | ok value final =>
    rw [hcall] at hanswer
    cases hanswer
  | error failure final =>
    rw [hcall] at hanswer
    cases hanswer
    obtain ⟨site, hsite⟩ := (failed_calls_say_where hname []).1 2 _ final hcall
    obtain rfl := Option.some.inj hsite.attached
    exact ⟨hname, _, final, _, rfl, hsite, rfl, rfl, (hsite.instruction rfl).1.symm⟩

end Interpreter

end ScriptMachine
