import ScriptMachine.Proofs.Instructions
import ScriptMachine.Proofs.Listings
import ScriptMachine.Proofs.Runs

/-!
# Executing a listing

`stepListed` executes a listing line by line. It looks its line up by offset and takes word, opcode
and immediate from there; the code itself it never sees. `Follows.results_eq` says that the
interpreter does the same on the code the listing was made from, as long as control is only
transferred to offsets of lines: step by step the same statuses, failures and states.

The two agree although they find instructions differently. The interpreter decodes at the program
counter and reads an operand when the opcode asks for one, the listing was cut into lines from the
beginning of the code.
-/

namespace ScriptMachine

open Instruction

/-- The line at an offset, with the lines after it. -/
def lineAt? (pc : Nat) : List Instruction → Option (Instruction × List Instruction)
  | [] => none
  | line :: rest => if line.offset = pc then some (line, rest) else lineAt? pc rest

/-- A line that is found has the offset and stands in the listing. -/
theorem exists_of_lineAt?_eq_some {pc : Nat} {listing after : List Instruction} {line : Instruction}
    (h : lineAt? pc listing = some (line, after)) :
    line.offset = pc ∧ ∃ before, listing = before ++ line :: after := by
  induction listing with
  | nil => cases h
  | cons first rest ih =>
    rw [lineAt?] at h
    split at h
    · rename_i hoffset
      cases h
      exact ⟨hoffset, [], rfl⟩
    · obtain ⟨hoffset, before, hrest⟩ := ih h
      refine ⟨hoffset, first :: before, ?_⟩
      rw [hrest]
      rfl

/-- No line is found only where none begins. -/
theorem not_mem_offsets_of_lineAt?_eq_none {pc : Nat} {listing : List Instruction}
    (h : lineAt? pc listing = none) : pc ∉ listing.map Instruction.offset := by
  induction listing with
  | nil => simp
  | cons first rest ih =>
    rw [lineAt?] at h
    split at h
    · cases h
    · rename_i hoffset
      rw [List.map_cons, List.mem_cons]
      intro hmem
      obtain heq | hmem := hmem
      · exact hoffset heq.symm
      · exact ih h hmem

/-- The number of bytes that a listing stands for. -/
def listedLength (listing : List Instruction) : Nat :=
  (listing.flatMap encoding).length

/-- A listing stands for the code it was made from. -/
theorem listedLength_of_disassemble {code : Array UInt8} {listing : List Instruction}
    (h : disassemble code = .ok listing) : listedLength listing = code.size := by
  rw [listedLength, (listing_of_disassembleFrom h).2.2, Array.length_toList]

namespace Interpreter

open Reader

/-- The step limit, if it is used up. -/
def spent? (vm : Interpreter) : Option UInt64 :=
  vm.config.maxSteps.filter fun limit => decide (limit ≤ vm.steps)

/-- The limit is used up, or it allows one more instruction. -/
theorem spent?_eq_none_iff {vm : Interpreter} : vm.spent? = none ↔ vm.withinLimit = true := by
  unfold spent? withinLimit
  cases vm.config.maxSteps with
  | none => simp
  | some limit => simp [UInt64.not_le]

/-- An interpreter without its code. -/
def forgetCode (vm : Interpreter) : Interpreter :=
  { vm with script := {} }

/-- One step of the machine that executes a listing: it finds its line by offset and falls through
to the line that follows. -/
def stepListed (listing : List Instruction) : Session Status := fun vm =>
  let pc := vm.machine.pc
  if vm.machine.halted then .ok .halted vm
  else
    match lineAt? pc listing with
    | none => .error (.unlocated (.endOfCode pc (listedLength listing))) vm
    | some (line, after) =>
      match line.opcode with
      | none => .ok (.stopped ⟨line.word, pc⟩) (vm.logged (.unimplemented line.word pc))
      | some op =>
        match vm.spent? with
        | some limit => .error (.atInstruction pc op.mnemonic (.stepLimit limit))
            (vm.logged (.stepLimitReached pc limit))
        | none =>
          match Machine.execute vm.catalog (line.immediate.getD 0) op vm.machine with
          | .error fault m => .error (.atInstruction pc op.mnemonic fault)
              { vm.counted op with machine := m }
          | .ok flow m => .ok (if m.halted then .halted else .running)
              { vm.counted op with
                machine := { m with pc := flow.target (startOf after (listedLength listing)) } }

/-! ## One step at a line -/

section Line

variable {vm : Interpreter} {line : Instruction} {after : List Instruction}
  (hrunning : vm.machine.halted = false) (hline : Lists vm.script.bytes line after)
  (hpc : vm.machine.pc = line.offset)

include hrunning hline hpc

/-- A line without an opcode stops the interpreter. -/
theorem step_of_undecoded_line (hop : line.opcode = none) :
    step vm = .ok (.stopped ⟨line.word, line.offset⟩)
      ((vm.withCursor (line.offset + 2)).logged (.unimplemented line.word line.offset)) := by
  have hword := hline.word
  have hdecode : Opcode.ofWord? line.word = none := by rw [← hline.formed.1, hop]
  rw [← hpc] at hword ⊢
  exact (StepsTo.undecodable hrunning hword hdecode).eq_step

/-- What is pending at a line is its opcode. -/
theorem pending?_of_line : vm.pending? = line.opcode := by
  simp only [pending?, hrunning, hpc, hline.word, hline.formed.1]
  rfl

/-- A line is executed with its own opcode and immediate. -/
theorem step_of_line {op : Opcode} (hop : line.opcode = some op) (hlimit : vm.withinLimit = true) :
    step vm =
      match Machine.execute vm.catalog (line.immediate.getD 0) op vm.machine with
      | .error fault m => .error (.atInstruction line.offset op.mnemonic fault)
          { (vm.counted op).withCursor (line.offset + op.encodedLength) with machine := m }
      | .ok flow m => .ok (if m.halted then .halted else .running)
          { (vm.counted op).withCursor (line.offset + op.encodedLength) with
            machine := { m with pc := flow.target (line.offset + op.encodedLength) } } := by
  have hnext : vm.next? = some op :=
    next?_eq_some_iff.mpr ⟨hlimit, (pending?_of_line hrunning hline hpc).trans hop⟩
  have hoperand := hline.operand hop
  rw [← hpc] at hoperand ⊢
  cases hexecute : Machine.execute vm.catalog (line.immediate.getD 0) op vm.machine with
  | error fault m => exact (StepsTo.failed hnext hoperand hexecute).eq_step
  | ok flow m => exact (StepsTo.executed hnext hoperand hexecute).eq_step

end Line

/-- At a line the code does not end. -/
theorem ne_endOfCode_of_line {vm u : Interpreter} {line : Instruction} {after : List Instruction}
    {failure : Failure} (hline : Lists vm.script.bytes line after)
    (hpc : vm.machine.pc = line.offset) (hstep : step vm = .error failure u) (offset length : Nat) :
    failure.fault ≠ .endOfCode offset length := by
  intro hfault
  have hsteps := stepsTo_step vm
  rw [hstep] at hsteps
  generalize hresult : EStateM.Result.error failure u = result at hsteps
  cases hsteps with
  | unreadable hrunning hword =>
    rw [hpc, hline.word] at hword
    cases hword
  | refused hop hlimit hspent =>
    cases hresult
    cases hfault
  | @truncated op fault hop hoperand =>
    have hpending := (next?_eq_some_iff.mp hop).2
    have hrunning := (pending?_eq_some_iff.mp hpending).1
    have hopcode := (pending?_of_line hrunning hline hpc).symm.trans hpending
    rw [hpc, hline.operand hopcode] at hoperand
    cases hoperand
  | @failed op operand fault m hop hoperand hexecute =>
    have hforeseen := Machine.execute_raises vm.catalog operand op vm.machine
    rw [hexecute] at hforeseen
    cases hresult
    cases hfault
    cases hforeseen
  | _ => cases hresult

/-- A line with an opcode is followed by the next one. -/
theorem following_of_line {code : Array UInt8} {line : Instruction} {after : List Instruction}
    (hline : Lists code line after) {op : Opcode} (hop : line.opcode = some op) :
    line.offset + op.encodedLength = startOf after code.size := by
  have hlength := hline.formed.length_encoding
  rw [hop, Option.map_some, Option.getD_some] at hlength
  rw [← hline.following, hlength]

/-- Past the last line the code ends. -/
theorem wordAt_of_eq_size {code : Array UInt8} {pc : Nat} (h : pc = code.size) :
    wordAt code pc = .error (.endOfCode pc code.size) := by
  rw [wordAt, if_neg (by omega), if_pos (by omega)]

/-- On a line of the listing or past the last one, the interpreter steps as the listing machine
does. -/
theorem mapState_forgetCode_step {vm : Interpreter} {listing : List Instruction}
    (hlisting : disassemble vm.script.bytes = .ok listing)
    (hpc : vm.machine.pc ∈ listing.map Instruction.offset ∨ vm.machine.pc = vm.script.bytes.size) :
    mapState forgetCode (step vm) = stepListed listing vm.forgetCode := by
  have hlength := listedLength_of_disassemble hlisting
  have hmachine : vm.forgetCode.machine = vm.machine := rfl
  have hspent : vm.forgetCode.spent? = vm.spent? := rfl
  have hcatalog : vm.forgetCode.catalog = vm.catalog := rfl
  unfold stepListed
  simp only [hmachine, hlength, hspent, hcatalog]
  cases hrunning : vm.machine.halted with
  | true =>
    rw [(StepsTo.halted hrunning).eq_step]
    rfl
  | false =>
    cases hfound : lineAt? vm.machine.pc listing with
    | none =>
      -- Without a line here, control is past the last one, where both find the code to end.
      have hend := hpc.resolve_left (not_mem_offsets_of_lineAt?_eq_none hfound)
      rw [(StepsTo.unreadable hrunning (wordAt_of_eq_size hend)).eq_step]
      rfl
    | some found =>
      obtain ⟨line, after⟩ := found
      -- That no other line has this offset is not needed: any line found tells the truth.
      obtain ⟨hoffset, before, rfl⟩ := exists_of_lineAt?_eq_some hfound
      have hline := lists_of_disassemble hlisting
      cases hop : line.opcode with
      | none =>
        rw [step_of_undecoded_line hrunning hline hoffset.symm hop, hoffset]
        simp only [hop]
        rfl
      | some op =>
        simp only [hop]
        cases hlimit : vm.spent? with
        | some limit =>
          obtain ⟨hmax, hle⟩ := Option.filter_eq_some_iff.mp hlimit
          have hpending := (pending?_of_line hrunning hline hoffset.symm).trans hop
          rw [(StepsTo.refused hpending hmax (of_decide_eq_true hle)).eq_step]
          rfl
        | none =>
          have hwithin := spent?_eq_none_iff.mp hlimit
          rw [step_of_line hrunning hline hoffset.symm hop hwithin, following_of_line hline hop,
            hoffset]
          cases Machine.execute vm.catalog (line.immediate.getD 0) op vm.machine with
          | error fault m => rfl
          | ok flow m => rfl

/-! ## Runs along a listing -/

/-- The address that the next step transfers control to, unless it falls through or fails. -/
def jumpTarget? (vm : Interpreter) : Option Nat :=
  match vm.next? with
  | none => none
  | some op =>
    match operandAt vm.script.bytes vm.machine.pc op with
    | .error _ => none
    | .ok operand =>
      match Machine.execute vm.catalog operand op vm.machine with
      | .ok (.jump target) _ => some target
      | _ => none

/-- The addresses that the first steps of a run transfer control to. -/
def targets (n : Nat) (vm : Interpreter) : List Nat :=
  (executing n vm).filterMap jumpTarget?

/-- The run follows the listing: control is on a line or past the last one, and the next `n` steps
transfer it to lines only. -/
structure Follows (listing : List Instruction) (n : Nat) (vm : Interpreter) : Prop where
  listed : disassemble vm.script.bytes = .ok listing
  position : vm.machine.pc ∈ listing.map Instruction.offset ∨ vm.machine.pc = vm.script.bytes.size
  targets : ∀ target ∈ targets n vm, target ∈ listing.map Instruction.offset

/-- Where nothing is read beyond the code, control is on a line. -/
theorem Follows.exists_line {listing : List Instruction} {n : Nat} {vm : Interpreter}
    (h : Follows listing n vm) (hpc : vm.machine.pc ≠ vm.script.bytes.size) :
    ∃ line after, vm.machine.pc = line.offset ∧ Lists vm.script.bytes line after ∧
      (startOf after vm.script.bytes.size ∈ listing.map Instruction.offset ∨
        startOf after vm.script.bytes.size = vm.script.bytes.size) := by
  obtain ⟨line, hmem, hoffset⟩ := List.mem_map.mp (h.position.resolve_right hpc)
  obtain ⟨before, after, rfl⟩ := List.append_of_mem hmem
  refine ⟨line, after, hoffset.symm, lists_of_disassemble h.listed, ?_⟩
  cases after with
  | nil => exact .inr rfl
  | cons next rest =>
    refine .inl (List.mem_map_of_mem (f := Instruction.offset) (a := next) ?_)
    simp

/-- A step along the listing is followed by a run along the listing. -/
theorem Follows.next {listing : List Instruction} {n : Nat} {vm u : Interpreter}
    (h : Follows listing (n + 1) vm) (hstep : step vm = .ok .running u) : Follows listing n u := by
  obtain ⟨op, hop⟩ := Option.isSome_iff_exists.mp (next?_isSome_of_running hstep)
  obtain ⟨operand, flow, m, hoperand, hexecute, -, rfl⟩ := exists_executed_of_step_eq_ok hop hstep
  have hpending := (next?_eq_some_iff.mp hop).2
  have htargets := h.targets
  rw [Interpreter.targets, executing_of_running n hstep] at htargets
  refine ⟨h.listed, ?_, fun target htarget => htargets target ?_⟩
  -- A jump goes to a line by assumption, falling through by the way lines follow each other.
  · cases flow with
    | jump target =>
      have htarget : vm.jumpTarget? = some target := by
        simp only [jumpTarget?, hop, hoperand, hexecute]
      refine .inl (htargets target ?_)
      rw [List.filterMap_cons_some htarget]
      exact List.mem_cons_self
    | next =>
      have hpc : vm.machine.pc ≠ vm.script.bytes.size := by
        intro hend
        rw [pending?_of_unreadable (wordAt_of_eq_size hend)] at hpending
        cases hpending
      obtain ⟨line, after, hoffset, hline, hafter⟩ := h.exists_line hpc
      have hrunning := (pending?_eq_some_iff.mp hpending).1
      have hline' : line.opcode = some op :=
        (pending?_of_line hrunning hline hoffset).symm.trans hpending
      change vm.machine.pc + op.encodedLength ∈ _ ∨ vm.machine.pc + op.encodedLength = _
      rw [hoffset, following_of_line hline hline']
      exact hafter
  · obtain ⟨v, hv, hvtarget⟩ := List.mem_filterMap.mp htarget
    exact List.mem_filterMap.mpr ⟨v, List.mem_cons_of_mem _ hv, hvtarget⟩

/-- Along a listing, the code is found to end only past the last line. -/
theorem Follows.eq_of_endOfCode {listing : List Instruction} {n : Nat} {vm u : Interpreter}
    {failure : Failure} {offset length : Nat} (h : Follows listing n vm)
    (hstep : step vm = .error failure u) (hfault : failure.fault = .endOfCode offset length) :
    failure = .unlocated (.endOfCode vm.script.bytes.size vm.script.bytes.size) ∧
      u.machine = vm.machine ∧ vm.machine.pc = vm.script.bytes.size := by
  by_cases hpc : vm.machine.pc = vm.script.bytes.size
  · cases hrunning : vm.machine.halted with
    | true =>
      rw [(StepsTo.halted hrunning).eq_step] at hstep
      cases hstep
    | false =>
      rw [(StepsTo.unreadable hrunning (wordAt_of_eq_size hpc)).eq_step] at hstep
      cases hstep
      rw [hpc]
      exact ⟨rfl, rfl, rfl⟩
  · obtain ⟨line, after, hoffset, hline, -⟩ := h.exists_line hpc
    exact absurd hfault (ne_endOfCode_of_line hline hoffset hstep offset length)

/-- A run along a listing is the run of the listing machine. -/
theorem Follows.results_eq {listing : List Instruction} {n : Nat} {vm : Interpreter}
    (h : Follows listing n vm) :
    (results step n vm).map (mapState forgetCode) = results (stepListed listing) n vm.forgetCode :=
  results_map (fun _ _ _ hfollows hstep => hfollows.next hstep)
    (fun _ _ hfollows => mapState_forgetCode_step hfollows.listed hfollows.position) h

/-- A run along a listing fails for want of code only past the last line. -/
theorem Follows.eq_size_of_endOfCode {listing : List Instruction} {n : Nat} {vm u : Interpreter}
    {failure : Failure} {offset length : Nat} (h : Follows listing n vm)
    (hmem : .error failure u ∈ results step n vm) (hfault : failure.fault = .endOfCode offset length) :
    failure = .unlocated (.endOfCode vm.script.bytes.size vm.script.bytes.size) ∧
      u.machine.pc = vm.script.bytes.size := by
  have hall : ∀ result ∈ results step n vm, result = .error failure u →
      failure = .unlocated (.endOfCode vm.script.bytes.size vm.script.bytes.size) ∧
        u.machine.pc = vm.script.bytes.size := by
    refine results_forall (P := fun n w => Follows listing n w ∧ w.script.bytes = vm.script.bytes)
      ?_ ?_ ⟨h, rfl⟩
    · intro n w w' hw hstep
      have hbytes := (stepsTo_step w).fixed.1
      rw [hstep] at hbytes
      exact ⟨hw.1.next hstep, hbytes.trans hw.2⟩
    · intro n w hw hstep
      obtain ⟨hfailure, hmachine, hpc⟩ := hw.1.eq_of_endOfCode hstep hfault
      rw [hmachine, ← hw.2]
      exact ⟨hfailure, hpc⟩
  exact hall _ hmem rfl

/-- The interpreter executes code as its listing reads.

At a line without an opcode it stops and changes neither the machine nor the step counter. At a line
with an opcode it executes this opcode with the line's immediate, unless the step limit is used up;
it never finds the code to end there, and it falls through to the next line, or to the end of the
code after the last. So a run that transfers control to lines only comes, step by step, to what the
listing machine comes to, and it fails for want of code only when it falls off the end. -/
theorem interpreter_agrees_with_listing {code : Array UInt8} {before after : List Instruction}
    {line : Instruction} (hlisting : disassemble code = .ok (before ++ line :: after))
    (vm : Interpreter) (hcode : vm.script.bytes = code) (hrunning : vm.machine.halted = false)
    (hpc : vm.machine.pc = line.offset) :
    (line.opcode = none →
      step vm = .ok (.stopped ⟨line.word, line.offset⟩)
        ((vm.withCursor (line.offset + 2)).logged (.unimplemented line.word line.offset))) ∧
    (∀ op, line.opcode = some op →
      line.immediate.isSome = op.hasImmediate ∧
      line.offset + op.encodedLength = startOf after code.size ∧
      (vm.withinLimit = true → step vm =
        match Machine.execute vm.catalog (line.immediate.getD 0) op vm.machine with
        | .error fault m => .error (.atInstruction line.offset op.mnemonic fault)
            { (vm.counted op).withCursor (line.offset + op.encodedLength) with machine := m }
        | .ok flow m => .ok (if m.halted then .halted else .running)
            { (vm.counted op).withCursor (line.offset + op.encodedLength) with
              machine := { m with pc := flow.target (line.offset + op.encodedLength) } })) ∧
    (∀ failure u, step vm = .error failure u →
      ∀ offset length, failure.fault ≠ .endOfCode offset length) ∧
    ∀ n, (∀ target ∈ targets n vm, target ∈ (before ++ line :: after).map Instruction.offset) →
      (results step n vm).map (mapState forgetCode) =
        results (stepListed (before ++ line :: after)) n vm.forgetCode ∧
      mapState forgetCode (runFor n vm) =
        endOf vm.forgetCode (results (stepListed (before ++ line :: after)) n vm.forgetCode) ∧
      ∀ failure u offset length, .error failure u ∈ results step n vm →
        failure.fault = .endOfCode offset length →
          failure = .unlocated (.endOfCode code.size code.size) ∧ u.machine.pc = code.size := by
  subst hcode
  have hline := lists_of_disassemble hlisting
  refine ⟨step_of_undecoded_line hrunning hline hpc, fun op hop => ⟨?_, ?_, ?_⟩,
    fun failure u hstep => ne_endOfCode_of_line hline hpc hstep, fun n htargets => ?_⟩
  · simpa [hop] using hline.formed.2
  · exact following_of_line hline hop
  · exact step_of_line hrunning hline hpc hop
  · have hposition : vm.machine.pc ∈ (before ++ line :: after).map Instruction.offset := by
      simp [hpc]
    have hfollows : Follows (before ++ line :: after) n vm :=
      ⟨hlisting, .inl hposition, htargets⟩
    refine ⟨hfollows.results_eq, ?_, fun failure u offset length => hfollows.eq_size_of_endOfCode⟩
    rw [runFor_eq_endOf, mapState_endOf, hfollows.results_eq]

/-- Code that jumps over a word that is not an instruction and then halts. -/
def skippingCode : Array UInt8 :=
  #[0x01, 0xC0, 10, 0, 0, 0, 0x04, 0x80, 0xFF, 0xFF, 0x10, 0x80]

/-- The first line of that code. -/
def skippingFirst : Instruction :=
  ⟨0, 0xC001, some .pushD, some 10⟩

/-- The lines after it. -/
def skippingRest : List Instruction :=
  [⟨6, 0x8004, some .jmp, none⟩, ⟨8, 0xFFFF, none, none⟩, ⟨10, 0x8010, some .exitProg, none⟩]

/-- The jump goes to a line, so the run is that of the listing machine. -/
theorem interpreter_agrees_with_listing_skipping :
    disassemble skippingCode = .ok (skippingFirst :: skippingRest) ∧
      targets 3 (ofCode skippingCode .empty .standard) = [10] ∧
      (results step 3 (ofCode skippingCode .empty .standard)).map (mapState forgetCode) =
        results (stepListed (skippingFirst :: skippingRest)) 3
          (ofCode skippingCode .empty .standard).forgetCode := by
  have hlisting : disassemble skippingCode = .ok ([] ++ skippingFirst :: skippingRest) := rfl
  have htargets : targets 3 (ofCode skippingCode .empty .standard) = [10] := by decide +kernel
  have hlines : ∀ target ∈ targets 3 (ofCode skippingCode .empty .standard),
      target ∈ ([] ++ skippingFirst :: skippingRest).map Instruction.offset := by
    rw [htargets]
    decide
  have hrun := (interpreter_agrees_with_listing hlisting (ofCode skippingCode .empty .standard)
    rfl rfl rfl).2.2.2 3 hlines
  exact ⟨hlisting, htargets, hrun.1⟩

end Interpreter

end ScriptMachine
