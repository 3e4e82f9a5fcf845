import ScriptMachine.Proofs.Calls

/-!
# Extending a script

More code after the end of a script, more procedures and strings at new indices do not change what
already worked. A run that never asks for code or for a catalog entry that is not there is the same on
the extended script, step by step: it does not observe how far the code and the catalog reach. Such a
run is `WithinExtent`; only the faults of `Fault.ofExtent` tell of a script's extent.

`step_extended` proves this of one step, wherever the program counter stands. Runs and calls follow, the
latter as `calls_kept_by_extension`.
-/

namespace ScriptMachine

/-- Whether a fault tells that the code or the catalog does not reach further. A negative address lies
outside of all code. -/
def Fault.ofExtent : Fault → Bool
  | unknownProcedure _ | unknownProcedureIndex _ | unknownString _ | endOfCode .. => true
  | invalidAddress address => decide (0 ≤ address)
  | _ => false

/-- An action that does not fail for want of code or of a catalog entry. -/
def WithinExtent {σ α : Type} (result : EStateM.Result Failure σ α) : Prop :=
  ∀ failure final, result = .error failure final → failure.fault.ofExtent = false

/-! ## More code -/

namespace Reader

/-- Reported addresses are not negative. -/
theorem zero_le_reportedAddress (offset : Nat) : 0 ≤ reportedAddress offset := by
  rw [Int64.le_iff_toInt_le, toInt_reportedAddress]
  exact Int.natCast_nonneg _

/-- A part of the code is the same after more code. -/
theorem extract_append_of_le {bytes : Array UInt8} {stop : Nat} (tail : Array UInt8) (start : Nat)
    (h : stop ≤ bytes.size) : (bytes ++ tail).extract start stop = bytes.extract start stop := by
  rw [Array.extract_append, Nat.sub_eq_zero_of_le h, Array.extract_zero, Array.append_empty]

/-- A word that stands in the code is not changed by what follows the code. -/
theorem wordAt_append {bytes : Array UInt8} {pc : Nat} {word : UInt16} (tail : Array UInt8)
    (h : wordAt bytes pc = .ok word) : wordAt (bytes ++ tail) pc = .ok word := by
  unfold wordAt at h ⊢
  split at h
  · cases h
  · split at h
    · cases h
    · have hsize : (bytes ++ tail).size = bytes.size + tail.size := Array.size_append
      rw [if_neg (by omega), if_neg (by omega), extract_append_of_le tail pc (by omega)]
      exact h

/-- An operand that is there is the same after more code. -/
theorem operandAt_append {bytes : Array UInt8} {pc : Nat} {op : Opcode} {operand : Int32}
    (tail : Array UInt8) (h : operandAt bytes pc op = .ok operand) :
    operandAt (bytes ++ tail) pc op = .ok operand := by
  unfold operandAt at h ⊢
  split at h
  · rename_i himmediate
    split at h
    · cases h
    · have hsize : (bytes ++ tail).size = bytes.size + tail.size := Array.size_append
      rw [if_pos himmediate, if_neg (by omega), extract_append_of_le tail (pc + 2) (by omega)]
      exact h
  · rename_i himmediate
    rw [if_neg himmediate]
    exact h

/-- A missing word tells of the extent of the code. -/
theorem ofExtent_of_wordAt {bytes : Array UInt8} {pc : Nat} {fault : Fault}
    (h : wordAt bytes pc = .error fault) : fault.ofExtent = true := by
  unfold wordAt at h
  split at h
  · cases h
    exact decide_eq_true (zero_le_reportedAddress pc)
  · split at h
    · cases h
      rfl
    · cases h

/-- A missing operand tells of the extent of the code. -/
theorem ofExtent_of_operandAt {bytes : Array UInt8} {pc : Nat} {op : Opcode} {fault : Fault}
    (h : operandAt bytes pc op = .error fault) : fault.ofExtent = true := by
  unfold operandAt at h
  split at h
  · split at h
    · cases h
      rfl
    · cases h
  · cases h

end Reader

/-! ## More procedures and strings -/

namespace Catalog

/-- One addition to a catalog. -/
inductive Addition where
  | procedure (name : String) (offset : Nat)
  | string (index : Int32) (text : String)
  deriving DecidableEq

/-- Make an addition. -/
def add (catalog : Catalog) : Addition → Catalog
  | .procedure name offset => catalog.withProcedure name offset
  | .string index text => catalog.addString index text

/-- Make additions in the order of the list. -/
def addAll (catalog : Catalog) (additions : List Addition) : Catalog :=
  additions.foldl add catalog

/-- What is found in the first catalog is found in the second: the procedure of a name of interest,
procedures by index, and strings. -/
structure Extends (catalog extension : Catalog) (name : String) : Prop where
  procedure {procedure : Procedure} (h : catalog.procedure? name = some procedure) :
    extension.procedure? name = some procedure
  procedureAt {index : Int32} {procedure : Procedure} (h : catalog.procedureAt? index = some procedure) :
    extension.procedureAt? index = some procedure
  string {index : Int32} {text : String} (h : catalog.string? index = some text) :
    extension.string? index = some text

section Extends

variable {catalog extension : Catalog} {name : String}

/-- Every catalog extends itself. -/
theorem extends_refl (catalog : Catalog) (name : String) : Extends catalog catalog name :=
  ⟨id, id, id⟩

/-- A procedure of another name may be added. -/
theorem Extends.withProcedure (h : Extends catalog extension name) {other : String}
    (hother : other ≠ name) (offset : Nat) :
    Extends catalog (extension.withProcedure other offset) name where
  procedure hfound := by
    obtain ⟨position, hposition, hentry⟩ := Option.bind_eq_some_iff.mp (h.procedure hfound)
    have hbound := (Array.getElem?_eq_some_iff.mp hentry).1
    simp only [procedure?, positions_withProcedure, procedures_withProcedure,
      Std.HashMap.getElem?_insert, beq_iff_eq, hother, if_false, hposition, Option.bind_eq_bind, Option.bind_some]
    rw [Array.getElem?_push_lt hbound, ← Array.getElem?_eq_getElem hbound, hentry]
  procedureAt hfound := by
    have hkept := h.procedureAt hfound
    unfold procedureAt? at hkept ⊢
    split at hkept
    · cases hkept
    · rename_i hsign
      have hbound := (Array.getElem?_eq_some_iff.mp hkept).1
      rw [if_neg hsign, procedures_withProcedure, Array.getElem?_push_lt hbound,
        ← Array.getElem?_eq_getElem hbound, hkept]
  string hfound := h.string hfound

/-- A string may be added at an index that had none. -/
theorem Extends.addString (h : Extends catalog extension name) {index : Int32}
    (hindex : catalog.string? index = none) (text : String) :
    Extends catalog (extension.addString index text) name where
  procedure hfound := h.procedure hfound
  procedureAt hfound := h.procedureAt hfound
  string {other _} hfound := by
    have hother : index ≠ other := by
      rintro rfl
      rw [hindex] at hfound
      cases hfound
    simp only [string?, Catalog.addString, Std.HashMap.getElem?_insert, beq_iff_eq, hother, if_false]
    exact h.string hfound

/-- Additions that neither redefine the procedure of interest nor replace a string extend a catalog. -/
theorem Extends.addAll {additions : List Addition} (h : Extends catalog extension name)
    (hprocedures : ∀ offset, .procedure name offset ∉ additions)
    (hstrings : ∀ index text, .string index text ∈ additions → catalog.string? index = none) :
    Extends catalog (extension.addAll additions) name := by
  induction additions generalizing extension with
  | nil => exact h
  | cons addition additions ih =>
    have hadd : Extends catalog (extension.add addition) name := by
      cases addition with
      | procedure other offset =>
        refine h.withProcedure ?_ offset
        rintro rfl
        exact hprocedures offset List.mem_cons_self
      | string index text => exact h.addString (hstrings index text List.mem_cons_self) text
    exact ih hadd (fun offset hmem => hprocedures offset (List.mem_cons_of_mem _ hmem))
      fun index text hmem => hstrings index text (List.mem_cons_of_mem _ hmem)

end Extends

end Catalog

/-! ## Instructions -/

/-- An instruction that finds what it looks up in the catalog does the same under an extension. -/
theorem Machine.execute_extends {catalog extension : Catalog} {name : String}
    (h : catalog.Extends extension name) (operand : Int32) (op : Opcode) (m : Machine)
    (hfound : ∀ fault m', execute catalog operand op m = .error fault m' → fault.ofExtent = false) :
    execute extension operand op m = execute catalog operand op m := by
  cases op with
  | pushString =>
    simp only [execute] at hfound ⊢
    cases hstring : catalog.string? operand with
    | some text => rw [h.string hstring]
    | none =>
      rw [hstring] at hfound
      cases hfound _ _ rfl
  | call =>
    simp only [execute] at hfound ⊢
    cases hindex : popInt m with
    | error fault m' => rw [bind_of_error hindex, bind_of_error hindex]
    | ok index m' =>
      rw [bind_of_ok hindex, bind_of_ok hindex]
      rw [bind_of_ok hindex] at hfound
      cases hprocedure : catalog.procedureAt? index with
      | some procedure => rw [h.procedureAt hprocedure]
      | none =>
        rw [hprocedure] at hfound
        cases hfound _ _ rfl
  | _ => rfl

namespace Interpreter

/-- The interpreter with more code and with another catalog. -/
def extended (tail : Array UInt8) (extension : Catalog) (vm : Interpreter) : Interpreter :=
  { vm with script := { vm.script with bytes := vm.script.bytes ++ tail }, catalog := extension }

section Extended

variable {vm : Interpreter} {extension : Catalog} {name : String} (tail : Array UInt8)

/-- A pending instruction is pending on the extended script. -/
theorem pending?_extended {op : Opcode} (h : vm.pending? = some op) :
    (vm.extended tail extension).pending? = some op := by
  obtain ⟨hrunning, hword⟩ := pending?_eq_some_iff.mp h
  exact pending?_eq_some_iff.mpr ⟨hrunning, Reader.wordAt_append tail hword⟩

/-- What is executed next is the same with more code and another catalog. -/
theorem next?_extended {op : Opcode} (h : vm.next? = some op) :
    (vm.extended tail extension).next? = some op := by
  obtain ⟨hlimit, hpending⟩ := next?_eq_some_iff.mp h
  exact next?_eq_some_iff.mpr ⟨hlimit, pending?_extended tail hpending⟩

/-- A step within the extent of a script is the same on the extended script. -/
theorem step_extended (hcatalog : vm.catalog.Extends extension name) (h : WithinExtent (step vm)) :
    mapState (extended tail extension) (step vm) = step (vm.extended tail extension) := by
  have hstep := stepsTo_step vm
  generalize step vm = result at hstep h
  apply Eq.symm
  -- Where code is missing the step would tell so; in all other cases the extended script steps alike.
  cases hstep with
  | halted hhalted =>
    have hstep' : StepsTo (vm.extended tail extension) _ := .halted hhalted
    exact hstep'.eq_step
  | unreadable hrunning hword =>
    have hextent := h _ _ rfl
    rw [Failure.unlocated, Reader.ofExtent_of_wordAt hword] at hextent
    cases hextent
  | undecodable hrunning hword hop =>
    have hstep' : StepsTo (vm.extended tail extension) _ :=
      .undecodable hrunning (Reader.wordAt_append tail hword) hop
    exact hstep'.eq_step
  | refused hop hlimit hspent =>
    have hstep' : StepsTo (vm.extended tail extension) _ :=
      .refused (pending?_extended tail hop) hlimit hspent
    exact hstep'.eq_step
  | truncated hop hoperand =>
    have hextent := h _ _ rfl
    rw [Failure.atInstruction, Reader.ofExtent_of_operandAt hoperand] at hextent
    cases hextent
  | @failed op operand fault m hop hoperand hexecute =>
    have hexecute' := Machine.execute_extends hcatalog operand op vm.machine fun fault' m' heq => by
      rw [hexecute] at heq
      cases heq
      exact h _ _ rfl
    rw [hexecute] at hexecute'
    have hstep' : StepsTo (vm.extended tail extension) _ :=
      .failed (next?_extended tail hop) (Reader.operandAt_append tail hoperand) hexecute'
    exact hstep'.eq_step
  | @executed op operand flow m hop hoperand hexecute =>
    have hexecute' := Machine.execute_extends hcatalog operand op vm.machine fun fault' m' heq => by
      rw [hexecute] at heq
      cases heq
    rw [hexecute] at hexecute'
    have hstep' : StepsTo (vm.extended tail extension) _ :=
      .executed (next?_extended tail hop) (Reader.operandAt_append tail hoperand) hexecute'
    exact hstep'.eq_step

/-- A run within the extent of a script is the same on the extended script. -/
theorem runFor_extended (hcatalog : vm.catalog.Extends extension name) {n : Nat}
    (h : WithinExtent (runFor n vm)) :
    mapState (extended tail extension) (runFor n vm) = runFor n (vm.extended tail extension) := by
  refine runFor_map
    (P := fun n vm => vm.catalog.Extends extension name ∧ WithinExtent (runFor n vm)) ?_ ?_
    ⟨hcatalog, h⟩
  · intro n vm u hvm hstep
    have hfixed := (stepsTo_step vm).fixed
    rw [hstep] at hfixed
    have hsame : u.catalog = vm.catalog := hfixed.2.1
    rw [hsame, ← runFor_succ_of_running n hstep]
    exact hvm
  · intro n vm hvm
    refine step_extended tail hvm.1 fun failure final heq => hvm.2 failure final ?_
    simp only [runFor, heq]

/-- Concluding a call does not look at the script. -/
theorem conclude_extended (result : EStateM.Result Failure Interpreter Outcome) :
    mapState (extended tail extension) (conclude name result) =
      conclude name (mapState (extended tail extension) result) := by
  match result with
  | .error failure vm => rfl
  | .ok (.stopped stop) vm => rfl
  | .ok .unfinished vm => rfl
  | .ok .halted vm =>
    simp only [conclude, mapState, extended]
    cases vm.machine.data.back? <;> rfl

/-- A run ends within the extent of a script when the call that it serves does. -/
theorem withinExtent_of_conclude {result : EStateM.Result Failure Interpreter Outcome}
    (h : WithinExtent (conclude name result)) : WithinExtent result := by
  intro failure final heq
  rw [heq] at h
  exact h (failure.within name) final rfl

/-- A call within the extent of a script is the same on the extended script. -/
theorem callWithin_extended (hcatalog : vm.catalog.Extends extension name) (args : List Value)
    {fuel : Nat} (h : WithinExtent (callWithin fuel name args vm)) :
    callWithin fuel name args (vm.extended tail extension) =
      mapState (extended tail extension) (callWithin fuel name args vm) := by
  cases hname : vm.catalog.procedure? name with
  | none =>
    rw [callWithin_of_unknown fuel args hname] at h
    cases h _ _ rfl
  | some procedure =>
    have hname' : (vm.extended tail extension).catalog.procedure? name = some procedure :=
      hcatalog.procedure hname
    cases henter : Machine.enter procedure.offset args vm.machine with
    | error fault m =>
      have henter' : Machine.enter procedure.offset args (vm.extended tail extension).machine =
        .error fault m := henter
      rw [callWithin_of_layout_error fuel hname henter, callWithin_of_layout_error fuel hname' henter']
      rfl
    | ok _ m =>
      have henter' : Machine.enter procedure.offset args (vm.extended tail extension).machine =
        .ok () m := henter
      rw [callWithin_of_layout fuel hname henter] at h ⊢
      rw [callWithin_of_layout fuel hname' henter', conclude_extended]
      have hresolved : (vm.resolved name args procedure m).restart.catalog.Extends extension name :=
        hcatalog
      have hrun := runFor_extended tail hresolved (withinExtent_of_conclude h)
      exact congrArg (conclude name) hrun.symm

end Extended

/-- Extending a script does not change what already worked.

Let there be any bytes after the code, and in the catalog further procedures, none of them with the
called name, and further strings at indices that had none. A call that does not fail for want of code
or of a catalog entry comes to the same on the extended script, with the same machine and counter and
the same reports. -/
theorem calls_kept_by_extension (vm : Interpreter) (tail : Array UInt8)
    (additions : List Catalog.Addition) (name : String) (args : List Value)
    (hprocedures : ∀ offset, .procedure name offset ∉ additions)
    (hstrings : ∀ index text, .string index text ∈ additions → vm.catalog.string? index = none) :
    (∀ fuel, WithinExtent (callWithin fuel name args vm) →
      callWithin fuel name args (vm.extended tail (vm.catalog.addAll additions)) =
        mapState (extended tail (vm.catalog.addAll additions)) (callWithin fuel name args vm)) ∧
    (WithinExtent (call name args vm) →
      call name args (vm.extended tail (vm.catalog.addAll additions)) =
        mapState (extended tail (vm.catalog.addAll additions)) (call name args vm)) := by
  have hcatalog : vm.catalog.Extends (vm.catalog.addAll additions) name :=
    (Catalog.extends_refl vm.catalog name).addAll hprocedures hstrings
  refine ⟨fun fuel h => callWithin_extended tail hcatalog args h, fun h => ?_⟩
  change callWithin vm.config.stepBudget name args _ = _
  exact callWithin_extended tail hcatalog args h

/-- A script with one procedure, which gives seven. -/
def constantScript : Interpreter :=
  ofCode #[0x01, 0xC0, 7, 0, 0, 0, 0x10, 0x80] (Catalog.empty.withProcedure "seven" 0) .standard

/-- A second procedure, whose code stands after that of the first, and a string for it. -/
def laterAdditions : List Catalog.Addition :=
  [.procedure "greeting" 8, .string 1 "hello"]

/-- The first procedure still gives seven. -/
theorem calls_kept_by_extension_seven :
    (∀ offset, .procedure "seven" offset ∉ laterAdditions) ∧
      (∀ index text, .string index text ∈ laterAdditions →
        constantScript.catalog.string? index = none) ∧
      (∃ final, callWithin 2 "seven" [] constantScript = .ok (some (.int 7)) final) ∧
      callWithin 2 "seven" [] (constantScript.extended #[0x01, 0x90, 1, 0, 0, 0, 0x10, 0x80]
          (constantScript.catalog.addAll laterAdditions)) =
        mapState (extended #[0x01, 0x90, 1, 0, 0, 0, 0x10, 0x80]
          (constantScript.catalog.addAll laterAdditions)) (callWithin 2 "seven" [] constantScript) := by
  have hprocedures : ∀ offset, .procedure "seven" offset ∉ laterAdditions := by
    simp [laterAdditions]
  have hstrings : ∀ index text, .string index text ∈ laterAdditions →
      constantScript.catalog.string? index = none := by
    simp [constantScript, ofCode, Catalog.string?, Catalog.empty]
  have hname : constantScript.catalog.procedure? "seven" = some ⟨"seven", 0⟩ := by
    simp [constantScript, ofCode, Catalog.procedure?, Catalog.empty]
  have hresult : ∃ final, callWithin 2 "seven" [] constantScript = .ok (some (.int 7)) final := by
    rw [callWithin_of_layout 2 hname rfl]
    exact ⟨_, rfl⟩
  have hextent : WithinExtent (callWithin 2 "seven" [] constantScript) := by
    intro failure final heq
    obtain ⟨final', hfinal⟩ := hresult
    rw [hfinal] at heq
    cases heq
  exact ⟨hprocedures, hstrings, hresult,
    (calls_kept_by_extension constantScript _ laterAdditions "seven" [] hprocedures hstrings).1 2 hextent⟩

end Interpreter

end ScriptMachine
