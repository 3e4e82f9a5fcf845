import ScriptMachine.Proofs.Bounds
import ScriptMachine.Proofs.Simulations

/-!
# Calls and what came before them

A call clears the machine before it lays out its frame, and a run clears the step counter and seeks
before it reads. So what a call comes to depends on how the interpreter was set up, and not on what
it has been used for: `calls_independent_of_history`.

The argument is that laying out the same call on two machines of the same depth gives the same machine.
From there on the two runs are `Paired`. This is stated for any correspondence of machines
(`Correspondence.callWithin`), of which equality is one.
-/

namespace ScriptMachine

/-- Alike results have the same answer. -/
theorem Alike.answer_eq {ε σ τ α : Type} {R : σ → τ → Prop} {x : EStateM.Result ε σ α}
    {y : EStateM.Result ε τ α} (h : Alike R x y) : answer x = answer y := by
  cases h <;> rfl

/-- Laying out a call clears the machine, so only its depth matters. -/
theorem Machine.enter_eq_of_maxDepth {m m' : Machine} (h : m'.maxDepth = m.maxDepth) (offset : Nat)
    (args : List Value) : enter offset args m' = enter offset args m := by
  have hreset : m'.reset = m.reset := by rw [reset, reset, h]
  have hcleared (m : Machine) : (modify reset : Action Unit) m = .ok () m.reset := rfl
  unfold enter
  rw [bind_of_ok (hcleared m'), bind_of_ok (hcleared m), hreset]

namespace Interpreter

/-- Two interpreters that were set up in the same way. Their machines, apart from the depth, and their
counters, cursors and logs may differ. -/
structure SameSetup (u v : Interpreter) : Prop where
  bytes : v.script.bytes = u.script.bytes
  catalog : v.catalog = u.catalog
  config : v.config = u.config
  depth : v.machine.maxDepth = u.machine.maxDepth

/-! ## Calls on machines that correspond -/

section Paired

variable {catalog : Catalog} {M : Machine → Machine → Prop} {V : Value → Value → Prop}
  {lead : UInt64} {u v : Interpreter}

/-- Runs that come to the same on related machines conclude in calls that give related values. -/
theorem conclude_matches (hpop : ∀ m m', M m m' → Matches V M (Machine.pop m) (Machine.pop m'))
    (name : String) {x y : EStateM.Result Failure Interpreter Outcome}
    (h : Alike (Paired catalog M lead) x y) :
    Matches (Option.Rel V) (Paired catalog M lead) (conclude name x) (conclude name y) := by
  cases h with
  | error hpair => exact .error hpair
  | @ok outcome u v hpair =>
    cases outcome with
    | unfinished => exact .ok .none hpair
    | stopped stop => exact .error hpair
    | halted =>
      have htaken := hpop _ _ hpair.machine
      simp only [Machine.pop] at htaken
      cases hu : u.machine.data.back? with
      | none =>
        cases hv : v.machine.data.back? with
        | none =>
          rw [conclude_of_empty name hu, conclude_of_empty name hv]
          exact .error hpair
        | some b =>
          rw [hu, hv] at htaken
          cases htaken
      | some a =>
        cases hv : v.machine.data.back? with
        | none =>
          rw [hu, hv] at htaken
          cases htaken
        | some b =>
          rw [hu, hv] at htaken
          rw [conclude_of_result name hu, conclude_of_result name hv]
          cases htaken with
          | ok hvalue hmachine => exact .ok (.some hvalue) { hpair with machine := hmachine }

section Layout

variable (hM : Correspondence catalog M) (hsetup : SameSetup u v) (hcatalog : u.catalog = catalog)
  {m m' : Machine} (hmachine : M m m')

include hM hsetup hcatalog hmachine

/-- Two calls that are laid out on corresponding machines start as a pair. -/
theorem Correspondence.paired_resolved (name : String) (args args' : List Value)
    (procedure : Procedure) :
    Paired catalog M 0 (u.resolved name args procedure m).restart
      (v.resolved name args' procedure m').restart where
  bytes := hsetup.bytes
  left := hcatalog
  right := hsetup.catalog.trans hcatalog
  machine := hM.woken hmachine
  limit := congrArg Config.maxSteps hsetup.config
  counter := rfl
  unlimited := .inl rfl

/-- Calls whose frames are laid out on corresponding machines give related values or fail alike. -/
theorem Correspondence.callWithin
    (hpop : ∀ m m', M m m' → Matches V M (Machine.pop m) (Machine.pop m')) {name : String}
    {args args' : List Value} {procedure : Procedure} (fuel : Nat)
    (hname : u.catalog.procedure? name = some procedure)
    (henter : Machine.enter procedure.offset args u.machine = .ok () m)
    (henter' : Machine.enter procedure.offset args' v.machine = .ok () m') :
    Matches (Option.Rel V) (Paired catalog M 0) (Interpreter.callWithin fuel name args u)
      (Interpreter.callWithin fuel name args' v) := by
  have hname' : v.catalog.procedure? name = some procedure := by rw [hsetup.catalog, hname]
  have hpair := hM.paired_resolved hsetup hcatalog hmachine name args args' procedure
  rw [callWithin_of_layout fuel hname henter, callWithin_of_layout fuel hname' henter']
  exact conclude_matches hpop name (hM.runFor fuel hpair)

end Layout

end Paired

/-! ## Calls on interpreters that were set up in the same way -/

/-- The machines are the same, and so are the counters if the frame of the call could be laid out. -/
def SameAfterCall (procedure : Procedure) (args : List Value) (before : Machine)
    (s t : Interpreter) : Prop :=
  s.machine = t.machine ∧
    ((∃ m, Machine.enter procedure.offset args before = .ok () m) → s.steps = t.steps)

/-- A call of a known procedure comes to the same on interpreters that were set up in the same way. -/
theorem SameSetup.callWithin {u v : Interpreter} {name : String} {procedure : Procedure}
    (h : SameSetup u v) (hname : u.catalog.procedure? name = some procedure) (args : List Value)
    (fuel : Nat) :
    Alike (SameAfterCall procedure args u.machine) (Interpreter.callWithin fuel name args u)
      (Interpreter.callWithin fuel name args v) := by
  have hlayout := Machine.enter_eq_of_maxDepth h.depth procedure.offset args
  cases henter : Machine.enter procedure.offset args u.machine with
  | error fault m =>
    have hname' : v.catalog.procedure? name = some procedure := by rw [h.catalog, hname]
    rw [callWithin_of_layout_error fuel hname henter,
      callWithin_of_layout_error fuel hname' (hlayout.trans henter)]
    refine .error ⟨rfl, fun hsome => ?_⟩
    rw [henter] at hsome
    obtain ⟨m', hm'⟩ := hsome
    cases hm'
  | ok _ m =>
    have hpop (m m' : Machine) (heq : m = m') : Matches Eq Eq (Machine.pop m) (Machine.pop m') := by
      rw [heq]
      cases Machine.pop m' with
      | ok value m'' => exact .ok rfl rfl
      | error fault m'' => exact .error rfl
    have hmatches := (correspondence_eq u.catalog).callWithin h rfl rfl hpop fuel hname henter
      (hlayout.trans henter)
    have hvalues (a b : Option Value) (hab : Option.Rel Eq a b) : a = b := by
      cases hab with
      | some hvalue => rw [hvalue]
      | none => rfl
    refine (hmatches.alike hvalues).imp fun s t hpair => ⟨hpair.machine, fun _ => ?_⟩
    rw [hpair.counter, UInt64.add_zero]

/-- A call of an unknown procedure changes neither the machine nor the counter. -/
theorem mapState_callWithin_of_unknown {vm : Interpreter} {name : String}
    (hname : vm.catalog.procedure? name = none) (args : List Value) (fuel : Nat) :
    mapState (fun final => (final.machine, final.steps)) (callWithin fuel name args vm) =
      .error (.unlocated (.unknownProcedure name)) (vm.machine, vm.steps) := by
  rw [callWithin_of_unknown fuel args hname]
  rfl

/-- A call is answered in the same way by interpreters that were set up in the same way. -/
theorem SameSetup.answer_callWithin {u v : Interpreter} (h : SameSetup u v) (name : String)
    (args : List Value) (fuel : Nat) :
    answer (Interpreter.callWithin fuel name args u) =
      answer (Interpreter.callWithin fuel name args v) := by
  cases hname : u.catalog.procedure? name with
  | none =>
    have hname' : v.catalog.procedure? name = none := by rw [h.catalog, hname]
    rw [callWithin_of_unknown fuel args hname, callWithin_of_unknown fuel args hname']
    rfl
  | some procedure => exact (h.callWithin hname args fuel).answer_eq

/-! ## Histories -/

/-- What a host can do with an interpreter. -/
inductive Operation where
  | step
  | run (fuel : Nat)
  | call (fuel : Nat) (name : String) (args : List Value)
  | edit (change : Machine.HostEdit)

/-- The interpreter after an operation, whether or not it fails. -/
def Operation.perform : Operation → Interpreter → Interpreter
  | step, vm => finalState (Interpreter.step vm)
  | run fuel, vm => finalState (runWithin fuel vm)
  | call fuel name args, vm => finalState (callWithin fuel name args vm)
  | edit change, vm => { vm with machine := change.apply vm.machine }

/-- The interpreter after operations in the order of the list. -/
def after (history : List Operation) (vm : Interpreter) : Interpreter :=
  history.foldl (fun vm operation => operation.perform vm) vm

/-- Whatever operations come to is reachable, and so is its machine. -/
theorem reachable_after {code : Array UInt8} {catalog : Catalog} {config : Config} {depth : Nat}
    (history : List Operation) {vm : Interpreter} (h : Reachable code catalog config vm)
    (hmachine : Machine.Reachable depth vm.machine) :
    Reachable code catalog config (after history vm) ∧
      Machine.Reachable depth (after history vm).machine := by
  induction history generalizing vm with
  | nil => exact ⟨h, hmachine⟩
  | cons operation history ih =>
    cases operation with
    | step => exact ih (.step h) (.step hmachine)
    | run fuel => exact ih (.run fuel h) (.run fuel hmachine)
    | call fuel name args => exact ih (.call fuel name args h) (.call fuel name args hmachine)
    | edit change => exact ih (.edit _ h) (.edit change hmachine)

/-- No operation changes the setup. -/
theorem sameSetup_after (code : Array UInt8) (catalog : Catalog) (config : Config)
    (history : List Operation) :
    SameSetup (ofCode code catalog config) (after history (ofCode code catalog config)) := by
  have hstart : Reachable code catalog config (ofCode code catalog config) := .start
  have hempty : Machine.Reachable config.maxDepth (ofCode code catalog config).machine := .empty
  obtain ⟨hreachable, hmachine⟩ := reachable_after history hstart hempty
  have hfixed : (after history (ofCode code catalog config)).script.bytes = code ∧
      (after history (ofCode code catalog config)).catalog = catalog ∧
        (after history (ofCode code catalog config)).config = config := by
    refine hreachable.preserves
      (P := fun vm => vm.script.bytes = code ∧ vm.catalog = catalog ∧ vm.config = config)
      ⟨rfl, rfl, rfl⟩ (fun vm hvm => ?_) (fun _ hvm => hvm) (fun _ _ hvm => hvm) fun _ _ hvm => hvm
    obtain ⟨hbytes, hcatalog, hconfig⟩ := (stepsTo_step vm).fixed
    exact ⟨hbytes.trans hvm.1, hcatalog.trans hvm.2.1, hconfig.trans hvm.2.2⟩
  exact ⟨hfixed.1, hfixed.2.1, hfixed.2.2, hmachine.bounded.maxDepth⟩

/-- Calls do not depend on history.

On two interpreters that were set up in the same way, a call of a known procedure gives the same value
or the same failure, or is unfinished on both however long it is followed. It leaves the same machine,
and the same counter if its frame could be laid out. A call of an unknown procedure fails without a
site and changes neither machine nor counter. So after any operations of its host an interpreter
answers a call as a new one does. -/
theorem calls_independent_of_history :
    (∀ (u v : Interpreter) (name : String) (args : List Value), SameSetup u v →
      (∀ procedure, u.catalog.procedure? name = some procedure →
        (∀ fuel, Alike (SameAfterCall procedure args u.machine) (callWithin fuel name args u)
          (callWithin fuel name args v)) ∧
        Alike (SameAfterCall procedure args u.machine) (call name args u) (call name args v)) ∧
      (u.catalog.procedure? name = none → ∀ fuel, ∀ vm ∈ [u, v],
        mapState (fun final => (final.machine, final.steps)) (callWithin fuel name args vm) =
          .error (.unlocated (.unknownProcedure name)) (vm.machine, vm.steps))) ∧
    ∀ (code : Array UInt8) (catalog : Catalog) (config : Config) (history : List Operation)
      (name : String) (args : List Value),
      (∀ fuel, answer (callWithin fuel name args (after history (ofCode code catalog config))) =
        answer (callWithin fuel name args (ofCode code catalog config))) ∧
      answer (call name args (after history (ofCode code catalog config))) =
        answer (call name args (ofCode code catalog config)) := by
  refine ⟨fun u v name args hsetup => ⟨fun procedure hname => ?_, fun hname fuel vm hvm => ?_⟩, ?_⟩
  · have hcalls := hsetup.callWithin hname args
    refine ⟨hcalls, ?_⟩
    change Alike _ (callWithin u.config.stepBudget name args u)
      (callWithin v.config.stepBudget name args v)
    rw [hsetup.config]
    exact hcalls u.config.stepBudget
  · have hname' : vm.catalog.procedure? name = none := by
      obtain rfl | hv := List.mem_cons.mp hvm
      · exact hname
      · rw [List.mem_singleton.mp hv, hsetup.catalog, hname]
    exact mapState_callWithin_of_unknown hname' args fuel
  · intro code catalog config history name args
    have hsetup := sameSetup_after code catalog config history
    refine ⟨fun fuel => (hsetup.answer_callWithin name args fuel).symm, ?_⟩
    change answer (callWithin (after history (ofCode code catalog config)).config.stepBudget name args
      (after history (ofCode code catalog config))) = _
    rw [hsetup.config]
    exact (hsetup.answer_callWithin name args config.stepBudget).symm

/-- A script with one procedure, which gives the first global variable. After it stands an instruction
that moves the global variables to the top of the data stack. -/
def globalScript : Interpreter :=
  ofCode #[0x01, 0xC0, 0, 0, 0, 0, 0x12, 0x80, 0x10, 0x80, 0x2C, 0x80]
    (Catalog.empty.withProcedure "first" 0) .standard

/-- That script, after its host has moved the global variables. -/
def globalScriptUsed : Interpreter :=
  after [.edit (.push (.int 5)), .edit (.setPc 10), .step] globalScript

/-- The global base that was left behind has no influence on a later call. -/
theorem calls_independent_of_history_globals :
    SameSetup globalScript globalScriptUsed ∧
      globalScript.machine.globalBase = 0 ∧ globalScriptUsed.machine.globalBase = 1 ∧
      Alike (SameAfterCall ⟨"first", 0⟩ [.int 9] globalScript.machine)
        (callWithin 3 "first" [.int 9] globalScript) (callWithin 3 "first" [.int 9] globalScriptUsed) := by
  have hsetup : SameSetup globalScript globalScriptUsed := sameSetup_after _ _ _ _
  have hname : globalScript.catalog.procedure? "first" = some ⟨"first", 0⟩ := by
    simp [globalScript, ofCode, Catalog.procedure?, Catalog.empty]
  have hcall := (calls_independent_of_history.1 globalScript globalScriptUsed "first" [.int 9]
    hsetup).1 ⟨"first", 0⟩ hname
  exact ⟨hsetup, rfl, by decide +kernel, hcall.1 3⟩

end Interpreter

end ScriptMachine
