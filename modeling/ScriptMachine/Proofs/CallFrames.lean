import ScriptMachine.Proofs.Bounds

/-!
# The frame of a call

A procedure that begins with `push_base` has the arguments of its call as its frame. The frame begins at
the bottom of the data stack, where the layout has put the last argument, so that slot `i` holds the
argument that is `i` before the last.
-/

namespace ScriptMachine

namespace Machine

/-! ## The frame of the arguments -/

/-- The machine of a called procedure after its `push_base`: the arguments are its frame. -/
def framed (maxDepth offset : Nat) (args : List Value) : Machine where
  data := args.reverse.toArray
  ret := #[.int 0, .int 0]
  pc := offset
  globalBase := 0
  frameBase := 0
  halted := false
  maxDepth := maxDepth

section Frame

variable {maxDepth : Nat} {args : List Value}

/-- `push_base` takes the number of the arguments and begins the frame below all of them. -/
theorem pushBase_laidOut (offset : Nat) (hdepth : 2 ≤ maxDepth) (hcount : args.length < 2 ^ 31) :
    pushBase (laidOut maxDepth offset args) = .ok () (framed maxDepth offset args) := by
  have hpop : popInt (laidOut maxDepth offset args) = .ok (Int32.ofNat args.length)
      { laidOut maxDepth offset args with data := args.reverse.toArray } :=
    popInt_eq_ok_iff.mpr ⟨.int (Int32.ofNat args.length), by simp [laidOut], rfl, by simp [laidOut]⟩
  have hargc : (Int32.ofNat args.length).toNatClampNeg = args.length :=
    Int32.toNatClampNeg_ofNat_of_lt hcount
  have hsign : 0 ≤ Int32.ofNat args.length := by
    rw [Int32.le_iff_toInt_le, Int32.toInt_ofNat_of_lt hcount]
    exact Int.natCast_nonneg _
  have hstart : frameStart (Int32.ofNat args.length) args.reverse.toArray.size = .ok 0 := by
    rw [frameStart, hargc, List.size_toArray, List.length_reverse, if_pos ⟨hsign, Nat.le_refl _⟩,
      Nat.sub_self]
  rw [pushBase_eq, hpop]
  dsimp only
  rw [hstart]
  exact if_pos hdepth

/-- The slots of the frame hold the arguments from the last to the first. -/
theorem load_framed (offset : Nat) {i : Nat} (hcount : args.length < 2 ^ 31) (hi : i < args.length) :
    load .frame (Int32.ofNat i) (framed maxDepth offset args) =
      .ok args[args.length - 1 - i] (framed maxDepth offset args) := by
  have hindex : slotIndex (framed maxDepth offset args) .frame (Int32.ofNat i) = .ok i := by
    refine (slotIndex_eq_ok_iff (Nat.zero_le _)).mpr ?_
    rw [Int32.toInt_ofNat_of_lt (Nat.lt_trans hi hcount)]
    simp [base, framed]
  have hvalue : (framed maxDepth offset args).data[i]? = some args[args.length - 1 - i] := by
    simp [framed, List.getElem?_reverse hi]
  unfold load
  rw [hindex]
  dsimp only
  rw [hvalue]

end Frame

end Machine

namespace Interpreter

open Reader

section Calls

variable {vm : Interpreter} {procedure : Procedure} {args : List Value}

/-- The interpreter at the start of a called procedure. -/
def entered (vm : Interpreter) (name : String) (args : List Value) (procedure : Procedure) :
    Interpreter :=
  (vm.resolved name args procedure
    (.laidOut vm.machine.maxDepth procedure.offset args)).restart

/-- A run starts with no instruction counted, so that any step limit but zero allows the first. -/
theorem withinLimit_restart (hlimit : vm.config.maxSteps ≠ some 0) :
    vm.restart.withinLimit = true := by
  refine Bool.of_not_eq_false fun hspent => ?_
  obtain ⟨limit, hmax, hle⟩ := withinLimit_eq_false_iff.mp hspent
  have hzero : limit = 0 := UInt64.le_zero_iff.mp hle
  exact hlimit (hmax.trans (congrArg some hzero))

/-- A procedure that begins with `push_base` has the arguments as its frame after it. -/
theorem step_entered (name : String) (hcount : args.length < 2 ^ 31) (hdepth : 2 ≤ vm.machine.maxDepth)
    (hfirst : wordAt vm.script.bytes procedure.offset = .ok Opcode.pushBase.word)
    (hlimit : vm.config.maxSteps ≠ some 0) :
    ∃ u, step (vm.entered name args procedure) = .ok .running u ∧
      u.machine = .framed vm.machine.maxDepth (procedure.offset + 2) args := by
  have hnext : (vm.entered name args procedure).next? = some .pushBase :=
    next?_eq_some_iff.mpr ⟨withinLimit_restart hlimit, pending?_eq_some_iff.mpr ⟨rfl, hfirst⟩⟩
  have hexecute : Machine.execute vm.catalog 0 .pushBase (vm.entered name args procedure).machine =
      .ok .next (.framed vm.machine.maxDepth procedure.offset args) :=
    bind_of_ok (Machine.pushBase_laidOut procedure.offset hdepth hcount)
  exact ⟨_, (StepsTo.executed hnext rfl hexecute).eq_step, rfl⟩

end Calls

/-- How a call is laid out, for a machine of any depth.

A call can be laid out exactly when there is room for the arguments and their number, and the number is
a 32-bit integer. The procedure then starts on the machine `Machine.laidOut`. If it begins with
`push_base`, there is room for the saved frame base, and the step limit lets the instruction be
executed, the arguments are its frame, and slot `i` reads the argument that is `i` before the last.

A call that cannot be laid out fails for the depth of the data stack, or because the arguments fit but
cannot be counted. No step has been taken, and the machine is `Machine.holding`. -/
theorem call_frame_layout {vm : Interpreter} {name : String} {procedure : Procedure}
    (hname : vm.catalog.procedure? name = some procedure) (args : List Value) :
    ((∃ m, Machine.enter procedure.offset args vm.machine = .ok () m) ↔
      args.length + 1 ≤ vm.machine.maxDepth ∧ args.length ≤ 2 ^ 31 - 1) ∧
    (Machine.CallFits vm.machine.maxDepth args.length →
      (∀ fuel, callWithin fuel name args vm =
        conclude name (runFor fuel (vm.entered name args procedure))) ∧
      Machine.enter procedure.offset args vm.machine =
        .ok () (.laidOut vm.machine.maxDepth procedure.offset args) ∧
      (2 ≤ vm.machine.maxDepth →
        wordAt vm.script.bytes procedure.offset = .ok Opcode.pushBase.word →
        vm.config.maxSteps ≠ some 0 →
        ∃ u, step (vm.entered name args procedure) = .ok .running u ∧
          u.machine.frameBase = 0 ∧ u.machine.data = args.reverse.toArray ∧
          ∀ i (hi : i < args.length),
            Machine.load .frame (Int32.ofNat i) u.machine =
              .ok args[args.length - 1 - i] u.machine)) ∧
    (¬ Machine.CallFits vm.machine.maxDepth args.length →
      ∃ u, (∀ fuel, callWithin fuel name args vm =
          .error ((Failure.unlocated
            (Machine.layoutFault vm.machine.maxDepth args.length)).within name) u) ∧
        u.steps = vm.steps ∧ u.machine = .holding vm.machine.maxDepth args) := by
  refine ⟨⟨?_, ?_⟩, ?_, ?_⟩
  · rintro ⟨m, henter⟩
    refine Decidable.byContradiction fun hfits => ?_
    rw [Machine.enter_of_not_fits procedure.offset hfits] at henter
    cases henter
  · exact fun hfits => ⟨_, Machine.enter_of_fits procedure.offset hfits⟩
  · intro hfits
    have henter := Machine.enter_of_fits procedure.offset hfits
    refine ⟨fun fuel => callWithin_of_layout fuel hname henter, henter, ?_⟩
    intro hdepth hfirst hlimit
    have hcount : args.length < 2 ^ 31 := Nat.lt_of_le_pred (by decide) hfits.2
    obtain ⟨u, hstep, hmachine⟩ := step_entered name hcount hdepth hfirst hlimit
    refine ⟨u, hstep, ?_⟩
    rw [hmachine]
    exact ⟨rfl, rfl, fun i hi => Machine.load_framed _ hcount hi⟩
  · intro hfits
    have henter := Machine.enter_of_not_fits procedure.offset hfits
    exact ⟨_, fun fuel => callWithin_of_layout_error fuel hname henter, rfl, rfl⟩

/-- A script with one procedure, which opens a frame and ends. -/
def framingScript : Interpreter :=
  ofCode #[0x2B, 0x80, 0x10, 0x80] (Catalog.empty.withProcedure "pair" 0) .standard

/-- Of two arguments, the last is in slot zero and the first in slot one. -/
theorem call_frame_layout_pair :
    framingScript.catalog.procedure? "pair" = some ⟨"pair", 0⟩ ∧
      ∃ u, step (framingScript.entered "pair" [.int 7, .string "last"] ⟨"pair", 0⟩) =
          .ok .running u ∧
        u.machine.data = #[.string "last", .int 7] ∧
        Machine.load .frame 0 u.machine = .ok (.string "last") u.machine ∧
        Machine.load .frame 1 u.machine = .ok (.int 7) u.machine := by
  have hname : framingScript.catalog.procedure? "pair" = some ⟨"pair", 0⟩ := by
    simp [framingScript, ofCode, Catalog.procedure?, Catalog.empty]
  obtain ⟨-, hlaidOut, -⟩ := call_frame_layout hname [.int 7, .string "last"]
  obtain ⟨-, -, hframe⟩ := hlaidOut (by decide)
  obtain ⟨u, hstep, -, hdata, hslots⟩ := hframe (by decide) rfl (by decide)
  exact ⟨hname, u, hstep, hdata, hslots 0 (by decide), hslots 1 (by decide)⟩

end Interpreter

end ScriptMachine
