import ScriptMachine.Proofs.Actions

/-!
# What instructions are made of

Every instruction is a sequence of a few actions on the stacks, the slots and the registers, with
checked conversions between them. `execute_of_parts` uses this once: a property of actions that
passes from the parts of a sequence to the whole, and holds of the actions an opcode is made of,
holds of its instruction. These properties follow.

* `Keeps`: an aspect of the machine is left alone, even on failure. `execute_keeps` says that an
  instruction keeps every aspect that depends neither on the data stack nor on what its opcode is
  known to change.
* `KeepsOnFailure`: an aspect of the machine is left alone by a failure. `execute_keepsOnFailure` says
  that an instruction that fails has changed at most the stacks.
* `Raises`: only certain faults can occur. `execute_raises` says that the faults of fetching and of
  limits on steps are not among those of instructions.
-/

namespace ScriptMachine

namespace Opcode

/-- Whether the opcode works on the return stack. -/
def usesReturn : Opcode → Bool
  | dToA | aToD | swapA | pushBase | popBase | popReturn => true
  | _ => false

/-- Whether the opcode may set the frame base. -/
def setsFrameBase : Opcode → Bool
  | pushBase | popBase => true
  | _ => false

/-- Whether the opcode may halt the machine. -/
def mayHalt : Opcode → Bool
  | popReturn | exitProg => true
  | _ => false

end Opcode

namespace Fault

/-- Whether a fault can come from checking the operands of an instruction. -/
def ofOperands : Fault → Bool
  | unknownProcedureIndex _ | unknownString _ | typeMismatch .. | divisionByZero
  | indexOutOfBounds .. | invalidAddress _ => true
  | _ => false

/-- Whether a fault can come from executing an instruction, so from its operands or from the stacks.
The others come from finding a procedure or an instruction, or from counting steps. -/
def ofInstruction : Fault → Bool
  | stackUnderflow _ | depthLimit .. => true
  | fault => fault.ofOperands

/-- The faults of operands are faults of instructions. -/
theorem ofInstruction_of_ofOperands {fault : Fault} (h : fault.ofOperands = true) :
    fault.ofInstruction = true := by
  unfold ofInstruction
  split
  · rfl
  · rfl
  · exact h

end Fault

/-! ## Checked conversions -/

/-- The faults of a conversion are faults of operands. -/
def Checks {α : Type} (e : Except Fault α) : Prop :=
  ∀ fault, e = .error fault → fault.ofOperands = true

/-- A conversion in two steps has only the faults of the steps. -/
theorem Checks.bind {α β : Type} {e : Except Fault α} {f : α → Except Fault β} (he : Checks e)
    (hf : ∀ a, Checks (f a)) : Checks (e >>= f) := by
  cases e with
  | error fault =>
    intro fault' h
    cases h
    exact he fault rfl
  | ok a => exact hf a

/-- A conversion that succeeds has no fault to account for. -/
theorem checks_ok {α : Type} (a : α) : Checks (.ok a : Except Fault α) := by
  intro fault h
  cases h

/-- A conversion may fail with a fault of operands. -/
theorem checks_error {α : Type} {fault : Fault} (h : fault.ofOperands = true) :
    Checks (.error fault : Except Fault α) := by
  intro fault' heq
  cases heq
  exact h

/-- Text is not a number, which is a fault of operands. -/
theorem checks_toNumber (v : Value) : Checks v.toNumber := by
  unfold Value.toNumber
  split
  · exact checks_ok _
  · exact checks_error rfl

/-- A value is refused as an address for being text or for its sign, both faults of operands. -/
theorem checks_toAddress (v : Value) : Checks v.toAddress := by
  refine (checks_toNumber v).bind fun target => ?_
  dsimp only
  split
  · exact (checks_error rfl : Checks (.error _ : Except Fault PUnit)).bind fun _ => checks_ok _
  · exact checks_ok _

/-- A stack index that is too large is a fault of operands. -/
theorem checks_encodeIndex (index : Nat) : Checks (encodeIndex index) := by
  unfold encodeIndex
  split
  · exact checks_ok _
  · exact checks_error rfl

/-- A number of arguments that is negative or too large is a fault of operands. -/
theorem checks_frameStart (argc : Int32) (size : Nat) : Checks (Machine.frameStart argc size) := by
  unfold Machine.frameStart
  split
  · exact checks_ok _
  · exact checks_error rfl

/-- A slot below the data stack is a fault of operands. -/
theorem checks_slotIndex (m : Machine) (register : BaseRegister) (var : Int32) :
    Checks (m.slotIndex register var) := by
  unfold Machine.slotIndex
  dsimp only
  split
  · exact checks_error rfl
  · exact checks_ok _

/-- Negation fails on text alone, which is a fault of operands. -/
theorem checks_negate (v : Value) : Checks v.negate :=
  (checks_toNumber v).bind fun _ => checks_ok _

/-- An order fails only between text and a number, which is a fault of operands. -/
theorem checks_order (a b : Value) : Checks (a.order b) := by
  unfold Value.order
  split
  · exact checks_ok _
  · exact checks_error rfl
  · exact checks_error rfl
  · exact (checks_toNumber _).bind fun _ => (checks_toNumber _).bind fun _ => checks_ok _

/-- An arithmetic operator fails on text or in its own way, here with a fault of operands. -/
theorem checks_arithmetic {f : Int32 → Int32 → Except Fault Int32} (hf : ∀ x y, Checks (f x y))
    (a b : Value) : Checks (a.arithmetic f b) := by
  refine (checks_toNumber a).bind fun x => (checks_toNumber b).bind fun y => ?_
  exact (hf x y).bind fun _ => checks_ok _

/-- The faults of every operator are faults of operands. -/
theorem checks_apply (op : BinaryOp) (a b : Value) : Checks (op.apply a b) := by
  have hdivision (quotient : Int32 → Int32 → Int32) (x y : Int32) :
      Checks (if y = 0 then .error .divisionByZero else .ok (quotient x y)) := by
    split
    · exact checks_error rfl
    · exact checks_ok _
  cases op with
  | equal => exact checks_ok _
  | notEqual => exact checks_ok _
  | lessEqual => exact (checks_order a b).bind fun _ => checks_ok _
  | greaterEqual => exact (checks_order a b).bind fun _ => checks_ok _
  | less => exact (checks_order a b).bind fun _ => checks_ok _
  | greater => exact (checks_order a b).bind fun _ => checks_ok _
  | add =>
    simp only [BinaryOp.apply, Value.add]
    split
    · exact checks_ok _
    · exact checks_arithmetic (fun _ _ => checks_ok _) a b
  | sub => exact checks_arithmetic (fun _ _ => checks_ok _) a b
  | mul => exact checks_arithmetic (fun _ _ => checks_ok _) a b
  | div => exact checks_arithmetic (hdivision (· / ·)) a b
  | mod => exact checks_arithmetic (hdivision (· % ·)) a b
  | and => exact checks_ok _
  | or => exact checks_ok _

namespace Machine

/-! ## Instructions and their parts -/

/-- What two properties of actions must satisfy for the second to hold of the instruction of an
opcode. The first is for actions that make no stack grow, the second for what an instruction ends
with, which may. -/
structure Parts (op : Opcode) (P Q : {α : Type} → Action α → Prop) : Prop where
  pure {α : Type} (a : α) : P (Pure.pure a : Action α)
  bind {α β : Type} {x : Action α} {f : α → Action β} (hx : P x) (hf : ∀ a, P (f a)) : P (x >>= f)
  check {α : Type} {e : Except Fault α} (he : Checks e) : P (ofExcept e : Action α)
  pop : P pop
  load (register : BaseRegister) (var : Int32) : P (load register var)
  popToBase : P popToBase
  popReturn (hop : op = .aToD ∨ op = .popReturn) : P popReturn
  swapReturn (hop : op = .swapA) : P swapReturn
  popBase (hop : op = .popBase) : P popBase
  setGlobal (hop : op = .setGlobal) : P setGlobal
  halt (hop : op.mayHalt = true) : P (modify fun m => { m with halted := true } : Action Unit)
  last {α : Type} {x : Action α} (hx : P x) : Q x
  before {α β : Type} {x : Action α} {f : α → Action β} (hx : P x) (hf : ∀ a, Q (f a)) :
    Q (x >>= f)
  after {α β : Type} {x : Action α} (b : β) (hx : Q x) : Q (x >>= fun _ => Pure.pure b)
  push (value : Value) : Q (push value)
  store (register : BaseRegister) (var : Int32) (value : Value) : Q (store register var value)
  pushReturn (hop : op = .dToA) (value : Value) : Q (pushReturn value)
  pushBase (hop : op = .pushBase) : Q pushBase

/-- What holds of the parts of an instruction holds of the instruction: it makes at most one stack
grow, at most once, and nothing that can fail comes after. -/
theorem execute_of_parts {op : Opcode} {P Q : {α : Type} → Action α → Prop} (h : Parts op P Q)
    (catalog : Catalog) (operand : Int32) : Q (execute catalog operand op) := by
  -- Case by case, the parts in their order; a part that may make a stack grow stands last.
  have hpopInt : P popInt := h.bind h.pop fun value => h.check (checks_toNumber value)
  have hthrow {fault : Fault} (hfault : fault.ofOperands = true) :
      P (throw fault : Action Flow) := h.check (checks_error hfault)
  cases op with
  | startCritical => exact h.last (h.pure _)
  | criticalDone => exact h.last (h.pure _)
  | pushD => exact h.after _ (h.push _)
  | pushString =>
    simp only [execute]
    split
    · exact h.after _ (h.push _)
    · exact h.last (hthrow rfl)
  | dToA => exact h.before h.pop fun _ => h.after _ (h.pushReturn rfl _)
  | aToD => exact h.before (h.popReturn (.inl rfl)) fun _ => h.after _ (h.push _)
  | pop => exact h.after _ (h.last h.pop)
  | swapA => exact h.after _ (h.last (h.swapReturn rfl))
  | pushBase => exact h.after _ (h.pushBase rfl)
  | popBase => exact h.after _ (h.last (h.popBase rfl))
  | popToBase => exact h.after _ (h.last h.popToBase)
  | setGlobal => exact h.after _ (h.last (h.setGlobal rfl))
  | store register =>
    exact h.before hpopInt fun var => h.before h.pop fun value => h.after _ (h.store register var value)
  | fetch register =>
    refine h.before hpopInt fun var => h.before (h.load register var) fun value => ?_
    exact h.after _ (h.push value)
  | jmp =>
    refine h.last (h.bind h.pop fun value => ?_)
    exact h.bind (h.check (checks_toAddress value)) fun _ => h.pure _
  | branch =>
    refine h.last (h.bind h.pop fun condition => h.bind h.pop fun target => ?_)
    split
    · exact h.pure _
    · exact h.bind (h.check (checks_toAddress target)) fun _ => h.pure _
  | call =>
    refine h.last (h.bind hpopInt fun index => ?_)
    split
    · exact h.pure _
    · exact hthrow rfl
  | popReturn =>
    refine h.last (h.bind (h.popReturn (.inr rfl)) fun value => ?_)
    refine h.bind (h.check (checks_toAddress value)) fun target => ?_
    dsimp only
    split
    · exact h.bind (h.halt rfl) fun _ => h.pure _
    · exact h.pure _
  | exitProg => exact h.after _ (h.last (h.halt rfl))
  | binary op =>
    refine h.after _ (h.before h.pop fun b => h.before h.pop fun a => ?_)
    exact h.before (h.check (checks_apply op a b)) fun result => h.push result
  | negate =>
    refine h.before h.pop fun value => h.before (h.check (checks_negate value)) fun result => ?_
    exact h.after _ (h.push result)

/-! ## What an instruction leaves alone -/

/-- An action keeps an aspect of the machine, whether or not it succeeds. -/
def Keeps {α β : Type} (aspect : Machine → β) (action : Action α) : Prop :=
  ∀ m, aspect (finalState (action m)) = aspect m

section Keeps

variable {α β γ : Type} {aspect : Machine → β}

/-- To return a value keeps every aspect. -/
theorem keeps_pure (a : α) : Keeps aspect (pure a : Action α) := fun _ => rfl

/-- To fail on the spot keeps every aspect. -/
theorem keeps_throw (fault : Fault) : Keeps aspect (throw fault : Action α) := fun _ => rfl

/-- To look at the machine keeps every aspect of it. -/
theorem keeps_get : Keeps aspect (get : Action Machine) := fun _ => rfl

/-- A conversion does not touch the machine. -/
theorem keeps_ofExcept (e : Except Fault α) : Keeps aspect (ofExcept e : Action α) := by
  cases e <;> exact fun _ => rfl

/-- An update keeps the aspects that it does not change. -/
theorem keeps_modify {f : Machine → Machine} (h : ∀ m, aspect (f m) = aspect m) :
    Keeps aspect (modify f : Action Unit) := h

/-- A sequence keeps what its parts keep. -/
theorem Keeps.bind {x : Action α} {f : α → Action γ} (hx : Keeps aspect x)
    (hf : ∀ a, Keeps aspect (f a)) : Keeps aspect (x >>= f) := by
  intro m
  have hfirst := hx m
  cases hresult : x m with
  | error fault m' =>
    rw [bind_of_error hresult]
    rw [hresult] at hfirst
    exact hfirst
  | ok a m' =>
    rw [bind_of_ok hresult, hf a m']
    rw [hresult] at hfirst
    exact hfirst

end Keeps

section Primitives

variable {β : Type} {aspect : Machine → β}

section Data

variable (hdata : ∀ m data, aspect { m with data := data } = aspect m)

include hdata

/-- A push changes the data stack alone. -/
theorem keeps_push (value : Value) : Keeps aspect (push value) := by
  intro m
  unfold push
  split
  · exact hdata m _
  · rfl

/-- A pop changes the data stack alone. -/
theorem keeps_pop : Keeps aspect pop := by
  intro m
  unfold pop
  split
  · exact hdata m _
  · rfl

/-- A pop of a number changes the data stack alone. -/
theorem keeps_popInt : Keeps aspect popInt :=
  (keeps_pop hdata).bind fun _ => keeps_ofExcept _

/-- To cut the data stack down to the frame base changes the data stack alone. -/
theorem keeps_popToBase : Keeps aspect popToBase :=
  keeps_modify fun m => hdata m _

/-- A store changes the data stack alone. -/
theorem keeps_store (register : BaseRegister) (var : Int32) (value : Value) :
    Keeps aspect (store register var value) := by
  intro m
  unfold store
  split
  · rfl
  · split
    · exact hdata m _
    · split
      · exact hdata m _
      · rfl

end Data

/-- A load changes nothing. -/
theorem keeps_load (register : BaseRegister) (var : Int32) : Keeps aspect (load register var) := by
  intro m
  unfold load
  split
  · rfl
  · split <;> rfl

section Return

variable (hret : ∀ m ret, aspect { m with ret := ret } = aspect m)

include hret

/-- A push on the return stack changes the return stack alone. -/
theorem keeps_pushReturn (value : Value) : Keeps aspect (pushReturn value) := by
  intro m
  unfold pushReturn
  split
  · exact hret m _
  · rfl

/-- A pop from the return stack changes the return stack alone. -/
theorem keeps_popReturn : Keeps aspect popReturn := by
  intro m
  unfold popReturn
  split
  · exact hret m _
  · rfl

/-- An exchange on the return stack changes the return stack alone. -/
theorem keeps_swapReturn : Keeps aspect swapReturn := by
  intro m
  unfold swapReturn
  split
  · rfl
  · exact hret m _

end Return

end Primitives

section Frames

variable {β : Type} {aspect : Machine → β}
  (hret : ∀ m ret, aspect { m with ret := ret } = aspect m)
  (hframe : ∀ m base, aspect { m with frameBase := base } = aspect m)

include hret hframe

/-- Opening a frame changes the stacks and the frame base alone. -/
theorem keeps_pushBase (hdata : ∀ m data, aspect { m with data := data } = aspect m) :
    Keeps aspect pushBase := by
  refine (keeps_popInt hdata).bind fun argc => keeps_get.bind fun _ => ?_
  refine (keeps_ofExcept _).bind fun base => keeps_get.bind fun _ => ?_
  refine (keeps_ofExcept _).bind fun saved => (keeps_pushReturn hret _).bind fun _ => ?_
  exact keeps_modify fun m => hframe m base

/-- Closing a frame changes the return stack and the frame base alone. -/
theorem keeps_popBase : Keeps aspect popBase := by
  refine (keeps_popReturn hret).bind fun value => (keeps_ofExcept _).bind fun base => ?_
  dsimp only
  split
  · exact keeps_get.bind fun _ => (keeps_throw _).bind fun _ => keeps_modify fun m => hframe m _
  · exact keeps_modify fun m => hframe m _

end Frames

/-- An instruction keeps every aspect that depends neither on the data stack nor on what its opcode
may change besides. -/
theorem execute_keeps {β : Type} (catalog : Catalog) (operand : Int32) (op : Opcode)
    (aspect : Machine → β) (hdata : ∀ m data, aspect { m with data := data } = aspect m)
    (hret : op.usesReturn = true → ∀ m ret, aspect { m with ret := ret } = aspect m)
    (hframe : op.setsFrameBase = true → ∀ m base, aspect { m with frameBase := base } = aspect m)
    (hglobal : op = .setGlobal → ∀ m base, aspect { m with globalBase := base } = aspect m)
    (hhalted : op.mayHalt = true → ∀ m halted, aspect { m with halted := halted } = aspect m) :
    Keeps aspect (execute catalog operand op) := by
  refine execute_of_parts (P := fun x => Keeps aspect x) (Q := fun x => Keeps aspect x) ?_
    catalog operand
  exact {
    pure := keeps_pure
    bind := Keeps.bind
    check := fun {_ e} _ => keeps_ofExcept e
    pop := keeps_pop hdata
    load := keeps_load
    popToBase := keeps_popToBase hdata
    popReturn := by
      intro hop
      obtain rfl | rfl := hop
      · exact keeps_popReturn (hret rfl)
      · exact keeps_popReturn (hret rfl)
    swapReturn := by
      intro hop
      subst hop
      exact keeps_swapReturn (hret rfl)
    popBase := by
      intro hop
      subst hop
      exact keeps_popBase (hret rfl) (hframe rfl)
    setGlobal := fun hop => keeps_modify fun m => hglobal hop m _
    halt := fun hop => keeps_modify fun m => hhalted hop m true
    last := fun hx => hx
    before := Keeps.bind
    after := fun b hx => hx.bind fun _ => keeps_pure b
    push := keeps_push hdata
    store := keeps_store hdata
    pushReturn := by
      intro hop
      subst hop
      exact keeps_pushReturn (hret rfl)
    pushBase := by
      intro hop
      subst hop
      exact keeps_pushBase (hret rfl) (hframe rfl) hdata }

/-! ## What a failed instruction leaves alone -/

/-- An action that fails has left an aspect of the machine alone. -/
def KeepsOnFailure {α β : Type} (aspect : Machine → β) (action : Action α) : Prop :=
  ∀ m fault m', action m = .error fault m' → aspect m' = aspect m

section KeepsOnFailure

variable {α β γ : Type} {aspect : Machine → β} {x : Action α}

/-- What an action keeps in any case it keeps on failure. -/
theorem Keeps.onFailure (hx : Keeps aspect x) : KeepsOnFailure aspect x := by
  intro m fault m' h
  have hkept := hx m
  rw [h] at hkept
  exact hkept

/-- An update does not fail, whatever it changes. -/
theorem keepsOnFailure_modify (f : Machine → Machine) :
    KeepsOnFailure aspect (modify f : Action Unit) := nofun

/-- An aspect that the first part of a sequence keeps is left alone if the second part fails well. -/
theorem Keeps.bind_onFailure {f : α → Action γ} (hx : Keeps aspect x)
    (hf : ∀ a, KeepsOnFailure aspect (f a)) : KeepsOnFailure aspect (x >>= f) := by
  intro m fault m'' h
  have hfirst := hx m
  obtain herror | ⟨a, m', hok, hrest⟩ := cases_of_bind_eq_error h
  · rw [herror] at hfirst
    exact hfirst
  · rw [hok] at hfirst
    exact (hf a m' fault m'' hrest).trans hfirst

/-- Nothing fails after the last action. -/
theorem KeepsOnFailure.bind_pure (hx : KeepsOnFailure aspect x) (c : γ) :
    KeepsOnFailure aspect (x >>= fun _ => pure c) := by
  intro m fault m'' h
  obtain herror | ⟨a, m', -, hrest⟩ := cases_of_bind_eq_error h
  · exact hx m fault m'' herror
  · cases hrest

end KeepsOnFailure

/-- An instruction that fails has changed at most the stacks: registers are set after all that can
fail. -/
theorem execute_keepsOnFailure {β : Type} (catalog : Catalog) (operand : Int32) (op : Opcode)
    (aspect : Machine → β) (hdata : ∀ m data, aspect { m with data := data } = aspect m)
    (hret : ∀ m ret, aspect { m with ret := ret } = aspect m) :
    KeepsOnFailure aspect (execute catalog operand op) := by
  have hpopReturn : Keeps aspect popReturn := keeps_popReturn hret
  -- The opcodes that set a register in their order; the others set none.
  cases op with
  | pushBase =>
    refine KeepsOnFailure.bind_pure ?_ _
    refine (keeps_popInt hdata).bind_onFailure fun argc => keeps_get.bind_onFailure fun _ => ?_
    refine (keeps_ofExcept _).bind_onFailure fun base => keeps_get.bind_onFailure fun _ => ?_
    refine (keeps_ofExcept _).bind_onFailure fun saved => ?_
    exact (keeps_pushReturn hret _).bind_onFailure fun _ => keepsOnFailure_modify _
  | popBase =>
    refine KeepsOnFailure.bind_pure ?_ _
    refine hpopReturn.bind_onFailure fun value => (keeps_ofExcept _).bind_onFailure fun base => ?_
    dsimp only
    split
    · refine keeps_get.bind_onFailure fun _ => (keeps_throw _).bind_onFailure fun _ => ?_
      exact keepsOnFailure_modify _
    · exact keepsOnFailure_modify _
  | setGlobal => exact (keepsOnFailure_modify _).bind_pure _
  | popReturn =>
    refine hpopReturn.bind_onFailure fun value => (keeps_ofExcept _).bind_onFailure fun target => ?_
    dsimp only
    split
    · exact (keepsOnFailure_modify _).bind_pure _
    · exact (keeps_pure _).onFailure
  | exitProg => exact (keepsOnFailure_modify _).bind_pure _
  | _ =>
    refine (execute_keeps catalog operand _ aspect hdata (fun _ => hret) ?_ ?_ ?_).onFailure
    all_goals exact nofun

/-! ## The faults of an instruction -/

/-- An action came to this without failing, or with a fault of instructions. -/
def Foreseen {α : Type} : EStateM.Result Fault Machine α → Prop
  | .ok _ _ => True
  | .error fault _ => fault.ofInstruction = true

/-- Every fault of an action is one of instructions. -/
def Raises {α : Type} (action : Action α) : Prop :=
  ∀ m, Foreseen (action m)

section Raises

variable {α β : Type}

/-- To return a value does not fail. -/
theorem raises_pure (a : α) : Raises (pure a : Action α) := fun _ => trivial

/-- To look at the machine does not fail. -/
theorem raises_get : Raises (get : Action Machine) := fun _ => trivial

/-- An update does not fail. -/
theorem raises_modify (f : Machine → Machine) : Raises (modify f : Action Unit) := fun _ => trivial

/-- A conversion raises its own faults. -/
theorem raises_ofExcept {e : Except Fault α} (he : Checks e) : Raises (ofExcept e : Action α) := by
  intro m
  cases e with
  | ok a => trivial
  | error fault => exact Fault.ofInstruction_of_ofOperands (he fault rfl)

/-- A sequence raises what its parts raise. -/
theorem Raises.bind {x : Action α} {f : α → Action β} (hx : Raises x) (hf : ∀ a, Raises (f a)) :
    Raises (x >>= f) := by
  intro m
  have hfirst := hx m
  cases hresult : x m with
  | error fault m' =>
    rw [hresult] at hfirst
    rw [bind_of_error hresult]
    exact hfirst
  | ok a m' =>
    rw [bind_of_ok hresult]
    exact hf a m'

end Raises

/-- A push fails for the depth alone. -/
theorem raises_push (value : Value) : Raises (push value) := by
  intro m
  unfold push
  split
  · trivial
  · rfl

/-- A pop fails for want of an entry alone. -/
theorem raises_pop : Raises pop := by
  intro m
  unfold pop
  split
  · trivial
  · rfl

/-- A push on the return stack fails for the depth alone. -/
theorem raises_pushReturn (value : Value) : Raises (pushReturn value) := by
  intro m
  unfold pushReturn
  split
  · trivial
  · rfl

/-- A pop from the return stack fails for want of an entry alone. -/
theorem raises_popReturn : Raises popReturn := by
  intro m
  unfold popReturn
  split
  · trivial
  · rfl

/-- An exchange on the return stack fails for want of entries alone. -/
theorem raises_swapReturn : Raises swapReturn := by
  intro m
  unfold swapReturn
  split
  · rfl
  · trivial

/-- A load fails for its slot alone. -/
theorem raises_load (register : BaseRegister) (var : Int32) : Raises (load register var) := by
  intro m
  unfold load
  split
  · rename_i fault hindex
    exact Fault.ofInstruction_of_ofOperands (checks_slotIndex m register var fault hindex)
  · split
    · trivial
    · rfl

/-- A store fails for its slot or for the depth. -/
theorem raises_store (register : BaseRegister) (var : Int32) (value : Value) :
    Raises (store register var value) := by
  intro m
  unfold store
  split
  · rename_i fault hindex
    exact Fault.ofInstruction_of_ofOperands (checks_slotIndex m register var fault hindex)
  · split
    · trivial
    · split
      · trivial
      · rfl

/-- Opening a frame fails for its operands or for the stacks. -/
theorem raises_pushBase : Raises pushBase := by
  refine (raises_pop.bind fun value => raises_ofExcept (checks_toNumber value)).bind fun argc => ?_
  refine raises_get.bind fun m => (raises_ofExcept (checks_frameStart argc _)).bind fun base => ?_
  refine raises_get.bind fun m => (raises_ofExcept (checks_encodeIndex _)).bind fun saved => ?_
  exact (raises_pushReturn _).bind fun _ => raises_modify _

/-- Closing a frame fails for its operands or for the stacks. -/
theorem raises_popBase : Raises popBase := by
  refine raises_popReturn.bind fun value => (raises_ofExcept (checks_toNumber value)).bind fun base => ?_
  dsimp only
  split
  · have hthrow (m : Machine) :
        Raises (throw (.indexOutOfBounds base.toInt64 m.data.size) : Action PUnit) :=
      raises_ofExcept (checks_error rfl)
    exact raises_get.bind fun m => (hthrow m).bind fun _ => raises_modify _
  · exact raises_modify _

/-- An instruction does not fail for want of code, nor of steps. -/
theorem execute_raises (catalog : Catalog) (operand : Int32) (op : Opcode) :
    Raises (execute catalog operand op) := by
  refine execute_of_parts (P := fun x => Raises x) (Q := fun x => Raises x) ?_ catalog operand
  exact {
    pure := raises_pure
    bind := Raises.bind
    check := raises_ofExcept
    pop := raises_pop
    load := raises_load
    popToBase := raises_modify _
    popReturn := fun _ => raises_popReturn
    swapReturn := fun _ => raises_swapReturn
    popBase := fun _ => raises_popBase
    setGlobal := fun _ => raises_modify _
    halt := fun _ => raises_modify _
    last := fun hx => hx
    before := Raises.bind
    after := fun b hx => hx.bind fun _ => raises_pure b
    push := raises_push
    store := raises_store
    pushReturn := fun _ => raises_pushReturn
    pushBase := fun _ => raises_pushBase }

end Machine

end ScriptMachine
