import Mathlib.Data.List.Pairwise
import ScriptMachine.Proofs.AssemblySessions

/-!
# Back-patching

A label is patched long after it was issued, when more code follows it and other labels have been patched
in between. The operands of labels lie apart from each other, so none of this matters: patches of
different labels can be exchanged, a patch can be put off until after any code that is emitted later, and
of the patches of one label the last one counts. Patching back therefore comes to the same code as
pushing the final targets in the first place (`after_eq_resolved`).

Calls that are refused are passed over here: `after` goes on with the assembler that a refused call left.
-/

namespace ScriptMachine

namespace Assembler

open LittleEndian

/-! ## Bytes after code -/

/-- Appending bytes from a list is appending them from an array. -/
theorem append_eq_append_toArray (code : Array UInt8) (more : List UInt8) :
    code ++ more = code ++ more.toArray := by
  apply Array.toList_inj.mp
  simp

/-- Bytes that are appended one list after the other are appended as one list. -/
theorem append_append_list (code : Array UInt8) (first second : List UInt8) :
    code ++ first ++ second = code ++ (first ++ second) := by
  apply Array.toList_inj.mp
  simp

/-- Code grows by the bytes that are appended to it. -/
theorem size_append_list (code : Array UInt8) (more : List UInt8) :
    (code ++ more).size = code.size + more.length := by
  rw [← Array.length_toList]
  simp

/-! ## Overwriting -/

section Overwrite

variable {start start' : Nat} {bytes bytes' : List UInt8}

/-- Overwriting does not change the length of the code. -/
@[simp] theorem size_overwrite (code : Array UInt8) (start : Nat) (bytes : List UInt8) :
    (overwrite code start bytes).size = code.size := by
  induction bytes generalizing code start with
  | nil => rfl
  | cons byte bytes ih => rw [overwrite, ih, Array.size_setIfInBounds]

/-- Overwritten bytes are the new ones, as far as there is code, and all others are the old ones. -/
theorem getElem?_overwrite (code : Array UInt8) (start : Nat) (bytes : List UInt8) (i : Nat) :
    (overwrite code start bytes)[i]? =
      if start ≤ i ∧ i < start + bytes.length ∧ i < code.size then bytes[i - start]?
      else code[i]? := by
  induction bytes generalizing code start with
  | nil =>
    rw [overwrite, List.length_nil, if_neg (by omega)]
  | cons byte bytes ih =>
    rw [overwrite, ih, Array.size_setIfInBounds, Array.getElem?_setIfInBounds, List.length_cons]
    obtain hlt | rfl | hgt := Nat.lt_trichotomy i start
    · rw [if_neg (by omega), if_neg (by omega), if_neg (by omega)]
    · rw [if_neg (by omega), if_pos rfl, Nat.sub_self]
      split
      · rw [if_pos (by omega)]
        rfl
      · rw [if_neg (by omega), Array.getElem?_eq_none (by omega)]
    · have hindex : i - start = i - (start + 1) + 1 := by omega
      rw [if_neg (show start ≠ i by omega), hindex, List.getElem?_cons_succ]
      exact if_congr (by omega) rfl rfl

/-- Windows that lie apart can be overwritten in either order. -/
theorem overwrite_comm (code : Array UInt8)
    (h : start + bytes.length ≤ start' ∨ start' + bytes'.length ≤ start) :
    overwrite (overwrite code start bytes) start' bytes' =
      overwrite (overwrite code start' bytes') start bytes := by
  apply Array.ext_getElem?
  intro i
  simp only [getElem?_overwrite, size_overwrite]
  grind

/-- A window that is overwritten twice holds what was written last. -/
theorem overwrite_overwrite (code : Array UInt8) (h : bytes.length = bytes'.length) :
    overwrite (overwrite code start bytes) start bytes' = overwrite code start bytes' := by
  apply Array.ext_getElem?
  intro i
  simp only [getElem?_overwrite, size_overwrite]
  grind

/-- What comes after a window does not matter to it. -/
theorem overwrite_append {code : Array UInt8} (more : List UInt8)
    (h : start + bytes.length ≤ code.size) :
    overwrite (code ++ more) start bytes = overwrite code start bytes ++ more := by
  apply Array.ext_getElem?
  intro i
  simp only [append_eq_append_toArray, getElem?_overwrite, Array.getElem?_append, Array.size_append,
    size_overwrite]
  grind

/-- What was written is found where it was written. -/
theorem extract_overwrite {code : Array UInt8} (h : start + bytes.length ≤ code.size) :
    ((overwrite code start bytes).extract start (start + bytes.length)).toList = bytes := by
  apply List.ext_getElem?
  intro i
  rw [Array.getElem?_toList, Array.getElem?_extract, size_overwrite, getElem?_overwrite]
  grind

end Overwrite

/-! ## Calls that may be refused -/

/-- The bytes that a call appends. -/
def Call.bytes : Call → List UInt8
  | emit op => ofWord op.word
  | emitWord word => ofWord word
  | emitImmediate value => ofInt value
  | emitPush value => ofWord Opcode.pushD.word ++ ofInt value
  | emitPushString index => ofWord Opcode.pushString.word ++ ofInt index
  | emitPushLabel => ofWord Opcode.pushD.word ++ ofInt 0
  | patch .. => []

/-- What a call that emits at an offset gives to its caller. -/
def Call.replyAt (offset : Nat) : Call → Reply
  | emitImmediate _ | patch .. => .nothing
  | emitPushLabel => .label ⟨offset + 2⟩
  | _ => .offset offset

/-- The assembler after a call, whether or not it is refused. -/
def Call.perform (call : Call) (a : Assembler) : Assembler :=
  finalState (call.make a)

/-- The call with what it gives, unless it is refused. -/
def Call.made? (call : Call) (a : Assembler) : Option Made :=
  match call.make a with
  | .ok reply _ => some ⟨call, a.offset, reply⟩
  | .error .. => none

/-- The assembler after calls in the order of the list. -/
def after (calls : List Call) (a : Assembler) : Assembler :=
  calls.foldl (fun a call => call.perform a) a

/-- The calls that are not refused when calls are made in the order of the list. -/
def accepted : List Call → Assembler → List Made
  | [], _ => []
  | call :: calls, a => (call.made? a).toList ++ accepted calls (call.perform a)

/-- The labels that are issued when calls are made in the order of the list. -/
def issued (calls : List Call) (a : Assembler) : List Label :=
  (accepted calls a).filterMap Made.label?

/-- The calls after the first are made on the assembler that it leaves. -/
theorem after_cons (call : Call) (calls : List Call) (a : Assembler) :
    after (call :: calls) a = after calls (call.perform a) :=
  rfl

/-- After a single call the assembler is what that call leaves. -/
theorem after_singleton (call : Call) (a : Assembler) : after [call] a = call.perform a :=
  rfl

/-- Calls may be made in two parts. -/
theorem after_append (first second : List Call) (a : Assembler) :
    after (first ++ second) a = after second (after first a) :=
  List.foldl_append

/-- What is accepted of calls that are made in two parts is accepted of the first and then of the
second. -/
theorem accepted_append (first second : List Call) (a : Assembler) :
    accepted (first ++ second) a = accepted first a ++ accepted second (after first a) := by
  induction first generalizing a with
  | nil => rfl
  | cons call first ih =>
    rw [List.cons_append, accepted, ih, accepted, List.append_assoc]
    rfl

/-- A single call is accepted unless it is refused. -/
theorem accepted_singleton (call : Call) (a : Assembler) :
    accepted [call] a = (call.made? a).toList :=
  List.append_nil _

section Calls

variable {call : Call}

/-- A call that emits is not refused, and appends its bytes. -/
theorem make_of_emits (h : call.emits = true) (a : Assembler) :
    call.make a = .ok (call.replyAt a.offset) ⟨a.code ++ call.bytes⟩ := by
  cases call with
  | emit op => rfl
  | emitWord word => rfl
  | emitImmediate value => rfl
  | emitPush value =>
    rw [Call.bytes, ← append_append_list]
    rfl
  | emitPushString index =>
    rw [Call.bytes, ← append_append_list]
    rfl
  | emitPushLabel =>
    have hmake : Call.emitPushLabel.make a =
        .ok (.label ⟨(a.code ++ ofWord Opcode.pushD.word).size⟩)
          ⟨a.code ++ ofWord Opcode.pushD.word ++ ofInt 0⟩ := rfl
    rw [hmake, size_append_list, length_ofWord, append_append_list]
    rfl
  | patch label target => cases h

/-- A call that emits appends its bytes to the code. -/
theorem perform_of_emits (h : call.emits = true) (a : Assembler) :
    call.perform a = ⟨a.code ++ call.bytes⟩ := by
  rw [Call.perform, make_of_emits h, finalState]

/-- A call that emits is not refused, and its reply depends on the offset alone. -/
theorem made?_of_emits (h : call.emits = true) (a : Assembler) :
    call.made? a = some ⟨call, a.offset, call.replyAt a.offset⟩ := by
  rw [Call.made?, make_of_emits h]

end Calls

/-! ### Patches -/

section Patches

variable {label : Label} {target : Nat} {a : Assembler}

/-- A target that does not fit in an operand is refused. -/
theorem patch_of_lt (h : 2 ^ 31 - 1 < target) (label : Label) (a : Assembler) :
    patch label target a = .error (.targetTooLarge target) a :=
  if_pos (by omega)

/-- A target that fits is written over the operand of its label. -/
theorem patch_of_le (h : target ≤ 2 ^ 31 - 1) (hlabel : label.operand + 4 ≤ a.offset) :
    patch label target a = .ok () ⟨overwrite a.code label.operand (ofInt (Int32.ofNat target))⟩ := by
  have hwithin : ¬ a.code.size < label.operand + 4 := Nat.not_lt.mpr hlabel
  unfold patch
  rw [if_neg (by omega), if_neg hwithin]

/-- A patch of a label within the code is refused exactly when the target does not fit. -/
theorem patch_eq_error_iff (hlabel : label.operand + 4 ≤ a.offset) {e : PatchError} {b : Assembler} :
    patch label target a = .error e b ↔
      2 ^ 31 - 1 < target ∧ e = .targetTooLarge target ∧ b = a := by
  rcases Nat.lt_or_ge (2 ^ 31 - 1) target with hrefused | hfits
  · rw [patch_of_lt hrefused, EStateM.Result.error.injEq]
    simp only [hrefused, true_and, eq_comm]
  · rw [patch_of_le hfits hlabel]
    simp only [Nat.not_lt.mpr hfits, false_and, reduceCtorEq]

/-- A patch as a call has nothing to reply. -/
theorem make_patch (label : Label) (target : Nat) (a : Assembler) :
    (Call.patch label target).make a =
      match patch label target a with
      | .ok _ b => .ok .nothing b
      | .error e b => .error e b := by
  simp only [Call.make, bind, EStateM.bind]
  cases patch label target a <;> rfl

/-- A patch whose target does not fit changes nothing. -/
theorem perform_patch_of_lt (h : 2 ^ 31 - 1 < target) (label : Label) (a : Assembler) :
    (Call.patch label target).perform a = a := by
  rw [Call.perform, make_patch, patch_of_lt h label a, finalState]

/-- A patch with a target that fits overwrites the operand of its label. -/
theorem perform_patch_of_le (h : target ≤ 2 ^ 31 - 1) (hlabel : label.operand + 4 ≤ a.offset) :
    (Call.patch label target).perform a =
      ⟨overwrite a.code label.operand (ofInt (Int32.ofNat target))⟩ := by
  rw [Call.perform, make_patch, patch_of_le h hlabel, finalState]

/-- A patch with a target that does not fit is not made. -/
theorem made?_patch_of_lt (h : 2 ^ 31 - 1 < target) (label : Label) (a : Assembler) :
    (Call.patch label target).made? a = none := by
  rw [Call.made?, make_patch, patch_of_lt h label a]

/-- A patch with a target that fits is made. -/
theorem made?_patch_of_le (h : target ≤ 2 ^ 31 - 1) (hlabel : label.operand + 4 ≤ a.offset) :
    (Call.patch label target).made? a = some ⟨.patch label target, a.offset, .nothing⟩ := by
  rw [Call.made?, make_patch, patch_of_le h hlabel]

/-- A patch makes the four bytes of its label's operand read as the target, and changes no other
byte. -/
structure Patched (a : Assembler) (label : Label) (target : Nat) (b : Assembler) : Prop where
  size : b.code.size = a.code.size
  elsewhere : ∀ i, i < label.operand ∨ label.operand + 4 ≤ i → b.code[i]? = a.code[i]?
  operand : ∃ n, Reader.read32 ⟨b.code, label.operand⟩ = .ok n ⟨b.code, label.operand + 4⟩ ∧
    n.toInt = target

/-- An operand that was written over code is read back from it. -/
theorem read32_overwrite {code : Array UInt8} {start : Nat} (h : start + 4 ≤ code.size) (n : Int32) :
    Reader.read32 ⟨overwrite code start (ofInt n), start⟩ =
      .ok n ⟨overwrite code start (ofInt n), start + 4⟩ := by
  have hextract : ((overwrite code start (ofInt n)).extract start (start + (ofInt n).length)).toList =
      ofInt n := extract_overwrite (by rwa [length_ofInt])
  rw [length_ofInt] at hextract
  have htake : Reader.take 4 ⟨overwrite code start (ofInt n), start⟩ =
      .ok (ofInt n) ⟨overwrite code start (ofInt n), start + 4⟩ := by
    unfold Reader.take
    dsimp only
    rw [size_overwrite, if_pos h, hextract]
  rw [Reader.read32, bind_of_ok htake]
  exact congrArg (fun m => EStateM.Result.ok m _) (toInt_ofInt n)

/-- A patch with a target that fits succeeds, and the label then has the target. -/
theorem exists_patched (h : target ≤ 2 ^ 31 - 1) (hlabel : label.operand + 4 ≤ a.offset) :
    ∃ b, patch label target a = .ok () b ∧ Patched a label target b := by
  have hvalue : (Int32.ofNat target).toInt = target := Int32.toInt_ofNat_of_lt (by omega)
  refine ⟨_, patch_of_le h hlabel, ?_, fun i houtside => ?_, Int32.ofNat target, ?_, hvalue⟩
  · rw [size_overwrite]
  · rw [getElem?_overwrite, length_ofInt, if_neg (by omega)]
  · dsimp only
    exact read32_overwrite hlabel (Int32.ofNat target)

end Patches

/-! ## Where labels lie -/

/-- A patch does not move the end of the code, whatever its label is. -/
theorem offset_perform_patch (label : Label) (target : Nat) (a : Assembler) :
    ((Call.patch label target).perform a).offset = a.offset := by
  have hpatch : (finalState (patch label target a)).offset = a.offset := by
    unfold patch
    split
    · rfl
    · split
      · rfl
      · simp only [finalState, offset, size_overwrite]
  rw [← hpatch, Call.perform, make_patch]
  cases patch label target a <;> rfl

/-- A call moves the offset by its bytes, of which a patch has none. -/
theorem offset_perform (call : Call) (a : Assembler) :
    (call.perform a).offset = a.offset + call.bytes.length := by
  cases hemits : call.emits with
  | true =>
    rw [perform_of_emits hemits]
    exact size_append_list ..
  | false =>
    cases call with
    | patch label target => exact offset_perform_patch label target a
    | _ => cases hemits

/-- A push takes six bytes. -/
theorem offset_perform_emitPush (value : Int32) (a : Assembler) :
    ((Call.emitPush value).perform a).offset = a.offset + 6 :=
  offset_perform ..

/-- A push of a label takes six bytes, as a push of an address does. -/
theorem offset_perform_emitPushLabel (a : Assembler) :
    (Call.emitPushLabel.perform a).offset = a.offset + 6 :=
  offset_perform ..

/-- The code grows by what the calls append. -/
theorem offset_after (calls : List Call) (a : Assembler) :
    (after calls a).offset = a.offset + (calls.flatMap Call.bytes).length := by
  induction calls generalizing a with
  | nil => rfl
  | cons call calls ih =>
    rw [after_cons, ih, offset_perform, List.flatMap_cons, List.length_append, Nat.add_assoc]

/-- A push of a label issues the label of its operand, which comes after the word. -/
theorem issued_emitPushLabel_cons (calls : List Call) (a : Assembler) :
    issued (.emitPushLabel :: calls) a =
      ⟨a.offset + 2⟩ :: issued calls (Call.emitPushLabel.perform a) := by
  rw [issued, accepted, made?_of_emits rfl]
  rfl

/-- No other call issues a label. -/
theorem issued_cons_of_ne {call : Call} (h : call ≠ .emitPushLabel) (calls : List Call)
    (a : Assembler) : issued (call :: calls) a = issued calls (call.perform a) := by
  have hnone : (call.made? a).toList.filterMap Made.label? = [] := by
    cases call with
    | emitPushLabel => exact absurd rfl h
    | patch label target =>
      rw [Call.made?, make_patch]
      cases Assembler.patch label target a <;> rfl
    | _ =>
      rw [made?_of_emits rfl]
      rfl
  rw [issued, accepted, List.filterMap_append, hnone]
  rfl

/-- A label is issued by a call of its own, and its operand begins after the word of the push. -/
theorem exists_of_mem_issued {calls : List Call} {a : Assembler} {label : Label}
    (h : label ∈ issued calls a) :
    ∃ before rest, calls = before ++ Call.emitPushLabel :: rest ∧
      label = ⟨(after before a).offset + 2⟩ := by
  induction calls generalizing a with
  | nil => cases h
  | cons call calls ih =>
    -- The label comes from the first call, or from a later one.
    by_cases hcall : call = .emitPushLabel ∧ label = ⟨a.offset + 2⟩
    · obtain ⟨rfl, rfl⟩ := hcall
      exact ⟨[], calls, rfl, rfl⟩
    · have hlater : label ∈ issued calls (call.perform a) := by
        by_cases hpush : call = .emitPushLabel
        · subst hpush
          rw [issued_emitPushLabel_cons, List.mem_cons] at h
          exact h.resolve_left fun hlabel => hcall ⟨rfl, hlabel⟩
        · rwa [issued_cons_of_ne hpush] at h
      obtain ⟨before, rest, rfl, hlabel⟩ := ih hlater
      exact ⟨call :: before, rest, rfl, hlabel⟩

/-- The operand of a label lies within the code, past what was there before the label was issued. -/
theorem bounds_of_mem_issued {calls : List Call} {a : Assembler} {label : Label}
    (h : label ∈ issued calls a) :
    a.offset + 2 ≤ label.operand ∧ label.operand + 4 ≤ (after calls a).offset := by
  obtain ⟨before, rest, rfl, rfl⟩ := exists_of_mem_issued h
  have hpush : Call.emitPushLabel.bytes.length = 6 := rfl
  simp only [offset_after, List.flatMap_append, List.flatMap_cons, List.length_append, hpush]
  omega

/-- The operands of labels lie one after another, in the order in which the labels were issued. -/
theorem pairwise_issued (calls : List Call) (a : Assembler) :
    (issued calls a).Pairwise fun first second => first.operand + 4 ≤ second.operand := by
  induction calls generalizing a with
  | nil => exact List.Pairwise.nil
  | cons call calls ih =>
    by_cases hpush : call = .emitPushLabel
    · subst hpush
      rw [issued_emitPushLabel_cons, List.pairwise_cons]
      refine ⟨fun label hlabel => ?_, ih _⟩
      have hbounds := (bounds_of_mem_issued hlabel).1
      rw [offset_perform_emitPushLabel] at hbounds
      dsimp only
      omega
    · rw [issued_cons_of_ne hpush]
      exact ih _

/-- The operands of two labels have no byte in common. -/
def Apart (first second : Label) : Prop :=
  first.operand + 4 ≤ second.operand ∨ second.operand + 4 ≤ first.operand

instance : Std.Symm Apart :=
  ⟨fun _ _ => Or.symm⟩

/-- Different labels of one assembler have operands without a common byte. -/
theorem apart_of_mem_issued {calls : List Call} {a : Assembler} {first second : Label}
    (hfirst : first ∈ issued calls a) (hsecond : second ∈ issued calls a) (hne : first ≠ second) :
    Apart first second := by
  have hpairwise : (issued calls a).Pairwise Apart := (pairwise_issued calls a).imp .inl
  exact hpairwise.forall hfirst hsecond hne

/-! ## Exchanging calls -/

section Exchange

variable {a : Assembler} {label other : Label} {target target' : Nat}

/-- Patches of labels that lie apart can be made in either order, also when one of them is refused. -/
theorem perform_patch_comm (hlabel : label.operand + 4 ≤ a.offset)
    (hother : other.operand + 4 ≤ a.offset) (hapart : Apart label other) (target target' : Nat) :
    (Call.patch other target').perform ((Call.patch label target).perform a) =
      (Call.patch label target).perform ((Call.patch other target').perform a) := by
  rcases Nat.lt_or_ge (2 ^ 31 - 1) target with hrefused | hfits
  · rw [perform_patch_of_lt hrefused, perform_patch_of_lt hrefused]
  rcases Nat.lt_or_ge (2 ^ 31 - 1) target' with hrefused' | hfits'
  · rw [perform_patch_of_lt hrefused', perform_patch_of_lt hrefused']
  rw [perform_patch_of_le hfits hlabel, perform_patch_of_le hfits' hother,
    perform_patch_of_le hfits' (by simpa [offset] using hother),
    perform_patch_of_le hfits (by simpa [offset] using hlabel)]
  dsimp only
  rw [overwrite_comm]
  exact hapart

/-- Of two patches of one label the second counts, unless it is refused. -/
theorem perform_patch_patch (hlabel : label.operand + 4 ≤ a.offset) (target : Nat)
    (htarget : target' ≤ 2 ^ 31 - 1) :
    (Call.patch label target').perform ((Call.patch label target).perform a) =
      (Call.patch label target').perform a := by
  rcases Nat.lt_or_ge (2 ^ 31 - 1) target with hrefused | hfits
  · rw [perform_patch_of_lt hrefused]
  rw [perform_patch_of_le hfits hlabel, perform_patch_of_le htarget hlabel,
    perform_patch_of_le htarget (by simpa [offset] using hlabel)]
  dsimp only
  rw [overwrite_overwrite _ (by rw [length_ofInt, length_ofInt])]

/-- A patch can be made before or after a call that emits. -/
theorem perform_patch_emit {call : Call} (hlabel : label.operand + 4 ≤ a.offset)
    (hemits : call.emits = true) (target : Nat) :
    (Call.patch label target).perform (call.perform a) =
      call.perform ((Call.patch label target).perform a) := by
  rcases Nat.lt_or_ge (2 ^ 31 - 1) target with hrefused | hfits
  · rw [perform_patch_of_lt hrefused, perform_patch_of_lt hrefused]
  rw [perform_patch_of_le hfits hlabel,
    perform_patch_of_le hfits (by rw [offset_perform]; omega), perform_of_emits hemits,
    perform_of_emits hemits]
  dsimp only
  rw [overwrite_append]
  exact hlabel

/-- A patch can be put off until after any calls that emit. -/
theorem perform_patch_after {calls : List Call} (hlabel : label.operand + 4 ≤ a.offset)
    (hemits : ∀ call ∈ calls, call.emits = true) (target : Nat) :
    (Call.patch label target).perform (after calls a) =
      after calls ((Call.patch label target).perform a) := by
  induction calls generalizing a with
  | nil => rfl
  | cons call calls ih =>
    rw [List.forall_mem_cons] at hemits
    have hlater : label.operand + 4 ≤ (call.perform a).offset := by
      rw [offset_perform]
      omega
    rw [after_cons, after_cons, ih hlater hemits.2, perform_patch_emit hlabel hemits.1]

/-- What calls that emit give depends on the offset alone. -/
theorem accepted_of_offset_eq {calls : List Call} {b : Assembler}
    (hemits : ∀ call ∈ calls, call.emits = true) (h : a.offset = b.offset) :
    accepted calls a = accepted calls b := by
  induction calls generalizing a b with
  | nil => rfl
  | cons call calls ih =>
    rw [List.forall_mem_cons] at hemits
    have hlater : (call.perform a).offset = (call.perform b).offset := by
      rw [offset_perform, offset_perform, h]
    rw [accepted, accepted, made?_of_emits hemits.1, made?_of_emits hemits.1, h,
      ih hemits.2 hlater]

end Exchange

/-! ## Pushing the final targets -/

/-- The call that takes the place of a call when the targets of labels are known from the start: a label
is pushed as its target, and a patch is left out. -/
def Made.resolve? (target : Label → Nat) (made : Made) : Option Call :=
  match made.call with
  | .patch .. => none
  | .emitPushLabel => made.label?.map fun label => .emitPush (Int32.ofNat (target label))
  | call => some call

/-- Calls without labels and patches, given the targets of the labels. -/
def resolved (target : Label → Nat) (made : List Made) : List Call :=
  made.filterMap (Made.resolve? target)

/-- The target that was patched into a label last by a patch that was not refused, zero if there is
none. -/
def finalTarget (calls : List Call) : Label → Nat :=
  lastTarget ((accepted calls {}).map Made.call)

/-- Every patch is of a label that the same assembler issued before, whether or not calls were refused in
between. -/
def PatchesOwn (calls : List Call) : Prop :=
  ∀ before label target rest, calls = before ++ Call.patch label target :: rest →
    label ∈ issued before {}

/-- If every patch is of an own label, then this is so before the last call. -/
theorem PatchesOwn.of_append {calls : List Call} {call : Call} (h : PatchesOwn (calls ++ [call])) :
    PatchesOwn calls := by
  intro before label target rest hcalls
  refine h before label target (rest ++ [call]) ?_
  rw [hcalls]
  simp

section Resolved

variable {target : Label → Nat} {label : Label} {address : Nat}

/-- Calls may be resolved in two parts. -/
theorem resolved_append (target : Label → Nat) (first second : List Made) :
    resolved target (first ++ second) = resolved target first ++ resolved target second :=
  List.filterMap_append

/-- A push of a label is resolved to a push of the target of the label. -/
theorem resolved_emitPushLabel (target : Label → Nat) (a : Assembler) :
    resolved target (Call.emitPushLabel.made? a).toList =
      [.emitPush (Int32.ofNat (target ⟨a.offset + 2⟩))] := by
  rw [made?_of_emits rfl]
  rfl

/-- What is resolved has no patches, so all of it emits. -/
theorem emits_of_mem_resolved {made : List Made} {call : Call} (h : call ∈ resolved target made) :
    call.emits = true := by
  obtain ⟨m, -, hm⟩ := List.mem_filterMap.mp h
  obtain ⟨original, before, reply⟩ := m
  cases original with
  | patch label target => cases hm
  | emitPushLabel =>
    obtain ⟨label, -, rfl⟩ := Option.map_eq_some_iff.mp hm
    rfl
  | _ =>
    cases hm
    rfl

/-- The target of a label that was not issued does not matter. -/
theorem resolved_update {made : List Made} (h : label ∉ made.filterMap Made.label?)
    (target : Label → Nat) (address : Nat) :
    resolved (Function.update target label address) made = resolved target made := by
  refine List.filterMap_congr fun m hm => ?_
  have hother : ∀ other, m.label? = some other → other ≠ label := by
    rintro other hlabel rfl
    exact h (List.mem_filterMap.mpr ⟨m, hm, hlabel⟩)
  obtain ⟨call, before, reply⟩ := m
  cases call with
  | emitPushLabel =>
    refine Option.map_congr fun other hlabel => ?_
    rw [Function.update_of_ne (hother other hlabel)]
  | _ => rfl

/-- Resolving labels does not change how much is emitted. -/
theorem length_bytes_resolved (target : Label → Nat) (calls : List Call) (a : Assembler) :
    ((resolved target (accepted calls a)).flatMap Call.bytes).length =
      (calls.flatMap Call.bytes).length := by
  induction calls generalizing a with
  | nil => rfl
  | cons call calls ih =>
    have hcall : ((resolved target (call.made? a).toList).flatMap Call.bytes).length =
        call.bytes.length := by
      cases call with
      | patch label target =>
        rw [Call.made?, make_patch]
        cases Assembler.patch label target a <;> rfl
      | _ =>
        rw [made?_of_emits rfl]
        rfl
    rw [accepted, resolved_append, List.flatMap_append, List.length_append, hcall, ih,
      List.flatMap_cons, List.length_append]

/-- The resolved calls leave the offset that the calls leave. -/
theorem offset_after_resolved (target : Label → Nat) (calls : List Call) (a : Assembler) :
    (after (resolved target (accepted calls a)) a).offset = (after calls a).offset := by
  rw [offset_after, length_bytes_resolved, offset_after]

/-- A pushed integer that is patched is another integer pushed. -/
theorem perform_patch_emitPush (h : address ≤ 2 ^ 31 - 1) (value : Int32) (a : Assembler) :
    (Call.patch ⟨a.offset + 2⟩ address).perform ((Call.emitPush value).perform a) =
      (Call.emitPush (Int32.ofNat address)).perform a := by
  have hoffset := offset_perform_emitPush value a
  have hoperand : a.offset + 2 = (a.code.toList ++ ofWord Opcode.pushD.word).length := by
    rw [List.length_append, length_ofWord, Array.length_toList, offset]
  have hcode : (a.code ++ (Call.emitPush value).bytes).toList =
      (a.code.toList ++ ofWord Opcode.pushD.word) ++ (ofInt value ++ []) := by
    simp [Call.bytes]
  have hlength : (ofInt value).length = (ofInt (Int32.ofNat address)).length := by
    rw [length_ofInt, length_ofInt]
  rw [perform_patch_of_le h (by dsimp only; omega), perform_of_emits rfl, perform_of_emits rfl,
    Assembler.mk.injEq, ← Array.toList_inj]
  dsimp only
  rw [hoperand, toList_overwrite hcode hlength]
  simp [Call.bytes]

/-- Patching a label that is pushed as its target comes to pushing the new target. -/
theorem perform_patch_resolved {calls : List Call} {a : Assembler} (hlabel : label ∈ issued calls a)
    (h : address ≤ 2 ^ 31 - 1) (target : Label → Nat) :
    (Call.patch label address).perform (after (resolved target (accepted calls a)) a) =
      after (resolved (Function.update target label address) (accepted calls a)) a := by
  obtain ⟨before, rest, rfl, rfl⟩ := exists_of_mem_issued hlabel
  -- The label is not issued a second time, neither before its call nor after it.
  have hbefore : (⟨(after before a).offset + 2⟩ : Label) ∉ issued before a := by
    intro hmem
    have hbounds := (bounds_of_mem_issued hmem).2
    dsimp only at hbounds
    omega
  have hrest : (⟨(after before a).offset + 2⟩ : Label) ∉
      issued rest (Call.emitPushLabel.perform (after before a)) := by
    intro hmem
    have hbounds := (bounds_of_mem_issued hmem).1
    rw [offset_perform_emitPushLabel] at hbounds
    dsimp only at hbounds
    omega
  rw [accepted_append, accepted]
  simp only [resolved_append, resolved_emitPushLabel, resolved_update hbefore,
    resolved_update hrest, Function.update_self, after_append]
  rw [perform_patch_after _ fun call hcall => emits_of_mem_resolved hcall]
  · rw [after_singleton, after_singleton, ← offset_after_resolved target before a,
      perform_patch_emitPush h]
  · refine Nat.le_of_eq ?_
    rw [after_singleton, offset_perform_emitPush, offset_after_resolved]

end Resolved

/-! ### Targets -/

/-- A call that was accepted was made. -/
theorem mem_of_mem_accepted {calls : List Call} {a : Assembler} {made : Made}
    (h : made ∈ accepted calls a) : made.call ∈ calls := by
  induction calls generalizing a with
  | nil => cases h
  | cons call calls ih =>
    rw [accepted, List.mem_append, Option.mem_toList] at h
    obtain hfirst | hlater := h
    · have hcall : made.call = call := by
        unfold Call.made? at hfirst
        split at hfirst <;> cases hfirst
        rfl
      rw [hcall]
      exact List.mem_cons_self
    · exact List.mem_cons_of_mem _ (ih hlater)

/-- A label that is never patched has no target. -/
theorem lastTarget_of_forall_not_mem {calls : List Call} {label : Label}
    (h : ∀ target, Call.patch label target ∉ calls) : lastTarget calls label = 0 := by
  have hnone : calls.filterMap (Call.target? label) = [] := by
    rw [List.filterMap_eq_nil_iff]
    intro call hcall
    cases call with
    | patch other target =>
      refine if_neg ?_
      rintro rfl
      exact h target hcall
    | _ => rfl
  rw [lastTarget, hnone]
  rfl

/-- A label that is yet to be issued has no target. -/
theorem finalTarget_of_le {calls : List Call} (hown : PatchesOwn calls) {label : Label}
    (h : (after calls {}).offset ≤ label.operand) : finalTarget calls label = 0 := by
  refine lastTarget_of_forall_not_mem fun target hpatch => ?_
  obtain ⟨made, hmade, hcall⟩ := List.mem_map.mp hpatch
  have hmem : Call.patch label target ∈ calls := hcall ▸ mem_of_mem_accepted hmade
  obtain ⟨before, rest, rfl⟩ := List.append_of_mem hmem
  have hbounds := (bounds_of_mem_issued (hown before label target rest rfl)).2
  rw [after_append, offset_after] at h
  omega

/-- A call that emits does not change the final targets. -/
theorem finalTarget_append_of_emits {call : Call} (h : call.emits = true) (calls : List Call) :
    finalTarget (calls ++ [call]) = finalTarget calls := by
  rw [finalTarget, accepted_append, accepted_singleton, made?_of_emits h, Option.toList_some,
    List.map_append, List.map_singleton, lastTarget_append_of_emits h, finalTarget]

section Patching

variable {calls : List Call} {label : Label} {target : Nat}

/-- A refused patch does not set the target of its label. -/
theorem finalTarget_append_of_lt (h : 2 ^ 31 - 1 < target) :
    finalTarget (calls ++ [Call.patch label target]) = finalTarget calls := by
  rw [finalTarget, accepted_append, accepted_singleton, made?_patch_of_lt h, Option.toList_none,
    List.append_nil, finalTarget]

/-- A patch with a target that fits changes the final target of its label, and of no other. -/
theorem finalTarget_append_of_le (h : target ≤ 2 ^ 31 - 1)
    (hlabel : label.operand + 4 ≤ (after calls {}).offset) :
    finalTarget (calls ++ [Call.patch label target]) =
      Function.update (finalTarget calls) label target := by
  rw [finalTarget, accepted_append, accepted_singleton, made?_patch_of_le h hlabel,
    Option.toList_some, List.map_append, List.map_singleton, lastTarget_append_patch, finalTarget]

end Patching

/-- A call that emits comes to the same when its label is pushed as zero. -/
theorem after_resolved_of_emits {target : Label → Nat} {call : Call} {a : Assembler}
    (hemits : call.emits = true) (hfresh : target ⟨a.offset + 2⟩ = 0) :
    after (resolved target (call.made? a).toList) a = call.perform a := by
  cases call with
  | patch label target => cases hemits
  | emitPushLabel =>
    have hzero : Int32.ofNat 0 = 0 := rfl
    rw [resolved_emitPushLabel, hfresh, hzero, after_singleton, perform_of_emits rfl,
      perform_of_emits rfl, Call.bytes, Call.bytes]
  | _ =>
    rw [made?_of_emits rfl]
    rfl

/-- Patching back comes to the same code as pushing the final targets. -/
theorem after_eq_resolved {calls : List Call} (hown : PatchesOwn calls) :
    after calls {} = after (resolved (finalTarget calls) (accepted calls {})) {} := by
  -- The induction is on the last call: a patch is of a label that was issued before it.
  induction calls using List.reverseRecOn with
  | nil => rfl
  | append_singleton calls call ih =>
    have hcalls := ih hown.of_append
    rw [after_append, accepted_append, accepted_singleton, resolved_append, after_append,
      after_singleton]
    cases hemits : call.emits with
    | true =>
      have hfresh : finalTarget calls ⟨(after calls {}).offset + 2⟩ = 0 :=
        finalTarget_of_le hown.of_append (Nat.le_add_right ..)
      rw [finalTarget_append_of_emits hemits, ← hcalls, after_resolved_of_emits hemits hfresh]
    | false =>
      cases call with
      | patch label target =>
        have hlabel := hown calls label target [] rfl
        have hwithin := (bounds_of_mem_issued hlabel).2
        rcases Nat.lt_or_ge (2 ^ 31 - 1) target with hrefused | hfits
        · rw [finalTarget_append_of_lt hrefused, perform_patch_of_lt hrefused,
            made?_patch_of_lt hrefused]
          exact hcalls
        · rw [finalTarget_append_of_le hfits hwithin, made?_patch_of_le hfits hwithin, hcalls,
            perform_patch_resolved hlabel hfits]
          rfl
      | _ => cases hemits

/-- Back-patching is safe, and its order does not matter. Whatever calls an assembler has served, a patch
of a label that it issued is refused exactly when the target does not fit, which changes nothing, and
writes the target into the four bytes of the label's operand otherwise. Operands do not overlap, so
patches of different labels can be exchanged, a patch can be put off until after calls that emit, and
of two patches of one label the last counts. Code that is patched back is therefore the code of the
same calls without patches, where each label is pushed as its final target. -/
theorem back_patching_in_any_order (calls : List Call) :
    (∀ label ∈ issued calls {}, ∀ target,
      (∀ e b, patch label target (after calls {}) = .error e b ↔
        2 ^ 31 - 1 < target ∧ e = .targetTooLarge target ∧ b = after calls {}) ∧
      (target ≤ 2 ^ 31 - 1 → ∃ b, patch label target (after calls {}) = .ok () b ∧
        Patched (after calls {}) label target b)) ∧
    (issued calls {}).Pairwise (fun first second => first.operand + 4 ≤ second.operand) ∧
    (∀ first ∈ issued calls {}, ∀ second ∈ issued calls {}, first ≠ second → ∀ target target',
      after (calls ++ [Call.patch first target, Call.patch second target']) {} =
        after (calls ++ [Call.patch second target', Call.patch first target]) {}) ∧
    (∀ label ∈ issued calls {}, ∀ target later, (∀ call ∈ later, call.emits = true) →
      after (calls ++ [Call.patch label target] ++ later) {} =
        after (calls ++ later ++ [Call.patch label target]) {} ∧
      accepted later (after (calls ++ [Call.patch label target]) {}) = accepted later (after calls {})) ∧
    (∀ label ∈ issued calls {}, ∀ target target', target' ≤ 2 ^ 31 - 1 →
      after (calls ++ [Call.patch label target, Call.patch label target']) {} =
        after (calls ++ [Call.patch label target']) {}) ∧
    (PatchesOwn calls →
      after calls {} = after (resolved (finalTarget calls) (accepted calls {})) {}) := by
  have hwithin : ∀ label ∈ issued calls {}, label.operand + 4 ≤ (after calls {}).offset :=
    fun label hlabel => (bounds_of_mem_issued hlabel).2
  refine ⟨fun label hlabel target => ?_, pairwise_issued calls {}, ?_, ?_, ?_, after_eq_resolved⟩
  · have hlabel' := hwithin label hlabel
    exact ⟨fun e b => patch_eq_error_iff hlabel', fun hfits => exists_patched hfits hlabel'⟩
  · intro first hfirst second hsecond hne target target'
    rw [after_append, after_append]
    exact perform_patch_comm (hwithin first hfirst) (hwithin second hsecond)
      (apart_of_mem_issued hfirst hsecond hne) target target'
  · intro label hlabel target later hemits
    refine ⟨?_, ?_⟩
    · simp only [after_append, after_singleton]
      exact (perform_patch_after (hwithin label hlabel) hemits target).symm
    · rw [after_append, after_singleton]
      exact accepted_of_offset_eq hemits (offset_perform_patch label target _)
  · intro label hlabel target target' hfits
    rw [after_append, after_append]
    exact perform_patch_patch (hwithin label hlabel) target hfits

/-- Two labels around a raw word. The first is patched twice and once refused, the second never. -/
def twoLabels : List Call :=
  [.emitPushLabel, .patch ⟨2⟩ 3, .emitWord 0xFFFF, .emitPushLabel, .patch ⟨2⟩ 14, .patch ⟨2⟩ (2 ^ 31),
    .emitImmediate (-1)]

/-- Two labels around a raw word come to two pushes, and can be patched further in any order. -/
theorem back_patching_in_any_order_twoLabels :
    PatchesOwn twoLabels ∧ issued twoLabels {} = [⟨2⟩, ⟨10⟩] ∧
      after twoLabels {} =
        after [.emitPush 14, .emitWord 0xFFFF, .emitPush 0, .emitImmediate (-1)] {} ∧
      patch ⟨10⟩ (2 ^ 31) (after twoLabels {}) =
        .error (.targetTooLarge (2 ^ 31)) (after twoLabels {}) ∧
      (∃ b, patch ⟨10⟩ 8 (after twoLabels {}) = .ok () b ∧ Patched (after twoLabels {}) ⟨10⟩ 8 b) ∧
      after (twoLabels ++ [Call.patch ⟨2⟩ 0, Call.patch ⟨10⟩ 8]) {} =
        after (twoLabels ++ [Call.patch ⟨10⟩ 8, Call.patch ⟨2⟩ 0]) {} ∧
      after (twoLabels ++ [Call.patch ⟨10⟩ 8] ++ [Call.emit .jmp, .emitPushLabel]) {} =
        after (twoLabels ++ [Call.emit .jmp, .emitPushLabel] ++ [Call.patch ⟨10⟩ 8]) {} ∧
      after (twoLabels ++ [Call.patch ⟨2⟩ (2 ^ 31), Call.patch ⟨2⟩ 0]) {} =
        after (twoLabels ++ [Call.patch ⟨2⟩ 0]) {} := by
  have hissued : issued twoLabels {} = [⟨2⟩, ⟨10⟩] := by decide
  have hfirst : ⟨2⟩ ∈ issued twoLabels {} := by decide
  have hsecond : ⟨10⟩ ∈ issued twoLabels {} := by decide
  have hresolve : resolved (finalTarget twoLabels) (accepted twoLabels {}) =
      [.emitPush 14, .emitWord 0xFFFF, .emitPush 0, .emitImmediate (-1)] := by decide
  have hown : PatchesOwn twoLabels := by
    intro before label target rest hcalls
    match before, hcalls with
    | [], hcalls => cases hcalls
    | [_], hcalls =>
      cases hcalls
      decide
    | [_, _], hcalls => cases hcalls
    | [_, _, _], hcalls => cases hcalls
    | [_, _, _, _], hcalls =>
      cases hcalls
      decide
    | [_, _, _, _, _], hcalls =>
      cases hcalls
      decide
    | [_, _, _, _, _, _], hcalls => cases hcalls
    | _ :: _ :: _ :: _ :: _ :: _ :: _ :: rest, hcalls => cases rest <;> cases hcalls
  obtain ⟨hpatch, -, hexchange, hlater, hlast, hcode⟩ := back_patching_in_any_order twoLabels
  refine ⟨hown, hissued, ?_, ?_, (hpatch ⟨10⟩ hsecond 8).2 (by decide), ?_, ?_, ?_⟩
  · rw [hcode hown, hresolve]
  · exact ((hpatch ⟨10⟩ hsecond (2 ^ 31)).1 _ _).mpr ⟨by decide, rfl, rfl⟩
  · exact hexchange ⟨2⟩ hfirst ⟨10⟩ hsecond (by decide) 0 8
  · exact (hlater ⟨10⟩ hsecond 8 [Call.emit .jmp, .emitPushLabel] (by decide)).1
  · exact hlast ⟨2⟩ hfirst (2 ^ 31) 0 (by decide)

end Assembler

end ScriptMachine
