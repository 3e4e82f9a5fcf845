import Mathlib.Data.List.Forall2
import Mathlib.Data.List.Induction
import ScriptMachine.Assembler
import ScriptMachine.Proofs.Disassembly

/-!
# Listing what was assembled

A session is a sequence of calls on one assembler. When the calls emit whole instructions, and labels
are patched after they were issued, no patch is refused and the listing of the code has one line for
each call that emits (`disassemble_session`).

The invariant of such a session is `Assembled`: the code has a listing, and its lines describe the
calls made so far, each label with the target patched into it last. A call that emits adds a line. A
patch overwrites the operand of one line, and since no two lines begin at the same offset, it leaves
the other labels alone.
-/

namespace ScriptMachine

namespace Assembler

open Instruction LittleEndian

/-! ## Sessions -/

/-- A call of an assembler. -/
inductive Call where
  | emit (op : Opcode)
  | emitWord (word : UInt16)
  | emitImmediate (value : Int32)
  | emitPush (value : Int32)
  | emitPushString (index : Int32)
  | emitPushLabel
  | patch (label : Label) (target : Nat)
  deriving DecidableEq

/-- What a call gives to its caller. -/
inductive Reply where
  | offset (start : Nat)
  | label (label : Label)
  | nothing
  deriving DecidableEq

/-- Make a call. -/
def Call.make : Call → Assembly Reply
  | emit op => return .offset (← Assembler.emit op)
  | emitWord word => return .offset (← Assembler.emitWord word)
  | emitImmediate value => do
    let _ ← Assembler.emitImmediate value
    return .nothing
  | emitPush value => return .offset (← Assembler.emitPush value)
  | emitPushString index => return .offset (← Assembler.emitPushString index)
  | emitPushLabel => return .label (← Assembler.emitPushLabel)
  | patch label target => do
    Assembler.patch label target
    return .nothing

/-- A call that was made, with the offset of the assembler before it and what it gave. -/
structure Made where
  call : Call
  before : Nat
  reply : Reply
  deriving DecidableEq

/-- Make calls one after another, up to the first that fails. -/
def session : List Call → Assembly (List Made)
  | [] => return []
  | call :: rest => do
    let before := (← get).offset
    let reply ← call.make
    return ⟨call, before, reply⟩ :: (← session rest)

/-- A session is continued by one more call. -/
theorem session_append_singleton {calls : List Call} {call : Call} {a b c : Assembler}
    {made : List Made} {reply : Reply} (hcalls : session calls a = .ok made b)
    (hcall : call.make b = .ok reply c) :
    session (calls ++ [call]) a = .ok (made ++ [⟨call, b.offset, reply⟩]) c := by
  induction calls generalizing a made with
  | nil =>
    cases hcalls
    rw [List.nil_append, session, get_bind_apply, bind_of_ok hcall]
    rfl
  | cons first rest ih =>
    rw [session, get_bind_apply] at hcalls
    obtain ⟨reply', a', hfirst, hafter⟩ := exists_of_bind_eq_ok hcalls
    obtain ⟨made', b', hrest, hmade⟩ := exists_of_bind_eq_ok hafter
    cases hmade
    rw [List.cons_append, session, get_bind_apply, bind_of_ok hfirst, bind_of_ok (ih hrest)]
    rfl

/-! ## Calls that emit whole instructions -/

/-- Whether a call appends to the code. -/
def Call.emits : Call → Bool
  | patch .. => false
  | _ => true

/-- Whether what a call emits is a whole instruction. An opcode by itself is one when it carries no
immediate, and a raw word when it is not the word of an opcode. A patch emits nothing, but its target
must be a nonnegative 32-bit integer. -/
def Call.isWhole : Call → Bool
  | emit op => !op.hasImmediate
  | emitWord word => (Opcode.ofWord? word).isNone
  | emitImmediate _ => false
  | patch _ target => decide (target ≤ 2 ^ 31 - 1)
  | _ => true

/-- The target that a call patches into a label. -/
def Call.target? (label : Label) : Call → Option Nat
  | patch other target => if other = label then some target else none
  | _ => none

/-- The target that calls patched into a label last, zero if there is none. -/
def lastTarget (calls : List Call) (label : Label) : Nat :=
  (calls.filterMap (Call.target? label)).getLast?.getD 0

/-- The label that a call was given. -/
def Made.label? (made : Made) : Option Label :=
  match made.reply with
  | .label label => some label
  | _ => none

/-- Every patch is of a label that the same assembler issued before. -/
def PatchesIssued (calls : List Call) : Prop :=
  ∀ before label target after, calls = before ++ .patch label target :: after →
    ∀ made a, session before {} = .ok made a → label ∈ made.filterMap Made.label?

/-- A line tells of a call that emits what the call emitted, at the offset that it gave. The immediate
of a label is its target, and its line begins where the assembler stood before the call. -/
inductive Describes (target : Label → Nat) : Made → Instruction → Prop
  | emit (op : Opcode) (before start : Nat) :
      Describes target ⟨.emit op, before, .offset start⟩ ⟨start, op.word, some op, none⟩
  | emitWord (word : UInt16) (before start : Nat) :
      Describes target ⟨.emitWord word, before, .offset start⟩ ⟨start, word, none, none⟩
  | emitPush (value : Int32) (before start : Nat) :
      Describes target ⟨.emitPush value, before, .offset start⟩
        ⟨start, Opcode.pushD.word, some .pushD, some value⟩
  | emitPushString (index : Int32) (before start : Nat) :
      Describes target ⟨.emitPushString index, before, .offset start⟩
        ⟨start, Opcode.pushString.word, some .pushString, some index⟩
  | emitPushLabel (label : Label) (before : Nat) (n : Int32) (hn : n.toInt = target label) :
      Describes target ⟨.emitPushLabel, before, .label label⟩
        ⟨before, Opcode.pushD.word, some .pushD, some n⟩

/-- A call that is not a patch leaves the targets alone. -/
theorem lastTarget_append_of_emits {call : Call} (h : call.emits = true) (calls : List Call) :
    lastTarget (calls ++ [call]) = lastTarget calls := by
  funext label
  have hnone : call.target? label = none := by
    cases call with
    | patch other target => cases h
    | _ => rfl
  simp [lastTarget, List.filterMap_append, hnone]

/-- A patch sets the target of its label. -/
theorem lastTarget_append_patch (calls : List Call) (label : Label) (target : Nat) :
    lastTarget (calls ++ [.patch label target]) =
      Function.update (lastTarget calls) label target := by
  funext other
  by_cases hother : other = label
  · subst hother
    simp [lastTarget, List.filterMap_append, Call.target?]
  · have hnone : (Call.patch label target).target? other = none := if_neg (Ne.symm hother)
    simp [lastTarget, List.filterMap_append, hnone, hother]

/-- Patches stay patches of issued labels when the last call is taken away. -/
theorem PatchesIssued.of_append {calls : List Call} {call : Call}
    (h : PatchesIssued (calls ++ [call])) : PatchesIssued calls := by
  intro before label target after hcalls
  refine h before label target (after ++ [call]) ?_
  rw [hcalls]
  simp

/-! ## Lines and positions -/

section Lines

variable {code code' : Array UInt8} {lines first rest : List Instruction} {line line' : Instruction}

/-- A line that is appended to the code is appended to its listing. -/
theorem isListing_append (h : IsListing code lines) (hformed : line.WellFormed)
    (hoffset : line.offset = code.size) (hcode : code'.toList = code.toList ++ line.encoding) :
    IsListing code' (lines ++ [line]) := by
  refine ⟨?_, ?_, ?_⟩
  · rw [List.forall_mem_append, List.forall_mem_singleton]
    exact ⟨h.formed, hformed⟩
  · rw [contiguous_append_iff, h.bytes, Array.length_toList, Nat.zero_add]
    exact ⟨h.contiguous, hoffset, trivial⟩
  · rw [List.flatMap_append, h.bytes, List.flatMap_singleton, hcode]

/-- A line that is overwritten by one of the same length is replaced in the listing. -/
theorem isListing_replace (h : IsListing code (first ++ line :: rest)) (hformed : line'.WellFormed)
    (hoffset : line'.offset = line.offset) (hlength : line'.encoding.length = line.encoding.length)
    (hcode : code'.toList = first.flatMap encoding ++ (line'.encoding ++ rest.flatMap encoding)) :
    IsListing code' (first ++ line' :: rest) := by
  obtain ⟨hfirst, hline, hrest⟩ := contiguous_append_iff.mp h.contiguous
  refine ⟨?_, ?_, ?_⟩
  · have hall := h.formed
    rw [List.forall_mem_append, List.forall_mem_cons] at hall ⊢
    exact ⟨hall.1, hformed, hall.2.2⟩
  · rw [contiguous_append_iff]
    refine ⟨hfirst, hoffset.trans hline, ?_⟩
    rw [hlength]
    exact hrest
  · rw [List.flatMap_append, List.flatMap_cons, hcode]

/-- The lines of a listing lie within the bytes they stand for. -/
theorem offset_bounds_of_contiguous {offset : Nat} (h : Contiguous offset lines)
    (hline : line ∈ lines) :
    offset ≤ line.offset ∧
      line.offset + line.encoding.length ≤ offset + (lines.flatMap encoding).length := by
  induction lines generalizing offset with
  | nil => cases hline
  | cons head tail ih =>
    obtain ⟨rfl, htail⟩ := h
    rw [List.flatMap_cons, List.length_append]
    obtain rfl | hmem := List.mem_cons.mp hline
    · omega
    · have hbounds := ih htail hmem
      omega

/-- No two lines of a listing begin at the same offset. -/
theorem offset_ne_of_contiguous {offset : Nat} (h : Contiguous offset (first ++ line :: rest))
    (hother : line' ∈ first ∨ line' ∈ rest) : line'.offset ≠ line.offset := by
  obtain ⟨hfirst, hline, hrest⟩ := contiguous_append_iff.mp h
  have htwo := two_le_length_encoding line
  have htwo' := two_le_length_encoding line'
  obtain hmem | hmem := hother
  · have hbounds := offset_bounds_of_contiguous hfirst hmem
    omega
  · have hbounds := offset_bounds_of_contiguous hrest hmem
    omega

end Lines

/-- Overwriting replaces bytes by as many others. -/
theorem toList_overwrite {code : Array UInt8} {before old new after : List UInt8}
    (hcode : code.toList = before ++ (old ++ after)) (hlength : old.length = new.length) :
    (overwrite code before.length new).toList = before ++ (new ++ after) := by
  induction new generalizing code before old with
  | nil =>
    rw [List.eq_nil_of_length_eq_zero hlength] at hcode
    exact hcode
  | cons byte new ih =>
    cases old with
    | nil => cases hlength
    | cons replaced old =>
      have hset : (code.setIfInBounds before.length byte).toList =
          (before ++ [byte]) ++ (old ++ after) := by
        rw [Array.toList_setIfInBounds, hcode, List.set_append_right _ _ (Nat.le_refl _),
          Nat.sub_self]
        simp
      have hrest := ih hset (Nat.succ.inj hlength)
      rw [List.length_append, List.length_singleton] at hrest
      rw [overwrite, hrest]
      simp

/-- A patch of a label whose operand lies within the code writes the target there. -/
theorem exists_patch_eq_ok {a : Assembler} {label : Label} {before after : List UInt8} {n : Int32}
    {target : Nat} (hcode : a.code.toList = before ++ (ofInt n ++ after))
    (hlabel : label.operand = before.length) (htarget : target ≤ 2 ^ 31 - 1) :
    ∃ b, patch label target a = .ok () b ∧
      b.code.toList = before ++ (ofInt (Int32.ofNat target) ++ after) := by
  have hsize : label.operand + 4 ≤ a.code.size := by
    rw [← Array.length_toList, hcode, hlabel, List.length_append, List.length_append, length_ofInt]
    omega
  refine ⟨⟨overwrite a.code label.operand (ofInt (Int32.ofNat target))⟩, ?_, ?_⟩
  · unfold patch
    rw [if_neg (by omega), if_neg (by omega)]
  · dsimp only
    rw [hlabel]
    exact toList_overwrite hcode (by rw [length_ofInt, length_ofInt])

/-! ## The invariant of a session -/

/-- The code of an assembler is listed as lines that describe the calls made. Each entry is a call that
emitted, with its line. -/
structure Assembled (target : Label → Nat) (made : List Made) (entries : List (Made × Instruction))
    (a : Assembler) : Prop where
  emitted : made.filter (fun m => m.call.emits) = entries.map Prod.fst
  described : ∀ entry ∈ entries, Describes target entry.1 entry.2
  listed : IsListing a.code (entries.map Prod.snd)
  /-- The operand of a label follows the word of its line. -/
  operand : ∀ entry ∈ entries, ∀ label, entry.1.label? = some label →
    label.operand = entry.2.offset + 2
  issued : ∀ label ∈ made.filterMap Made.label?, ∃ entry ∈ entries, entry.1.label? = some label
  /-- A label that is yet to be issued has no target. -/
  fresh : ∀ label, a.offset ≤ label.operand → target label = 0

/-- A call that emits a whole instruction appends the encoding of a line that describes it. -/
theorem exists_make_of_emits {target : Label → Nat} {call : Call} {a : Assembler}
    (hemits : call.emits = true) (hwhole : call.isWhole = true)
    (hfresh : ∀ label, a.offset ≤ label.operand → target label = 0) :
    ∃ reply b line, call.make a = .ok reply b ∧ b.code.toList = a.code.toList ++ line.encoding ∧
      line.WellFormed ∧ line.offset = a.offset ∧ Describes target ⟨call, a.offset, reply⟩ line ∧
      ∀ label, reply = .label label → label.operand = a.offset + 2 := by
  cases call with
  | emit op =>
    have hnone : op.hasImmediate = false := by simpa [Call.isWhole] using hwhole
    refine ⟨_, _, ⟨a.offset, op.word, some op, none⟩, rfl, ?_, ⟨?_, ?_⟩, rfl, .emit op _ _, nofun⟩
    · simp [encoding]
    · simp
    · simp [hnone]
  | emitWord word =>
    have hnone : Opcode.ofWord? word = none := by simpa [Call.isWhole] using hwhole
    refine ⟨_, _, ⟨a.offset, word, none, none⟩, rfl, ?_, ⟨hnone.symm, rfl⟩, rfl, .emitWord word _ _,
      nofun⟩
    simp [encoding]
  | emitImmediate value => cases hwhole
  | emitPush value =>
    refine ⟨_, _, ⟨a.offset, Opcode.pushD.word, some .pushD, some value⟩, rfl, ?_, ⟨rfl, rfl⟩, rfl,
      .emitPush value _ _, nofun⟩
    simp [encoding]
  | emitPushString index =>
    refine ⟨_, _, ⟨a.offset, Opcode.pushString.word, some .pushString, some index⟩, rfl, ?_,
      ⟨rfl, rfl⟩, rfl, .emitPushString index _ _, nofun⟩
    simp [encoding]
  | emitPushLabel =>
    have hoperand : (Assembler.mk (a.code ++ ofWord Opcode.pushD.word)).offset = a.offset + 2 := by
      change (a.code ++ ofWord Opcode.pushD.word).size = a.code.size + 2
      rw [← Array.length_toList]
      simp
    refine ⟨_, _, ⟨a.offset, Opcode.pushD.word, some .pushD, some 0⟩, rfl, ?_, ⟨rfl, rfl⟩, rfl,
      .emitPushLabel _ _ 0 ?_, ?_⟩
    · simp [encoding]
    · have hnew : target ⟨(Assembler.mk (a.code ++ ofWord Opcode.pushD.word)).offset⟩ = 0 := by
        apply hfresh
        change a.offset ≤ (Assembler.mk (a.code ++ ofWord Opcode.pushD.word)).offset
        omega
      rw [hnew]
      rfl
    · intro label hlabel
      cases hlabel
      exact hoperand
  | patch label target => cases hemits

section Steps

variable {target : Label → Nat} {made : List Made} {entries : List (Made × Instruction)}
  {a : Assembler}

/-- A call that emits a whole instruction adds its line. -/
theorem Assembled.emit {call : Call} (h : Assembled target made entries a)
    (hemits : call.emits = true) (hwhole : call.isWhole = true) :
    ∃ reply b entries', call.make a = .ok reply b ∧
      Assembled target (made ++ [⟨call, a.offset, reply⟩]) entries' b := by
  obtain ⟨reply, b, line, hmake, hcode, hformed, hoffset, hdescribes, hlabel⟩ :=
    exists_make_of_emits hemits hwhole h.fresh
  refine ⟨reply, b, entries ++ [(⟨call, a.offset, reply⟩, line)], hmake, ?_⟩
  exact {
    emitted := by simp [List.filter_append, h.emitted, hemits]
    described := by
      rw [List.forall_mem_append, List.forall_mem_singleton]
      exact ⟨h.described, hdescribes⟩
    listed := by
      rw [List.map_append]
      exact isListing_append h.listed hformed hoffset hcode
    operand := by
      rw [List.forall_mem_append, List.forall_mem_singleton]
      refine ⟨h.operand, fun label heq => ?_⟩
      rw [hoffset]
      refine hlabel label ?_
      cases reply with
      | label other =>
        cases heq
        rfl
      | _ => cases heq
    issued := by
      intro label hlabel
      rw [List.filterMap_append, List.mem_append] at hlabel
      obtain hlabel | hlabel := hlabel
      · obtain ⟨entry, hentry, heq⟩ := h.issued label hlabel
        exact ⟨entry, List.mem_append_left _ hentry, heq⟩
      · refine ⟨(⟨call, a.offset, reply⟩, line), List.mem_append_right _ (List.mem_singleton_self _), ?_⟩
        simpa using hlabel
    fresh := by
      intro label hle
      refine h.fresh label (Nat.le_trans ?_ hle)
      change a.code.size ≤ b.code.size
      rw [← Array.length_toList, ← Array.length_toList, hcode, List.length_append]
      exact Nat.le_add_right .. }

/-- The line of an issued label is a push, whose operand stands between the lines before it with its
word and the lines after it. -/
theorem Assembled.exists_line (h : Assembled target made entries a) {label : Label}
    (hlabel : label ∈ made.filterMap Made.label?) :
    ∃ first before n rest,
      entries = first ++ (⟨.emitPushLabel, before, .label label⟩,
        ⟨before, Opcode.pushD.word, some .pushD, some n⟩) :: rest ∧
      a.code.toList = ((first.map Prod.snd).flatMap encoding ++ ofWord Opcode.pushD.word) ++
        (ofInt n ++ (rest.map Prod.snd).flatMap encoding) ∧
      label.operand = ((first.map Prod.snd).flatMap encoding ++ ofWord Opcode.pushD.word).length := by
  obtain ⟨⟨m, line⟩, hentry, heq⟩ := h.issued label hlabel
  obtain ⟨first, rest, rfl⟩ := List.append_of_mem hentry
  have hoperand := h.operand _ hentry label heq
  have hlisted := h.listed
  rw [List.map_append, List.map_cons] at hlisted
  obtain ⟨-, hposition, -⟩ := contiguous_append_iff.mp hlisted.contiguous
  cases h.described _ hentry with
  | emitPushLabel other before n hn =>
    cases heq
    refine ⟨first, before, n, rest, rfl, ?_, ?_⟩
    · rw [← hlisted.bytes, List.flatMap_append, List.flatMap_cons]
      simp [encoding]
    · rw [List.length_append, length_ofWord, hoperand, hposition, Nat.zero_add]
  | _ => cases heq

/-- A target of another label does not matter to a line. -/
theorem Describes.update {m : Made} {line : Instruction} {label : Label} (h : Describes target m line)
    (hother : m.label? ≠ some label) (address : Nat) :
    Describes (Function.update target label address) m line := by
  cases h with
  | emit op before start => exact .emit op before start
  | emitWord word before start => exact .emitWord word before start
  | emitPush value before start => exact .emitPush value before start
  | emitPushString index before start => exact .emitPushString index before start
  | emitPushLabel other before n hn =>
    have hne : other ≠ label := by
      rintro rfl
      exact hother rfl
    refine .emitPushLabel other before n ?_
    rw [Function.update_of_ne hne]
    exact hn

/-- The lines of an assembled code begin at different offsets, so a label belongs to one of them. -/
theorem Assembled.label?_ne {first rest : List (Made × Instruction)} {entry other : Made × Instruction}
    {label : Label} (h : Assembled target made (first ++ entry :: rest) a)
    (hentry : entry.1.label? = some label) (hother : other ∈ first ∨ other ∈ rest) :
    other.1.label? ≠ some label := by
  intro heq
  have hlines := h.listed.contiguous
  rw [List.map_append, List.map_cons] at hlines
  have hne := offset_ne_of_contiguous hlines
    (hother.imp (List.mem_map_of_mem (f := Prod.snd)) (List.mem_map_of_mem (f := Prod.snd)))
  have hmem : other ∈ first ++ entry :: rest := by
    rw [List.mem_append, List.mem_cons]
    exact hother.imp_right .inr
  have hoperand := h.operand entry (by simp) label hentry
  have hsame := h.operand other hmem label heq
  omega

/-- A patch of an issued label sets the immediate of its line. -/
theorem Assembled.patch (h : Assembled target made entries a) {label : Label}
    (hlabel : label ∈ made.filterMap Made.label?) {address : Nat} (haddress : address ≤ 2 ^ 31 - 1) :
    ∃ b entries', Assembler.patch label address a = .ok () b ∧
      Assembled (Function.update target label address)
        (made ++ [⟨.patch label address, a.offset, .nothing⟩]) entries' b := by
  obtain ⟨first, before, n, rest, rfl, hcode, hwindow⟩ := h.exists_line hlabel
  obtain ⟨b, hpatch, hcode'⟩ := exists_patch_eq_ok hcode hwindow haddress
  have hsize : b.code.size = a.code.size := by
    rw [← Array.length_toList, ← Array.length_toList, hcode, hcode']
    simp
  have hbelow : label.operand < a.code.size := by
    rw [← Array.length_toList, hcode, hwindow]
    simp only [List.length_append, length_ofInt]
    omega
  have hvalue : (Int32.ofNat address).toInt = address := Int32.toInt_ofNat_of_lt (by omega)
  have hdescribed := h.described
  have hoperand := h.operand
  have hlisted := h.listed
  rw [List.forall_mem_append, List.forall_mem_cons] at hdescribed hoperand
  rw [List.map_append, List.map_cons] at hlisted
  let patched : Made × Instruction := (⟨.emitPushLabel, before, .label label⟩,
    ⟨before, Opcode.pushD.word, some .pushD, some (Int32.ofNat address)⟩)
  refine ⟨b, first ++ patched :: rest, hpatch, ?_⟩
  exact {
    emitted := by
      rw [List.filter_append, h.emitted]
      simp [patched, Call.emits]
    described := by
      rw [List.forall_mem_append, List.forall_mem_cons]
      refine ⟨fun entry hentry => ?_, .emitPushLabel label before _ ?_, fun entry hentry => ?_⟩
      · exact (hdescribed.1 entry hentry).update (h.label?_ne rfl (.inl hentry)) address
      · rw [Function.update_self, hvalue]
      · exact (hdescribed.2.2 entry hentry).update (h.label?_ne rfl (.inr hentry)) address
    listed := by
      rw [List.map_append, List.map_cons]
      refine isListing_replace hlisted ⟨rfl, rfl⟩ rfl ?_ ?_
      · simp [patched, encoding]
      · rw [hcode']
        simp [patched, encoding]
    operand := by
      rw [List.forall_mem_append, List.forall_mem_cons]
      exact hoperand
    issued := by
      intro other hother
      rw [List.filterMap_append, List.mem_append] at hother
      obtain ⟨entry, hentry, heq⟩ := h.issued other (hother.resolve_right (by simp [Made.label?]))
      rw [List.mem_append, List.mem_cons] at hentry
      obtain hentry | rfl | hentry := hentry
      · exact ⟨entry, List.mem_append_left _ hentry, heq⟩
      · exact ⟨patched, by simp, heq⟩
      · exact ⟨entry, List.mem_append_right _ (List.mem_cons_of_mem _ hentry), heq⟩
    fresh := by
      intro other hle
      change b.code.size ≤ other.operand at hle
      have hne : other ≠ label := by
        rintro rfl
        omega
      rw [Function.update_of_ne hne]
      refine h.fresh other ?_
      change a.code.size ≤ other.operand
      omega }

end Steps

/-- A session of whole instructions whose patches are of issued labels succeeds and keeps the
invariant. -/
theorem exists_assembled {calls : List Call} (hwhole : ∀ call ∈ calls, call.isWhole = true)
    (hissued : PatchesIssued calls) :
    ∃ made entries a, session calls {} = .ok made a ∧ made.map Made.call = calls ∧
      Assembled (lastTarget calls) made entries a := by
  -- The induction is on the last call: what it does depends on what was assembled before it.
  induction calls using List.reverseRecOn with
  | nil =>
    refine ⟨[], [], {}, rfl, rfl, rfl, ?_, ⟨?_, trivial, rfl⟩, ?_, ?_, fun _ _ => rfl⟩
    all_goals exact List.forall_mem_nil _
  | append_singleton calls call ih =>
    obtain ⟨made, entries, a, hsession, hmade, hassembled⟩ :=
      ih (fun other hother => hwhole other (List.mem_append_left _ hother)) hissued.of_append
    have hlast := hwhole call (List.mem_append_right _ (List.mem_singleton_self call))
    cases hemits : call.emits with
    | true =>
      obtain ⟨reply, b, entries', hmake, hassembled'⟩ := hassembled.emit hemits hlast
      refine ⟨_, entries', b, session_append_singleton hsession hmake, ?_, ?_⟩
      · rw [List.map_append, hmade, List.map_singleton]
      · rw [lastTarget_append_of_emits hemits]
        exact hassembled'
    | false =>
      cases call with
      | patch label target =>
        have hlabel := hissued calls label target [] rfl made a hsession
        obtain ⟨b, entries', hpatch, hassembled'⟩ := hassembled.patch hlabel (of_decide_eq_true hlast)
        have hmake : (Call.patch label target).make a = .ok .nothing b := by
          simp only [Call.make, bind, EStateM.bind, hpatch]
          rfl
        refine ⟨_, entries', b, session_append_singleton hsession hmake, ?_, ?_⟩
        · rw [List.map_append, hmade, List.map_singleton]
        · rw [lastTarget_append_patch]
          exact hassembled'
      | _ => cases hemits

/-- Disassembling undoes assembling. A session of whole instructions in which labels are patched after
they were issued succeeds, and the listing of its code has one line for each call that emits, in
order, which tells what the call emitted and where. -/
theorem disassemble_session {calls : List Call} (hwhole : ∀ call ∈ calls, call.isWhole = true)
    (hissued : PatchesIssued calls) :
    ∃ made final listing, session calls {} = .ok made final ∧ made.map Made.call = calls ∧
      disassemble final.code = .ok listing ∧
      List.Forall₂ (Describes (lastTarget calls)) (made.filter fun m => m.call.emits) listing := by
  obtain ⟨made, entries, final, hsession, hmade, hassembled⟩ := exists_assembled hwhole hissued
  refine ⟨made, final, entries.map Prod.snd, hsession, hmade, ?_, ?_⟩
  · exact disassemble_eq_ok_iff.mpr hassembled.listed
  · rw [hassembled.emitted, List.forall₂_map_left_iff, List.forall₂_map_right_iff, List.forall₂_same]
    exact hassembled.described

/-- A jump over a word that is not an opcode, whose label is patched twice. -/
def jumpSession : List Call :=
  [.emitPushLabel, .patch ⟨2⟩ 0x7FFFFFFF, .emit .jmp, .emitWord 0xFFFF, .patch ⟨2⟩ 10, .emitPush (-1)]

/-- The jump over a word lists as it was assembled, with the last target of its label. -/
theorem disassemble_session_jump :
    (∀ call ∈ jumpSession, call.isWhole = true) ∧ PatchesIssued jumpSession ∧
      lastTarget jumpSession ⟨2⟩ = 10 ∧
      ∃ made final listing, session jumpSession {} = .ok made final ∧
        made.map Made.call = jumpSession ∧ disassemble final.code = .ok listing ∧
        List.Forall₂ (Describes (lastTarget jumpSession)) (made.filter fun m => m.call.emits)
          listing := by
  have hwhole : ∀ call ∈ jumpSession, call.isWhole = true := by decide
  have hissued : PatchesIssued jumpSession := by
    intro before label target after hcalls made a hsession
    match before, hcalls with
    | [], hcalls => cases hcalls
    | [_], hcalls =>
      cases hcalls
      cases hsession
      decide
    | [_, _], hcalls => cases hcalls
    | [_, _, _], hcalls => cases hcalls
    | [_, _, _, _], hcalls =>
      cases hcalls
      cases hsession
      decide
    | [_, _, _, _, _], hcalls => cases hcalls
    | _ :: _ :: _ :: _ :: _ :: _ :: rest, hcalls => cases rest <;> cases hcalls
  exact ⟨hwhole, hissued, by decide, disassemble_session hwhole hissued⟩

end Assembler

end ScriptMachine
