import ScriptMachine.Proofs.Bounds
import ScriptMachine.Proofs.Effects

/-!
# Variable slots as a growable array

The two base registers are windows on one data stack. A slot of either window is an absolute index into
the stack (`Machine.slot`), and what a store or a load does depends on that index alone: a store writes
the stack as a growable array (`Machine.written`), and a load reads it. So the laws of slots are those of
the array. They hold across the two windows, wherever these overlap, and they hold for stores that make
the stack grow.
-/

namespace ScriptMachine

namespace Machine

/-! ## A growable array -/

/-- Write an entry of a growable array. An index past the end makes the array grow up to it, and the
entries between are zero. -/
def written (data : Array Value) (index : Nat) (value : Value) : Array Value :=
  if index < data.size then data.setIfInBounds index value
  else (data ++ Array.replicate (index - data.size) (Value.int 0)).push value

/-- A written array ends where it did, or with the written entry. -/
theorem size_written (data : Array Value) (index : Nat) (value : Value) :
    (written data index value).size = max data.size (index + 1) := by
  unfold written
  split
  · rw [Array.size_setIfInBounds]
    omega
  · rw [Array.size_push, Array.size_append, Array.size_replicate]
    omega

/-- Below the written entry there are the old entries and then zeros; above it there are the old entries
and then none. -/
theorem getElem?_written (data : Array Value) (index : Nat) (value : Value) (i : Nat) :
    (written data index value)[i]? =
      if i = index then some value
      else if i < index then some (data[i]?.getD (.int 0)) else data[i]? := by
  unfold written
  split
  · rename_i hindex
    rw [Array.getElem?_setIfInBounds]
    by_cases hi : i = index
    · simp [hi, hindex]
    · rw [if_neg (Ne.symm hi), if_neg hi]
      split
      · rename_i hbelow
        rw [Array.getElem?_eq_getElem (Nat.lt_trans hbelow hindex)]
        rfl
      · rfl
  · rename_i hindex
    have hsize : (data ++ Array.replicate (index - data.size) (Value.int 0)).size = index := by
      rw [Array.size_append, Array.size_replicate]
      omega
    rw [Array.getElem?_push, hsize]
    split
    · rfl
    · rw [Array.getElem?_append, Array.getElem?_replicate]
      split
      · rename_i hi
        rw [Array.getElem?_eq_getElem hi, if_pos (by omega)]
        rfl
      · rename_i hi
        have hgap : i - data.size < index - data.size ↔ i < index := by omega
        simp only [Array.getElem?_eq_none (Nat.le_of_not_lt hi), hgap, Option.getD_none]

/-- Writes of different entries commute, whichever of them make the array grow. -/
theorem written_comm (data : Array Value) {i j : Nat} (h : i ≠ j) (a b : Value) :
    written (written data i a) j b = written (written data j b) i a := by
  apply Array.ext_getElem?
  intro k
  simp only [getElem?_written]
  grind

/-- Of two writes of one entry only the second is left. -/
theorem written_written (data : Array Value) (i : Nat) (a b : Value) :
    written (written data i a) i b = written data i b := by
  apply Array.ext_getElem?
  intro k
  simp only [getElem?_written]
  grind

/-! ## Slots -/

/-- The absolute index of a variable slot, which is not one of the data stack when it is negative. -/
def slot (m : Machine) (register : BaseRegister) (var : Int32) : Int :=
  m.base register + var.toInt

/-- The base registers do not depend on the data stack. -/
@[simp] theorem base_withData (m : Machine) (data : Array Value) (register : BaseRegister) :
    { m with data := data }.base register = m.base register := by
  cases register <;> rfl

/-- The absolute index of a slot does not depend on the data stack. -/
@[simp] theorem slot_withData (m : Machine) (data : Array Value) (register : BaseRegister)
    (var : Int32) : { m with data := data }.slot register var = m.slot register var := by
  rw [slot, slot, base_withData]

section Slots

variable {m m' : Machine} {register other : BaseRegister} {var var' : Int32} {value : Value}

/-- A slot that is not negative is found at its absolute index. -/
theorem slotIndex_of_slot (hbase : m.base register ≤ 2 ^ 62) {index : Nat}
    (hslot : m.slot register var = index) : m.slotIndex register var = .ok index :=
  (slotIndex_eq_ok_iff hbase).mpr hslot.symm

/-- A negative slot is refused by its absolute index. -/
theorem slotIndex_of_negative (hbase : m.base register ≤ 2 ^ 62) (hslot : m.slot register var < 0) :
    ∃ index : Int64, index.toInt = m.slot register var ∧
      m.slotIndex register var = .error (.indexOutOfBounds index m.data.size) := by
  have hsum : (slotSum (m.base register) var).toInt = m.slot register var := toInt_slotSum hbase var
  refine ⟨slotSum (m.base register) var, hsum, ?_⟩
  have hsign : slotSum (m.base register) var < 0 := by
    rw [Int64.lt_iff_toInt_lt, hsum]
    exact hslot
  exact if_pos hsign

/-- Every slot is negative or is an absolute index. -/
theorem negative_or_exists_index (m : Machine) (register : BaseRegister) (var : Int32) :
    m.slot register var < 0 ∨ ∃ index : Nat, m.slot register var = index := by
  obtain hslot | hslot := Int.lt_or_le (m.slot register var) 0
  · exact .inl hslot
  · exact .inr ⟨(m.slot register var).toNat, (Int.toNat_of_nonneg hslot).symm⟩

/-! ### Stores -/

/-- A store at a negative slot is refused by its absolute index. -/
theorem store_of_negative (hbase : m.base register ≤ 2 ^ 62) (hslot : m.slot register var < 0)
    (value : Value) :
    ∃ index : Int64, index.toInt = m.slot register var ∧
      store register var value m = .error (.indexOutOfBounds index m.data.size) m := by
  obtain ⟨index, hindex, hrefused⟩ := slotIndex_of_negative hbase hslot
  refine ⟨index, hindex, ?_⟩
  unfold store
  rw [hrefused]

/-- A store at an index below the top or below the depth writes the growable array, and any other is
refused for the depth. -/
theorem store_of_slot (hbase : m.base register ≤ 2 ^ 62) {index : Nat}
    (hslot : m.slot register var = index) (value : Value) :
    store register var value m =
      if index < m.data.size ∨ index < m.maxDepth then
        .ok () { m with data := written m.data index value }
      else .error (.depthLimit m.maxDepth .data) m := by
  unfold store written
  rw [slotIndex_of_slot hbase hslot]
  dsimp only
  split
  · rename_i htop
    rw [if_pos (.inl htop)]
  · rename_i htop
    simp only [htop, false_or]

/-- A store succeeds at an index below the top or below the depth, and writes the growable array. -/
theorem store_eq_ok_iff (hbase : m.base register ≤ 2 ^ 62) :
    store register var value m = .ok () m' ↔
      ∃ index : Nat, m.slot register var = index ∧ (index < m.data.size ∨ index < m.maxDepth) ∧
        m' = { m with data := written m.data index value } := by
  obtain hslot | ⟨index, hslot⟩ := negative_or_exists_index m register var
  · obtain ⟨index, -, hstore⟩ := store_of_negative hbase hslot value
    rw [hstore]
    constructor
    · intro h
      cases h
    · rintro ⟨index, hindex, -⟩
      omega
  · rw [store_of_slot hbase hslot]
    constructor
    · intro h
      split at h
      · rename_i hroom
        cases h
        exact ⟨index, hslot, hroom, rfl⟩
      · cases h
    · rintro ⟨other, hother, hroom, rfl⟩
      obtain rfl : index = other := by omega
      exact if_pos hroom

/-- Whether a store succeeds depends on its absolute index, and not on the value. -/
theorem exists_store_iff (hbase : m.base register ≤ 2 ^ 62) (var : Int32) (value : Value) :
    (∃ m', store register var value m = .ok () m') ↔
      0 ≤ m.slot register var ∧
        (m.slot register var < m.data.size ∨ m.slot register var < m.maxDepth) := by
  constructor
  · rintro ⟨m', hstore⟩
    obtain ⟨index, hslot, hroom, -⟩ := (store_eq_ok_iff hbase).mp hstore
    omega
  · rintro ⟨hsign, hroom⟩
    obtain ⟨index, hslot⟩ := Int.eq_ofNat_of_zero_le hsign
    exact ⟨_, (store_eq_ok_iff hbase).mpr ⟨index, hslot, by omega, rfl⟩⟩

/-- A store that fails changes nothing, and tells the negative index or the depth. -/
theorem store_eq_error {fault : Fault} (hbase : m.base register ≤ 2 ^ 62)
    (h : store register var value m = .error fault m') :
    m' = m ∧
      if m.slot register var < 0 then
        ∃ index : Int64, index.toInt = m.slot register var ∧
          fault = .indexOutOfBounds index m.data.size
      else fault = .depthLimit m.maxDepth .data := by
  obtain hslot | ⟨index, hslot⟩ := negative_or_exists_index m register var
  · obtain ⟨index, hindex, hstore⟩ := store_of_negative hbase hslot value
    rw [hstore] at h
    cases h
    rw [if_pos hslot]
    exact ⟨rfl, index, hindex, rfl⟩
  · rw [store_of_slot hbase hslot] at h
    split at h
    · cases h
    · cases h
      rw [if_neg (by omega)]
      exact ⟨rfl, rfl⟩

/-! ### Loads -/

/-- A load succeeds at an index below the top, and reads the entry there. -/
theorem load_eq_ok_iff (hbase : m.base register ≤ 2 ^ 62) :
    load register var m = .ok value m' ↔
      ∃ index : Nat, m.slot register var = index ∧ m.data[index]? = some value ∧ m' = m := by
  constructor
  · intro h
    obtain ⟨index, hindex, hentry, rfl⟩ := exists_index_of_load h
    exact ⟨index, ((slotIndex_eq_ok_iff hbase).mp hindex).symm, hentry, rfl⟩
  · rintro ⟨index, hslot, hentry, rfl⟩
    unfold load
    rw [slotIndex_of_slot hbase hslot]
    dsimp only
    rw [hentry]

/-- A load succeeds exactly at the absolute indices of the data stack. -/
theorem exists_load_iff (hbase : m.base register ≤ 2 ^ 62) :
    (∃ value m', load register var m = .ok value m') ↔
      0 ≤ m.slot register var ∧ m.slot register var < m.data.size := by
  constructor
  · rintro ⟨value, m', hload⟩
    obtain ⟨index, hslot, hentry, -⟩ := (load_eq_ok_iff hbase).mp hload
    have hsize := (Array.getElem?_eq_some_iff.mp hentry).1
    omega
  · rintro ⟨hsign, hsize⟩
    obtain ⟨index, hslot⟩ := Int.eq_ofNat_of_zero_le hsign
    have hentry : m.data[index]? = some m.data[index] := Array.getElem?_eq_getElem (by omega)
    exact ⟨_, m, (load_eq_ok_iff hbase).mpr ⟨index, hslot, hentry, rfl⟩⟩

/-! ### Loads after stores -/

/-- What a store of a value at an absolute index leaves: the data stack has grown up to the index if it
had to, with zeros in between, and nothing else has changed. -/
structure Stored (m : Machine) (index : Int) (value : Value) (m' : Machine) : Prop where
  registers : m' = { m with data := m'.data }
  size : (m'.data.size : Int) = max (m.data.size : Int) (index + 1)
  entry (i : Nat) (hi : i = index) : m'.data[i]? = some value
  kept (i : Nat) (hi : i < m.data.size) (hne : i ≠ index) : m'.data[i]? = m.data[i]?
  gap (i : Nat) (hi : m.data.size ≤ i) (hlt : i < index) : m'.data[i]? = some (.int 0)

/-- Writing the data stack as a growable array stores the value. -/
theorem stored_written (m : Machine) (index : Nat) (value : Value) :
    Stored m index value { m with data := written m.data index value } where
  registers := rfl
  size := by
    rw [size_written]
    omega
  entry i hi := by
    rw [getElem?_written, if_pos (Int.ofNat_inj.mp hi)]
  kept i hi hne := by
    rw [getElem?_written, if_neg (fun h => hne (congrArg _ h)), Array.getElem?_eq_getElem hi]
    exact ite_id _
  gap i hi hlt := by
    rw [getElem?_written, if_neg (by omega), if_pos (by omega), Array.getElem?_eq_none hi]
    rfl

/-- On any data stack, a load reads the entry at the absolute index of its slot. -/
theorem load_withData_iff (hbase : m.base register ≤ 2 ^ 62) (data : Array Value) :
    load register var { m with data := data } = .ok value { m with data := data } ↔
      ∃ index : Nat, m.slot register var = index ∧ data[index]? = some value := by
  rw [load_eq_ok_iff (by rwa [base_withData]), slot_withData]
  simp

/-- Through either window, a load at the index of a store reads the value that was stored. -/
theorem load_of_slot_eq (hbase : ∀ register, m.base register ≤ 2 ^ 62)
    (hstore : store register var value m = .ok () m')
    (hslot : m.slot other var' = m.slot register var) : load other var' m' = .ok value m' := by
  obtain ⟨index, hindex, -, rfl⟩ := (store_eq_ok_iff (hbase register)).mp hstore
  refine (load_withData_iff (hbase other) _).mpr ⟨index, hslot.trans hindex, ?_⟩
  exact (stored_written m index value).entry index rfl

/-- Through either window, a load at another index reads what it read before, or a zero where the data
stack has grown. -/
theorem load_of_slot_ne (hbase : ∀ register, m.base register ≤ 2 ^ 62)
    (hstore : store register var value m = .ok () m')
    (hslot : m.slot other var' ≠ m.slot register var) (read : Value) :
    load other var' m' = .ok read m' ↔
      load other var' m = .ok read m ∨
        read = .int 0 ∧ m.data.size ≤ m.slot other var' ∧ m.slot other var' < m.slot register var := by
  obtain ⟨index, hindex, -, rfl⟩ := (store_eq_ok_iff (hbase register)).mp hstore
  have hbefore : load other var' m = .ok read m ↔
      ∃ i : Nat, m.slot other var' = i ∧ m.data[i]? = some read :=
    load_withData_iff (hbase other) m.data
  rw [load_withData_iff (hbase other), hbefore, hindex]
  rw [hindex] at hslot
  obtain hnegative | ⟨i, hi⟩ := negative_or_exists_index m other var'
  · constructor
    · rintro ⟨i, hi, -⟩
      omega
    · rintro (⟨i, hi, -⟩ | ⟨-, hsize, -⟩) <;> omega
  · have hne : i ≠ index := fun h => hslot (hi.trans (congrArg _ h))
    simp only [hi, Int.natCast_inj, exists_eq_left', Int.ofNat_le, Int.ofNat_lt]
    rw [getElem?_written, if_neg hne]
    obtain hsize | hsize := Nat.lt_or_ge i m.data.size
    · rw [Array.getElem?_eq_getElem hsize]
      simp [Nat.not_le.mpr hsize]
    · rw [Array.getElem?_eq_none hsize]
      by_cases hbelow : i < index
      · simp [hsize, hbelow, eq_comm]
      · simp [hbelow]

/-! ### Two stores -/

/-- A store after another one succeeds if it succeeds without it, and writes on. -/
theorem store_store (hbase : ∀ register, m.base register ≤ 2 ^ 62) {i j : Nat} {a b : Value}
    (hi : m.slot register var = i) (hj : m.slot other var' = j)
    (hroom : i < m.data.size ∨ i < m.maxDepth) (hroom' : j < m.data.size ∨ j < m.maxDepth) :
    (do store register var a; store other var' b : Action Unit) m =
      .ok () { m with data := written (written m.data i a) j b } := by
  rw [bind_of_ok ((store_eq_ok_iff (hbase register)).mpr ⟨i, hi, hroom, rfl⟩)]
  refine (store_eq_ok_iff (by rw [base_withData]; exact hbase other)).mpr ⟨j, ?_, ?_, rfl⟩
  · rw [slot_withData, hj]
  · refine hroom'.imp_left fun hsize => ?_
    rw [size_written]
    omega

end Slots

/-- Variable slots are one growable array, whichever base register they are counted from.

A store succeeds when its absolute index is not negative and lies below the top of the data stack or below
the depth. The stack is then as long as it was or ends with the index, the entry there is the value, the
old entries are kept, and between them and the index there are zeros (`Stored`). A load through either
register reads the value if it has the same absolute index. At any other index it reads what it read
before, or one of the zeros, so it reads the value only where that was there already or is zero. A store
that fails leaves the machine as it was, and tells the negative index or the depth.

A load succeeds when its absolute index lies within the data stack, and reads the entry there. Of two
stores that succeed, those at different indices can be exchanged, and at the same index only the second
is left. -/
theorem slots_form_growable_array {m : Machine} (hbase : ∀ register, m.base register ≤ 2 ^ 62)
    (register : BaseRegister) (var : Int32) :
    (∀ value, (∃ m', store register var value m = .ok () m') ↔
      0 ≤ m.slot register var ∧
        (m.slot register var < m.data.size ∨ m.slot register var < m.maxDepth)) ∧
    (∀ value m', store register var value m = .ok () m' →
      Stored m (m.slot register var) value m' ∧
      (∀ other var', m.slot other var' = m.slot register var → load other var' m' = .ok value m') ∧
      ∀ other var', m.slot other var' ≠ m.slot register var →
        ∀ read, load other var' m' = .ok read m' ↔
          load other var' m = .ok read m ∨
            read = .int 0 ∧ m.data.size ≤ m.slot other var' ∧
              m.slot other var' < m.slot register var) ∧
    (∀ value fault m', store register var value m = .error fault m' →
      m' = m ∧
        if m.slot register var < 0 then
          ∃ index : Int64, index.toInt = m.slot register var ∧
            fault = .indexOutOfBounds index m.data.size
        else fault = .depthLimit m.maxDepth .data) ∧
    ((∃ value m', load register var m = .ok value m') ↔
      0 ≤ m.slot register var ∧ m.slot register var < m.data.size) ∧
    (∀ value m', load register var m = .ok value m' →
      m' = m ∧ m.data[(m.slot register var).toNat]? = some value) ∧
    ∀ other var' a b, (∃ m₁, store register var a m = .ok () m₁) →
      (∃ m₂, store other var' b m = .ok () m₂) →
      (m.slot register var ≠ m.slot other var' →
        ∃ m', (do store register var a; store other var' b : Action Unit) m = .ok () m' ∧
          (do store other var' b; store register var a : Action Unit) m = .ok () m') ∧
      (m.slot register var = m.slot other var' →
        (do store register var a; store other var' b : Action Unit) m = store other var' b m) := by
  refine ⟨exists_store_iff (hbase register) var, ?_,
    fun value fault m' => store_eq_error (hbase register), exists_load_iff (hbase register), ?_, ?_⟩
  · intro value m' hstore
    refine ⟨?_, fun other var' => load_of_slot_eq hbase hstore,
      fun other var' => load_of_slot_ne hbase hstore⟩
    obtain ⟨index, hslot, -, rfl⟩ := (store_eq_ok_iff (hbase register)).mp hstore
    rw [hslot]
    exact stored_written m index value
  · intro value m' hload
    obtain ⟨index, hslot, hentry, rfl⟩ := (load_eq_ok_iff (hbase register)).mp hload
    rw [hslot, Int.toNat_natCast]
    exact ⟨rfl, hentry⟩
  · rintro other var' a b ⟨m₁, hfirst⟩ ⟨m₂, hsecond⟩
    obtain ⟨i, hi, hroom, -⟩ := (store_eq_ok_iff (hbase register)).mp hfirst
    obtain ⟨j, hj, hroom', rfl⟩ := (store_eq_ok_iff (hbase other)).mp hsecond
    constructor
    · intro hne
      have hij : i ≠ j := by omega
      refine ⟨_, store_store hbase hi hj hroom hroom', ?_⟩
      rw [store_store hbase hj hi hroom' hroom, written_comm m.data hij]
    · intro heq
      obtain rfl : i = j := by omega
      rw [store_store hbase hi hj hroom hroom', hsecond, written_written]

/-- A machine whose global variables begin past the top of its data stack and whose frame begins within
it. -/
def overlapping : Machine where
  data := #[.int 5, .string "x"]
  globalBase := 4
  frameBase := 1
  maxDepth := 6

/-- Slot zero of the globals and slot three of the frame are the same entry, and a store there makes the
data stack grow past slot one of the frame. It can be exchanged with a store below it, though both make
the stack grow. -/
theorem slots_form_growable_array_overlapping :
    (∀ register, overlapping.base register ≤ 2 ^ 62) ∧
      (∀ value m', store .global 0 value overlapping = .ok () m' →
        load .frame 3 m' = .ok value m' ∧ load .frame 1 m' = .ok (.int 0) m') ∧
      ∃ m',
        (do store .global 0 (.string "g"); store .frame 2 (.int 7) : Action Unit) overlapping =
          .ok () m' ∧
        (do store .frame 2 (.int 7); store .global 0 (.string "g") : Action Unit) overlapping =
          .ok () m' ∧
        m'.data = #[.int 5, .string "x", .int 0, .int 7, .string "g"] := by
  have hbase : ∀ register, overlapping.base register ≤ 2 ^ 62 := by
    intro register
    cases register <;> decide
  obtain ⟨hroom, hstored, -, -, -, htwo⟩ := slots_form_growable_array hbase .global 0
  have hreads (value : Value) (m' : Machine) (h : store .global 0 value overlapping = .ok () m') :
      load .frame 3 m' = .ok value m' ∧ load .frame 1 m' = .ok (.int 0) m' := by
    obtain ⟨-, hsame, hother⟩ := hstored value m' h
    exact ⟨hsame .frame 3 (by decide), (hother .frame 1 (by decide) _).mpr (.inr (by decide))⟩
  have hstore := (hroom (.string "g")).mpr (by decide)
  obtain ⟨m', hfirst, hsecond⟩ :=
    (htwo .frame 2 (.string "g") (.int 7) hstore ⟨_, rfl⟩).1 (by decide)
  refine ⟨hbase, hreads, m', hfirst, hsecond, ?_⟩
  cases hfirst
  rfl

/-- A machine that holds a value twice once its first variable is overwritten with the second. -/
def repeating : Machine where
  data := #[.int 5, .int 7]
  maxDepth := 6

/-- A load that reads the stored value need not be at the index of the store: the value may be there
already. -/
theorem not_reads_stored_iff_slot_eq :
    ¬ ∀ (m m' : Machine) (register other : BaseRegister) (var var' : Int32) (value : Value),
      m.data.size ≤ m.maxDepth → (∀ register, m.base register ≤ 2 ^ 62) →
      store register var value m = .ok () m' →
      (load other var' m' = .ok value m' ↔ m.slot other var' = m.slot register var) := by
  intro hreads
  have hbase : ∀ register, repeating.base register ≤ 2 ^ 62 := by
    intro register
    cases register <;> decide
  have hiff := hreads repeating { repeating with data := #[.int 7, .int 7] } .frame .frame 0 1 (.int 7)
    (by decide) hbase rfl
  exact absurd (hiff.mp rfl) (by decide)

end Machine

end ScriptMachine
