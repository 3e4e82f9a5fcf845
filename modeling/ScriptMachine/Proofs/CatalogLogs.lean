import Mathlib.Data.Finset.Card
import Mathlib.Data.List.Induction
import ScriptMachine.Proofs.ScriptExtension

/-!
# A catalog as the log of its additions

A catalog keeps a table of procedures, an index into it by name, and a map of strings. After any
additions, in any order and with any repetitions, these three say what the list of the additions says:
procedures are numbered as they come, a name finds the last procedure that was added under it, and an
index finds the last text that was put there. `Records` is this agreement. It holds of the empty catalog
and every addition keeps it, so it holds of every catalog that is built up from nothing.

The index by name always points into the table, at a procedure of the name. So a look-up by name never
misses the table, which nothing in the look-up itself makes sure of.
-/

namespace ScriptMachine.Catalog

/-! ## Logs -/

/-- The procedure that is added, if it is one. -/
def Addition.asProcedure? : Addition → Option Procedure
  | procedure name offset => some ⟨name, offset⟩
  | string .. => none

/-- The text that is added with its index, if it is one. -/
def Addition.asString? : Addition → Option (Int32 × String)
  | procedure .. => none
  | string index text => some (index, text)

/-- The procedures among some additions, in their order. -/
def addedProcedures (additions : List Addition) : List Procedure :=
  additions.filterMap Addition.asProcedure?

/-- The strings among some additions with their indices, in their order. -/
def addedStrings (additions : List Addition) : List (Int32 × String) :=
  additions.filterMap Addition.asString?

/-- The table indices that procedures are given when additions are made one after another. -/
def handedOut (catalog : Catalog) : List Addition → List Nat
  | [] => []
  | .procedure name offset :: additions =>
    let added := catalog.addProcedure name offset
    added.1 :: handedOut added.2 additions
  | .string index text :: additions => handedOut (catalog.addString index text) additions

/-- Table indices are handed out without gaps, beginning with the number of procedures that are there. -/
theorem handedOut_eq_range (catalog : Catalog) (additions : List Addition) :
    catalog.handedOut additions =
      List.range' catalog.procedures.size (addedProcedures additions).length := by
  induction additions generalizing catalog with
  | nil => rfl
  | cons addition additions ih =>
    cases addition with
    | procedure name offset =>
      rw [handedOut, addProcedure_eq, ih, procedures_withProcedure, Array.size_push]
      rfl
    | string index text =>
      rw [handedOut, ih]
      rfl

/-! ## What a catalog records -/

/-- The catalog answers as the log of the additions does. -/
structure Records (catalog : Catalog) (additions : List Addition) : Prop where
  table : catalog.procedures.toList = addedProcedures additions
  indexed (name : String) (position : Nat) (h : catalog.positions[name]? = some position) :
    ∃ procedure, catalog.procedures[position]? = some procedure ∧ procedure.name = name
  byName (name : String) :
    catalog.procedure? name = (addedProcedures additions).reverse.find? (·.name == name)
  byIndex (index : Int32) : catalog.string? index = (addedStrings additions).reverse.lookup index
  count : catalog.stringCount = ((addedStrings additions).map Prod.fst).toFinset.card

/-- The empty catalog records that nothing was added. -/
theorem records_empty : Records empty [] where
  table := rfl
  indexed name position h := by simp [empty] at h
  byName name := by simp [empty, procedure?, addedProcedures]
  byIndex index := by simp [empty, string?, addedStrings]
  count := by simp [empty, stringCount, addedStrings]

section Records

variable {catalog : Catalog} {additions : List Addition}

/-- There is a string at an index exactly when one was added there. -/
theorem Records.mem_strings_iff (h : Records catalog additions) (index : Int32) :
    index ∈ catalog.strings ↔ index ∈ ((addedStrings additions).map Prod.fst).toFinset := by
  have hfound : index ∈ catalog.strings ↔ (catalog.string? index).isSome = true :=
    Std.HashMap.isSome_getElem?_iff_mem.symm
  rw [hfound, h.byIndex, List.lookup_isSome_iff]
  simp only [List.mem_reverse, beq_iff_eq, List.mem_toFinset, List.mem_map]
  exact exists_congr fun entry => and_congr_right fun _ => eq_comm

/-- An added procedure comes last in the table, and its name finds it. -/
theorem Records.withProcedure (h : Records catalog additions) (name : String) (offset : Nat) :
    Records (catalog.withProcedure name offset) (additions ++ [.procedure name offset]) := by
  have hprocedures : addedProcedures (additions ++ [.procedure name offset]) =
      addedProcedures additions ++ [⟨name, offset⟩] := List.filterMap_append
  have hstrings : addedStrings (additions ++ [.procedure name offset]) = addedStrings additions := by
    simp [addedStrings, Addition.asString?]
  have hpositions (other : String) : (catalog.withProcedure name offset).positions[other]? =
      if name = other then some catalog.procedures.size else catalog.positions[other]? := by
    simp [Std.HashMap.getElem?_insert]
  -- What the index by name pointed at stays where it was.
  have hkept {position : Nat} {procedure : Procedure}
      (hentry : catalog.procedures[position]? = some procedure) :
      (catalog.withProcedure name offset).procedures[position]? = some procedure := by
    have hbound := (Array.getElem?_eq_some_iff.mp hentry).1
    rw [procedures_withProcedure, Array.getElem?_push, if_neg (Nat.ne_of_lt hbound), hentry]
  have hadded : (catalog.withProcedure name offset).procedures[catalog.procedures.size]? =
      some ⟨name, offset⟩ := by
    simp
  refine ⟨?_, ?_, ?_, ?_, ?_⟩
  · rw [hprocedures, ← h.table]
    exact Array.toList_push ..
  · intro other position hposition
    rw [hpositions] at hposition
    split at hposition
    · rename_i hname
      cases hposition
      exact ⟨_, hadded, hname⟩
    · obtain ⟨procedure, hentry, hname⟩ := h.indexed other position hposition
      exact ⟨procedure, hkept hentry, hname⟩
  · intro other
    rw [hprocedures, List.reverse_concat, List.find?_cons, ← h.byName, procedure?, hpositions]
    by_cases hname : name = other
    · subst hname
      simp only [if_true, beq_self_eq_true]
      exact hadded
    · have hother : (name == other) = false := beq_eq_false_iff_ne.mpr hname
      simp only [hname, if_false, hother, procedure?]
      cases hposition : catalog.positions[other]? with
      | none => rfl
      | some position =>
        obtain ⟨procedure, hentry, -⟩ := h.indexed other position hposition
        exact (hkept hentry).trans hentry.symm
  · rw [hstrings]
    exact h.byIndex
  · rw [hstrings]
    exact h.count

/-- An added string is the one that its index finds, and it counts unless it replaces another. -/
theorem Records.addString (h : Records catalog additions) (index : Int32) (text : String) :
    Records (catalog.addString index text) (additions ++ [.string index text]) := by
  have hprocedures : addedProcedures (additions ++ [.string index text]) = addedProcedures additions := by
    simp [addedProcedures, Addition.asProcedure?]
  have hstrings : addedStrings (additions ++ [.string index text]) =
      addedStrings additions ++ [(index, text)] := List.filterMap_append
  refine ⟨?_, h.indexed, ?_, ?_, ?_⟩
  · rw [hprocedures]
    exact h.table
  · rw [hprocedures]
    exact h.byName
  · intro other
    rw [hstrings, List.reverse_concat, List.lookup_cons, ← h.byIndex, string?, Catalog.addString,
      Std.HashMap.getElem?_insert]
    by_cases hindex : index = other
    · simp [hindex]
    · have hother : (other == index) = false := beq_eq_false_iff_ne.mpr (Ne.symm hindex)
      simp only [hother, beq_iff_eq, hindex, if_false, string?]
  · have hkeys : ((addedStrings additions ++ [(index, text)]).map Prod.fst).toFinset =
        insert index ((addedStrings additions).map Prod.fst).toFinset := by
      simp [Finset.union_comm]
    rw [hstrings, hkeys, Finset.card_insert_eq_ite, ← h.count]
    simp only [← h.mem_strings_iff index]
    exact Std.HashMap.size_insert

/-- Every addition keeps the agreement. -/
theorem Records.add (h : Records catalog additions) (addition : Addition) :
    Records (catalog.add addition) (additions ++ [addition]) := by
  cases addition with
  | procedure name offset => exact h.withProcedure name offset
  | string index text => exact h.addString index text

/-- The procedure at a table index is the one that was added as that many-th. -/
theorem Records.procedureAt?_eq_some_iff (h : Records catalog additions) {index : Int32}
    {procedure : Procedure} :
    catalog.procedureAt? index = some procedure ↔
      ∃ i : Nat, index.toInt = i ∧ (addedProcedures additions)[i]? = some procedure := by
  unfold procedureAt?
  rw [← h.table]
  split
  · rename_i hsign
    have hnegative : index.toInt < 0 := Int32.lt_iff_toInt_lt.mp hsign
    constructor
    · intro hnone
      cases hnone
    · rintro ⟨i, hi, -⟩
      omega
  · rename_i hsign
    have hnonneg : 0 ≤ index.toInt := Int32.le_iff_toInt_le.mp (Int32.not_lt.mp hsign)
    constructor
    · intro hentry
      exact ⟨index.toInt.toNat, (Int.toNat_of_nonneg hnonneg).symm, by simpa using hentry⟩
    · rintro ⟨i, hi, hentry⟩
      rw [hi, Int.toNat_natCast]
      simpa using hentry

end Records

/-- A catalog that is built up from nothing records what was added. -/
theorem records_addAll (additions : List Addition) : Records (empty.addAll additions) additions := by
  induction additions using List.reverseRecOn with
  | nil => exact records_empty
  | append_singleton additions addition ih =>
    rw [addAll, List.foldl_concat]
    exact ih.add addition

/-- The table indices that are handed out from the beginning on count the procedures. -/
theorem handedOut_empty (additions : List Addition) :
    empty.handedOut additions = List.range (addedProcedures additions).length := by
  rw [handedOut_eq_range, List.range_eq_range']
  rfl

/-- Procedures are found by what was added of them alone. -/
theorem procedures_of_addedProcedures {additions others : List Addition}
    (h : addedProcedures others = addedProcedures additions) :
    (∀ name, (empty.addAll others).procedure? name = (empty.addAll additions).procedure? name) ∧
      ∀ index,
        (empty.addAll others).procedureAt? index = (empty.addAll additions).procedureAt? index := by
  have hadditions := records_addAll additions
  have hothers := records_addAll others
  constructor
  · intro name
    rw [hothers.byName, hadditions.byName, h]
  · intro index
    apply Option.ext
    intro procedure
    rw [hothers.procedureAt?_eq_some_iff, hadditions.procedureAt?_eq_some_iff, h]

/-- Strings are found and counted by what was added of them alone. -/
theorem strings_of_addedStrings {additions others : List Addition}
    (h : addedStrings others = addedStrings additions) :
    (∀ index, (empty.addAll others).string? index = (empty.addAll additions).string? index) ∧
      (empty.addAll others).stringCount = (empty.addAll additions).stringCount := by
  have hadditions := records_addAll additions
  have hothers := records_addAll others
  constructor
  · intro index
    rw [hothers.byIndex, hadditions.byIndex, h]
  · rw [hothers.count, hadditions.count, h]

/-- A catalog answers as the log of its additions.

The procedures are handed out the table indices from zero on, and an index finds the procedure that it was
handed out for; negative indices and those past the end find none. A name finds the last procedure that
was added under it, if there is one: the index by name always points into the table, at a procedure of
that name. A string index finds the last text that was put there, and as many strings are counted as
there are distinct indices among the additions. Strings make no difference to what is found of the
procedures, nor procedures to what is found of the strings. -/
theorem catalog_answers_as_log (additions : List Addition) :
    (empty.handedOut additions = List.range (addedProcedures additions).length ∧
      ∀ index procedure, (empty.addAll additions).procedureAt? index = some procedure ↔
        ∃ i : Nat, index.toInt = i ∧ (addedProcedures additions)[i]? = some procedure) ∧
    ((∀ name, (empty.addAll additions).procedure? name =
        (addedProcedures additions).reverse.find? (·.name == name)) ∧
      ∀ (name : String) (position : Nat),
        (empty.addAll additions).positions[name]? = some position →
        ∃ procedure, (empty.addAll additions).procedures[position]? = some procedure ∧
          procedure.name = name) ∧
    ((∀ index, (empty.addAll additions).string? index = (addedStrings additions).reverse.lookup index) ∧
      (empty.addAll additions).stringCount =
        ((addedStrings additions).map Prod.fst).toFinset.card) ∧
    (∀ others, addedProcedures others = addedProcedures additions →
      empty.handedOut others = empty.handedOut additions ∧
      (∀ name, (empty.addAll others).procedure? name = (empty.addAll additions).procedure? name) ∧
      ∀ index,
        (empty.addAll others).procedureAt? index = (empty.addAll additions).procedureAt? index) ∧
    ∀ others, addedStrings others = addedStrings additions →
      (∀ index, (empty.addAll others).string? index = (empty.addAll additions).string? index) ∧
      (empty.addAll others).stringCount = (empty.addAll additions).stringCount := by
  have hrecords := records_addAll additions
  refine ⟨⟨handedOut_empty additions, ?_⟩, ⟨hrecords.byName, hrecords.indexed⟩,
    ⟨hrecords.byIndex, hrecords.count⟩, ?_, fun others => strings_of_addedStrings⟩
  · intro index procedure
    exact hrecords.procedureAt?_eq_some_iff
  · intro others hothers
    refine ⟨?_, procedures_of_addedProcedures hothers⟩
    rw [handedOut_empty, handedOut_empty, hothers]

end ScriptMachine.Catalog
