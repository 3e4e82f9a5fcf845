import ScriptMachine.Document
import ScriptMachine.Value

/-!
# Tagged documents of values and kinds

A value is exchanged as an object with one field, named for the kind of the value. A kind is
exchanged as its tag. Reading inverts writing and refuses everything else
(`Value.ofDocument?_eq_some_iff`), except that a kind may also be an object whose one field holds
nothing (`Kind.ofDocument?_eq_some_iff`).
-/

namespace ScriptMachine

/-- The tag of a kind. -/
def Kind.tag : Kind → String
  | .int => "Int"
  | .bool => "Bool"
  | .string => "String"
  | .number => "Number"

/-- The kind with the given tag. -/
def Kind.ofTag? (tag : String) : Option Kind :=
  [Kind.int, .bool, .string, .number].find? (·.tag == tag)

/-- Each kind has a tag of its own, and no other text is the tag of a kind. -/
theorem Kind.ofTag?_eq_some_iff {tag : String} {kind : Kind} :
    ofTag? tag = some kind ↔ kind.tag = tag := by
  constructor
  · intro h
    have htag := List.find?_some h
    exact eq_of_beq htag
  · rintro rfl
    cases kind <;> decide

/-- Write a kind as a document. -/
def Kind.toDocument (kind : Kind) : Document :=
  .text kind.tag

/-- Read a kind from a document. -/
def Kind.ofDocument? : Document → Option Kind
  | .text tag => ofTag? tag
  | .object [(tag, .null)] => ofTag? tag
  | _ => none

/-- A kind is read from what is written for it and from an object whose one field has its tag and holds
nothing, and from no other document. -/
theorem Kind.ofDocument?_eq_some_iff {document : Document} {kind : Kind} :
    ofDocument? document = some kind ↔
      document = kind.toDocument ∨ document = .object [(kind.tag, .null)] := by
  constructor
  · intro h
    unfold ofDocument? at h
    split at h
    · exact .inl (congrArg Document.text (ofTag?_eq_some_iff.mp h).symm)
    · rw [ofTag?_eq_some_iff] at h
      exact .inr (by rw [h])
    · cases h
  · rintro (rfl | rfl) <;> exact ofTag?_eq_some_iff.mpr rfl

namespace Value

/-- Write a value as a document. -/
def toDocument (v : Value) : Document :=
  .object [(v.kind.tag,
    match v with
    | int n => .int n.toInt
    | bool b => .bool b
    | string s => .text s)]

/-- Read a value from a document. An integer must fit in 32 bits. -/
def ofDocument? : Document → Option Value
  | .object [(tag, payload)] =>
    match Kind.ofTag? tag, payload with
    | some .int, .int n =>
      if Int32.minValue.toInt ≤ n ∧ n ≤ Int32.maxValue.toInt then some (int (Int32.ofInt n))
      else none
    | some .bool, .bool b => some (bool b)
    | some .string, .text s => some (string s)
    | _, _ => none
  | _ => none

/-- A value is read from what is written for it, and from no other document. -/
theorem ofDocument?_eq_some_iff {document : Document} {v : Value} :
    ofDocument? document = some v ↔ document = v.toDocument := by
  constructor
  · intro h
    unfold ofDocument? at h
    split at h
    · split at h
      · rename_i n hkind
        split at h
        · rename_i hfits
          cases h
          rw [Int32.toInt_minValue, Int32.toInt_maxValue] at hfits
          rw [toDocument, kind, Kind.ofTag?_eq_some_iff.mp hkind,
            Int32.toInt_ofInt_of_le hfits.1 (by omega)]
        · cases h
      · rename_i b hkind
        cases h
        rw [toDocument, kind, Kind.ofTag?_eq_some_iff.mp hkind]
      · rename_i s hkind
        cases h
        rw [toDocument, kind, Kind.ofTag?_eq_some_iff.mp hkind]
      · cases h
    · cases h
  · rintro rfl
    have htag : Kind.ofTag? v.kind.tag = some v.kind := Kind.ofTag?_eq_some_iff.mpr rfl
    unfold toDocument ofDocument?
    dsimp only
    rw [htag]
    cases v with
    | int n =>
      have hfits : Int32.minValue.toInt ≤ n.toInt ∧ n.toInt ≤ Int32.maxValue.toInt :=
        ⟨Int32.minValue_le_toInt n, Int32.toInt_le n⟩
      exact (if_pos hfits).trans (by rw [Int32.ofInt_toInt])
    | bool b => rfl
    | string s => rfl

end Value

end ScriptMachine
