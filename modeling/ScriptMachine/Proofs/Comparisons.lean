import ScriptMachine.Proofs.Operators
import ScriptMachine.Proofs.TextOrder

/-!
# One order behind the comparison operators

Equality and the ordering operators are implemented apart from each other, with coercions of their own.
They agree nevertheless. Equality holds of values with the same readings (`looselyEqual_iff`), and the
ordering operators are four tests of one ordering, which is defined between two texts and between two
numbers (`exists_order_iff`), finds the same values equal (`looselyEqual_of_order`), turns around with its
operands (`order_swap`) and is transitive (`order_lt_trans`). `comparisons_form_one_order` puts this
together. Texts are in the order of their bytes, which is that of their scalar values.
-/

namespace ScriptMachine

section Ordering

variable {α : Type} [LT α] [LE α] [DecidableLT α] [DecidableEq α]

/-- Comparing the other way round gives the opposite order. -/
theorem compareOfLessAndEq_swap [Std.LawfulOrderLT α] [Std.IsLinearOrder α] (x y : α) :
    compareOfLessAndEq y x = (compareOfLessAndEq x y).swap :=
  compareOfLessAndEq_eq_swap Std.le_antisymm (fun _ _ => Std.le_total) Std.not_le

/-- A comparison tells whether the first operand is less. -/
theorem isLT_compareOfLessAndEq (x y : α) : (compareOfLessAndEq x y).isLT = decide (x < y) := by
  rw [Bool.eq_iff_iff, Ordering.isLT_iff_eq_lt, compareOfLessAndEq_eq_lt, decide_eq_true_iff]

/-- A comparison tells whether the operands are equal. -/
theorem isEq_compareOfLessAndEq [Std.LawfulOrderLT α] (x y : α) :
    (compareOfLessAndEq x y).isEq = decide (x = y) := by
  unfold compareOfLessAndEq
  split
  · rename_i hlt
    have hne : x ≠ y := Std.ne_of_lt hlt
    simp [hne]
  · split
    · rename_i heq
      simp [heq]
    · rename_i hne
      simp [hne]

end Ordering

namespace Value

variable {a b c : Value}

/-- Two texts or two numbers. -/
theorem cases_of_isString_eq (h : a.isString = b.isString) :
    (∃ s t, a = string s ∧ b = string t) ∨ ∃ x y, a.asInt? = some x ∧ b.asInt? = some y := by
  cases hb : b.isString with
  | true =>
    rw [hb] at h
    left
    cases a with
    | string s =>
      cases b with
      | string t => exact ⟨s, t, rfl, rfl⟩
      | int _ | bool _ => cases hb
    | int _ | bool _ => cases h
  | false =>
    rw [hb] at h
    obtain ⟨x, hx⟩ := isString_eq_false_iff.mp h
    obtain ⟨y, hy⟩ := isString_eq_false_iff.mp hb
    exact .inr ⟨x, y, hx, hy⟩

/-- A text and a number. -/
theorem cases_of_isString_ne (h : a.isString ≠ b.isString) :
    (∃ s, a = string s ∧ b.isString = false) ∨ ∃ t, b = string t ∧ a.isString = false := by
  cases a with
  | string s => exact .inl ⟨s, rfl, Bool.eq_false_iff.mpr h.symm⟩
  | int _ | bool _ =>
    cases b with
    | string t => exact .inr ⟨t, rfl, rfl⟩
    | int _ | bool _ => exact absurd rfl h

/-! ## Equality -/

/-- Values are equal when they have the same readings, as text and as integers. -/
theorem looselyEqual_iff :
    a.looselyEqual b = true ↔ a.asString? = b.asString? ∧ a.asInt? = b.asInt? := by
  cases a <;> cases b <;> simp [looselyEqual, asString?, asInt?]

/-- Of loosely equal values both are true or neither. -/
theorem isTruthy_of_looselyEqual (h : a.looselyEqual b = true) : a.isTruthy = b.isTruthy := by
  obtain ⟨htext, hreading⟩ := looselyEqual_iff.mp h
  cases hn : b.asInt? with
  | some n =>
    rw [hn] at hreading
    rw [isTruthy_of_asInt? hn, isTruthy_of_asInt? hreading]
  | none =>
    cases b with
    | int _ | bool _ => cases hn
    | string t =>
      cases a with
      | int _ | bool _ => cases htext
      | string s =>
        cases htext
        rfl

/-! ## Order -/

/-- A text has no order with a number, on either side. -/
theorem order_of_mixed (s : String) (h : a.isString = false) :
    (string s).order a = .error (.typeMismatch .string a.kind) ∧
      a.order (string s) = .error (.typeMismatch .string a.kind) := by
  cases a with
  | string _ => cases h
  | int _ => exact ⟨rfl, rfl⟩
  | bool _ => exact ⟨rfl, rfl⟩

/-- Two values have an order when they are two texts or two numbers. -/
theorem exists_order_iff : (∃ o, a.order b = .ok o) ↔ a.isString = b.isString := by
  constructor
  · intro h
    obtain ⟨o, ho⟩ := h
    by_contra hmixed
    obtain ⟨s, rfl, hb⟩ | ⟨t, rfl, ha⟩ := cases_of_isString_ne hmixed
    · rw [(order_of_mixed s hb).1] at ho
      cases ho
    · rw [(order_of_mixed t ha).2] at ho
      cases ho
  · intro h
    obtain ⟨s, t, rfl, rfl⟩ | ⟨x, y, hx, hy⟩ := cases_of_isString_eq h
    · exact ⟨_, rfl⟩
    · exact ⟨_, order_of_asInt? hx hy⟩

/-- The order and the equality of values agree. -/
theorem looselyEqual_of_order {o : Ordering} (h : a.order b = .ok o) : a.looselyEqual b = o.isEq := by
  obtain ⟨s, t, rfl, rfl⟩ | ⟨x, y, hx, hy⟩ := cases_of_isString_eq (exists_order_iff.mp ⟨o, h⟩)
  · cases h
    rw [isEq_compareOfLessAndEq]
    rfl
  · rw [order_of_asInt? hx hy] at h
    cases h
    rw [isEq_compareOfLessAndEq, looselyEqual_of_asInt? hx hy]
    rfl

/-- Exchanging the operands turns the order around, and does not change a failure. -/
theorem order_swap (a b : Value) : b.order a = Ordering.swap <$> a.order b := by
  by_cases hsame : a.isString = b.isString
  · obtain ⟨s, t, rfl, rfl⟩ | ⟨x, y, hx, hy⟩ := cases_of_isString_eq hsame
    · exact congrArg Except.ok (compareOfLessAndEq_swap s t)
    · rw [order_of_asInt? hx hy, order_of_asInt? hy hx, compareOfLessAndEq_swap]
      rfl
  · obtain ⟨s, rfl, hb⟩ | ⟨t, rfl, ha⟩ := cases_of_isString_ne hsame
    · rw [(order_of_mixed s hb).1, (order_of_mixed s hb).2]
      rfl
    · rw [(order_of_mixed t ha).1, (order_of_mixed t ha).2]
      rfl

/-- One value comes before another when both are texts or both are numbers, in order. -/
theorem order_eq_lt_iff :
    a.order b = .ok .lt ↔
      (∃ s t, a = string s ∧ b = string t ∧ s < t) ∨
        ∃ x y, a.asInt? = some x ∧ b.asInt? = some y ∧ x < y := by
  constructor
  · intro h
    obtain ⟨s, t, rfl, rfl⟩ | ⟨x, y, hx, hy⟩ := cases_of_isString_eq (exists_order_iff.mp ⟨_, h⟩)
    · exact .inl ⟨s, t, rfl, rfl, compareOfLessAndEq_eq_lt.mp (Except.ok.inj h)⟩
    · rw [order_of_asInt? hx hy] at h
      exact .inr ⟨x, y, hx, hy, compareOfLessAndEq_eq_lt.mp (Except.ok.inj h)⟩
  · rintro (⟨s, t, rfl, rfl, hlt⟩ | ⟨x, y, hx, hy, hlt⟩)
    · exact congrArg Except.ok (compareOfLessAndEq_eq_lt.mpr hlt)
    · rw [order_of_asInt? hx hy, compareOfLessAndEq_eq_lt.mpr hlt]

/-- To be below is transitive. -/
theorem order_lt_trans (hab : a.order b = .ok .lt) (hbc : b.order c = .ok .lt) :
    a.order c = .ok .lt := by
  rw [order_eq_lt_iff] at hab hbc ⊢
  obtain ⟨s, t, rfl, rfl, hst⟩ | ⟨x, y, hx, hy, hxy⟩ := hab
  · obtain ⟨t', u, ht, rfl, htu⟩ | ⟨y, z, hy, -, -⟩ := hbc
    · cases ht
      exact .inl ⟨s, u, rfl, rfl, String.lt_trans hst htu⟩
    · cases hy
  · obtain ⟨t, u, rfl, -, -⟩ | ⟨y', z, hy', hz, hyz⟩ := hbc
    · cases hy
    · rw [hy] at hy'
      cases hy'
      exact .inr ⟨x, z, hx, hz, Int32.lt_trans hxy hyz⟩

end Value

/-! ## The operators -/

namespace BinaryOp

/-- The operators that ask for the order of their operands. -/
def orderings : List BinaryOp :=
  [less, lessEqual, greater, greaterEqual]

/-- The question that an ordering operator asks of an order. -/
def test? : BinaryOp → Option (Ordering → Bool)
  | less => some Ordering.isLT
  | lessEqual => some Ordering.isLE
  | greater => some Ordering.isGT
  | greaterEqual => some Ordering.isGE
  | _ => none

section Tests

variable {op : BinaryOp} {test : Ordering → Bool} {a b c : Value}

/-- Each ordering operator asks a question of an order. -/
theorem exists_test?_of_mem (h : op ∈ orderings) : ∃ test, op.test? = some test := by
  have hall : ∀ op ∈ orderings, op.test?.isSome = true := by decide
  exact Option.isSome_iff_exists.mp (hall op h)

/-- An ordering operator asks its question of the order of its operands. -/
theorem apply_of_test? (h : op.test? = some test) (a b : Value) :
    op.apply a b = (fun o => .bool (test o)) <$> a.order b := by
  have hmap (e : Except Fault Ordering) :
      (do return Value.bool (test (← e))) = (fun o => Value.bool (test o)) <$> e := by
    cases e <;> rfl
  cases op with
  | less | lessEqual | greater | greaterEqual =>
    cases h
    exact hmap (a.order b)
  | _ => cases h

/-- Where the operands have an order, the operator answers its question. -/
theorem apply_of_order {o : Ordering} (h : op.test? = some test) (ho : a.order b = .ok o) :
    op.apply a b = .ok (.bool (test o)) := by
  rw [apply_of_test? h, ho]
  rfl

/-- An ordering operator succeeds on two texts and on two numbers, and on nothing else. -/
theorem exists_apply_iff (h : op ∈ orderings) :
    (∃ v, op.apply a b = .ok v) ↔ a.isString = b.isString := by
  obtain ⟨test, htest⟩ := exists_test?_of_mem h
  rw [← Value.exists_order_iff, apply_of_test? htest]
  cases a.order b with
  | error fault => simp [Functor.map, Except.map]
  | ok o => simp [Functor.map, Except.map]

/-- Text and a number are refused, and the number is the one whose kind is told, on either side. -/
theorem apply_of_mixed (h : op ∈ orderings) (s : String) (ha : a.isString = false) :
    op.apply (.string s) a = .error (.typeMismatch .string a.kind) ∧
      op.apply a (.string s) = .error (.typeMismatch .string a.kind) := by
  obtain ⟨test, htest⟩ := exists_test?_of_mem h
  obtain ⟨hleft, hright⟩ := Value.order_of_mixed s ha
  rw [apply_of_test? htest, apply_of_test? htest, hleft, hright]
  exact ⟨rfl, rfl⟩

/-- Turning an order around exchanges smaller and larger. -/
theorem greater_eq_less (a b : Value) : greater.apply a b = less.apply b a := by
  have hgreater : greater.test? = some Ordering.isGT := rfl
  have hless : less.test? = some Ordering.isLT := rfl
  rw [apply_of_test? hgreater, apply_of_test? hless, Value.order_swap a b]
  cases a.order b with
  | error fault => rfl
  | ok o => cases o <;> rfl

/-- A value is less than another when it comes before it in the order. -/
theorem less_iff : less.apply a b = .ok (.bool true) ↔ a.order b = .ok .lt := by
  have hless : less.test? = some Ordering.isLT := rfl
  rw [apply_of_test? hless]
  cases a.order b with
  | error fault => simp [Functor.map, Except.map]
  | ok o => cases o <;> simp [Functor.map, Except.map]

/-- To be less is transitive. -/
theorem less_trans (hab : less.apply a b = .ok (.bool true)) (hbc : less.apply b c = .ok (.bool true)) :
    less.apply a c = .ok (.bool true) := by
  rw [less_iff] at hab hbc ⊢
  exact Value.order_lt_trans hab hbc

/-- Of two values that have an order, one comes first or they are equal, and the other questions about
them have the answers that follow from this. -/
theorem exists_answers (h : a.isString = b.isString) :
    ∃ l e g : Bool, less.apply a b = .ok (.bool l) ∧ equal.apply a b = .ok (.bool e) ∧
      greater.apply a b = .ok (.bool g) ∧ [l, e, g].count true = 1 ∧
      lessEqual.apply a b = .ok (.bool (l || e)) ∧ greaterEqual.apply a b = .ok (.bool !l) := by
  obtain ⟨o, ho⟩ := Value.exists_order_iff.mpr h
  have hequal : equal.apply a b = .ok (.bool o.isEq) := by
    rw [apply, Value.looselyEqual_of_order ho]
  have hlessEqual : lessEqual.apply a b = .ok (.bool o.isLE) := apply_of_order rfl ho
  have hgreaterEqual : greaterEqual.apply a b = .ok (.bool o.isGE) := apply_of_order rfl ho
  refine ⟨o.isLT, o.isEq, o.isGT, apply_of_order rfl ho, hequal, apply_of_order rfl ho, ?_⟩
  cases o with
  | lt => exact ⟨rfl, hlessEqual, hgreaterEqual⟩
  | eq => exact ⟨rfl, hlessEqual, hgreaterEqual⟩
  | gt => exact ⟨rfl, hlessEqual, hgreaterEqual⟩

/-- A number is less than another when its reading is. -/
theorem less_of_asInt? {x y : Int32} (ha : a.asInt? = some x) (hb : b.asInt? = some y) :
    less.apply a b = .ok (.bool (decide (x.toInt < y.toInt))) := by
  rw [apply_of_order rfl (Value.order_of_asInt? ha hb), isLT_compareOfLessAndEq,
    decide_eq_decide.mpr Int32.lt_iff_toInt_lt]

/-- A text is less than another when its bytes come first in the order of lists. -/
theorem less_texts (s t : String) :
    less.apply (.string s) (.string t) = .ok (.bool (decide (Text.bytes s < Text.bytes t))) := by
  have horder : (Value.string s).order (.string t) = .ok (compareOfLessAndEq s t) := rfl
  rw [apply_of_order rfl horder, isLT_compareOfLessAndEq, decide_eq_decide.mpr Text.bytes_lt_iff]

/-- Values are equal when they are loosely equal. -/
theorem equal_iff : equal.apply a b = .ok (.bool true) ↔ a.looselyEqual b = true := by
  simp [apply]

/-- Equality of values is an equivalence. -/
theorem equivalence_equal : Equivalence (fun a b => equal.apply a b = .ok (.bool true)) := by
  simp only [equal_iff, Value.looselyEqual_iff]
  exact {
    refl := fun a => ⟨rfl, rfl⟩
    symm := fun h => ⟨h.1.symm, h.2.symm⟩
    trans := fun hab hbc => ⟨hab.1.trans hbc.1, hab.2.trans hbc.2⟩ }

end Tests

/-- The comparison operators form one coherent order.

Equality never fails, is an equivalence with inequality as its negation, and only holds of values with the
same truth. The ordering operators answer for two texts and for two numbers. A text and a number are
refused by all of them alike, on whichever side the text is, with the kind of the number.

Where they answer, a value is smaller than another, equal to it or larger, and exactly one of these;
the other two operators answer accordingly. Exchanging the operands exchanges smaller and larger, and the
order is transitive. Numbers are ordered by their integer readings, and texts by their bytes, which is
also the order of their scalar values. -/
theorem comparisons_form_one_order :
    Equivalence (fun a b => equal.apply a b = .ok (.bool true)) ∧
    (∀ a b, ∃ e, equal.apply a b = .ok (.bool e) ∧ notEqual.apply a b = .ok (.bool !e) ∧
      (e = true → a.isTruthy = b.isTruthy)) ∧
    (∀ op ∈ orderings, ∀ a b, (∃ v, op.apply a b = .ok v) ↔ a.isString = b.isString) ∧
    (∀ op ∈ orderings, ∀ (s : String) (v : Value), v.isString = false →
      op.apply (.string s) v = .error (.typeMismatch .string v.kind) ∧
        op.apply v (.string s) = .error (.typeMismatch .string v.kind)) ∧
    (∀ a b, a.isString = b.isString → ∃ l e g : Bool,
      less.apply a b = .ok (.bool l) ∧ equal.apply a b = .ok (.bool e) ∧
      greater.apply a b = .ok (.bool g) ∧ [l, e, g].count true = 1 ∧
      lessEqual.apply a b = .ok (.bool (l || e)) ∧ greaterEqual.apply a b = .ok (.bool !l)) ∧
    (∀ a b, greater.apply a b = less.apply b a) ∧
    (∀ a b c, less.apply a b = .ok (.bool true) → less.apply b c = .ok (.bool true) →
      less.apply a c = .ok (.bool true)) ∧
    (∀ (a b : Value) (x y : Int32), a.asInt? = some x → b.asInt? = some y →
      less.apply a b = .ok (.bool (decide (x.toInt < y.toInt)))) ∧
    ∀ s t, less.apply (.string s) (.string t) = .ok (.bool (decide (Text.bytes s < Text.bytes t))) ∧
      (Text.bytes s < Text.bytes t ↔ Text.scalars s < Text.scalars t) := by
  refine ⟨equivalence_equal, fun a b => ?_, fun op hop a b => exists_apply_iff hop,
    fun op hop s v hv => apply_of_mixed hop s hv, fun a b h => exists_answers h, greater_eq_less,
    fun a b c => less_trans, fun a b x y => less_of_asInt?, fun s t => ⟨less_texts s t, ?_⟩⟩
  · exact ⟨a.looselyEqual b, rfl, rfl, Value.isTruthy_of_looselyEqual⟩
  · rw [Text.bytes_lt_iff, Text.scalars_lt_iff]

/-- `false` comes before one and one before five, so `false` comes before five. A text is refused next to
a number, and an accented letter comes after `z`, by its first byte as by its scalar value. -/
theorem comparisons_form_one_order_accent :
    (less.apply (.bool false) (.int 1) = .ok (.bool true) ∧
      less.apply (.int 1) (.int 5) = .ok (.bool true) ∧
      less.apply (.bool false) (.int 5) = .ok (.bool true)) ∧
    greaterEqual.apply (.int 1) (.string "z") = .error (.typeMismatch .string .int) ∧
    less.apply (.string "z") (.string "é") = .ok (.bool true) ∧
    Text.bytes "é" = [0xC3, 0xA9] ∧ Text.scalars "é" = [0xE9] := by
  obtain ⟨-, -, -, hmixed, -, -, htrans, hnumbers, htexts⟩ := comparisons_form_one_order
  have hfirst := hnumbers (.bool false) (.int 1) 0 1 rfl rfl
  have hsecond := hnumbers (.int 1) (.int 5) 1 5 rfl rfl
  refine ⟨⟨hfirst, hsecond, htrans _ _ _ hfirst hsecond⟩, ?_, ?_, by decide +kernel, by decide +kernel⟩
  · exact (hmixed .greaterEqual (by decide) "z" (.int 1) rfl).2
  · rw [(htexts "z" "é").1]
    decide +kernel

end BinaryOp

end ScriptMachine
