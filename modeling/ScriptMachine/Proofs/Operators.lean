import ScriptMachine.Proofs.Actions

/-!
# Operators on numbers

A number is an integer or a boolean, and every operator reads it through its integer reading alone. For each
operator, what it comes to on numbers of given readings.
-/

namespace ScriptMachine

namespace Value

/-- The values that are not text are those with an integer reading. -/
theorem isString_eq_false_iff {v : Value} : v.isString = false ↔ ∃ n, v.asInt? = some n := by
  cases v <;> simp [isString, asString?, asInt?]

/-- A number is true when its reading is not zero. -/
theorem isTruthy_of_asInt? {v : Value} {n : Int32} (h : v.asInt? = some n) :
    v.isTruthy = (n != 0) := by
  cases v with
  | int _ =>
    cases h
    rfl
  | bool b =>
    cases h
    cases b <;> rfl
  | string _ => cases h

/-- Numbers are compared by their readings, so `true` equals one. -/
theorem looselyEqual_of_asInt? {a b : Value} {x y : Int32} (ha : a.asInt? = some x)
    (hb : b.asInt? = some y) : a.looselyEqual b = (x == y) := by
  have hreadings : a.looselyEqual b = (a.asInt? == b.asInt?) := by
    cases a with
    | string _ => cases ha
    | int _ => cases b <;> rfl
    | bool _ => cases b <;> rfl
  rw [hreadings, ha, hb]
  rfl

/-- A number is converted to its reading. -/
theorem toNumber_of_asInt? {v : Value} {n : Int32} (h : v.asInt? = some n) : v.toNumber = .ok n :=
  toNumber_eq_ok_iff.mpr h

/-- Numbers are ordered by their readings. -/
theorem order_of_asInt? {a b : Value} {x y : Int32} (ha : a.asInt? = some x)
    (hb : b.asInt? = some y) : a.order b = .ok (compareOfLessAndEq x y) := by
  have hnumbers : a.order b = do
      let x ← a.toNumber
      let y ← b.toNumber
      return compareOfLessAndEq x y := by
    cases b with
    | string _ => cases hb
    | int _ => cases a <;> first | rfl | cases ha
    | bool _ => cases a <;> first | rfl | cases ha
  rw [hnumbers, toNumber_of_asInt? ha, toNumber_of_asInt? hb]
  rfl

/-- An arithmetic operator works on the readings of numbers and gives an integer. -/
theorem arithmetic_of_asInt? {a b : Value} {x y : Int32} (f : Int32 → Int32 → Except Fault Int32)
    (ha : a.asInt? = some x) (hb : b.asInt? = some y) : a.arithmetic f b = .int <$> f x y := by
  rw [arithmetic, toNumber_of_asInt? ha, toNumber_of_asInt? hb]
  cases hf : f x y <;> simp [hf, bind, Except.bind, pure, Except.pure, Functor.map, Except.map]

/-- Arithmetic gives integers. -/
theorem isString_of_map_int {e : Except Fault Int32} {v : Value} (h : Value.int <$> e = .ok v) :
    v.isString = false := by
  cases e with
  | error fault => cases h
  | ok n =>
    cases h
    rfl

/-- On numbers, addition is that of the readings and joins no text. -/
theorem add_of_asInt? {a b : Value} {x y : Int32} (ha : a.asInt? = some x) (hb : b.asInt? = some y) :
    a.add b = .ok (.int (x + y)) := by
  have hnumbers : ¬ (a.isString || b.isString) = true := by
    rw [isString_eq_false_iff.mpr ⟨x, ha⟩, isString_eq_false_iff.mpr ⟨y, hb⟩]
    decide
  rw [add, if_neg hnumbers, arithmetic_of_asInt? _ ha hb]
  rfl

/-- The negative of a number is an integer, also if the number is a boolean. -/
theorem negate_of_asInt? {v : Value} {n : Int32} (h : v.asInt? = some n) :
    v.negate = .ok (.int (-n)) := by
  rw [negate, toNumber_of_asInt? h]
  rfl

end Value

end ScriptMachine
