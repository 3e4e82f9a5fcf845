import Mathlib.Data.Int.ModEq
import ScriptMachine.Proofs.Operators

/-!
# Arithmetic on words

Sums, differences, products and negations are exact up to a multiple of `2 ^ 32`: the result is the one
32-bit integer that is congruent to the exact one (`Wraps`). Quotients are truncated toward zero and go
with their remainders (`TruncatedDivision`). There is one quotient that does not fit, that of the least integer by
minus one, and it wraps around as well.

Text is refused by all of these before anything else is looked at, except by sums, which join it to the
display form of the other operand. `arithmetic_on_words` says this of the operators.
-/

namespace ScriptMachine

/-! ## Wrapping around -/

/-- The 32-bit integer is the only one that is congruent to the exact integer. -/
def Wraps (exact : Int) (n : Int32) : Prop :=
  ∀ k : Int32, k.toInt ≡ exact [ZMOD 2 ^ 32] ↔ k = n

/-- Balanced residues are how words represent exact integers. -/
theorem wraps_of_toInt_eq_bmod {exact : Int} {n : Int32} (h : n.toInt = exact.bmod (2 ^ 32)) :
    Wraps exact n := by
  intro k
  have hk := k.toInt_bmod
  constructor
  · intro hmod
    apply Int32.toInt_inj.mp
    calc k.toInt = k.toInt.bmod (2 ^ 32) := hk.symm
      _ = (k.toInt % (2 ^ 32 : Nat)).bmod (2 ^ 32) := (Int.emod_bmod _ _).symm
      _ = (exact % (2 ^ 32 : Nat)).bmod (2 ^ 32) := congrArg (Int.bmod · (2 ^ 32)) hmod
      _ = exact.bmod (2 ^ 32) := Int.emod_bmod _ _
      _ = n.toInt := h.symm
  · rintro rfl
    rw [h]
    exact Int.bmod_emod

/-! ## Dividing -/

/-- The least integer divided by minus one is the one quotient that does not fit. -/
def QuotientOverflows (x y : Int) : Prop :=
  x = -2 ^ 31 ∧ y = -1

/-- A quotient and a remainder of division that truncates toward zero. -/
structure TruncatedDivision (x y q r : Int) : Prop where
  remainder_lt : r.natAbs < y.natAbs
  remainder_sign : r = 0 ∨ r.sign = x.sign
  exact (h : ¬ QuotientOverflows x y) : x = q * y + r ∧ q.natAbs = x.natAbs / y.natAbs
  wrapped (h : QuotientOverflows x y) : q = -2 ^ 31 ∧ r = 0 ∧ x ≡ q * y + r [ZMOD 2 ^ 32]

/-- A remainder is smaller than the divisor. -/
theorem natAbs_tmod_lt {x y : Int} (hy : y ≠ 0) : (x.tmod y).natAbs < y.natAbs := by
  rw [Int.natAbs_tmod]
  exact Nat.mod_lt _ (Int.natAbs_pos.mpr hy)

/-- Other quotients of 32-bit integers fit. -/
theorem tdiv_bounds {x y : Int} (hlow : -2 ^ 31 ≤ x) (hhigh : x < 2 ^ 31) (hy : y ≠ 0)
    (hfits : ¬ QuotientOverflows x y) : -2 ^ 31 ≤ x.tdiv y ∧ x.tdiv y < 2 ^ 31 := by
  have hle := Int.natAbs_tdiv_le_natAbs x y
  have hdivision := Int.tdiv_mul_add_tmod x y
  have hremainder := natAbs_tmod_lt (x := x) hy
  -- By its size alone the quotient could be `2 ^ 31`, and then the operands would be the excluded ones.
  have hne : x.tdiv y ≠ 2 ^ 31 := by
    intro hquotient
    rw [hquotient] at hdivision
    apply hfits
    unfold QuotientOverflows
    omega
  omega

/-- A quotient that fits is the truncated one. -/
theorem toInt_div_of_fits {x y : Int32} (hy : y ≠ 0) (hfits : ¬ QuotientOverflows x.toInt y.toInt) :
    (x / y).toInt = x.toInt.tdiv y.toInt := by
  have hy' : y.toInt ≠ 0 := fun h => hy (Int32.toInt_inj.mp h)
  obtain ⟨hlow, hhigh⟩ := tdiv_bounds x.le_toInt x.toInt_lt hy' hfits
  rw [Int32.toInt_div]
  exact Int.bmod_eq_of_le (by omega) (by omega)

/-- Division of words truncates toward zero. -/
theorem truncatedDivision_of_ne_zero {x y : Int32} (hy : y ≠ 0) :
    TruncatedDivision x.toInt y.toInt (x / y).toInt (x % y).toInt := by
  have hy' : y.toInt ≠ 0 := fun h => hy (Int32.toInt_inj.mp h)
  rw [Int32.toInt_mod]
  refine ⟨natAbs_tmod_lt hy', ?_, fun hfits => ?_, fun hoverflows => ?_⟩
  · have hsign := Int.sign_tmod x.toInt y.toInt
    split at hsign
    · exact .inl (Int.sign_eq_zero_iff_zero.mp hsign)
    · exact .inr hsign
  · rw [toInt_div_of_fits hy hfits]
    exact ⟨(Int.tdiv_mul_add_tmod _ _).symm, Int.natAbs_tdiv _ _⟩
  · obtain ⟨hx, hy⟩ := hoverflows
    rw [Int32.toInt_div, hx, hy]
    decide

/-! ## Text among the operands -/

namespace Value

variable {a b : Value}

/-- Text is refused where a number is needed. -/
theorem toNumber_of_isString (h : a.isString = true) :
    a.toNumber = .error (.typeMismatch .number .string) := by
  cases a with
  | string _ => rfl
  | int _ | bool _ => cases h

/-- Negation refuses text and nothing else. -/
theorem negate_eq_mismatch_iff :
    a.negate = .error (.typeMismatch .number .string) ↔ a.isString = true := by
  cases ha : a.isString with
  | true => simp [negate, toNumber_of_isString ha, bind, Except.bind]
  | false =>
    obtain ⟨x, hx⟩ := isString_eq_false_iff.mp ha
    simp [negate_of_asInt? hx]

/-- Text on either side is refused, whatever is to be computed. -/
theorem arithmetic_of_isString (f : Int32 → Int32 → Except Fault Int32)
    (h : a.isString = true ∨ b.isString = true) :
    a.arithmetic f b = .error (.typeMismatch .number .string) := by
  cases ha : a.isString with
  | true => simp [arithmetic, toNumber_of_isString ha, bind, Except.bind]
  | false =>
    obtain ⟨x, hx⟩ := isString_eq_false_iff.mp ha
    have hb := h.resolve_left (by simp [ha])
    simp [arithmetic, toNumber_of_asInt? hx, toNumber_of_isString hb, bind, Except.bind]

/-- A computation that does not complain of a text itself is refused only because of one. -/
theorem arithmetic_eq_mismatch_iff {f : Int32 → Int32 → Except Fault Int32}
    (hf : ∀ x y, f x y ≠ .error (.typeMismatch .number .string)) :
    a.arithmetic f b = .error (.typeMismatch .number .string) ↔
      a.isString = true ∨ b.isString = true := by
  refine ⟨fun h => ?_, arithmetic_of_isString f⟩
  by_contra hnumbers
  rw [not_or, Bool.not_eq_true, Bool.not_eq_true] at hnumbers
  obtain ⟨x, hx⟩ := isString_eq_false_iff.mp hnumbers.1
  obtain ⟨y, hy⟩ := isString_eq_false_iff.mp hnumbers.2
  rw [arithmetic_of_asInt? f hx hy] at h
  cases hresult : f x y with
  | error fault =>
    rw [hresult] at h
    cases h
    exact hf x y hresult
  | ok n =>
    rw [hresult] at h
    cases h

/-- A computation that is made unless its second operand is zero. -/
theorem arithmetic_unless_zero (f : Int32 → Int32 → Int32) {x y : Int32} (ha : a.asInt? = some x)
    (hb : b.asInt? = some y) :
    a.arithmetic (fun x y => if y = 0 then .error .divisionByZero else .ok (f x y)) b =
      if y = 0 then .error .divisionByZero else .ok (.int (f x y)) := by
  rw [arithmetic_of_asInt? _ ha hb]
  split <;> rfl

end Value

/-! ## The operators -/

namespace BinaryOp

variable {a b : Value} {x y : Int32}

/-- The operators that compute with numbers only. -/
def numeric : List BinaryOp :=
  [sub, mul, div, mod]

/-- A numeric operator refuses text on either side, and nothing else for its kind. -/
theorem apply_eq_mismatch_iff {op : BinaryOp} (h : op ∈ numeric) :
    op.apply a b = .error (.typeMismatch .number .string) ↔
      a.isString = true ∨ b.isString = true := by
  have hdivisor (quotient : Int32 → Int32 → Int32) (x y : Int32) :
      (if y = 0 then .error .divisionByZero else .ok (quotient x y) : Except Fault Int32) ≠
        .error (.typeMismatch .number .string) := by
    split <;> nofun
  simp only [numeric, List.mem_cons, List.not_mem_nil, or_false] at h
  obtain rfl | rfl | rfl | rfl := h
  · exact Value.arithmetic_eq_mismatch_iff (fun _ _ => nofun)
  · exact Value.arithmetic_eq_mismatch_iff (fun _ _ => nofun)
  · exact Value.arithmetic_eq_mismatch_iff (hdivisor (· / ·))
  · exact Value.arithmetic_eq_mismatch_iff (hdivisor (· % ·))

/-- A sum with text on either side joins the display forms. -/
theorem add_of_isString (h : a.isString = true ∨ b.isString = true) :
    add.apply a b = .ok (.string (a.render ++ b.render)) := by
  have hor : (a.isString || b.isString) = true := by rwa [Bool.or_eq_true]
  rw [apply, Value.add, if_pos hor]

section Numbers

variable (ha : a.asInt? = some x) (hb : b.asInt? = some y)

include ha hb

/-- A sum of numbers wraps around. -/
theorem exists_add : ∃ n, add.apply a b = .ok (.int n) ∧ Wraps (x.toInt + y.toInt) n :=
  ⟨x + y, Value.add_of_asInt? ha hb, wraps_of_toInt_eq_bmod (Int32.toInt_add x y)⟩

/-- A difference of numbers wraps around. -/
theorem exists_sub : ∃ n, sub.apply a b = .ok (.int n) ∧ Wraps (x.toInt - y.toInt) n :=
  ⟨x - y, Value.arithmetic_of_asInt? _ ha hb, wraps_of_toInt_eq_bmod (Int32.toInt_sub x y)⟩

/-- A product of numbers wraps around. -/
theorem exists_mul : ∃ n, mul.apply a b = .ok (.int n) ∧ Wraps (x.toInt * y.toInt) n :=
  ⟨x * y, Value.arithmetic_of_asInt? _ ha hb, wraps_of_toInt_eq_bmod (Int32.toInt_mul x y)⟩

/-- Division fails exactly by zero, for the quotient and for the remainder. -/
theorem division_by_zero_iff :
    (div.apply a b = .error .divisionByZero ↔ y = 0) ∧
      (mod.apply a b = .error .divisionByZero ↔ y = 0) := by
  rw [apply, apply, Value.arithmetic_unless_zero _ ha hb, Value.arithmetic_unless_zero _ ha hb]
  by_cases hy : y = 0
  · simp [hy]
  · simp [hy]

/-- Other numbers have a quotient and a remainder, which go together. -/
theorem exists_quotient_remainder (hy : y ≠ 0) :
    ∃ q r, div.apply a b = .ok (.int q) ∧ mod.apply a b = .ok (.int r) ∧
      TruncatedDivision x.toInt y.toInt q.toInt r.toInt := by
  rw [apply, apply, Value.arithmetic_unless_zero _ ha hb, Value.arithmetic_unless_zero _ ha hb,
    if_neg hy, if_neg hy]
  exact ⟨x / y, x % y, rfl, rfl, truncatedDivision_of_ne_zero hy⟩

end Numbers

/-- Arithmetic is exact modulo `2 ^ 32`, and division truncates.

Subtraction, multiplication, division, remainder and negation refuse text and do so first; a sum with
text on either side joins the display forms. On numbers, sums, differences, products and negations are the
one 32-bit integer congruent to the exact result. Division and remainder fail exactly when the divisor is
zero, and otherwise belong together: the remainder is smaller than the divisor and has the sign of the
dividend, and the quotient is exact, apart from the one that does not fit. -/
theorem arithmetic_on_words :
    (∀ op ∈ numeric, ∀ a b, op.apply a b = .error (.typeMismatch .number .string) ↔
      a.isString = true ∨ b.isString = true) ∧
    (∀ a : Value, a.negate = .error (.typeMismatch .number .string) ↔ a.isString = true) ∧
    (∀ a b, a.isString = true ∨ b.isString = true →
      add.apply a b = .ok (.string (a.render ++ b.render))) ∧
    (∀ (a : Value) (x : Int32), a.asInt? = some x →
      ∃ n, a.negate = .ok (.int n) ∧ Wraps (-x.toInt) n) ∧
    ∀ (a b : Value) (x y : Int32), a.asInt? = some x → b.asInt? = some y →
      (∃ n, add.apply a b = .ok (.int n) ∧ Wraps (x.toInt + y.toInt) n) ∧
      (∃ n, sub.apply a b = .ok (.int n) ∧ Wraps (x.toInt - y.toInt) n) ∧
      (∃ n, mul.apply a b = .ok (.int n) ∧ Wraps (x.toInt * y.toInt) n) ∧
      (div.apply a b = .error .divisionByZero ↔ y = 0) ∧
      (mod.apply a b = .error .divisionByZero ↔ y = 0) ∧
      (y ≠ 0 → ∃ q r, div.apply a b = .ok (.int q) ∧ mod.apply a b = .ok (.int r) ∧
        TruncatedDivision x.toInt y.toInt q.toInt r.toInt) := by
  refine ⟨fun op hop a b => apply_eq_mismatch_iff hop, fun a => Value.negate_eq_mismatch_iff,
    fun a b => add_of_isString, fun a x ha => ?_, fun a b x y ha hb => ?_⟩
  · exact ⟨-x, Value.negate_of_asInt? ha, wraps_of_toInt_eq_bmod (Int32.toInt_neg x)⟩
  · obtain ⟨hdiv, hmod⟩ := division_by_zero_iff ha hb
    exact ⟨exists_add ha hb, exists_sub ha hb, exists_mul ha hb, hdiv, hmod,
      exists_quotient_remainder ha hb⟩

/-- The least integer divided by minus one is the least integer again, with no remainder. Text is refused
before the divisor is looked at, and joined to a number by a sum. -/
theorem arithmetic_on_words_leastQuotient :
    div.apply (.int Int32.minValue) (.int (-1)) = .ok (.int Int32.minValue) ∧
      mod.apply (.int Int32.minValue) (.int (-1)) = .ok (.int 0) ∧
      div.apply (.string "7") (.int 0) = .error (.typeMismatch .number .string) ∧
      add.apply (.string "gold: ") (.int 10) = .ok (.string "gold: 10") := by
  obtain ⟨hrefused, -, hjoined, -, hnumbers⟩ := arithmetic_on_words
  obtain ⟨-, -, -, -, -, hdivision⟩ := hnumbers (.int Int32.minValue) (.int (-1)) _ _ rfl rfl
  obtain ⟨q, r, hdiv, hmod, htruncated⟩ := hdivision (by decide)
  obtain ⟨hq, hr, -⟩ := htruncated.wrapped ⟨by decide, by decide⟩
  have hq' : q = Int32.minValue := Int32.toInt_inj.mp hq
  have hr' : r = 0 := Int32.toInt_inj.mp hr
  rw [hdiv, hmod, hq', hr', (hrefused .div (by decide) (.string "7") (.int 0)).mpr (.inl rfl),
    hjoined (.string "gold: ") (.int 10) (.inl rfl)]
  decide +kernel

end BinaryOp

end ScriptMachine
