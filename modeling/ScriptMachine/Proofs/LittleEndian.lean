import Mathlib.Algebra.Group.Int.Defs
import Mathlib.Algebra.Group.Nat.Defs
import ScriptMachine.LittleEndian

/-!
# Little-endian numbers give back their bytes

Reading the bytes of a number gives it back modulo the width (`toNat_ofNat`), and writing the number of
some bytes gives back the bytes (`ofNat_toNat`). Words and 32-bit integers are as wide as what they are
written to, so for them nothing is lost in either direction.
-/

namespace ScriptMachine.LittleEndian

/-- As many digits are written as are asked for. -/
@[simp] theorem length_ofNat (width n : Nat) : (ofNat width n).length = width := by
  induction width generalizing n with
  | zero => rfl
  | succ width ih => simp [ofNat, ih]

/-- The low digits of a number are worth its remainder. -/
@[simp] theorem toNat_ofNat (width n : Nat) : toNat (ofNat width n) = n % 256 ^ width := by
  induction width generalizing n with
  | zero => simp [ofNat, toNat, Nat.mod_one]
  | succ width ih =>
    rw [Nat.pow_succ, Nat.mul_comm (256 ^ width) 256, Nat.mod_mul]
    simp [ofNat, toNat, ih]

/-- Bytes are worth less than the next power of their number. -/
theorem toNat_lt (bytes : List UInt8) : toNat bytes < 256 ^ bytes.length := by
  induction bytes with
  | nil => simp [toNat]
  | cons byte rest ih =>
    have hbyte := byte.toNat_lt
    simp only [toNat, List.length_cons, Nat.pow_succ]
    omega

/-- Writing the number of some bytes gives back the bytes. -/
@[simp] theorem ofNat_toNat (bytes : List UInt8) : ofNat bytes.length (toNat bytes) = bytes := by
  induction bytes with
  | nil => rfl
  | cons byte rest ih =>
    have hbyte := byte.toNat_lt
    have hquotient : (byte.toNat + 256 * toNat rest) / 256 = toNat rest := by omega
    simp only [List.length_cons, toNat, ofNat, hquotient, ih, List.cons.injEq, and_true]
    apply UInt8.toNat_inj.mp
    rw [UInt8.toNat_ofNat']
    omega

/-- Bytes that come later are worth more, by the width of those before them. -/
theorem toNat_append (low high : List UInt8) :
    toNat (low ++ high) = toNat low + 256 ^ low.length * toNat high := by
  induction low with
  | nil => simp [toNat]
  | cons byte low ih =>
    rw [List.cons_append, toNat, toNat, ih, List.length_cons, Nat.pow_succ', Nat.mul_add,
      Nat.mul_assoc, Nat.add_assoc]

/-! ## Words -/

/-- A word takes two bytes. -/
@[simp] theorem length_ofWord (word : UInt16) : (ofWord word).length = 2 :=
  length_ofNat 2 word.toNat

/-- Reading the bytes of a word gives it back. -/
@[simp] theorem toWord_ofWord (word : UInt16) : toWord (ofWord word) = word := by
  apply UInt16.toNat_inj.mp
  have hword := word.toNat_lt
  rw [toWord, ofWord, toNat_ofNat, UInt16.toNat_ofNat']
  omega

/-- The word of two bytes is their number. -/
theorem toNat_toWord {bytes : List UInt8} (h : bytes.length = 2) :
    (toWord bytes).toNat = toNat bytes := by
  have hbound := toNat_lt bytes
  rw [h] at hbound
  rw [toWord, UInt16.toNat_ofNat', Nat.mod_eq_of_lt (by omega)]

/-- Writing the word of two bytes gives back the bytes. -/
theorem ofWord_toWord {bytes : List UInt8} (h : bytes.length = 2) : ofWord (toWord bytes) = bytes := by
  rw [ofWord, toNat_toWord h, ← h, ofNat_toNat]

/-! ## 32-bit integers -/

/-- An integer takes four bytes. -/
@[simp] theorem length_ofInt (n : Int32) : (ofInt n).length = 4 :=
  length_ofNat 4 n.toUInt32.toNat

/-- Reading the bytes of an integer gives it back. -/
@[simp] theorem toInt_ofInt (n : Int32) : toInt (ofInt n) = n := by
  have hword : UInt32.ofNat (toNat (ofInt n)) = n.toUInt32 := by
    apply UInt32.toNat_inj.mp
    have hn := n.toUInt32.toNat_lt
    rw [ofInt, toNat_ofNat, UInt32.toNat_ofNat']
    omega
  rw [toInt, hword]
  rfl

/-- Before its sign is read, the integer of four bytes is their number. -/
theorem toNat_toUInt32_toInt {bytes : List UInt8} (h : bytes.length = 4) :
    (toInt bytes).toUInt32.toNat = toNat bytes := by
  have hbound := toNat_lt bytes
  rw [h] at hbound
  change (UInt32.ofNat (toNat bytes)).toNat = toNat bytes
  rw [UInt32.toNat_ofNat', Nat.mod_eq_of_lt (by omega)]

/-- Writing the integer of four bytes gives back the bytes. -/
theorem ofInt_toInt {bytes : List UInt8} (h : bytes.length = 4) : ofInt (toInt bytes) = bytes := by
  rw [ofInt, toNat_toUInt32_toInt h, ← h, ofNat_toNat]

/-- The integer of four bytes is their number, up to a multiple of `2 ^ 32`. -/
theorem toInt_emod {bytes : List UInt8} (h : bytes.length = 4) :
    (toInt bytes).toInt % 2 ^ 32 = toNat bytes := by
  have hbound := toNat_lt bytes
  rw [h] at hbound
  have hint : (toInt bytes).toInt = (toNat bytes : Int).bmod (2 ^ 32) := by
    rw [← toNat_toUInt32_toInt h]
    exact BitVec.toInt_eq_toNat_bmod _
  rw [hint]
  exact (Int.bmod_emod).trans (Int.emod_eq_of_lt (by omega) (by omega))

end ScriptMachine.LittleEndian
