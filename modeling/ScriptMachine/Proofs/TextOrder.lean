import Mathlib.Algebra.Group.Nat.Defs
import Mathlib.Data.Char
import Mathlib.Data.List.Lex

/-!
# The order of texts and of their bytes

Texts are compared character by character. Their UTF-8 bytes come in the same order
(`bytes_lt_iff`), so it does not matter whether characters or bytes are compared.

The argument is about one character. Its first byte tells how many bytes follow and holds the high digits
of its scalar value; the bytes that follow hold the other digits in base 64. A larger scalar value
therefore has a larger first byte, or the same first byte and a larger digit further on, and the bytes are
in order before either character ends (`utf8EncodeChar_append_lt`).
-/

namespace ScriptMachine

namespace Text

/-- The UTF-8 bytes of a text. -/
def bytes (s : String) : List UInt8 :=
  s.toUTF8.data.toList

/-- The Unicode scalar values of a text. -/
def scalars (s : String) : List Nat :=
  s.toList.map Char.toNat

/-! ## The bytes of one character -/

/-- How many bytes follow the first byte of a scalar value. -/
def following (v : Nat) : Nat :=
  if v ≤ 0x7F then 0 else if v ≤ 0x7FF then 1 else if v ≤ 0xFFFF then 2 else 3

/-- The bits by which a first byte tells how many bytes follow. -/
def marker : Nat → Nat
  | 0 => 0
  | 1 => 0xC0
  | 2 => 0xE0
  | _ => 0xF0

/-- The first byte of a scalar value. -/
def lead (v : Nat) : Nat :=
  marker (following v) + v / 64 ^ following v

/-- The low digits of a scalar value in base 64, the most significant one first. -/
def continuation : Nat → Nat → List UInt8
  | 0, _ => []
  | n + 1, v => UInt8.ofNat (v / 64 ^ n % 64 + 0x80) :: continuation n v

/-- Characters are code points. -/
theorem toNat_lt_of_char (c : Char) : c.toNat < 0x110000 := by
  obtain hlow | hhigh := c.valid
  · exact Nat.lt_trans hlow (by decide)
  · exact hhigh.2

/-- A character is encoded as its first byte and its low digits. -/
theorem utf8EncodeChar_eq (c : Char) :
    String.utf8EncodeChar c =
      UInt8.ofNat (lead c.toNat) :: continuation (following c.toNat) c.toNat := by
  have hmax := toNat_lt_of_char c
  simp only [String.utf8EncodeChar, Char.toNat_val, lead, following]
  -- The encoding masks the high digits, which fit the mask in each of the four ranges.
  by_cases hone : c.toNat ≤ 0x7F
  · simp [hone, marker, continuation]
  · by_cases htwo : c.toNat ≤ 0x7FF
    · have hmask : c.toNat / 64 % 32 = c.toNat / 64 := Nat.mod_eq_of_lt (by omega)
      simp [hone, htwo, marker, continuation, hmask, UInt8.add_comm]
    · by_cases hthree : c.toNat ≤ 0xFFFF
      · have hmask : c.toNat / 4096 % 16 = c.toNat / 4096 := Nat.mod_eq_of_lt (by omega)
        simp [hone, htwo, hthree, marker, continuation, hmask, UInt8.add_comm]
      · have hmask : c.toNat / 262144 % 8 = c.toNat / 262144 := Nat.mod_eq_of_lt (by omega)
        simp [hone, htwo, hthree, marker, continuation, hmask, UInt8.add_comm]

/-! ## Larger characters have larger bytes -/

section Order

variable {v w : Nat}

/-- The leading number of a code point is a byte. -/
theorem lead_lt_256 (h : v < 0x110000) : lead v < 256 := by
  unfold lead following
  grind [marker]

/-- The markers keep first bytes apart when different numbers of bytes follow. -/
theorem lead_lt_of_following_ne (hlt : v < w) (hne : following v ≠ following w) :
    lead v < lead w := by
  unfold lead following at *
  grind [marker]

/-- Scalar values with the same high digits are ordered by their low digits. -/
theorem continuation_append_lt (n : Nat) (hlt : v < w) (hhigh : v / 64 ^ n = w / 64 ^ n)
    (rest rest' : List UInt8) : continuation n v ++ rest < continuation n w ++ rest' := by
  induction n with
  | zero =>
    rw [Nat.pow_zero, Nat.div_one, Nat.div_one] at hhigh
    omega
  | succ n ih =>
    have hdigit (u : Nat) : u / 64 ^ n = 64 * (u / 64 ^ (n + 1)) + u / 64 ^ n % 64 := by
      rw [Nat.pow_succ, ← Nat.div_div_eq_div_mul]
      omega
    have hv := hdigit v
    have hw := hdigit w
    have hle : v / 64 ^ n ≤ w / 64 ^ n := Nat.div_le_div_right hlt.le
    simp only [continuation, List.cons_append, List.cons_lt_cons_iff]
    obtain hless | hsame := hle.lt_or_eq
    · left
      rw [UInt8.lt_iff_toNat_lt, UInt8.toNat_ofNat', UInt8.toNat_ofNat']
      omega
    · right
      exact ⟨by rw [hsame], ih hsame⟩

end Order

/-- The bytes of a smaller character come first, whatever follows the two characters. -/
theorem utf8EncodeChar_append_lt {c d : Char} (h : c < d) (rest rest' : List UInt8) :
    String.utf8EncodeChar c ++ rest < String.utf8EncodeChar d ++ rest' := by
  have hlt : c.toNat < d.toNat := h
  have hc := lead_lt_256 (toNat_lt_of_char c)
  have hd := lead_lt_256 (toNat_lt_of_char d)
  rw [utf8EncodeChar_eq, utf8EncodeChar_eq, List.cons_append, List.cons_append, List.cons_lt_cons_iff,
    UInt8.lt_iff_toNat_lt, UInt8.toNat_ofNat_of_lt' hc, UInt8.toNat_ofNat_of_lt' hd]
  by_cases hfollowing : following c.toNat = following d.toNat
  · have hle : c.toNat / 64 ^ following c.toNat ≤ d.toNat / 64 ^ following c.toNat :=
      Nat.div_le_div_right hlt.le
    rw [lead, lead, ← hfollowing]
    obtain hless | hsame := hle.lt_or_eq
    · exact .inl (Nat.add_lt_add_left hless _)
    · exact .inr ⟨by rw [hsame], continuation_append_lt _ hlt hsame rest rest'⟩
  · exact .inl (lead_lt_of_following_ne hlt hfollowing)

/-! ## Texts -/

/-- The bytes of a text are those of its characters one after another. -/
theorem bytes_eq (s : String) : bytes s = s.toList.flatMap String.utf8EncodeChar := by
  rw [bytes, String.toUTF8_eq_toByteArray, ← String.ofList_toList (s := s), String.toByteArray_ofList,
    List.utf8Encode, List.data_toByteArray, String.toList_ofList]

/-- Encoding keeps the order of lists of characters. -/
theorem flatMap_utf8EncodeChar_lt {cs ds : List Char} (h : cs < ds) :
    cs.flatMap String.utf8EncodeChar < ds.flatMap String.utf8EncodeChar := by
  induction h with
  | @nil d ds =>
    rw [List.flatMap_cons, utf8EncodeChar_eq]
    exact .nil
  | rel hlt => exact utf8EncodeChar_append_lt hlt _ _
  | cons _ ih => exact List.append_left_lt ih

/-- A reading of characters that keeps the order also reflects it. -/
theorem lt_iff_of_forall_lt {β : Type} [LT β] [Std.Asymm (fun x y : β => x < y)]
    {f : List Char → List β} (hmono : ∀ {cs ds}, cs < ds → f cs < f ds) {s t : String} :
    f s.toList < f t.toList ↔ s < t := by
  rw [String.lt_iff]
  constructor
  · intro h
    obtain hlt | heq | hgt := lt_trichotomy s.toList t.toList
    · exact hlt
    · rw [heq] at h
      exact absurd h (List.lt_irrefl _)
    · exact absurd h (List.lt_asymm (hmono hgt))
  · exact hmono

/-- Texts are in order exactly when their bytes are. -/
theorem bytes_lt_iff {s t : String} : bytes s < bytes t ↔ s < t := by
  rw [bytes_eq, bytes_eq]
  exact lt_iff_of_forall_lt flatMap_utf8EncodeChar_lt

/-- Texts are in order exactly when their scalar values are. -/
theorem scalars_lt_iff {s t : String} : scalars s < scalars t ↔ s < t := by
  have hchar (c d : Char) (h : c < d) : c.toNat < d.toNat := h
  exact lt_iff_of_forall_lt (List.map_lt hchar)

end Text

end ScriptMachine
