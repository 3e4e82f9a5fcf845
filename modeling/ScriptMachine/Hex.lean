/-!
# Hexadecimal numerals

Addresses and instruction words are shown in upper-case hexadecimal, padded with zeros to a
least width.
-/

namespace ScriptMachine

/-- Write `n` in upper-case hexadecimal with at least `width` digits. -/
def hex (width n : Nat) : String :=
  String.ofList (((Nat.toDigits 16 n).map Char.toUpper).leftpad width '0')

end ScriptMachine
