/-!
# Little-endian numbers

Words and immediate operands lie in code with their least significant byte first.
-/

namespace ScriptMachine.LittleEndian

/-- The number whose base-256 digits, least first, are the given bytes. -/
def toNat : List UInt8 → Nat
  | [] => 0
  | byte :: rest => byte.toNat + 256 * toNat rest

/-- The low `width` base-256 digits of a number, least first. -/
def ofNat : (width : Nat) → Nat → List UInt8
  | 0, _ => []
  | width + 1, n => UInt8.ofNat n :: ofNat width (n / 256)

/-- The two bytes of a 16-bit word. -/
def ofWord (word : UInt16) : List UInt8 :=
  ofNat 2 word.toNat

/-- The 16-bit word of two bytes. -/
def toWord (bytes : List UInt8) : UInt16 :=
  UInt16.ofNat (toNat bytes)

/-- The four bytes of a 32-bit integer in two's complement. -/
def ofInt (n : Int32) : List UInt8 :=
  ofNat 4 n.toUInt32.toNat

/-- The 32-bit integer that four bytes hold in two's complement. -/
def toInt (bytes : List UInt8) : Int32 :=
  (UInt32.ofNat (toNat bytes)).toInt32

end ScriptMachine.LittleEndian
