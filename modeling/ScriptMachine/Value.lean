/-!
# Dynamic values

A script computes with 32-bit signed integers, booleans and text. Integers and booleans are
both numbers: `true` reads as one and `false` as zero. Text has no integer reading.
-/

namespace ScriptMachine

/-- The kinds that faults speak of. A value has one of the first three; `number` is what an
operation asks for when an integer or a boolean will do. -/
inductive Kind where
  | int
  | bool
  | string
  | number
  deriving DecidableEq

/-- The word for a kind in messages. -/
def Kind.name : Kind → String
  | .int => "int"
  | .bool => "bool"
  | .string => "string"
  | .number => "number"

/-- A dynamic value. Equality is structural, so the integer one and `true` differ. -/
inductive Value where
  | int (n : Int32)
  | bool (b : Bool)
  | string (s : String)
  deriving DecidableEq

namespace Value

/-- The kind of a value; never `number`. -/
def kind : Value → Kind
  | int _ => .int
  | bool _ => .bool
  | string _ => .string

/-- A value counts as true when it is a nonzero integer, `true`, or a nonempty text. -/
def isTruthy : Value → Bool
  | int n => n != 0
  | bool b => b
  | string s => !s.isEmpty

/-- The integer reading of a number; text has none. -/
def asInt? : Value → Option Int32
  | int n => some n
  | bool b => some (if b then 1 else 0)
  | string _ => none

/-- The text of a text value. -/
def asString? : Value → Option String
  | string s => some s
  | _ => none

/-- Whether the value is text. -/
def isString (v : Value) : Bool :=
  v.asString?.isSome

/-- The display form: decimal digits, `true` or `false`, or the text itself. -/
def render : Value → String
  | int n => n.toInt.repr
  | bool b => if b then "true" else "false"
  | string s => s

end Value

end ScriptMachine
