import ScriptMachine.Fault

/-!
# Operators on values

Thirteen binary operators and negation. Arithmetic is that of 32-bit words and wraps around;
division truncates toward zero. A sum with text on either side joins the display forms. The other
arithmetic operators refuse text, and the ordering operators refuse text against a number.
-/

namespace ScriptMachine

/-- The integer reading of a value, or the complaint that a number was expected. -/
def Value.toNumber (v : Value) : Except Fault Int32 :=
  match v.asInt? with
  | some n => .ok n
  | none => .error (.typeMismatch .number v.kind)

namespace Value

/-- Equality as scripts see it: numbers by their integer reading, texts by their characters, and a
number never equals a text. -/
def looselyEqual : Value → Value → Bool
  | string s, string t => s == t
  | string _, _ => false
  | _, string _ => false
  | a, b => a.asInt? == b.asInt?

/-- The order of two numbers or of two texts. Texts are ordered by code points, which is also the
order of their UTF-8 bytes. -/
def order : Value → Value → Except Fault Ordering
  | string s, string t => .ok (compareOfLessAndEq s t)
  | string _, other => .error (.typeMismatch .string other.kind)
  | other, string _ => .error (.typeMismatch .string other.kind)
  | a, b => do
    let x ← a.toNumber
    let y ← b.toNumber
    return compareOfLessAndEq x y

/-- Arithmetic on the integer readings of two numbers. -/
def arithmetic (f : Int32 → Int32 → Except Fault Int32) (a b : Value) : Except Fault Value := do
  let x ← a.toNumber
  let y ← b.toNumber
  return int (← f x y)

/-- The sum of two numbers, or the joined display forms when either operand is text. -/
def add (a b : Value) : Except Fault Value :=
  if a.isString || b.isString then .ok (string (a.render ++ b.render))
  else arithmetic (fun x y => .ok (x + y)) a b

/-- The word negation of a number. -/
def negate (a : Value) : Except Fault Value := do
  return int (-(← a.toNumber))

end Value

/-- The operators that take two operands. -/
inductive BinaryOp where
  | equal
  | notEqual
  | lessEqual
  | greaterEqual
  | less
  | greater
  | add
  | sub
  | mul
  | div
  | mod
  | and
  | or
  deriving DecidableEq

/-- The result of an operator on its left and right operands. The remainder has the sign of the
left operand. -/
def BinaryOp.apply : BinaryOp → Value → Value → Except Fault Value
  | equal, a, b => .ok (.bool (a.looselyEqual b))
  | notEqual, a, b => .ok (.bool (!a.looselyEqual b))
  | lessEqual, a, b => do return .bool (← a.order b).isLE
  | greaterEqual, a, b => do return .bool (← a.order b).isGE
  | less, a, b => do return .bool (← a.order b).isLT
  | greater, a, b => do return .bool (← a.order b).isGT
  | add, a, b => a.add b
  | sub, a, b => a.arithmetic (fun x y => .ok (x - y)) b
  | mul, a, b => a.arithmetic (fun x y => .ok (x * y)) b
  | div, a, b => a.arithmetic (fun x y => if y = 0 then .error .divisionByZero else .ok (x / y)) b
  | mod, a, b => a.arithmetic (fun x y => if y = 0 then .error .divisionByZero else .ok (x % y)) b
  | and, a, b => .ok (.bool (a.isTruthy && b.isTruthy))
  | or, a, b => .ok (.bool (a.isTruthy || b.isTruthy))

end ScriptMachine
