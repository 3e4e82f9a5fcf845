/-!
# Documents

The tree-shaped data in which values and events are exchanged with other programs.
-/

namespace ScriptMachine

/-- A document: a scalar, a list, or an object with named fields in order. -/
inductive Document where
  | null
  | bool (b : Bool)
  | int (n : Int)
  /-- A number with a fractional part, `mantissa` over ten to the power `places`. -/
  | decimal (mantissa : Int) (places : Nat)
  | text (s : String)
  | list (items : List Document)
  | object (fields : List (String × Document))
  deriving Inhabited

end ScriptMachine
