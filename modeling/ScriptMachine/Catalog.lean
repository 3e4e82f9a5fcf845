import Std.Data.HashMap

/-!
# Procedures and strings of a script

A catalog lists the procedures of a script in the order they were added, finds them by index and
by name, and holds the script's strings under arbitrary 32-bit indices. When a name or a string
index is added twice, the later addition is the one found.
-/

namespace ScriptMachine

/-- A named entry point into the code. -/
structure Procedure where
  name : String
  offset : Nat
  deriving DecidableEq

/-- The procedures and strings a script may refer to. -/
structure Catalog where
  /-- All procedures, in the order of their addition. -/
  procedures : Array Procedure := #[]
  /-- For each name, the table index of its latest procedure. -/
  positions : Std.HashMap String Nat := ∅
  /-- The strings by index. -/
  strings : Std.HashMap Int32 String := ∅

namespace Catalog

/-- The catalog without procedures and strings. -/
def empty : Catalog := {}

/-- Append a procedure to the table, and give its table index. -/
def addProcedure (catalog : Catalog) (name : String) (offset : Nat) : Nat × Catalog :=
  let index := catalog.procedures.size
  (index,
    { catalog with
      procedures := catalog.procedures.push ⟨name, offset⟩
      positions := catalog.positions.insert name index })

/-- The catalog with a procedure appended to the table. -/
def withProcedure (catalog : Catalog) (name : String) (offset : Nat) : Catalog :=
  (catalog.addProcedure name offset).2

section

variable (catalog : Catalog) (name : String) (offset : Nat)

/-- An appended procedure is given the first table index that is free. -/
theorem addProcedure_eq : catalog.addProcedure name offset =
    (catalog.procedures.size, catalog.withProcedure name offset) := rfl

/-- An appended procedure comes last in the table. -/
@[simp] theorem procedures_withProcedure :
    (catalog.withProcedure name offset).procedures = catalog.procedures.push ⟨name, offset⟩ := rfl

/-- The name of an appended procedure has its table index. -/
@[simp] theorem positions_withProcedure : (catalog.withProcedure name offset).positions =
    catalog.positions.insert name catalog.procedures.size := rfl

/-- An appended procedure leaves the strings alone. -/
@[simp] theorem strings_withProcedure :
    (catalog.withProcedure name offset).strings = catalog.strings := rfl

end

/-- Put a string at an index. -/
def addString (catalog : Catalog) (index : Int32) (text : String) : Catalog :=
  { catalog with strings := catalog.strings.insert index text }

/-- The latest procedure of a name. -/
def procedure? (catalog : Catalog) (name : String) : Option Procedure := do
  let position ← catalog.positions[name]?
  catalog.procedures[position]?

/-- The procedure at a table index; a negative index has none. -/
def procedureAt? (catalog : Catalog) (index : Int32) : Option Procedure :=
  if index < 0 then none else catalog.procedures[index.toInt.toNat]?

/-- The string at an index. -/
def string? (catalog : Catalog) (index : Int32) : Option String :=
  catalog.strings[index]?

/-- How many indices have a string. -/
def stringCount (catalog : Catalog) : Nat :=
  catalog.strings.size

end Catalog

end ScriptMachine
