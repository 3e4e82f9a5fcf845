/-!
# Limits and diagnostics

What bounds an interpreter: how many instructions one run may execute, how deep each stack may
grow, and whether every instruction is reported.
-/

namespace ScriptMachine

/-- The configuration of an interpreter. The defaults suit ordinary scripts. -/
structure Config where
  /-- The most instructions in one run; `none` is no limit. -/
  maxSteps : Option UInt64 := some 1000000
  /-- The most entries of each stack. -/
  maxDepth : Nat := 65536
  /-- Whether each instruction is reported before it is executed. -/
  traceInstructions : Bool := false
  deriving DecidableEq

namespace Config

/-- The ordinary limits. -/
def standard : Config := {}

/-- The ordinary depth and no step limit. -/
def unlimited : Config where
  maxSteps := none

/-- Tight limits with every instruction reported. -/
def debug : Config where
  maxSteps := some 10000
  maxDepth := 4096
  traceInstructions := true

/-- How many steps a run is followed for. Under a step limit every run has ended by then. Without
one, a run is followed through the range of the 64-bit step counter. -/
def stepBudget (config : Config) : Nat :=
  match config.maxSteps with
  | some limit => limit.toNat + 1
  | none => UInt64.size

end Config

end ScriptMachine
