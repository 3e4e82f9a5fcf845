import ScriptMachine.Assembler
import ScriptMachine.Interpreter
import ScriptMachine.Listing
import ScriptMachine.Value.Tagged
import ScriptMachine.Proofs.Stepping
import ScriptMachine.Proofs.Runs
import ScriptMachine.Proofs.Calls
import ScriptMachine.Proofs.StepLimit
import ScriptMachine.Proofs.BalancedTraces
import ScriptMachine.Proofs.Listings
import ScriptMachine.Proofs.ListedRuns
import ScriptMachine.Proofs.Depths
import ScriptMachine.Proofs.DepthLimit
import ScriptMachine.Proofs.Bounds
import ScriptMachine.Proofs.Disassembly
import ScriptMachine.Proofs.AssemblySessions
import ScriptMachine.Proofs.Simulations
import ScriptMachine.Proofs.Resumption
import ScriptMachine.Proofs.CallHistories
import ScriptMachine.Proofs.NumericPrograms
import ScriptMachine.Proofs.ScriptExtension
import ScriptMachine.Proofs.Expressions
import ScriptMachine.Proofs.CallFailures
import ScriptMachine.Proofs.TypeSafety
import ScriptMachine.Proofs.Tracing
import ScriptMachine.Proofs.ReturnFrames
import ScriptMachine.Proofs.CatalogLogs
import ScriptMachine.Proofs.FailedSteps
import ScriptMachine.Proofs.Effects
import ScriptMachine.Proofs.CallFrames
import ScriptMachine.Proofs.VariableSlots
import ScriptMachine.Proofs.ListingText
import ScriptMachine.Proofs.BackPatching
import ScriptMachine.Proofs.TextOrder
import ScriptMachine.Proofs.Arithmetic
import ScriptMachine.Proofs.Comparisons
import ScriptMachine.Proofs.Transfers
import ScriptMachine.Proofs.ReadingBack
import ScriptMachine.Proofs.CursorSessions
