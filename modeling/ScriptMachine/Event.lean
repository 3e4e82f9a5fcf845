import ScriptMachine.Document
import ScriptMachine.Opcode

/-!
# Events

What an interpreter reports while it works, and the record each event is shown as.
-/

namespace ScriptMachine

/-- How much an event matters. -/
inductive Level where
  | trace
  | debug
  | info
  | warn
  deriving DecidableEq

/-- The word for a level in records. -/
def Level.name : Level → String
  | .trace => "TRACE"
  | .debug => "DEBUG"
  | .info => "INFO"
  | .warn => "WARN"

/-- Something an interpreter reports. -/
inductive Event where
  /-- The host asks for a procedure by name. -/
  | called (name : String) (argc : Nat)
  /-- The name was found. -/
  | resolved (offset : Nat)
  /-- The procedure returned a value. -/
  | returned (result : Value) (steps : UInt64)
  /-- The word at `pc` is not an instruction. -/
  | unimplemented (word : UInt16) (pc : Nat)
  /-- The instruction at `pc` is not executed because of the step limit. -/
  | stepLimitReached (pc : Nat) (limit : UInt64)
  /-- The instruction at `pc` is about to be executed on stacks of the given sizes. -/
  | executing (pc : Nat) (op : Opcode) (data ret : Nat)
  deriving DecidableEq

/-- An event as it is shown. -/
structure Event.Record where
  level : Level
  /-- The span that the event opens. -/
  span : Option String := none
  message : Option String := none
  fields : List (String × Document)

namespace Event

/-- The level of an event. -/
def level : Event → Level
  | called .. => .info
  | resolved .. | returned .. => .debug
  | unimplemented .. | stepLimitReached .. => .warn
  | executing .. => .trace

/-- The record of an event. -/
def record (event : Event) : Record :=
  match event with
  | called name argc =>
    { level := event.level, span := some "call"
      fields := [("name", .text name), ("argc", .int argc)] }
  | resolved offset =>
    { level := event.level, message := some "calling procedure"
      fields := [("offset", .int offset)] }
  | returned result steps =>
    { level := event.level, message := some "procedure returned"
      fields := [("result", .text result.render), ("steps", .int steps.toNat)] }
  | unimplemented word pc =>
    { level := event.level, message := some s!"unimplemented opcode 0x{hex 4 word.toNat}"
      fields := [("pc", .int pc)] }
  | stepLimitReached pc limit =>
    { level := event.level, message := some "step limit reached"
      fields := [("pc", .int pc), ("limit", .int limit.toNat)] }
  | executing pc op data ret =>
    { level := event.level, message := some "exec"
      fields := [("pc", .int pc), ("op", .text op.mnemonic), ("data", .int data),
        ("ret", .int ret)] }

end Event

end ScriptMachine
