import ScriptMachine.Operator

/-!
# The instruction set

Thirty-five opcodes. Each has a 16-bit word, a mnemonic, and a length: two of them carry a 32-bit
immediate after the word. The words are given once, by `Opcode.word`; decoding searches the table
`Opcode.all`, and `Opcode.ofWord?_eq_some_iff` says that it inverts `Opcode.word` exactly.
-/

namespace ScriptMachine

/-- The registers that variable slots are counted from. -/
inductive BaseRegister where
  | global
  | frame
  deriving DecidableEq

/-- The opcodes of the machine. -/
inductive Opcode where
  /-- Begin a critical section; no effect. -/
  | startCritical
  /-- End a critical section; no effect. -/
  | criticalDone
  /-- Push the immediate as an integer. -/
  | pushD
  /-- Push the string whose index is the immediate. -/
  | pushString
  /-- Move the top of the data stack to the return stack. -/
  | dToA
  /-- Move the top of the return stack to the data stack. -/
  | aToD
  /-- Drop the top of the data stack. -/
  | pop
  /-- Exchange the top two entries of the return stack. -/
  | swapA
  /-- Open a frame below the popped number of arguments, saving the frame base. -/
  | pushBase
  /-- Restore the saved frame base. -/
  | popBase
  /-- Discard the data stack below the frame base. -/
  | popToBase
  /-- Put the global base at the top of the data stack. -/
  | setGlobal
  /-- Store a value into a variable slot. -/
  | store (base : BaseRegister)
  /-- Push the value of a variable slot. -/
  | fetch (base : BaseRegister)
  /-- Continue at the popped address. -/
  | jmp
  /-- Continue at the popped address when the popped condition is false. -/
  | branch
  /-- Continue at the procedure whose index is popped. -/
  | call
  /-- Continue at the address popped from the return stack; address zero returns to the host. -/
  | popReturn
  /-- Halt. -/
  | exitProg
  /-- Apply a binary operator to the two topmost values. -/
  | binary (op : BinaryOp)
  /-- Negate the topmost value. -/
  | negate
  deriving DecidableEq

namespace Opcode

/-- Every opcode once, grouped by purpose. -/
def all : List Opcode :=
  [startCritical, criticalDone,
    pushD, pushString, dToA, aToD, pop, swapA,
    pushBase, popBase, popToBase, setGlobal,
    store .global, fetch .global, store .frame, fetch .frame,
    jmp, branch, call, popReturn, exitProg,
    binary .equal, binary .notEqual, binary .lessEqual, binary .greaterEqual,
    binary .less, binary .greater,
    binary .add, binary .sub, binary .mul, binary .div, binary .mod, negate,
    binary .and, binary .or]

/-- The instruction word of an opcode. -/
def word : Opcode → UInt16
  | startCritical => 0x8002
  | criticalDone => 0x8003
  | pushD => 0xC001
  | pushString => 0x9001
  | dToA => 0x800D
  | aToD => 0x800C
  | pop => 0x801A
  | swapA => 0x8019
  | pushBase => 0x802B
  | popBase => 0x8029
  | popToBase => 0x802A
  | setGlobal => 0x802C
  | store .global => 0x8013
  | fetch .global => 0x8012
  | store .frame => 0x8031
  | fetch .frame => 0x8032
  | jmp => 0x8004
  | branch => 0x802F
  | call => 0x8005
  | popReturn => 0x801C
  | exitProg => 0x8010
  | binary .equal => 0x8033
  | binary .notEqual => 0x8034
  | binary .lessEqual => 0x8035
  | binary .greaterEqual => 0x8036
  | binary .less => 0x8037
  | binary .greater => 0x8038
  | binary .add => 0x8039
  | binary .sub => 0x803A
  | binary .mul => 0x803B
  | binary .div => 0x803C
  | binary .mod => 0x803D
  | negate => 0x8046
  | binary .and => 0x803E
  | binary .or => 0x803F

/-- The mnemonic of an opcode. -/
def mnemonic : Opcode → String
  | startCritical => "start_critical"
  | criticalDone => "critical_done"
  | pushD => "push_d"
  | pushString => "push_string"
  | dToA => "d_to_a"
  | aToD => "a_to_d"
  | pop => "pop"
  | swapA => "swapa"
  | pushBase => "push_base"
  | popBase => "pop_base"
  | popToBase => "pop_to_base"
  | setGlobal => "set_global"
  | store .global => "store_global"
  | fetch .global => "fetch_global"
  | store .frame => "store"
  | fetch .frame => "fetch"
  | jmp => "jmp"
  | branch => "if"
  | call => "call"
  | popReturn => "pop_return"
  | exitProg => "exit_prog"
  | binary .equal => "equal"
  | binary .notEqual => "not_equal"
  | binary .lessEqual => "less_equal"
  | binary .greaterEqual => "greater_equal"
  | binary .less => "less"
  | binary .greater => "greater"
  | binary .add => "add"
  | binary .sub => "sub"
  | binary .mul => "mul"
  | binary .div => "div"
  | binary .mod => "mod"
  | negate => "negate"
  | binary .and => "and"
  | binary .or => "or"

/-- Whether a 32-bit immediate follows the word. -/
def hasImmediate : Opcode → Bool
  | pushD | pushString => true
  | _ => false

/-- The length in bytes of the word and its immediate. -/
def encodedLength (op : Opcode) : Nat :=
  if op.hasImmediate then 6 else 2

/-- The opcode with the given word, if there is one. -/
def ofWord? (w : UInt16) : Option Opcode :=
  all.find? (·.word == w)

/-- The opcode with the given mnemonic, if there is one. -/
def ofMnemonic? (name : String) : Option Opcode :=
  all.find? (·.mnemonic == name)

/-- The list of the opcodes has all of them. -/
theorem mem_all (op : Opcode) : op ∈ all := by
  rcases op with _ | _ | _ | _ | _ | _ | _ | _ | _ | _ | _ | _ | base | base | _ | _ | _ | _ | _ |
    op | _ <;> first | decide | (cases base <;> decide) | (cases op <;> decide)

/-- Decoding the word of an opcode gives that opcode: the words are distinct. -/
@[simp] theorem ofWord?_word (op : Opcode) : ofWord? op.word = some op := by
  have table : ∀ op ∈ all, ofWord? op.word = some op := by decide
  exact table op (mem_all op)

/-- A word decodes to an opcode exactly when it is that opcode's word. -/
theorem ofWord?_eq_some_iff {w : UInt16} {op : Opcode} : ofWord? w = some op ↔ op.word = w := by
  constructor
  · intro h
    simpa using List.find?_some h
  · rintro rfl
    exact ofWord?_word op

end Opcode

end ScriptMachine
