/-!
# Instructions

The instruction set of the Sprockell, a machine with several cores. Each core has a private memory
with a stack, and all of them share a second memory. `OpCode.operands` and `OpCode.required` say
which operands an instruction takes.
-/

namespace Awl.Machine

/-- The number of a label. -/
abbrev LabelId := Nat

/-- The number of an instruction, which is its position in the program. -/
abbrev InstructionId := Nat

inductive OpCode where
  /-- Puts a value into a register. -/
  | const
  /-- Combines two registers. With three operands the result goes to the right one. -/
  | compute
  /-- Reads private memory. -/
  | load
  /-- Writes private memory. -/
  | store
  /-- Jumps if a register is not zero. -/
  | branch
  | jump
  | push
  | pop
  /-- Asks for a word of shared memory, which `receive` takes. -/
  | read
  | receive
  /-- Writes shared memory. -/
  | write
  /-- Sets a word of shared memory if it is zero, and answers whether it was. -/
  | testAndSet
  | endProg
  | nop
  deriving DecidableEq, Repr

/-- All opcodes. -/
def OpCode.all : List OpCode :=
  [.const, .compute, .load, .store, .branch, .jump, .push, .pop, .read, .receive, .write,
    .testAndSet, .endProg, .nop]

def OpCode.text : OpCode → String
  | .const => "Const"
  | .compute => "Compute"
  | .load => "Load"
  | .store => "Store"
  | .branch => "Branch"
  | .jump => "Jump"
  | .push => "Push"
  | .pop => "Pop"
  | .read => "Read"
  | .receive => "Receive"
  | .write => "Write"
  | .testAndSet => "TestAndSet"
  | .endProg => "EndProg"
  | .nop => "Nop"

inductive Register where
  /-- Always zero. -/
  | zero
  /-- The number of the core. -/
  | sprId
  | a | b | c | d | e | f
  /-- Points at the word pushed last. -/
  | sp
  | pc
  deriving DecidableEq, Repr

/-- The register that points at the active frame. -/
def Register.arp : Register := .f

/-- All registers. -/
def Register.all : List Register := [.zero, .sprId, .a, .b, .c, .d, .e, .f, .sp, .pc]

def Register.text : Register → String
  | .zero => "reg0"
  | .sprId => "regSprID"
  | .a => "regA"
  | .b => "regB"
  | .c => "regC"
  | .d => "regD"
  | .e => "regE"
  | .f => "regF"
  | .sp => "regSP"
  | .pc => "regPC"

/-- What `compute` does with its operands. -/
inductive Operator where
  | add | sub | mul | div | mod
  | equal | notEqual | greater | less | greaterEqual | lessEqual
  | and | or | xor
  deriving DecidableEq, Repr

/-- All operators. -/
def Operator.all : List Operator :=
  [.add, .sub, .mul, .div, .mod, .equal, .notEqual, .greater, .less, .greaterEqual, .lessEqual,
    .and, .or, .xor]

def Operator.text : Operator → String
  | .add => "Add"
  | .sub => "Sub"
  | .mul => "Mul"
  | .div => "Div"
  | .mod => "Mod"
  | .equal => "Equal"
  | .notEqual => "NEq"
  | .greater => "Gt"
  | .less => "Lt"
  | .greaterEqual => "GtE"
  | .lessEqual => "LtE"
  | .and => "And"
  | .or => "Or"
  | .xor => "Xor"

inductive Immediate where
  | value (v : Int)
  /-- The position of the instruction that the label names. -/
  | label (l : LabelId)
  deriving DecidableEq, Repr

inductive Address where
  | direct (address : Nat)
  /-- The address is in a register. -/
  | indirect (register : Register)
  deriving DecidableEq, Repr

/-- Where a jump or a branch goes. -/
inductive Target where
  | label (l : LabelId)
  | absolute (position : Nat)
  /-- The position is in a register. -/
  | indirect (register : Register)
  deriving DecidableEq, Repr

inductive OperandKind where
  | register | immediate | address | target | operator
  deriving DecidableEq, Repr

def OperandKind.text : OperandKind → String
  | .register => "Register"
  | .immediate => "Immediate"
  | .address => "Address"
  | .target => "Target"
  | .operator => "Operator"

inductive Operand where
  | register (r : Register)
  | immediate (i : Immediate)
  | address (a : Address)
  | target (t : Target)
  | operator (o : Operator)
  deriving DecidableEq, Repr

def Operand.kind : Operand → OperandKind
  | .register _ => .register
  | .immediate _ => .immediate
  | .address _ => .address
  | .target _ => .target
  | .operator _ => .operator

/-- The label that an operand refers to. -/
def Operand.label? : Operand → Option LabelId
  | .immediate (.label l) | .target (.label l) => some l
  | _ => none

/-- The kinds of the operands that an opcode takes. -/
def OpCode.operands : OpCode → List OperandKind
  | .const => [.immediate, .register]
  | .compute => [.operator, .register, .register, .register]
  | .load => [.address, .register]
  | .store | .write => [.register, .address]
  | .branch => [.register, .target]
  | .jump => [.target]
  | .push | .pop | .receive => [.register]
  | .read | .testAndSet => [.address]
  | .endProg | .nop => []

/-- The number of leading operands that must be present. -/
def OpCode.required : OpCode → Nat
  | .compute => 3
  | op => op.operands.length

/-- Whether an opcode takes operands of these kinds. -/
def OpCode.takes (op : OpCode) (kinds : List OperandKind) : Bool :=
  op.required ≤ kinds.length && kinds.isPrefixOf op.operands

structure Instruction where
  opcode : OpCode
  operands : List Operand
  comment : Option String := none
  deriving DecidableEq, Repr

/-- The labels that an instruction refers to, in operand order. -/
def Instruction.labels (i : Instruction) : List LabelId := i.operands.filterMap Operand.label?

end Awl.Machine
