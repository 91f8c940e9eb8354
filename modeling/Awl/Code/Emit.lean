import Awl.Code.Layout
import Awl.Code.Registers
import Awl.Machine.Program
import Awl.Typing.Basic

/-!
# Emission

The generator walks a checked unit once and adds instructions to a program. It reads the tables of
the checker and writes two things: the program, and which registers are in use.
-/

namespace Awl.Code

open Machine

structure Options where
  /-- The number of words of shared memory. -/
  sharedMemory : Nat := 256
  /-- Whether instructions carry comments. -/
  comments : Bool := true
  deriving DecidableEq, Repr

/-- What the generator knows before it emits any code. -/
structure Env where
  tables : Tables
  options : Options
  layout : StaticLayout
  /-- The thread functions in core order. -/
  threads : List FunctionId
  /-- The entry label of each function, by its number. -/
  entries : Slots LabelId
  /-- The entry labels of the routines that initialize fields, by class name. -/
  initializers : List (String × LabelId)
  /-- The entry label of the allocator. -/
  allocator : LabelId

structure EmitState where
  program : Program
  registers : Registers := {}

abbrev Emit := ReaderT Env (StateT EmitState (Except CodeError))

/-- Where code is generated. -/
structure Context where
  /-- The scope of the function, or none on the main core. -/
  function : Option ScopeId := none
  /-- The block of the switch that `next` goes on with. -/
  next : Option LabelId := none

namespace Emit

/-- The value, or its error. -/
def orThrow {α : Type} : Except CodeError α → Emit α
  | .ok a => pure a
  | .error e => throw e

/-- Reads a table. -/
def query {α : Type} (x : Tables → Except Fault α) : Emit α := do
  orThrow (orFault (x (← read).tables))

/-- The value, or an error that says what the tables lack. -/
def expect {α : Type} (what : Missing) : Option α → Emit α
  | some a => pure a
  | none => throw (.missing what)

/-! ## Registers -/

def allocate : Emit Register := do
  let s ← get
  let (r, registers) ← orThrow s.registers.allocate
  set { s with registers }
  return r

def release (r : Register) : Emit Unit := do
  let s ← get
  set { s with registers := ← orThrow (s.registers.release r) }

/-- The registers that hold values, the oldest one first. -/
def inUse : Emit (List Register) := return (← get).registers.inUse

/-- Routines start with all registers free. -/
def requireAllFree : Emit Unit := do
  if !(← get).registers.allFree then throw (.fault .registersHeld)

/-! ## Labels and comments -/

/-- The position of the next instruction. -/
def here : Emit InstructionId := return (← get).program.nextInstruction

def createLabel (name : String) : Emit LabelId :=
  modifyGet fun s =>
    let (l, program) := s.program.createLabel name
    (l, { s with program })

def bind (l : LabelId) (target : InstructionId) : Emit Unit := do
  let s ← get
  set { s with program := ← orThrow (s.program.bind l target) }

/-- Describes an instruction. The first description stays, so that an instruction is named after the
innermost construct that starts with it. -/
def comment (id : InstructionId) (text : String) : Emit Unit := do
  if (← read).options.comments then
    let s ← get
    if (← orThrow (s.program.instruction id)).comment.isNone then
      set { s with program := ← orThrow (s.program.setComment id text) }

/-! ## Instructions -/

/-- Adds an instruction. -/
def instruction (opcode : OpCode) (operands : List Operand) : Emit InstructionId := do
  let i ← orThrow (Instruction.make opcode operands)
  modifyGet fun s =>
    let (id, program) := s.program.push i
    (id, { s with program })

def constant (value : Int) (r : Register) : Emit Unit :=
  discard <| instruction .const [.immediate (.value value), .register r]

def constantLabel (l : LabelId) (r : Register) : Emit Unit :=
  discard <| instruction .const [.immediate (.label l), .register r]

def compute (op : Operator) (left right result : Register) : Emit Unit :=
  discard <| instruction .compute [.operator op, .register left, .register right, .register result]

def load (a : Address) (r : Register) : Emit Unit :=
  discard <| instruction .load [.address a, .register r]

def store (r : Register) (a : Address) : Emit Unit :=
  discard <| instruction .store [.register r, .address a]

def push (r : Register) : Emit Unit := discard <| instruction .push [.register r]

def pop (r : Register) : Emit Unit := discard <| instruction .pop [.register r]

def readShared (a : Address) : Emit Unit := discard <| instruction .read [.address a]

def receive (r : Register) : Emit Unit := discard <| instruction .receive [.register r]

def writeShared (r : Register) (a : Address) : Emit Unit :=
  discard <| instruction .write [.register r, .address a]

def testAndSet (a : Address) : Emit Unit := discard <| instruction .testAndSet [.address a]

def branch (r : Register) (l : LabelId) : Emit Unit :=
  discard <| instruction .branch [.register r, .target (.label l)]

def jump (t : Machine.Target) : Emit Unit := discard <| instruction .jump [.target t]

def endProgram : Emit Unit := discard <| instruction .endProg []

def nop : Emit Unit := discard <| instruction .nop []

/-- Adds an instruction without effect that the label names. -/
def anchor (l : LabelId) : Emit Unit := do
  let id ← here
  nop
  bind l id

/-- Pushes a number of zeros. -/
def pushZeros : Nat → Emit Unit
  | 0 => pure ()
  | n + 1 => do
    push .zero
    pushZeros n

/-- A fresh register with a value. -/
def constantRegister (value : Int) : Emit Register := do
  let r ← allocate
  constant value r
  return r

/-! ## Queries -/

/-- The scope of the parameters and variables of a function. -/
def frameScope (f : FunctionId) : Emit ScopeId := do
  expect .frameScope (← query (·.functions.get f)).scope

def entry (f : FunctionId) : Emit LabelId := do orThrow (orFault ((← read).entries.fetch f))

/-- The name of the entry label of a function. -/
def entryName (f : FunctionId) : Emit String := do
  return (← orThrow ((← get).program.label (← entry f))).name

/-- The scope of the members of a class. -/
def memberScope (className : String) : Emit ScopeId := do
  let types := (← read).tables.types
  let c ← expect .classType (types.class? className)
  expect .memberScope (types.memberScope? c)

end Emit

end Awl.Code
