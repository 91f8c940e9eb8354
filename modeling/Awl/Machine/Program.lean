import Std.Data.TreeMap
import Awl.Machine.Error
import Awl.Slots

/-!
# Programs

A program is a list of instructions that refer to positions through labels. A label is bound to a
position once, before or after the instructions that use it. `Program.resolve` puts the position of
each label in its place.
-/

namespace Awl.Machine

/-- An instruction without a comment, if its opcode takes these operands. -/
def Instruction.make (opcode : OpCode) (operands : List Operand) : Except CodeError Instruction :=
  let kinds := operands.map Operand.kind
  if opcode.takes kinds then .ok { opcode, operands } else .error (.operandMismatch opcode kinds)

structure Label where
  name : String
  target : Option InstructionId := none
  deriving DecidableEq, Repr

structure Program where
  instructions : Slots Instruction := .empty
  labels : Slots Label := .empty
  /-- The number of cores that run the program. -/
  cores : Nat
  deriving DecidableEq, Repr

/-- Turns a fault into an error. -/
def orFault {α : Type} : Except Fault α → Except CodeError α
  | .ok a => .ok a
  | .error f => .error (.fault f)

namespace Program

/-- The number of instructions. -/
def size (p : Program) : Nat := p.instructions.size

/-- The id of the instruction that is added next. -/
def nextInstruction (p : Program) : InstructionId := p.instructions.nextId

def instruction (p : Program) (id : InstructionId) : Except CodeError Instruction :=
  orFault (p.instructions.fetch id)

/-- Adds an instruction. -/
def push (p : Program) (i : Instruction) : InstructionId × Program :=
  (p.nextInstruction, { p with instructions := p.instructions.push i })

def setComment (p : Program) (id : InstructionId) (comment : String) :
    Except CodeError Program := do
  let i ← p.instruction id
  return { p with instructions := ← orFault (p.instructions.replace id { i with comment }) }

/-- Adds a label without a position. Its number is part of its name, so that names are unique. -/
def createLabel (p : Program) (name : String) : LabelId × Program :=
  let id := p.labels.nextId
  (id, { p with labels := p.labels.push { name := name ++ "_" ++ toString id } })

def label (p : Program) (l : LabelId) : Except CodeError Label := orFault (p.labels.fetch l)

/-- Binds a label to a position, which need not exist yet. -/
def bind (p : Program) (l : LabelId) (target : InstructionId) : Except CodeError Program := do
  let entry ← p.label l
  if entry.target.isSome then throw (.labelRebound entry.name)
  return { p with labels := ← orFault (p.labels.replace l { entry with target }) }

/-- The position of a label. -/
def position (p : Program) (l : LabelId) : Except CodeError InstructionId := do
  let entry ← p.label l
  match entry.target with
  | some target => return target
  | none => throw (.unresolvedLabel entry.name)

end Program

/-- A program without references to labels. Their names are kept for listings. -/
structure ResolvedProgram where
  instructions : List Instruction
  /-- The names of the labels at each position, in the order of their creation. -/
  labels : Std.TreeMap Nat (List String) := {}
  cores : Nat

namespace Program

/-- A position as a value: a signed word of 32 bits. -/
def positionValue (position : InstructionId) : Int := (position : Int).bmod 4294967296

def resolveOperand (p : Program) : Operand → Except CodeError Operand
  | .immediate (.label l) => return .immediate (.value (positionValue (← p.position l)))
  | .target (.label l) => return .target (.absolute (← p.position l))
  | o => return o

def resolveInstruction (p : Program) (i : Instruction) : Except CodeError Instruction := do
  return { i with operands := ← i.operands.mapM p.resolveOperand }

/-- The names of the bound labels by position. -/
def labelNames (p : Program) : Std.TreeMap Nat (List String) :=
  p.labels.toList.foldl (fun names l =>
    match l.target with
    | some target => names.insert target (names.getD target [] ++ [l.name])
    | none => names) {}

/-- Replaces every label by its position. -/
def resolve (p : Program) : Except CodeError ResolvedProgram := do
  let instructions ← p.instructions.toList.mapM p.resolveInstruction
  return { instructions, labels := p.labelNames, cores := p.cores }

end Program

end Awl.Machine
