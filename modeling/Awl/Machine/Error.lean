import Awl.Fault
import Awl.Machine.Instruction

/-!
# Errors of code generation

What can go wrong between a checked unit and its finished program. A unit that passed the checker
can only exceed a limit of the machine.
-/

namespace Awl.Machine

/-- What the tables of a unit should say about a node, and do not. -/
inductive Missing where
  | enumeration
  | classType
  | memberScope
  | callTarget
  | methodCallTarget
  | frameScope
  | bindingScope
  | storageOffset
  | fieldOffset
  | receiver
  | thread
  deriving DecidableEq, Repr

def Missing.text : Missing → String
  | .enumeration => "enum"
  | .classType => "class"
  | .memberScope => "class scope"
  | .callTarget => "call target"
  | .methodCallTarget => "method call target"
  | .frameScope => "frame scope"
  | .bindingScope => "scope"
  | .storageOffset => "storage offset"
  | .fieldOffset => "field offset"
  | .receiver => "receiver"
  | .thread => "thread"

/-- Operands of a lock operation that are not in shared memory. -/
inductive Unshared where
  | localVariable
  | computedValue
  deriving DecidableEq, Repr

def Unshared.text : Unshared → String
  | .localVariable => "a local variable"
  | .computedValue => "a computed value"

inductive CodeError where
  | registersExhausted
  | doubleFree (register : Register)
  | labelRebound (name : String)
  | unresolvedLabel (name : String)
  | operandMismatch (opcode : OpCode) (found : List OperandKind)
  | sharedMemoryExhausted (required available : Nat)
  | missing (what : Missing)
  | notAddressable (what : Unshared)
  | nextOutsideSwitch
  | fault (f : Fault)
  deriving DecidableEq, Repr

/-- Kinds of operands in a message. -/
def OperandKind.listText (kinds : List OperandKind) : String :=
  ", ".intercalate (kinds.map OperandKind.text)

/-- The text of an error. A fault has none. -/
def CodeError.message : CodeError → String
  | .registersExhausted => "expression needs more registers than the machine has"
  | .doubleFree r => "register " ++ r.text ++ " was freed twice"
  | .labelRebound name => "label `" ++ name ++ "` is already bound"
  | .unresolvedLabel name => "label `" ++ name ++ "` was never bound"
  | .operandMismatch op found =>
    op.text ++ " takes operands (" ++ OperandKind.listText op.operands ++ ") but was given ("
      ++ OperandKind.listText found ++ ")"
  | .sharedMemoryExhausted required available =>
    "static data needs " ++ toString required ++ " words of shared memory but only "
      ++ toString available ++ " exist"
  | .missing what =>
    "checker left no " ++ what.text ++ " annotation for a node the generator needs"
  | .notAddressable what => what.text ++ " has no shared memory address"
  | .nextOutsideSwitch => "`next` outside of a switch case"
  | .fault _ => ""

end Awl.Machine
