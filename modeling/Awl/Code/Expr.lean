import Awl.Code.Call
import Awl.Text.Quoted

/-!
# Code of expressions

`Emit.expr` evaluates an expression into a fresh register. Arrays, strings and objects are blocks of
the heap: element `i` is at `base + i`, and a field is at `base` plus its offset, since every value
takes one word.
-/

namespace Awl.Code

open Machine

/-- The storage of a variable, a field or an element. -/
inductive Place where
  /-- A slot of the active frame. -/
  | frame (offset : Nat)
  /-- A fixed word of shared memory. -/
  | global (address : Nat)
  /-- A word of shared memory whose address is in a register that belongs to the place. -/
  | shared (address : Register)
  deriving DecidableEq, Repr

/-- The address of a place in shared memory. -/
def Place.address : Place → Except CodeError Address
  | .frame _ => .error (.notAddressable .localVariable)
  | .global a => .ok (.direct a)
  | .shared r => .ok (.indirect r)

/-- The machine operator of a binary operator. -/
def binaryOperator : BinaryOp → Operator
  | .add => .add
  | .subtract => .sub
  | .multiply => .mul
  | .divide => .div
  | .modulus => .mod
  | .equals => .equal
  | .notEquals => .notEqual
  | .lessThan => .less
  | .lessThanOrEqualTo => .lessEqual
  | .greaterThan => .greater
  | .greaterThanOrEqualTo => .greaterEqual
  | .and => .and
  | .or => .or
  | .xor => .xor

/-- The machine operator that gives the result of a unary operator when its left operand is zero. -/
def unaryOperator : UnaryOp → Operator
  | .not => .equal
  | .negate => .sub

namespace Emit

/-! ## Places -/

/-- The address of the slot at `offset` of the active frame, in a fresh register. -/
def slotAddress (offset : Nat) : Emit Register := do
  let r ← allocate
  constant (offset + 1) r
  compute .add .arp r r
  return r

/-- Reads a place, which is used up. -/
def loadPlace : Place → Emit Register
  | .frame offset => do
    let r ← slotAddress offset
    load (.indirect r) r
    return r
  | .global address => do
    let r ← allocate
    readShared (.direct address)
    receive r
    return r
  | .shared r => do
    readShared (.indirect r)
    receive r
    return r

/-- Writes a place, which is used up. The value stays in its register. -/
def storePlace (value : Register) : Place → Emit Unit
  | .frame offset => do
    let r ← slotAddress offset
    store value (.indirect r)
    release r
  | .global address => writeShared value (.direct address)
  | .shared r => do
    writeShared value (.indirect r)
    release r

/-- The field at `offset` of the object in a register. -/
def fieldPlace (object : Register) (offset : Nat) : Emit Place := do
  if offset ≠ 0 then
    let r ← constantRegister offset
    compute .add object r object
    release r
  return .shared object

/-- The element of the array in one register at the index in another. -/
def elementPlace (array index : Register) : Emit Place := do
  compute .add array index index
  release array
  return .shared index

/-- The storage of the variable that a node declares or uses. In a method, the name of a field means
a field of the receiver. -/
def namePlace (context : Context) (node : NodeId) (name : String) : Emit Place := do
  let env ← read
  let scope ← expect .bindingScope (env.tables.annotations.scope? node)
  let offset ← expect .storageOffset (← query (·.scopes.offset? scope name))
  match ← query (·.scopes.kind scope) with
  | .global => return .global (env.layout.global offset)
  | .members =>
    let receiver ← match context.function with
      | some function => query (·.scopes.offset? function receiverName)
      | none => pure none
    let object ← loadPlace (.frame (← expect .receiver receiver))
    fieldPlace object offset
  | .function | .block => return .frame offset

/-- The offset of a field of the object that a node computes. -/
def fieldOffset (object : NodeId) (field : String) : Emit Nat := do
  let tables := (← read).tables
  let c := (tables.annotations.type? object).bind (·.class?)
  match c.bind tables.types.memberScope? with
  | none => throw (.missing .fieldOffset)
  | some scope => expect .fieldOffset (← query (·.scopes.offset? scope field))

/-! ## Heap values -/

/-- Writes a value to a word of a heap block. -/
def writeElement (block : Register) (index : Nat) (value : Register) : Emit Unit := do
  let address ← constantRegister index
  compute .add block address address
  writeShared value (.indirect address)
  release address

/-- Writes characters to a heap block, from an index on. -/
def writeChars (block : Register) (index : Nat) : List Char → Emit Unit
  | [] => pure ()
  | c :: cs => do
    let r ← constantRegister c.toNat
    writeElement block index r
    release r
    writeChars block (index + 1) cs

/-- A string is an array of characters with a zero at its end. -/
def string (s : String) : Emit Register := do
  let size ← constantRegister (s.length + 1)
  let first ← here
  let block ← alloc size
  comment first ("allocate " ++ Text.quoted s)
  writeChars block 0 s.toList
  writeElement block s.length .zero
  return block

def literal : Literal → Emit Register
  | .int v => constantRegister v.toInt
  | .bool b => constantRegister b.toNat
  | .char c => constantRegister c.toNat
  | .string s => string s

/-- The ordinal of a member of an enumeration. -/
def enumValue (enumeration member : String) : Emit Register := do
  let e ← expect .enumeration ((← read).tables.types.enum? enumeration)
  constantRegister (e.ordinal member)

/-- A new object with its fields initialized. Then the constructor that the node is bound to runs,
if there is one; `pushArguments` pushes its arguments after the object. -/
def newObject (node : NodeId) (className : String) (arguments : Nat) (pushArguments : Emit Unit) :
    Emit Register := do
  let scope ← memberScope className
  let words ← query (·.scopes.frameSize scope)
  let first ← here
  let object ← alloc (← constantRegister words)
  comment first ("new " ++ className)
  match (← read).initializers.lookup className with
  | some entry => initializeObject entry object
  | none => pure ()
  match (← read).tables.functions.lookup node with
  | some constructor => release (← callFunction constructor (arguments + 1) do
      pushArguments
      push object)
  | none => pure ()
  return object

/-! ## Expressions -/

mutual

/-- Evaluates an expression into a fresh register. Both operands of a binary operator are always
evaluated. -/
def expr (context : Context) (e : Expr) : Emit Register := do
  match e with
  | .literal _ l => literal l
  | .name n x => do
    let first ← here
    let r ← loadPlace (← namePlace context n.id x)
    comment first ("load " ++ x)
    return r
  | .enumValue _ x member => enumValue x member
  | .arrayLiteral _ es => do
    let block ← alloc (← constantRegister es.length)
    elements context block 0 es
    return block
  | .newArray _ _ length => do
    alloc (← expr context length)
  | .index _ a i => do
    let array ← expr context a
    let index ← expr context i
    loadPlace (← elementPlace array index)
  | .field _ o x => do
    let offset ← fieldOffset o.id x
    let object ← expr context o
    loadPlace (← fieldPlace object offset)
  | .call n name arguments => do
    let f ← expect .callTarget ((← read).tables.functions.lookup n.id)
    if (← query (·.functions.get f)).isThread then launch f name
    else callFunction f arguments.length (pushAll context arguments)
  | .methodCall n receiver _ arguments => do
    let f ← expect .methodCallTarget ((← read).tables.functions.lookup n.id)
    callFunction f (arguments.length + 1) do
      pushAll context arguments
      pushLast (← expr context receiver)
  | .new n c arguments => newObject n.id c arguments.length (pushAll context arguments)
  | .unary _ op operand => do
    let r ← expr context operand
    compute (unaryOperator op) .zero r r
    return r
  | .binary _ op l r => do
    let left ← expr context l
    let right ← expr context r
    compute (binaryOperator op) left right right
    release left
    return right

/-- Writes the values of expressions to a heap block, from an index on. -/
def elements (context : Context) (block : Register) (index : Nat) : List Expr → Emit Unit
  | [] => pure ()
  | e :: es => do
    let r ← expr context e
    writeElement block index r
    release r
    elements context block (index + 1) es

/-- Pushes the values of expressions, the last one first. -/
def pushAll (context : Context) : List Expr → Emit Unit
  | [] => pure ()
  | e :: es => do
    pushAll context es
    pushLast (← expr context e)

end

/-- The storage that an expression names. -/
def exprPlace (context : Context) : Expr → Emit Place
  | .name n x => namePlace context n.id x
  | .index _ a i => do
    let array ← expr context a
    let index ← expr context i
    elementPlace array index
  | .field _ o x => do
    let offset ← fieldOffset o.id x
    let object ← expr context o
    fieldPlace object offset
  | _ => throw (.notAddressable .computedValue)

/-- The storage that an assignment writes. -/
def targetPlace (context : Context) : Awl.Target → Emit Place
  | .name n x => namePlace context n.id x
  | .index _ a i => do
    let array ← expr context a
    let index ← expr context i
    elementPlace array index
  | .field _ o x => do
    let offset ← fieldOffset o.id x
    let object ← expr context o
    fieldPlace object offset

end Emit

end Awl.Code
