import Awl.Proofs.Frames
import Awl.Proofs.Machine

/-!
# The meaning of statements

A big-step semantics of the statements that neither call nor allocate. Values are words. Shared
memory is a flat array of words that holds the global variables, the elements of arrays and the
fields of objects; a local variable is known by the scope that declares it and by its name.

`Expr.value` evaluates an expression, both operands of an operator and the left one first.
`Exec c part σ σ' o` says that a part of a routine ends in `σ'`: normally, with `next`, or by
returning.
-/

namespace Awl

open Machine Code

/-! ## Stores -/

/-- The contents of the variables and of the shared memory. -/
structure Store where
  locals : ScopeId → String → Int
  shared : Memory

/-- Where a value is stored. -/
inductive Location where
  /-- A parameter or variable of the running routine. -/
  | local (scope : ScopeId) (name : String)
  /-- A word of the shared memory. -/
  | word (address : Int)

namespace Store

def read (σ : Store) : Location → Int
  | .local scope name => σ.locals scope name
  | .word a => σ.shared a

def write (σ : Store) (l : Location) (v : Int) : Store :=
  match l with
  | .local scope name =>
    { σ with locals := fun s x => if s = scope ∧ x = name then v else σ.locals s x }
  | .word a => { σ with shared := σ.shared.write a v }

end Store

/-- The routine that a statement is part of: what is known about its names, where the global
variables are, and the scope of the parameters and variables, which the main code does not have. -/
structure Scene where
  tables : Tables
  layout : StaticLayout
  frame : Option ScopeId

namespace Scene

/-- The location of a name. In a method, the name of a field means a field of the receiver. -/
def locate (c : Scene) (σ : Store) (node : NodeId) (x : String) : Option Location := do
  let scope ← c.tables.annotations.scope? node
  let k ← (← (c.tables.scopes.offset? scope x).toOption)
  match ← (c.tables.scopes.kind scope).toOption with
  | .global => return .word (c.layout.global k)
  | .members => return .word (σ.locals (← c.frame) receiverName + k)
  | .function | .block => return .local scope x

/-- The offset of a field of the object that a node computes. -/
def fieldOffset (c : Scene) (object : NodeId) (x : String) : Option Nat := do
  let scope ← c.tables.types.memberScope? (← (← c.tables.annotations.type? object).class?)
  (← (c.tables.scopes.offset? scope x).toOption)

end Scene

/-! ## Expressions -/

def UnaryOp.apply : UnaryOp → Int → Int
  | .not, x => truth (x = 0)
  | .negate, x => -x

def BinaryOp.apply : BinaryOp → Int → Int → Option Int
  | .add, x, y => some (x + y)
  | .subtract, x, y => some (x - y)
  | .multiply, x, y => some (x * y)
  | .divide, x, y => if y = 0 then none else some (x.fdiv y)
  | .modulus, x, y => if y = 0 then none else some (x.fmod y)
  | .equals, x, y => some (truth (x = y))
  | .notEquals, x, y => some (truth (x ≠ y))
  | .lessThan, x, y => some (truth (x < y))
  | .lessThanOrEqualTo, x, y => some (truth (x ≤ y))
  | .greaterThan, x, y => some (truth (x > y))
  | .greaterThanOrEqualTo, x, y => some (truth (x ≥ y))
  | .and, x, y => some (x.land y)
  | .or, x, y => some (x.lor y)
  | .xor, x, y => some (x.xor y)

/-- The word that a literal stands for. A string is a block of the heap and has no word. -/
def Literal.word? : Literal → Option Int
  | .int v => some v.toInt
  | .bool b => some b.toNat
  | .char c => some c.toNat
  | .string _ => none

/-- The value of an expression, if it has one and neither calls nor allocates. -/
def Expr.value (c : Scene) (σ : Store) : Expr → Option Int
  | .literal _ l => l.word?
  | .name n x => do return σ.read (← c.locate σ n.id x)
  | .enumValue _ x member => do return (← c.tables.types.enum? x).ordinal member
  | .index _ a i => do
    let array ← a.value c σ
    let index ← i.value c σ
    return σ.shared (array + index)
  | .field _ o x => do
    let object ← o.value c σ
    return σ.shared (object + (← c.fieldOffset o.id x))
  | .unary _ op e => do return op.apply (← e.value c σ)
  | .binary _ op l r => do
    let left ← l.value c σ
    let right ← r.value c σ
    op.apply left right
  | .arrayLiteral .. | .newArray .. | .call .. | .methodCall .. | .new .. => none

/-- The location that an assignment writes. -/
def Target.location (c : Scene) (σ : Store) : Target → Option Location
  | .name n x => c.locate σ n.id x
  | .index _ a i => do
    let array ← a.value c σ
    let index ← i.value c σ
    return .word (array + index)
  | .field _ o x => do
    let object ← o.value c σ
    return .word (object + (← c.fieldOffset o.id x))

/-! ## Statements -/

/-- How a statement ends. -/
inductive Outcome where
  | normal
  /-- The following block of the enclosing switch is next. -/
  | next
  | returned (value : Option Int)

/-- What a routine consists of. -/
inductive Part where
  | stmt (s : Stmt)
  | optional (s : Option Stmt)
  | stmts (ss : List Stmt)
  | block (b : Block)
  /-- A loop that tests its condition before each pass, with a statement after its body. -/
  | loop (condition : Expr) (body : Block) (step : Option Stmt)
  /-- The cases of a switch that have not been tested, for a discriminant. -/
  | tests (discriminant : Int) (cases : List Case) (fallback : Option Block)
  /-- The bodies of a switch, from the first one on. -/
  | bodies (cases : List Case) (fallback : Option Block)

/-- The execution of a part of a routine. -/
inductive Exec (c : Scene) : Part → Store → Store → Outcome → Prop
  | declareNone {σ : Store} {n : Node} {d : Declaration} {l : Location} :
      d.initializer = none → c.locate σ d.node.id d.name = some l →
      Exec c (.stmt (.declaration n d)) σ (σ.write l 0) .normal
  | declareSome {σ : Store} {n : Node} {d : Declaration} {e : Expr} {l : Location} {v : Int} :
      d.initializer = some e → e.value c σ = some v → c.locate σ d.node.id d.name = some l →
      Exec c (.stmt (.declaration n d)) σ (σ.write l v) .normal
  | assign {σ : Store} {n : Node} {target : Target} {e : Expr} {l : Location} {v : Int} :
      target.location c σ = some l → e.value c σ = some v →
      Exec c (.stmt (.assignment n target e)) σ (σ.write l v) .normal
  | ifTrue {σ σ' : Store} {n : Node} {e : Expr} {b : Block} {b' : Option Block} {v : Int}
      {o : Outcome} : e.value c σ = some v → v ≠ 0 → Exec c (.block b) σ σ' o →
      Exec c (.stmt (.ifElse n e b b')) σ σ' o
  | ifFalse {σ σ' : Store} {n : Node} {e : Expr} {b b' : Block} {o : Outcome} :
      e.value c σ = some 0 → Exec c (.block b') σ σ' o →
      Exec c (.stmt (.ifElse n e b (some b'))) σ σ' o
  | ifSkip {σ : Store} {n : Node} {e : Expr} {b : Block} : e.value c σ = some 0 →
      Exec c (.stmt (.ifElse n e b none)) σ σ .normal
  | whileLoop {σ σ' : Store} {n : Node} {e : Expr} {b : Block} {o : Outcome} :
      Exec c (.loop e b none) σ σ' o → Exec c (.stmt (.whileLoop n e b)) σ σ' o
  | doAgain {σ σ1 σ' : Store} {n : Node} {e : Expr} {b : Block} {v : Int} {o : Outcome} :
      Exec c (.block b) σ σ1 .normal → e.value c σ1 = some v → v ≠ 0 →
      Exec c (.stmt (.doLoop n b e)) σ1 σ' o → Exec c (.stmt (.doLoop n b e)) σ σ' o
  | doDone {σ σ' : Store} {n : Node} {e : Expr} {b : Block} :
      Exec c (.block b) σ σ' .normal → e.value c σ' = some 0 →
      Exec c (.stmt (.doLoop n b e)) σ σ' .normal
  | doLeave {σ σ' : Store} {n : Node} {e : Expr} {b : Block} {o : Outcome} :
      Exec c (.block b) σ σ' o → o ≠ .normal → Exec c (.stmt (.doLoop n b e)) σ σ' o
  | forLoop {σ σ1 σ' : Store} {n : Node} {i s : Option Stmt} {e : Expr} {b : Block} {o : Outcome} :
      Exec c (.optional i) σ σ1 .normal → Exec c (.loop e b s) σ1 σ' o →
      Exec c (.stmt (.forLoop n i e s b)) σ σ' o
  | forLeave {σ σ' : Store} {n : Node} {i s : Option Stmt} {e : Expr} {b : Block} {o : Outcome} :
      Exec c (.optional i) σ σ' o → o ≠ .normal → Exec c (.stmt (.forLoop n i e s b)) σ σ' o
  | blockStmt {σ σ' : Store} {n : Node} {b : Block} {o : Outcome} :
      Exec c (.block b) σ σ' o → Exec c (.stmt (.block n b)) σ σ' o
  | switch {σ σ' : Store} {n : Node} {e : Expr} {cases : List Case} {b : Option Block} {v : Int}
      {o : Outcome} : e.value c σ = some v → Exec c (.tests v cases b) σ σ' o →
      Exec c (.stmt (.switch n e cases b)) σ σ' o
  | next {σ : Store} {n : Node} : Exec c (.stmt (.next n)) σ σ .next
  | returnNone {σ : Store} {n : Node} : Exec c (.stmt (.return n none)) σ σ (.returned none)
  | returnSome {σ : Store} {n : Node} {e : Expr} {v : Int} : e.value c σ = some v →
      Exec c (.stmt (.return n (some e))) σ σ (.returned (some v))
  | expression {σ : Store} {n : Node} {e : Expr} {v : Int} : e.value c σ = some v →
      Exec c (.stmt (.expression n e)) σ σ .normal
  | optionalNone {σ : Store} : Exec c (.optional none) σ σ .normal
  | optionalSome {σ σ' : Store} {s : Stmt} {o : Outcome} : Exec c (.stmt s) σ σ' o →
      Exec c (.optional (some s)) σ σ' o
  | block {σ σ' : Store} {b : Block} {o : Outcome} : Exec c (.stmts b.statements) σ σ' o →
      Exec c (.block b) σ σ' o
  | nil {σ : Store} : Exec c (.stmts []) σ σ .normal
  | cons {σ σ1 σ' : Store} {s : Stmt} {ss : List Stmt} {o : Outcome} :
      Exec c (.stmt s) σ σ1 .normal → Exec c (.stmts ss) σ1 σ' o →
      Exec c (.stmts (s :: ss)) σ σ' o
  | consLeave {σ σ' : Store} {s : Stmt} {ss : List Stmt} {o : Outcome} :
      Exec c (.stmt s) σ σ' o → o ≠ .normal → Exec c (.stmts (s :: ss)) σ σ' o
  | loopDone {σ : Store} {e : Expr} {b : Block} {s : Option Stmt} : e.value c σ = some 0 →
      Exec c (.loop e b s) σ σ .normal
  | loopPass {σ σ1 σ2 σ' : Store} {e : Expr} {b : Block} {s : Option Stmt} {v : Int} {o : Outcome} :
      e.value c σ = some v → v ≠ 0 → Exec c (.block b) σ σ1 .normal →
      Exec c (.optional s) σ1 σ2 .normal → Exec c (.loop e b s) σ2 σ' o →
      Exec c (.loop e b s) σ σ' o
  | loopLeave {σ σ' : Store} {e : Expr} {b : Block} {s : Option Stmt} {v : Int} {o : Outcome} :
      e.value c σ = some v → v ≠ 0 → Exec c (.block b) σ σ' o → o ≠ .normal →
      Exec c (.loop e b s) σ σ' o
  | loopLeaveStep {σ σ1 σ' : Store} {e : Expr} {b : Block} {s : Option Stmt} {v : Int}
      {o : Outcome} :
      e.value c σ = some v → v ≠ 0 → Exec c (.block b) σ σ1 .normal →
      Exec c (.optional s) σ1 σ' o → o ≠ .normal → Exec c (.loop e b s) σ σ' o
  /-- The first case whose value is the discriminant is the one that runs. -/
  | testHit {σ σ' : Store} {n : Node} {e : Expr} {b : Block} {cases : List Case} {f : Option Block}
      {v : Int} {o : Outcome} : e.value c σ = some v →
      Exec c (.bodies (.mk n e b :: cases) f) σ σ' o →
      Exec c (.tests v (.mk n e b :: cases) f) σ σ' o
  | testMiss {σ σ' : Store} {n : Node} {e : Expr} {b : Block} {cases : List Case} {f : Option Block}
      {d v : Int} {o : Outcome} : e.value c σ = some v → v ≠ d → Exec c (.tests d cases f) σ σ' o →
      Exec c (.tests d (.mk n e b :: cases) f) σ σ' o
  | testNone {σ : Store} {d : Int} : Exec c (.tests d [] none) σ σ .normal
  | testFallback {σ σ' : Store} {b : Block} {d : Int} {o : Outcome} : Exec c (.block b) σ σ' o →
      Exec c (.tests d [] (some b)) σ σ' o
  | body {σ σ' : Store} {n : Node} {e : Expr} {b : Block} {cases : List Case} {f : Option Block}
      {o : Outcome} : Exec c (.block b) σ σ' o → o ≠ .next →
      Exec c (.bodies (.mk n e b :: cases) f) σ σ' o
  /-- `next` goes on with the following body. -/
  | bodyNext {σ σ1 σ' : Store} {n : Node} {e : Expr} {b : Block} {cases : List Case}
      {f : Option Block} {o : Outcome} : Exec c (.block b) σ σ1 .next →
      Exec c (.bodies cases f) σ1 σ' o → Exec c (.bodies (.mk n e b :: cases) f) σ σ' o
  | bodyFallback {σ σ' : Store} {b : Block} {o : Outcome} : Exec c (.block b) σ σ' o →
      Exec c (.bodies [] (some b)) σ σ' o

end Awl
