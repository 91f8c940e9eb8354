import Awl.Syntax.Operator

/-!
# Syntax trees

A source unit holds enumerations, classes, functions and the statements that the main core runs.
Every node has a number of its own (`Node.id`), under which the checker files what it finds out, and
the place in the source text that it comes from.
-/

namespace Awl

/-- A place in a source text. Line and column start at 1; nodes without a place have `0:0`. -/
structure Span where
  line : UInt32 := 0
  column : UInt32 := 0
  deriving DecidableEq, Repr

def Span.text (s : Span) : String := "line " ++ toString s.line ++ ":" ++ toString s.column

abbrev NodeId := Nat

structure Node where
  id : NodeId
  span : Span
  deriving DecidableEq, Repr

/-- A number stands for the node with that identifier and no place in the source. -/
instance (id : NodeId) : OfNat Node id := ⟨{ id, span := {} }⟩

/-- A type as it is written. -/
inductive TypeExpr where
  | int | bool | char | void | lock
  | array (element : TypeExpr)
  /-- An enumeration or a class. -/
  | named (name : String)
  deriving DecidableEq, Repr

inductive Literal where
  | int (value : Int32)
  | bool (value : Bool)
  | char (value : Char)
  | string (value : String)
  deriving DecidableEq

inductive Expr where
  | literal (node : Node) (value : Literal)
  | name (node : Node) (name : String)
  | enumValue (node : Node) (enumeration member : String)
  | arrayLiteral (node : Node) (elements : List Expr)
  /-- A new array of the given length. -/
  | newArray (node : Node) (element : TypeExpr) (length : Expr)
  | index (node : Node) (array index : Expr)
  | field (node : Node) (object : Expr) (field : String)
  | call (node : Node) (function : String) (arguments : List Expr)
  | methodCall (node : Node) (receiver : Expr) (method : String) (arguments : List Expr)
  /-- A new object. -/
  | new (node : Node) (className : String) (arguments : List Expr)
  | unary (node : Node) (op : UnaryOp) (operand : Expr)
  | binary (node : Node) (op : BinaryOp) (left right : Expr)

namespace Expr

def node : Expr → Node
  | literal n _ | name n _ | enumValue n _ _ | arrayLiteral n _ | newArray n _ _ | index n _ _
  | field n _ _ | call n _ _ | methodCall n _ _ _ | new n _ _ | unary n _ _ | binary n _ _ _ => n

def id (e : Expr) : NodeId := e.node.id

def span (e : Expr) : Span := e.node.span

/-- Whether the expression names storage and does not compute a value. -/
def isPlace : Expr → Bool
  | name .. | index .. | field .. => true
  | _ => false

end Expr

/-- The left side of an assignment. -/
inductive Target where
  | name (node : Node) (name : String)
  | index (node : Node) (array index : Expr)
  | field (node : Node) (object : Expr) (field : String)

namespace Target

def node : Target → Node
  | name n _ | index n _ _ | field n _ _ => n

def id (t : Target) : NodeId := t.node.id

def span (t : Target) : Span := t.node.span

end Target

/-- A variable, or a field of a class. -/
structure Declaration where
  node : Node
  type : TypeExpr
  name : String
  initializer : Option Expr

mutual

inductive Stmt where
  | declaration (node : Node) (declaration : Declaration)
  | assignment (node : Node) (target : Target) (value : Expr)
  | ifElse (node : Node) (condition : Expr) (thenBlock : Block) (elseBlock : Option Block)
  | whileLoop (node : Node) (condition : Expr) (body : Block)
  /-- The body runs before the condition is tested. -/
  | doLoop (node : Node) (body : Block) (condition : Expr)
  | forLoop (node : Node) (initializer : Option Stmt) (condition : Expr) (step : Option Stmt)
      (body : Block)
  | block (node : Node) (block : Block)
  | switch (node : Node) (discriminant : Expr) (cases : List Case) (fallback : Option Block)
  /-- Goes on with the next block of the enclosing switch. -/
  | next (node : Node)
  | return (node : Node) (value : Option Expr)
  | expression (node : Node) (expression : Expr)
  | acquire (node : Node) (lock : Expr)
  | release (node : Node) (lock : Expr)

inductive Block where
  | mk (node : Node) (statements : List Stmt)

/-- A block of a switch with the value that selects it. -/
inductive Case where
  | mk (node : Node) (value : Expr) (body : Block)

end

def Block.statements : Block → List Stmt
  | .mk _ statements => statements

def Stmt.node : Stmt → Node
  | .declaration n _ | .assignment n _ _ | .ifElse n _ _ _ | .whileLoop n _ _ | .doLoop n _ _
  | .forLoop n _ _ _ _ | .block n _ | .switch n _ _ _ | .next n | .return n _ | .expression n _
  | .acquire n _ | .release n _ => n

structure Parameter where
  node : Node
  name : String
  type : TypeExpr

inductive FunctionBody where
  | block (block : Block)
  /-- The value of the expression is returned. -/
  | expression (expression : Expr)

structure FunctionDef where
  node : Node
  name : String
  parameters : List Parameter
  returnType : TypeExpr
  /-- A thread function runs on a core of its own once it is called. -/
  isThread : Bool
  body : FunctionBody

structure ConstructorDef where
  node : Node
  parameters : List Parameter
  body : Block

structure ClassDef where
  node : Node
  name : String
  fields : List Declaration
  methods : List FunctionDef
  constructors : List ConstructorDef

structure EnumDef where
  node : Node
  name : String
  /-- The members, whose ordinals start at 1. -/
  values : List String

/-- A program: definitions, and the statements of the main core. Every list is in source order. -/
structure SourceUnit where
  enums : List EnumDef := []
  classes : List ClassDef := []
  functions : List FunctionDef := []
  statements : List Stmt := []

/-- The definitions and statements of two units, those of the first one in front. -/
def SourceUnit.merge (a b : SourceUnit) : SourceUnit where
  enums := a.enums ++ b.enums
  classes := a.classes ++ b.classes
  functions := a.functions ++ b.functions
  statements := a.statements ++ b.statements

end Awl
