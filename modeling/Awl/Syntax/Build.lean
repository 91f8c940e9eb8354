import Awl.Syntax.Basic

/-!
# Building syntax trees

Smart constructors for syntax trees that are made by a program and not read from a text. A builder
numbers the nodes; they have no place in a source text until `placedAt` gives them one.
-/

namespace Awl

/-- Building with a supply of node numbers. -/
abbrev Builder := StateM NodeId

namespace Builder

/-- A node with a new number and no place. -/
def node : Builder Node := modifyGet fun id => ({ id, span := {} }, id + 1)

/-! ## Expressions -/

def literal (value : Literal) : Builder Expr := return .literal (← node) value

def int (value : Int32) : Builder Expr := literal (.int value)

def bool (value : Bool) : Builder Expr := literal (.bool value)

def char (value : Char) : Builder Expr := literal (.char value)

def string (value : String) : Builder Expr := literal (.string value)

def name (x : String) : Builder Expr := return .name (← node) x

def binary (op : BinaryOp) (left right : Builder Expr) : Builder Expr := do
  let left ← left
  let right ← right
  return .binary (← node) op left right

def call (function : String) (arguments : List (Builder Expr)) : Builder Expr := do
  let arguments ← arguments.mapM id
  return .call (← node) function arguments

def index (array index : Builder Expr) : Builder Expr := do
  let array ← array
  let index ← index
  return .index (← node) array index

def field (object : Builder Expr) (field : String) : Builder Expr := do
  let object ← object
  return .field (← node) object field

end Builder

/-- The expression at another place. -/
def Expr.placedAt (span : Span) : Expr → Expr
  | .literal n v => .literal { n with span } v
  | .name n x => .name { n with span } x
  | .enumValue n e m => .enumValue { n with span } e m
  | .arrayLiteral n es => .arrayLiteral { n with span } es
  | .newArray n t l => .newArray { n with span } t l
  | .index n a i => .index { n with span } a i
  | .field n o x => .field { n with span } o x
  | .call n f es => .call { n with span } f es
  | .methodCall n r m es => .methodCall { n with span } r m es
  | .new n c es => .new { n with span } c es
  | .unary n op e => .unary { n with span } op e
  | .binary n op l r => .binary { n with span } op l r

/-- The statement at another place. A declaration is at the place of its statement. -/
def Stmt.placedAt (span : Span) : Stmt → Stmt
  | .declaration n d => .declaration { n with span } { d with node := { d.node with span } }
  | .assignment n t v => .assignment { n with span } t v
  | .ifElse n c t e => .ifElse { n with span } c t e
  | .whileLoop n c b => .whileLoop { n with span } c b
  | .doLoop n b c => .doLoop { n with span } b c
  | .forLoop n i c s b => .forLoop { n with span } i c s b
  | .block n b => .block { n with span } b
  | .switch n d cs f => .switch { n with span } d cs f
  | .next n => .next { n with span }
  | .return n v => .return { n with span } v
  | .expression n e => .expression { n with span } e
  | .acquire n l => .acquire { n with span } l
  | .release n l => .release { n with span } l

/-- The function at another place. -/
def FunctionDef.placedAt (span : Span) (f : FunctionDef) : FunctionDef :=
  { f with node := { f.node with span } }

namespace Builder

/-! ## Statements -/

def block (statements : List (Builder Stmt)) : Builder Block := do
  let statements ← statements.mapM id
  return .mk (← node) statements

def declaration (type : TypeExpr) (name : String) (initializer : Option (Builder Expr)) :
    Builder Declaration := do
  let initializer ← initializer.mapM id
  return { node := ← node, type, name, initializer }

def declare (type : TypeExpr) (name : String) (initializer : Option (Builder Expr)) :
    Builder Stmt := do
  let declaration ← declaration type name initializer
  return .declaration (← node) declaration

/-- An assignment to a variable. -/
def assign (name : String) (value : Builder Expr) : Builder Stmt := do
  let target : Target := .name (← node) name
  let value ← value
  return .assignment (← node) target value

def ifElse (condition : Builder Expr) (thenBlock : List (Builder Stmt))
    (elseBlock : Option (List (Builder Stmt))) : Builder Stmt := do
  let condition ← condition
  let thenBlock ← block thenBlock
  let elseBlock ← elseBlock.mapM block
  return .ifElse (← node) condition thenBlock elseBlock

def whileLoop (condition : Builder Expr) (body : List (Builder Stmt)) : Builder Stmt := do
  let condition ← condition
  let body ← block body
  return .whileLoop (← node) condition body

def returns (value : Option (Builder Expr)) : Builder Stmt := do
  let value ← value.mapM id
  return .return (← node) value

def expression (e : Builder Expr) : Builder Stmt := do
  let e ← e
  return .expression (← node) e

/-! ## Definitions -/

def parameter (type : TypeExpr) (name : String) : Builder Parameter :=
  return { node := ← node, name, type }

def function (name : String) (parameters : List (Builder Parameter)) (returnType : TypeExpr)
    (body : Builder FunctionBody) : Builder FunctionDef := do
  let parameters ← parameters.mapM id
  let body ← body
  return { node := ← node, name, parameters, returnType, isThread := false, body }

/-- A function that runs on a core of its own. -/
def thread (name : String) (body : List (Builder Stmt)) : Builder FunctionDef := do
  let f ← function name [] .void (.block <$> block body)
  return { f with isThread := true }

def constructor (parameters : List (Builder Parameter)) (body : List (Builder Stmt)) :
    Builder ConstructorDef := do
  let parameters ← parameters.mapM id
  let body ← block body
  return { node := ← node, parameters, body }

def classDef (name : String) (fields : List (Builder Declaration))
    (methods : List (Builder FunctionDef)) (constructors : List (Builder ConstructorDef)) :
    Builder ClassDef := do
  let fields ← fields.mapM id
  let methods ← methods.mapM id
  let constructors ← constructors.mapM id
  return { node := ← node, name, fields, methods, constructors }

def enumDef (name : String) (values : List String) : Builder EnumDef :=
  return { node := ← node, name, values }

end Builder

namespace SourceUnit

def addEnum (u : SourceUnit) (e : EnumDef) : SourceUnit := { u with enums := u.enums ++ [e] }

def addClass (u : SourceUnit) (c : ClassDef) : SourceUnit := { u with classes := u.classes ++ [c] }

def addFunction (u : SourceUnit) (f : FunctionDef) : SourceUnit :=
  { u with functions := u.functions ++ [f] }

def addStatement (u : SourceUnit) (s : Stmt) : SourceUnit :=
  { u with statements := u.statements ++ [s] }

end SourceUnit

end Awl
