import Awl.Json.Decode
import Awl.Syntax.Encode

/-!
# Reading syntax trees from JSON

The decoders of the syntax tree. Every node gets a number that no other node has. Trees nest
through arrays and objects, so the depth that the text may still open bounds how deep the decoders
of types, expressions and statements recurse.
-/

namespace Awl

open Json

/-- Decodes and then applies `f`. -/
def Json.Decoder.map {α β : Type} (f : α → β) (read : Decoder α) : Decoder β :=
  fun depth d => f <$> read depth d

namespace Decode

def unsigned : Decoder UInt32 :=
  (integer "u32" 0 4294967295).map fun n => UInt32.ofNat n.toNat

def signed : Decoder Int32 :=
  (integer "i32" (-2147483648) 2147483647).map Int32.ofInt

def span : Decoder Span := fun depth d => do
  let (line, column, ()) ← record "struct Span"
    (.cons (required "line" unsigned) (.cons (required "column" unsigned) .nil)) depth d
  return { line, column }

def spanField : RecordField Span := withDefault "span" {} span

/-- A node at a place, with a number of its own. -/
def nodeAt (span : Span) : Json.Decode Node := return { id := ← fresh, span }

/-- A record with a place and a kind, for a kind that still lacks its node. -/
def kindedRecord {α : Type} (title : String) (kind : Decoder (Node → α)) : Decoder α :=
  fun depth d => do
    let (span, kind, ()) ← record title
      (.cons spanField (.cons (required "kind" kind) .nil)) depth d
    return kind (← nodeAt span)

/-! ## Types and operators -/

/-- Types, for elements nested at most `fuel` deep. -/
def typeExprAt : Nat → Decoder TypeExpr
  | 0 => fun _ _ => malformed .nestedTooDeep
  | fuel + 1 => oneOf [
      ("Int", .unit .int),
      ("Bool", .unit .bool),
      ("Char", .unit .char),
      ("Void", .unit .void),
      ("Lock", .unit .lock),
      ("Array", .single ((typeExprAt fuel).map .array)),
      ("Named", .single (text.map .named))]

def typeExpr : Decoder TypeExpr := fun depth => typeExprAt (depth + 1) depth

def literal : Decoder Literal := oneOf [
  ("Int", .single (signed.map .int)),
  ("Bool", .single (flag.map .bool)),
  ("Char", .single (character.map .char)),
  ("String", .single (text.map .string))]

def binaryOp : Decoder BinaryOp := oneOf (BinaryOp.all.map fun op => (op.name, .unit op))

def unaryOp : Decoder UnaryOp := oneOf (UnaryOp.all.map fun op => (op.name, .unit op))

/-! ## Expressions -/

section Expressions

variable (expr : Decoder Expr)

def enumValueKind : Decoder (Node → Expr) := fun depth d => do
  let (enumeration, member, ()) ← record "struct variant ExpressionKind::EnumValue"
    (.cons (required "enumeration" text) (.cons (required "member" text) .nil)) depth d
  return fun n => .enumValue n enumeration member

def newArrayKind : Decoder (Node → Expr) := fun depth d => do
  let (element, length, ()) ← record "struct variant ExpressionKind::NewArray"
    (.cons (required "element" typeExpr) (.cons (required "length" expr) .nil)) depth d
  return fun n => .newArray n element length

/-- The array and the index of an element, in a variant of `kind`. -/
def elementOf (kind : String) : Decoder (Expr × Expr) := fun depth d => do
  let (array, index, ()) ← record ("struct variant " ++ kind ++ "::Index")
    (.cons (required "array" expr) (.cons (required "index" expr) .nil)) depth d
  return (array, index)

/-- The object and the name of a field, in a variant of `kind`. -/
def fieldOf (kind : String) : Decoder (Expr × String) := fun depth d => do
  let (object, field, ()) ← record ("struct variant " ++ kind ++ "::Field")
    (.cons (required "object" expr) (.cons (required "field" text) .nil)) depth d
  return (object, field)

def callKind : Decoder (Node → Expr) := fun depth d => do
  let (function, arguments, ()) ← record "struct variant ExpressionKind::Call"
    (.cons (required "function" text) (.cons (required "arguments" (listOf expr)) .nil)) depth d
  return fun n => .call n function arguments

def methodCallKind : Decoder (Node → Expr) := fun depth d => do
  let (receiver, method, arguments, ()) ← record "struct variant ExpressionKind::MethodCall"
    (.cons (required "receiver" expr) (.cons (required "method" text)
      (.cons (required "arguments" (listOf expr)) .nil))) depth d
  return fun n => .methodCall n receiver method arguments

def newKind : Decoder (Node → Expr) := fun depth d => do
  let (className, arguments, ()) ← record "struct variant ExpressionKind::New"
    (.cons (required "class" text) (.cons (required "arguments" (listOf expr)) .nil)) depth d
  return fun n => .new n className arguments

def unaryKind : Decoder (Node → Expr) := fun depth d => do
  let (op, operand, ()) ← record "struct variant ExpressionKind::Unary"
    (.cons (required "operator" unaryOp) (.cons (required "operand" expr) .nil)) depth d
  return fun n => .unary n op operand

def binaryKind : Decoder (Node → Expr) := fun depth d => do
  let (op, left, right, ()) ← record "struct variant ExpressionKind::Binary"
    (.cons (required "operator" binaryOp) (.cons (required "left" expr)
      (.cons (required "right" expr) .nil))) depth d
  return fun n => .binary n op left right

def exprKind : Decoder (Node → Expr) := oneOf [
  ("Literal", .single (literal.map fun l n => .literal n l)),
  ("Identifier", .single (text.map fun x n => .name n x)),
  ("EnumValue", .fields enumValueKind),
  ("ArrayLiteral", .single ((listOf expr).map fun es n => .arrayLiteral n es)),
  ("NewArray", .fields (newArrayKind expr)),
  ("Index", .fields ((elementOf expr "ExpressionKind").map fun (a, i) n => .index n a i)),
  ("Field", .fields ((fieldOf expr "ExpressionKind").map fun (o, x) n => .field n o x)),
  ("Call", .fields (callKind expr)),
  ("MethodCall", .fields (methodCallKind expr)),
  ("New", .fields (newKind expr)),
  ("Unary", .fields (unaryKind expr)),
  ("Binary", .fields (binaryKind expr))]

end Expressions

/-- Expressions nested at most `fuel` deep. -/
def exprAt : Nat → Decoder Expr
  | 0 => fun _ _ => malformed .nestedTooDeep
  | fuel + 1 => kindedRecord "struct Expression" (exprKind (exprAt fuel))

def expr : Decoder Expr := fun depth => exprAt (depth + 1) depth

def target : Decoder Target := kindedRecord "struct Target" <| oneOf [
  ("Identifier", .single (text.map fun x n => .name n x)),
  ("Index", .fields ((elementOf expr "TargetKind").map fun (a, i) n => .index n a i)),
  ("Field", .fields ((fieldOf expr "TargetKind").map fun (o, x) n => .field n o x))]

/-! ## Statements -/

def declaration : Decoder Declaration := fun depth d => do
  let (span, type, name, initializer, ()) ← record "struct Declaration"
    (.cons spanField (.cons (required "ty" typeExpr) (.cons (required "name" text)
      (.cons (withDefault "initializer" none (optional expr)) .nil)))) depth d
  return { node := ← nodeAt span, type, name, initializer }

section Statements

variable (stmt : Decoder Stmt)

def blockOf : Decoder Block := fun depth d => do
  let (span, statements, ()) ← record "struct Block"
    (.cons spanField (.cons (required "statements" (listOf stmt)) .nil)) depth d
  return .mk (← nodeAt span) statements

def caseOf : Decoder Case := fun depth d => do
  let (span, value, body, ()) ← record "struct SwitchCase"
    (.cons spanField (.cons (required "value" expr)
      (.cons (required "body" (blockOf stmt)) .nil))) depth d
  return .mk (← nodeAt span) value body

def assignmentKind : Decoder (Node → Stmt) := fun depth d => do
  let (target, value, ()) ← record "struct variant StatementKind::Assignment"
    (.cons (required "target" target) (.cons (required "value" expr) .nil)) depth d
  return fun n => .assignment n target value

def ifKind : Decoder (Node → Stmt) := fun depth d => do
  let (condition, thenBlock, elseBlock, ()) ← record "struct variant StatementKind::If"
    (.cons (required "condition" expr) (.cons (required "then_block" (blockOf stmt))
      (.cons (withDefault "else_block" none (optional (blockOf stmt))) .nil))) depth d
  return fun n => .ifElse n condition thenBlock elseBlock

def whileKind : Decoder (Node → Stmt) := fun depth d => do
  let (condition, body, ()) ← record "struct variant StatementKind::While"
    (.cons (required "condition" expr) (.cons (required "body" (blockOf stmt)) .nil)) depth d
  return fun n => .whileLoop n condition body

def doKind : Decoder (Node → Stmt) := fun depth d => do
  let (body, condition, ()) ← record "struct variant StatementKind::Do"
    (.cons (required "body" (blockOf stmt)) (.cons (required "condition" expr) .nil)) depth d
  return fun n => .doLoop n body condition

def forKind : Decoder (Node → Stmt) := fun depth d => do
  let (initializer, condition, step, body, ()) ← record "struct variant StatementKind::For"
    (.cons (withDefault "initializer" none (optional stmt)) (.cons (required "condition" expr)
      (.cons (withDefault "step" none (optional stmt))
        (.cons (required "body" (blockOf stmt)) .nil)))) depth d
  return fun n => .forLoop n initializer condition step body

def switchKind : Decoder (Node → Stmt) := fun depth d => do
  let (discriminant, cases, fallback, ()) ← record "struct SwitchStatement"
    (.cons (required "discriminant" expr) (.cons (required "cases" (listOf (caseOf stmt)))
      (.cons (withDefault "default" none (optional (blockOf stmt))) .nil))) depth d
  return fun n => .switch n discriminant cases fallback

def stmtKind : Decoder (Node → Stmt) := oneOf [
  ("Declaration", .single (declaration.map fun d n => .declaration n d)),
  ("Assignment", .fields assignmentKind),
  ("If", .fields (ifKind stmt)),
  ("While", .fields (whileKind stmt)),
  ("Do", .fields (doKind stmt)),
  ("For", .fields (forKind stmt)),
  ("Block", .single ((blockOf stmt).map fun b n => .block n b)),
  ("Switch", .single (switchKind stmt)),
  ("Next", .unit .next),
  ("Return", .single ((optional expr).map fun e n => .return n e)),
  ("Expression", .single (expr.map fun e n => .expression n e)),
  ("Acquire", .single (expr.map fun e n => .acquire n e)),
  ("Release", .single (expr.map fun e n => .release n e))]

end Statements

/-- Statements nested at most `fuel` deep. -/
def stmtAt : Nat → Decoder Stmt
  | 0 => fun _ _ => malformed .nestedTooDeep
  | fuel + 1 => kindedRecord "struct Statement" (stmtKind (stmtAt fuel))

def stmt : Decoder Stmt := fun depth => stmtAt (depth + 1) depth

def block : Decoder Block := blockOf stmt

/-! ## Definitions -/

def parameter : Decoder Parameter := fun depth d => do
  let (span, name, type, ()) ← record "struct Parameter"
    (.cons spanField (.cons (required "name" text) (.cons (required "ty" typeExpr) .nil))) depth d
  return { node := ← nodeAt span, name, type }

def functionBody : Decoder FunctionBody := oneOf [
  ("Block", .single (block.map .block)),
  ("Expression", .single (expr.map .expression))]

def functionDef : Decoder FunctionDef := fun depth d => do
  let (span, name, parameters, returnType, isThread, body, ()) ← record "struct FunctionDefinition"
    (.cons spanField (.cons (required "name" text)
      (.cons (required "parameters" (listOf parameter)) (.cons (required "return_type" typeExpr)
        (.cons (withDefault "is_thread" false flag)
          (.cons (required "body" functionBody) .nil)))))) depth d
  return { node := ← nodeAt span, name, parameters, returnType, isThread, body }

def constructorDef : Decoder ConstructorDef := fun depth d => do
  let (span, parameters, body, ()) ← record "struct ConstructorDefinition"
    (.cons spanField (.cons (required "parameters" (listOf parameter))
      (.cons (required "body" block) .nil))) depth d
  return { node := ← nodeAt span, parameters, body }

def classDef : Decoder ClassDef := fun depth d => do
  let (span, name, fields, methods, constructors, ()) ← record "struct ClassDefinition"
    (.cons spanField (.cons (required "name" text)
      (.cons (withDefault "fields" [] (listOf declaration))
        (.cons (withDefault "methods" [] (listOf functionDef))
          (.cons (withDefault "constructors" [] (listOf constructorDef)) .nil))))) depth d
  return { node := ← nodeAt span, name, fields, methods, constructors }

def enumDef : Decoder EnumDef := fun depth d => do
  let (span, name, values, ()) ← record "struct EnumDefinition"
    (.cons spanField (.cons (required "name" text)
      (.cons (required "values" (listOf text)) .nil))) depth d
  return { node := ← nodeAt span, name, values }

def sourceUnit : Decoder SourceUnit := fun depth d => do
  let (enums, classes, functions, statements, ()) ← record "struct CompilationUnit"
    (.cons (withDefault "enums" [] (listOf enumDef))
      (.cons (withDefault "classes" [] (listOf classDef))
        (.cons (withDefault "functions" [] (listOf functionDef))
          (.cons (withDefault "statements" [] (listOf stmt)) .nil)))) depth d
  return { enums, classes, functions, statements }

end Decode

/-- Decodes a unit. Its nodes are numbered from `firstId` on; the second part of the result is the
first number that is left. -/
def SourceUnit.ofDocument (firstId : NodeId) (document : Document) :
    Except DecodeError (SourceUnit × NodeId) :=
  (document.decode Decode.sourceUnit).run firstId

/-- Decodes the JSON text of a unit. -/
def SourceUnit.ofText (firstId : NodeId) (text : String) :
    Except DecodeError (SourceUnit × NodeId) :=
  SourceUnit.ofDocument firstId (Document.read text)

/-- Decodes the documents one after the other and merges their units. The first document that does
not decode decides. -/
def SourceUnit.ofDocuments (firstId : NodeId) (documents : List Document) :
    Except DecodeError (SourceUnit × NodeId) :=
  documents.foldlM (fun (unit, id) document => do
    let (next, id) ← SourceUnit.ofDocument id document
    return (unit.merge next, id)) ({}, firstId)

end Awl
