import Awl.Json.Value
import Awl.Syntax.Basic

/-!
# Writing syntax trees as JSON

Every field of a node is written except its number. A variant without data is written as its name,
any other as an object whose only key is its name.
-/

namespace Awl

open Json

/-- A variant with data. -/
def tagged (name : String) (data : Value) : Value := .object [(name, data)]

def Span.encode (s : Span) : Value :=
  .object [("line", .nat s.line.toNat), ("column", .nat s.column.toNat)]

def TypeExpr.encode : TypeExpr → Value
  | .int => .string "Int"
  | .bool => .string "Bool"
  | .char => .string "Char"
  | .void => .string "Void"
  | .lock => .string "Lock"
  | .array element => tagged "Array" element.encode
  | .named name => tagged "Named" (.string name)

def Literal.encode : Literal → Value
  | .int value => tagged "Int" (.int value.toInt)
  | .bool value => tagged "Bool" (.bool value)
  | .char value => tagged "Char" (.string value.toString)
  | .string value => tagged "String" (.string value)

/-- The name under which an operator is written. -/
def BinaryOp.name : BinaryOp → String
  | .add => "Add"
  | .subtract => "Subtract"
  | .multiply => "Multiply"
  | .divide => "Divide"
  | .modulus => "Modulus"
  | .equals => "Equals"
  | .notEquals => "NotEquals"
  | .lessThan => "LessThan"
  | .lessThanOrEqualTo => "LessThanOrEqualTo"
  | .greaterThan => "GreaterThan"
  | .greaterThanOrEqualTo => "GreaterThanOrEqualTo"
  | .and => "And"
  | .or => "Or"
  | .xor => "Xor"

def BinaryOp.all : List BinaryOp :=
  [.add, .subtract, .multiply, .divide, .modulus, .equals, .notEquals, .lessThan,
    .lessThanOrEqualTo, .greaterThan, .greaterThanOrEqualTo, .and, .or, .xor]

/-- The name under which an operator is written. -/
def UnaryOp.name : UnaryOp → String
  | .not => "Not"
  | .negate => "Negate"

def UnaryOp.all : List UnaryOp := [.not, .negate]

/-- A node that has a place and a kind. -/
def kinded (node : Node) (kind : Value) : Value :=
  .object [("span", node.span.encode), ("kind", kind)]

mutual

def Expr.encode : Expr → Value
  | .literal n value => kinded n (tagged "Literal" value.encode)
  | .name n x => kinded n (tagged "Identifier" (.string x))
  | .enumValue n enumeration member =>
    kinded n (tagged "EnumValue"
      (.object [("enumeration", .string enumeration), ("member", .string member)]))
  | .arrayLiteral n elements => kinded n (tagged "ArrayLiteral" (.array (Expr.encodeAll elements)))
  | .newArray n element length =>
    kinded n (tagged "NewArray" (.object [("element", element.encode), ("length", length.encode)]))
  | .index n a i => kinded n (tagged "Index" (.object [("array", a.encode), ("index", i.encode)]))
  | .field n o x => kinded n (tagged "Field" (.object [("object", o.encode), ("field", .string x)]))
  | .call n function arguments =>
    kinded n (tagged "Call"
      (.object [("function", .string function), ("arguments", .array (Expr.encodeAll arguments))]))
  | .methodCall n receiver method arguments =>
    kinded n (tagged "MethodCall"
      (.object [("receiver", receiver.encode), ("method", .string method),
        ("arguments", .array (Expr.encodeAll arguments))]))
  | .new n className arguments =>
    kinded n (tagged "New"
      (.object [("class", .string className), ("arguments", .array (Expr.encodeAll arguments))]))
  | .unary n op operand =>
    kinded n (tagged "Unary" (.object [("operator", .string op.name), ("operand", operand.encode)]))
  | .binary n op left right =>
    kinded n (tagged "Binary"
      (.object [("operator", .string op.name), ("left", left.encode), ("right", right.encode)]))

def Expr.encodeAll : List Expr → List Value
  | [] => []
  | e :: es => e.encode :: Expr.encodeAll es

end

def Target.encode : Target → Value
  | .name n x => kinded n (tagged "Identifier" (.string x))
  | .index n a i => kinded n (tagged "Index" (.object [("array", a.encode), ("index", i.encode)]))
  | .field n o x => kinded n (tagged "Field" (.object [("object", o.encode), ("field", .string x)]))

def Declaration.encode (d : Declaration) : Value :=
  .object [("span", d.node.span.encode), ("ty", d.type.encode), ("name", .string d.name),
    ("initializer", .ofOption Expr.encode d.initializer)]

mutual

def Stmt.encode : Stmt → Value
  | .declaration n d => kinded n (tagged "Declaration" d.encode)
  | .assignment n target value =>
    kinded n (tagged "Assignment" (.object [("target", target.encode), ("value", value.encode)]))
  | .ifElse n condition thenBlock elseBlock =>
    kinded n (tagged "If"
      (.object [("condition", condition.encode), ("then_block", thenBlock.encode),
        ("else_block", Block.encodeOption elseBlock)]))
  | .whileLoop n condition body =>
    kinded n (tagged "While" (.object [("condition", condition.encode), ("body", body.encode)]))
  | .doLoop n body condition =>
    kinded n (tagged "Do" (.object [("body", body.encode), ("condition", condition.encode)]))
  | .forLoop n initializer condition step body =>
    kinded n (tagged "For"
      (.object [("initializer", Stmt.encodeOption initializer), ("condition", condition.encode),
        ("step", Stmt.encodeOption step), ("body", body.encode)]))
  | .block n block => kinded n (tagged "Block" block.encode)
  | .switch n discriminant cases fallback =>
    kinded n (tagged "Switch"
      (.object [("discriminant", discriminant.encode), ("cases", .array (Case.encodeAll cases)),
        ("default", Block.encodeOption fallback)]))
  | .next n => kinded n (.string "Next")
  | .return n value => kinded n (tagged "Return" (.ofOption Expr.encode value))
  | .expression n e => kinded n (tagged "Expression" e.encode)
  | .acquire n lock => kinded n (tagged "Acquire" lock.encode)
  | .release n lock => kinded n (tagged "Release" lock.encode)

def Stmt.encodeOption : Option Stmt → Value
  | none => .null
  | some s => s.encode

def Stmt.encodeAll : List Stmt → List Value
  | [] => []
  | s :: ss => s.encode :: Stmt.encodeAll ss

def Block.encode : Block → Value
  | .mk n statements =>
    .object [("span", n.span.encode), ("statements", .array (Stmt.encodeAll statements))]

def Block.encodeOption : Option Block → Value
  | none => .null
  | some b => b.encode

def Case.encode : Case → Value
  | .mk n value body =>
    .object [("span", n.span.encode), ("value", value.encode), ("body", body.encode)]

def Case.encodeAll : List Case → List Value
  | [] => []
  | c :: cs => c.encode :: Case.encodeAll cs

end

def Parameter.encode (p : Parameter) : Value :=
  .object [("span", p.node.span.encode), ("name", .string p.name), ("ty", p.type.encode)]

def FunctionBody.encode : FunctionBody → Value
  | .block b => tagged "Block" b.encode
  | .expression e => tagged "Expression" e.encode

def FunctionDef.encode (f : FunctionDef) : Value :=
  .object [("span", f.node.span.encode), ("name", .string f.name),
    ("parameters", .array (f.parameters.map Parameter.encode)),
    ("return_type", f.returnType.encode), ("is_thread", .bool f.isThread),
    ("body", f.body.encode)]

def ConstructorDef.encode (c : ConstructorDef) : Value :=
  .object [("span", c.node.span.encode),
    ("parameters", .array (c.parameters.map Parameter.encode)), ("body", c.body.encode)]

def ClassDef.encode (c : ClassDef) : Value :=
  .object [("span", c.node.span.encode), ("name", .string c.name),
    ("fields", .array (c.fields.map Declaration.encode)),
    ("methods", .array (c.methods.map FunctionDef.encode)),
    ("constructors", .array (c.constructors.map ConstructorDef.encode))]

def EnumDef.encode (e : EnumDef) : Value :=
  .object [("span", e.node.span.encode), ("name", .string e.name),
    ("values", .array (e.values.map .string))]

def SourceUnit.encode (u : SourceUnit) : Value :=
  .object [("enums", .array (u.enums.map EnumDef.encode)),
    ("classes", .array (u.classes.map ClassDef.encode)),
    ("functions", .array (u.functions.map FunctionDef.encode)),
    ("statements", .array (u.statements.map Stmt.encode))]

/-- The JSON text of a unit. -/
def SourceUnit.toText (u : SourceUnit) : String := u.encode.text

end Awl
