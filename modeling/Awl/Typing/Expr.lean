import Awl.Typing.Basic

/-!
# Checking expressions

`Check.expr` finds the type of an expression and records it. The rules that need only the types of
the parts come first; they also serve assignment targets.
-/

namespace Awl

def Literal.type : Literal → Ty
  | .int _ => .int
  | .bool _ => .bool
  | .char _ => .char
  | .string _ => .array .char

/-- The type that the operand of a unary operator must have, and that its result has. -/
def UnaryOp.type : UnaryOp → Ty
  | .not => .bool
  | .negate => .int

def OperandRule.result : OperandRule → Ty
  | .arithmetic => .int
  | .ordering | .equality | .logical => .bool

/-- Whether an operator of this rule applies to operands of these types. -/
def OperandRule.accepts (rule : OperandRule) (left right : Ty) : Bool :=
  match rule with
  | .arithmetic => left == .int && right == .int
  | .ordering => left == right && (left == .int || left == .char)
  | .equality => left == right
  | .logical => left == .bool && right == .bool

namespace Check

variable (substitute : Ty)

/-- The type of a name that is used as a value. -/
def nameType (context : Context) (node : Node) (name : String) : Check Typed := do
  match ← resolveFrom context.scope name with
  | some (type, scope) =>
    if type.isFunction then
      report (.methodAsValue name) node.span
      return .error substitute
    else
      recordScope node.id scope
      return .sound type
  | none =>
    report (.undeclared name) node.span
    return .error substitute

def enumValueType (span : Span) (enumeration member : String) : Check Typed := do
  match (← tables).types.enum? enumeration with
  | some e =>
    if e.ordinal member == 0 then
      report (.unknownMember enumeration member) span
      return .error (.enumeration e)
    else return .sound (.enumeration e)
  | none =>
    report (.unknownEnum enumeration) span
    return .error substitute

/-- The type of a new array. -/
def newArrayType (span : Span) (element : Ty) (length : Typed) : Check Typed := do
  if !length.erroneous && length.type != .int then
    report (.arrayLength length.type) span
  return .sound (.array element)

/-- The type of an element of an array. -/
def elementType (span : Span) (array index : Typed) : Check Typed := do
  if !index.erroneous && index.type != .int then
    report (.arrayIndex index.type) span
  if array.erroneous then return .error substitute
  match array.type.element? with
  | some element => return .sound element
  | none =>
    report (.notAnArray array.type) span
    return .error substitute

/-- The type of a field of an object. A name that is only reserved is no field. -/
def fieldType (span : Span) (object : Typed) (field : String) : Check Typed := do
  if object.erroneous then return .error substitute
  match object.type.class? with
  | none =>
    report (.fieldOfNoObject field object.type) span
    return .error substitute
  | some c =>
    match ← binding? (← memberScope c) field with
    | some { type, offset := some _ } => return .sound type
    | _ =>
      report (.unknownField c.name field) span
      return .error substitute

/-- The type of a call with these arguments, the receiver of a method among them. Binds the call to
the function that it means. -/
def callType (node : Node) (name : String) (arguments : List Typed) (isMethod : Bool) :
    Check Typed := do
  let erroneous := arguments.any (·.erroneous)
  let types := arguments.map (·.type)
  let functions := (← tables).functions
  match functions.resolveCall name types isMethod with
  | some function =>
    bindFunction node.id function
    return { type := (← functions.get function).signature.result, erroneous }
  | none =>
    if erroneous then return .error substitute
    if functions.isDefined name then
      -- The receiver is not among the arguments that the user wrote.
      report (.noOverload name (if isMethod then types.tail else types)) node.span
    else report (.undefinedFunction name) node.span
    return .error substitute

/-- The type of a method call. -/
def methodCallType (node : Node) (receiver : Typed) (method : String) (arguments : List Typed) :
    Check Typed := do
  if receiver.erroneous then return .error substitute
  if receiver.type.class?.isNone then
    report (.methodOfNoObject method receiver.type) node.span
    return .error substitute
  callType substitute node method (receiver :: arguments) true

/-- The type of a new object. A class need not have a constructor without arguments. -/
def newType (node : Node) (className : String) (arguments : List Typed) : Check Typed := do
  let tables ← tables
  match tables.types.class? className with
  | none =>
    report (.unknownClass className) node.span
    return .error substitute
  | some c =>
    let types := arguments.map (·.type)
    match tables.functions.resolveCall constructorName (.object c :: types) true with
    | some function => bindFunction node.id function
    | none =>
      if !arguments.isEmpty && !arguments.any (·.erroneous) then
        report (.noConstructor className types) node.span
    return .sound (.object c)

def unaryType (span : Span) (op : UnaryOp) (operand : Typed) : Check Typed := do
  if operand.erroneous then return .error op.type
  if operand.type != op.type then
    report (.unaryOperand op operand.type) span
    return .error op.type
  return .sound op.type

def binaryType (span : Span) (op : BinaryOp) (left right : Typed) : Check Typed := do
  let result := op.rule.result
  if left.erroneous || right.erroneous then return .error result
  if !op.rule.accepts left.type right.type then
    report (.binaryOperands op left.type right.type) span
    return .error result
  return .sound result

mutual

/-- Checks an expression and records its type. -/
def expr (context : Context) (e : Expr) : Check Typed := do
  let typed ← match e with
    | .literal _ l => pure (.sound l.type)
    | .name n x => nameType substitute context n x
    | .enumValue n x member => enumValueType substitute n.span x member
    | .arrayLiteral n [] => do
      report .emptyArray n.span
      pure (.error (.array substitute))
    | .arrayLiteral _ (first :: rest) => do
      let first ← expr context first
      let erroneous ← elements context first.type first.erroneous rest
      pure { type := .array first.type, erroneous }
    | .newArray n t length => do
      let element ← resolveType substitute n.span t
      let length ← expr context length
      newArrayType n.span element length
    | .index n a i => do
      let array ← expr context a
      let index ← expr context i
      elementType substitute n.span array index
    | .field n o x => do
      let object ← expr context o
      fieldType substitute n.span object x
    | .call n f arguments => do
      let arguments ← exprs context arguments
      callType substitute n f arguments false
    | .methodCall n r method arguments => do
      let receiver ← expr context r
      let arguments ← exprs context arguments
      methodCallType substitute n receiver method arguments
    | .new n c arguments => do
      let arguments ← exprs context arguments
      newType substitute n c arguments
    | .unary n op operand => do
      let operand ← expr context operand
      unaryType n.span op operand
    | .binary n op l r => do
      let left ← expr context l
      let right ← expr context r
      binaryType n.span op left right
  recordType e.id typed.type
  return typed

def exprs (context : Context) : List Expr → Check (List Typed)
  | [] => return []
  | e :: es => do
    let typed ← expr context e
    return typed :: (← exprs context es)

/-- Checks the elements of an array after the first one, whose type they must have. The result is
whether any element is erroneous; only the first mismatch is reported. -/
def elements (context : Context) (first : Ty) (erroneous : Bool) : List Expr → Check Bool
  | [] => return erroneous
  | e :: es => do
    let value ← expr context e
    let erroneous := erroneous || value.erroneous
    if !erroneous && value.type != first then
      report (.elementType value.type first) e.span
      elements context first true es
    else elements context first erroneous es

end

end Check

end Awl
