import Awl.Typing.Returns
import Awl.Typing.Stmt

/-!
# Checking a unit

Checking has two passes. The first one registers all types, lays out the fields of classes and
collects the signatures of all functions, so that definitions can refer to later ones. The second
one checks the statements of the main core, the initializers of fields and the bodies of functions.
A unit is accepted if nothing is reported.
-/

namespace Awl

namespace Check

variable (substitute : Ty)

/-! ## Types -/

def declareEnum (definition : EnumDef) : Check Unit := do
  match (← tables).types.defineEnum definition.name definition.values with
  | .ok (_, types) => setTypes types
  | .error e => report (.typeRedefined e) definition.node.span

/-- Registers a class. The result is `none` if its name is taken. -/
def declareClass (definition : ClassDef) : Check (Option (ClassDef × ClassType)) := do
  match (← tables).types.defineClass definition.name with
  | .ok (c, types) =>
    setTypes types
    return some (definition, c)
  | .error e =>
    report (.typeRedefined e) definition.node.span
    return none

def declareField (c : ClassType) (scope : ScopeId) (field : Declaration) : Check Unit := do
  let span := field.node.span
  let type ← resolveType substitute span field.type
  if type == .void || type == .lock then report (.fieldOfType field.name type) span
  if !(← declareIn scope field.name type) then report (.fieldRedeclared field.name c.name) span
  recordType field.node.id type
  recordScope field.node.id scope

/-- Gives a class its member scope and lays out its fields. -/
def declareFields (definition : ClassDef) (c : ClassType) : Check Unit := do
  let scope ← openChild ScopeTree.globalId .members
  setTypes (← (← tables).types.setMemberScope c scope)
  definition.fields.forM (declareField substitute c scope)

/-- Registers all types. The result is the classes that were registered, in source order. All of
them are known before the type of any field is resolved. -/
def declareTypes (unit : SourceUnit) : Check TypedClasses := do
  unit.enums.forM declareEnum
  let classes := (← unit.classes.mapM declareClass).filterMap id
  classes.forM fun (definition, c) => declareFields substitute definition c
  return classes

/-! ## Functions -/

def parameterType (p : Parameter) : Check Ty := do
  let type ← resolveType substitute p.node.span p.type
  if type == .void then report (.voidParameter p.name) p.node.span
  if type == .lock then report (.lockParameter p.name) p.node.span
  return type

def resultType (name : String) (span : Span) (type : TypeExpr) : Check Ty := do
  let type ← resolveType substitute span type
  if type == .lock then report (.lockResult name) span
  return type

/-- Adds a function to the table and binds its definition to it. -/
def defineFunction (name : String) (signature : Signature) (isThread : Bool)
    (owner : Option ClassType) (node : Node) : Check Unit := do
  match (← tables).functions.define name signature isThread owner with
  | some (id, functions) =>
    setFunctions functions
    bindFunction node.id id
  | none => report (.functionRedefined name signature) node.span

/-- Reserves the name of a method against fields. Methods of one name share a binding. -/
def reserveMethod (c : ClassType) (scope : ScopeId) (name : String) (signature : Signature)
    (span : Span) : Check Unit := do
  match ← binding? scope name with
  | some binding =>
    if !binding.type.isFunction then report (.methodNamedLikeField name c.name) span
  | none => discard <| reserveIn scope name signature.type

def declareMethod (c : ClassType) (scope : ScopeId) (method : FunctionDef) : Check Unit := do
  let span := method.node.span
  if method.isThread then report (.threadMethod method.name) span
  let parameters ← method.parameters.mapM (parameterType substitute)
  let result ← resultType substitute method.name span method.returnType
  let signature := { arguments := .object c :: parameters, result, isMethod := true }
  reserveMethod c scope method.name signature span
  defineFunction method.name signature false (some c) method.node

def declareConstructor (c : ClassType) (constructor : ConstructorDef) : Check Unit := do
  let parameters ← constructor.parameters.mapM (parameterType substitute)
  let signature := { arguments := .object c :: parameters, result := .void, isMethod := true }
  defineFunction constructorName signature false (some c) constructor.node

def declareFunction (f : FunctionDef) : Check Unit := do
  let arguments ← f.parameters.mapM (parameterType substitute)
  let result ← resultType substitute f.name f.node.span f.returnType
  if f.isThread && (!arguments.isEmpty || result != .void) then
    report (.threadSignature f.name) f.node.span
  defineFunction f.name { arguments, result, isMethod := false } f.isThread none f.node

def declareFunctions (unit : SourceUnit) (classes : TypedClasses) :
    Check Unit := do
  classes.forM fun (definition, c) => do
    let scope ← memberScope c
    definition.methods.forM (declareMethod substitute c scope)
    definition.constructors.forM (declareConstructor substitute c)
  unit.functions.forM (declareFunction substitute)

/-! ## Bodies -/

/-- The place of top level code. -/
def topLevel : Context :=
  { scope := ScopeTree.globalId, function := none, position := .outside }

def fieldInitializer (c : ClassType) (field : Declaration) : Check Unit := do
  match field.initializer with
  | none => pure ()
  | some initializer =>
    let value ← expr substitute topLevel initializer
    match ← binding? (← memberScope c) field.name with
    | none => pure ()
    | some binding =>
      expectType value binding.type initializer.span (.field field.name binding.type)

def declareParameter (scope : ScopeId) (p : Parameter) (type : Ty) : Check Unit := do
  if !(← declareIn scope p.name type) then report (.parameterRedeclared p.name) p.node.span
  recordType p.node.id type
  recordScope p.node.id scope

/-- Checks the body of a function, in the scope of its parameters. -/
def body (function : FunctionId) (scope : ScopeId) (span : Span) : FunctionBody → Check Unit
  | .block b => do
    let f ← (← tables).functions.get function
    stmts substitute { scope, function := some function, position := .outside } b.statements
    if f.signature.result != .void && !b.returns then report (.missingReturn f.name) span
  | .expression e => do
    let f ← (← tables).functions.get function
    let value ← expr substitute { scope, function := some function, position := .outside } e
    expectType value f.signature.result e.span (.expressionBody f.name)

/-- Checks a definition. One that was not added to the table has been reported already. -/
def definition (node : Node) (owner : Option ClassType) (parameters : List Parameter)
    (b : FunctionBody) : Check Unit := do
  match (← tables).functions.lookup node.id with
  | none => pure ()
  | some function =>
    let parent ← match owner with
      | some c => memberScope c
      | none => pure ScopeTree.globalId
    let scope ← openChild parent .function
    let arguments := (← (← tables).functions.get function).signature.arguments
    let arguments ← match owner with
      | some c => do
        discard <| declareIn scope receiverName (.object c)
        pure arguments.tail
      | none => pure arguments
    (parameters.zip arguments).forM fun (p, type) => declareParameter scope p type
    setFunctions (← (← tables).functions.attachScope function scope)
    body substitute function scope node.span b

def bodies (unit : SourceUnit) (classes : TypedClasses) : Check Unit := do
  stmts substitute topLevel unit.statements
  classes.forM fun (d, c) => do
    d.fields.forM (fieldInitializer substitute c)
    d.methods.forM fun m => definition substitute m.node (some c) m.parameters m.body
    d.constructors.forM fun k => definition substitute k.node (some c) k.parameters (.block k.body)
  unit.functions.forM fun f => definition substitute f.node none f.parameters f.body

def unit (u : SourceUnit) : Check Unit := do
  let classes ← declareTypes substitute u
  declareFunctions substitute u classes
  bodies substitute u classes

end Check

/-- Why a unit has no tables. -/
inductive CheckError where
  /-- The unit is not well typed. -/
  | rejected (diagnostics : List Diagnostic)
  | fault (f : Fault)

/-- Checks a unit with a given substitute for types that cannot be determined. -/
def SourceUnit.checkWith (substitute : Ty) (u : SourceUnit) : Except CheckError Tables :=
  match (Check.unit substitute u).run {} with
  | .error f => .error (.fault f)
  | .ok ((), s) =>
    if s.diagnostics.isEmpty then .ok s.tables else .error (.rejected s.diagnostics.toList)

/-- Checks a unit. -/
def SourceUnit.check (u : SourceUnit) : Except CheckError Tables := u.checkWith .bool

end Awl
