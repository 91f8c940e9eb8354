import Awl.Typing.Expr

/-!
# Checking statements
-/

namespace Awl

/-- The same place in another scope. -/
def Context.inScope (context : Context) (scope : ScopeId) : Context := { context with scope }

/-- The same place in a block of a switch. -/
def Context.inCase (context : Context) (position : SwitchPosition) : Context :=
  { context with position }

namespace Check

variable (substitute : Ty)

/-- The type of an assignment's left side. Records it. -/
def target (context : Context) (t : Target) : Check Typed := do
  let typed ← match t with
    | .name n x => do
      match ← resolveFrom context.scope x with
      | some (type, scope) =>
        if type.isFunction then
          report (.assignmentToUndeclared x) n.span
          pure (.error substitute)
        else
          recordScope n.id scope
          pure (.sound type)
      | none =>
        report (.assignmentToUndeclared x) n.span
        pure (.error substitute)
    | .index n a i => do
      let array ← expr substitute context a
      let index ← expr substitute context i
      elementType substitute n.span array index
    | .field n o x => do
      let object ← expr substitute context o
      fieldType substitute n.span object x
  recordType t.id typed.type
  return typed

/-- Checks a declaration. Its name is bound after its initializer is checked, so the initializer
cannot use it. -/
def declaration (context : Context) (d : Declaration) : Check Unit := do
  let span := d.node.span
  let type ← resolveType substitute span d.type
  if type == .void then report (.voidVariable d.name) span
  if type == .lock && !(← (← tables).scopes.isGlobal context.scope) then
    report (.localLock d.name) span
  match d.initializer with
  | none => pure ()
  | some initializer =>
    let value ← expr substitute context initializer
    expectType value type initializer.span (.initializer d.name)
  if !(← declareIn context.scope d.name type) then report (.redeclared d.name) span
  recordType d.node.id type
  recordScope d.node.id context.scope

def condition (context : Context) (construct : Construct) (e : Expr) : Check Unit := do
  let value ← expr substitute context e
  if !value.erroneous && value.type != .bool then
    report (.condition construct value.type) e.span

/-- Checks the operand of a lock operation: a place of type lock. -/
def lockOperand (context : Context) (operation : LockOperation) (e : Expr) : Check Unit := do
  let lock ← expr substitute context e
  if !lock.erroneous && lock.type != .lock then
    report (.notALock operation lock.type) e.span
  else if !lock.erroneous && !e.isPlace then
    report (.computedLock operation) e.span

def returnStatement (context : Context) (span : Span) (value : Option Expr) : Check Unit := do
  match context.function with
  | none =>
    report .returnOutsideFunction span
    match value with
    | none => pure ()
    | some value => discard <| expr substitute context value
  | some function =>
    let f ← (← tables).functions.get function
    let expected := f.signature.result
    match value with
    | some value =>
      let value ← expr substitute context value
      if expected == .void then report (.valueReturned f.name) span
      else expectType value expected span (.returnValue f.name)
    | none => if expected != .void then report (.noValueReturned f.name expected) span

mutual

def stmt (context : Context) (s : Stmt) : Check Unit := do
  match s with
  | .declaration _ d => declaration substitute context d
  | .assignment n t value => do
    let target ← target substitute context t
    let value ← expr substitute context value
    if !target.erroneous then expectType value target.type n.span .assignment
  | .ifElse _ c thenBlock elseBlock => do
    condition substitute context .ifElse c
    block context thenBlock
    optionalBlock context elseBlock
  | .whileLoop _ c body => do
    condition substitute context .whileLoop c
    block context body
  | .doLoop _ body c => do
    block context body
    condition substitute context .doLoop c
  | .forLoop _ initializer c step body => do
    -- The variable of the loop lives in a scope around the whole loop.
    let context := context.inScope (← openChild context.scope .block)
    optionalStmt context initializer
    condition substitute context .forLoop c
    optionalStmt context step
    block context body
  | .block _ b => block context b
  | .switch _ d cases fallback => do
    let discriminant ← expr substitute context d
    switchCases context discriminant fallback.isSome cases
    optionalBlock (context.inCase .last) fallback
  | .next n =>
    if context.position != .followed then
      report (.misplacedNext (context.position == .last)) n.span
  | .return n value => returnStatement substitute context n.span value
  | .expression _ e => discard <| expr substitute context e
  | .acquire _ lock => lockOperand substitute context .acquire lock
  | .release _ lock => lockOperand substitute context .release lock

def optionalStmt (context : Context) : Option Stmt → Check Unit
  | none => pure ()
  | some s => stmt context s

def stmts (context : Context) : List Stmt → Check Unit
  | [] => pure ()
  | s :: ss => do
    stmt context s
    stmts context ss

/-- Checks a block in a scope of its own. -/
def block (context : Context) : Block → Check Unit
  | .mk _ statements => do
    let scope ← openChild context.scope .block
    stmts (context.inScope scope) statements

def optionalBlock (context : Context) : Option Block → Check Unit
  | none => pure ()
  | some b => block context b

/-- Checks the blocks of a switch. The flag is whether a fallback follows them. -/
def switchCases (context : Context) (discriminant : Typed) (fallback : Bool) :
    List Case → Check Unit
  | [] => pure ()
  | .mk n v body :: cases => do
    let value ← expr substitute context v
    if !discriminant.erroneous && !value.erroneous && value.type != discriminant.type then
      report (.caseType value.type discriminant.type) n.span
    let position := if !cases.isEmpty || fallback then .followed else .last
    block (context.inCase position) body
    switchCases context discriminant fallback cases

end

end Check

end Awl
