import Awl.Code.Expr

/-!
# Code of statements
-/

namespace Awl.Code

open Machine

/-- The same place with another block for `next` to go on with. -/
def Context.withNext (context : Context) (next : Option LabelId) : Context := { context with next }

namespace Emit

def declaration (context : Context) (d : Declaration) : Emit Unit := do
  let first ← here
  match d.initializer with
  | some initializer =>
    let value ← expr context initializer
    storePlace value (← namePlace context d.node.id d.name)
    release value
  | none => storePlace .zero (← namePlace context d.node.id d.name)
  comment first ("declare " ++ d.name)

def assignment (context : Context) (target : Awl.Target) (value : Expr) : Emit Unit := do
  let first ← here
  let place ← targetPlace context target
  let value ← expr context value
  storePlace value place
  release value
  match target with
  | .name _ x => comment first ("assign " ++ x)
  | _ => pure ()

/-- Returns the value of an expression, or nothing. -/
def returnStatement (context : Context) : Option Expr → Emit Unit
  | some value => do
    let r ← expr context value
    jumpBack (some r)
    release r
  | none => jumpBack none

/-- The shared address of a lock, used by `f`. A register that holds the address is released
afterwards. -/
def withLock (context : Context) (lock : Expr) (f : Address → Emit Unit) : Emit Unit := do
  let address ← orThrow (← exprPlace context lock).address
  f address
  match address with
  | .indirect r => release r
  | .direct _ => pure ()

/-- Jumps to a label unless a condition holds. -/
def branchUnless (context : Context) (condition : Expr) (l : LabelId) : Emit Unit := do
  let r ← expr context condition
  compute .equal .zero r r
  branch r l
  release r

/-- The code, or an instruction without effect if it is empty. The result is the position of the
first instruction. -/
def nonempty (code : Emit Unit) : Emit InstructionId := do
  let first ← here
  code
  if (← here) == first then nop
  return first

/-- A loop that tests its condition before each pass. -/
def loop (context : Context) (condition : Expr) (body step : Emit Unit) : Emit Unit := do
  let test ← createLabel "loop"
  let done ← createLabel "loop_end"
  let start ← here
  let r ← expr context condition
  bind test start
  compute .equal .zero r r
  branch r done
  release r
  body
  step
  jump (.label test)
  anchor done

def createLabels (name : String) : Nat → Emit (List LabelId)
  | 0 => return []
  | n + 1 => do
    let l ← createLabel name
    return l :: (← createLabels name n)

/-- A block of a switch. A value other than the discriminant leads to `miss`. -/
def switchCase (context : Context) (discriminant : Register) (value : Expr)
    (test bodyLabel miss done : LabelId) (body : Emit InstructionId) : Emit Unit := do
  let start ← here
  let r ← expr context value
  bind test start
  compute .notEqual discriminant r r
  branch r miss
  release r
  bind bodyLabel (← body)
  jump (.label done)

mutual

def stmt (context : Context) (s : Stmt) : Emit Unit := do
  match s with
  | .declaration _ d => declaration context d
  | .assignment _ target value => assignment context target value
  | .ifElse _ condition thenBlock none => do
    let done ← createLabel "if_end"
    branchUnless context condition done
    discard <| block context thenBlock
    anchor done
  | .ifElse _ condition thenBlock (some elseBlock) => do
    let done ← createLabel "if_end"
    let r ← expr context condition
    let thenLabel ← createLabel "then"
    branch r thenLabel
    release r
    discard <| block context elseBlock
    jump (.label done)
    bind thenLabel (← block context thenBlock)
    anchor done
  | .whileLoop _ condition body =>
    loop context condition (discard <| block context body) (pure ())
  | .doLoop _ body condition => do
    let start ← createLabel "do"
    bind start (← block context body)
    let r ← expr context condition
    branch r start
    release r
  | .forLoop _ initializer condition step body => do
    optionalStmt context initializer
    loop context condition (discard <| block context body) (optionalStmt context step)
  | .block _ b => discard <| block context b
  | .switch _ d cases fallback => do
    let done ← createLabel "switch_end"
    let tests ← createLabels "case" cases.length
    let bodies ← createLabels "case_body" cases.length
    match fallback with
    | none => do
      let discriminant ← expr context d
      switchCases context discriminant done none cases (tests.zip bodies)
      anchor done
      release discriminant
    | some b => do
      let fallbackLabel ← createLabel "default"
      let discriminant ← expr context d
      switchCases context discriminant done (some fallbackLabel) cases (tests.zip bodies)
      bind fallbackLabel (← block (context.withNext none) b)
      anchor done
      release discriminant
  | .next _ =>
    match context.next with
    | some l => jump (.label l)
    | none => throw .nextOutsideSwitch
  | .return _ value => returnStatement context value
  | .expression _ e => do release (← expr context e)
  | .acquire _ lock => withLock context lock acquire
  | .release _ lock => withLock context lock (writeShared .zero)

def optionalStmt (context : Context) : Option Stmt → Emit Unit
  | none => pure ()
  | some s => stmt context s

def stmts (context : Context) : List Stmt → Emit Unit
  | [] => pure ()
  | s :: ss => do
    stmt context s
    stmts context ss

/-- The code of a block. The result is the position of its first instruction. -/
def block (context : Context) : Block → Emit InstructionId
  | .mk _ statements => nonempty (stmts context statements)

/-- The blocks of a switch, each with the labels of its test and of its body. A failed test goes on
with the next test, then with the fallback; a finished block leaves the switch. -/
def switchCases (context : Context) (discriminant : Register) (done : LabelId)
    (fallback : Option LabelId) : List Case → List (LabelId × LabelId) → Emit Unit
  | .mk _ value body :: cases, (test, bodyLabel) :: labels => do
    let miss := ((labels.head?.map (·.1)).or fallback).getD done
    let next := (labels.head?.map (·.2)).or fallback
    switchCase context discriminant value test bodyLabel miss done
      (block (context.withNext next) body)
    switchCases context discriminant done fallback cases labels
  | _, _ => pure ()

end

end Emit

end Awl.Code
