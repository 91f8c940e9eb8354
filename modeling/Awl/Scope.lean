import Awl.Types

/-!
# Scopes

Scopes form a tree: every scope but the global one has a parent. A scope binds names to types and
storage slots. The global scope, class scopes and function scopes count their own slots; a block
takes its slots from the nearest of them around it, so that all blocks of a function share one
frame.
-/

namespace Awl

inductive ScopeKind where
  | global
  /-- The members of a class; slots are the words of an object. -/
  | members
  | function
  | block
  deriving DecidableEq, Repr

/-- Whether a scope counts its own slots. -/
def ScopeKind.ownsSlots : ScopeKind → Bool
  | .block => false
  | _ => true

structure Binding where
  type : Ty
  /-- The slot of the variable. A name that is only reserved has none. -/
  offset : Option Nat
  deriving DecidableEq

structure Scope where
  parent : Option ScopeId
  kind : ScopeKind
  bindings : List (String × Binding) := []
  /-- The scope that counts the slots of this one. -/
  owner : ScopeId
  /-- The number of slots handed out, if this scope counts slots. -/
  slots : Nat := 0
  deriving DecidableEq

/-- The global scope cannot be closed. -/
inductive ScopeError where
  | closeOutermost
  deriving DecidableEq, Repr

def ScopeError.message : ScopeError → String
  | .closeOutermost => "attempted to close the global scope"

structure ScopeTree where
  scopes : Slots Scope
  current : ScopeId
  deriving DecidableEq

namespace ScopeTree

/-- The global scope is the first one. -/
def globalId : ScopeId := 0

def new : ScopeTree where
  scopes := Slots.empty.push { parent := none, kind := .global, owner := globalId }
  current := globalId

def kind (t : ScopeTree) (scope : ScopeId) : Except Fault ScopeKind := do
  return (← t.scopes.fetch scope).kind

def parent (t : ScopeTree) (scope : ScopeId) : Except Fault (Option ScopeId) := do
  return (← t.scopes.fetch scope).parent

def isGlobal (t : ScopeTree) (scope : ScopeId) : Except Fault Bool := do
  return (← t.parent scope).isNone

/-- The scope that counts the slots of a new scope, numbered `id`, of the given kind. -/
def ownerFor (t : ScopeTree) (id parent : ScopeId) (kind : ScopeKind) : Except Fault ScopeId :=
  if kind.ownsSlots then .ok id else do return (← t.scopes.fetch parent).owner

/-- Adds a child of `parent`, which need not exist if the child counts its own slots. There is only
one global scope. -/
def openChild (t : ScopeTree) (parent : ScopeId) (kind : ScopeKind) :
    Except Fault (ScopeId × ScopeTree) := do
  if kind == .global then throw .secondGlobal
  let id := t.scopes.nextId
  let owner ← t.ownerFor id parent kind
  return (id, { t with scopes := t.scopes.push { parent := some parent, kind, owner } })

/-- Adds a child of the current scope and makes it current. -/
def openScope (t : ScopeTree) (kind : ScopeKind) : Except Fault (ScopeId × ScopeTree) := do
  let (id, t) ← t.openChild t.current kind
  return (id, { t with current := id })

/-- Makes the parent of the current scope current. The result is the scope that was left. -/
def closeScope (t : ScopeTree) : Except Fault (Except ScopeError (ScopeId × ScopeTree)) := do
  match ← t.parent t.current with
  | none => return .error .closeOutermost
  | some parent => return .ok (t.current, { t with current := parent })

/-- Runs `f` with `scope` as the current one, and makes the former one current again. -/
def withScope {α : Type} (t : ScopeTree) (scope : ScopeId) (f : ScopeTree → α × ScopeTree) :
    α × ScopeTree :=
  let (a, t') := f { t with current := scope }
  (a, { t' with current := t.current })

/-- Looks up a name in one scope only. -/
def binding? (t : ScopeTree) (scope : ScopeId) (name : String) : Except Fault (Option Binding) := do
  return (← t.scopes.fetch scope).bindings.lookup name

/-- The slot of a name in one scope only. -/
def offset? (t : ScopeTree) (scope : ScopeId) (name : String) : Except Fault (Option Nat) := do
  return (← t.binding? scope name).bind (·.offset)

/-- Adds a binding to a scope. -/
def bind (t : ScopeTree) (scope : ScopeId) (name : String) (binding : Binding) :
    Except Fault ScopeTree := do
  let s ← t.scopes.fetch scope
  let scopes ← t.scopes.replace scope { s with bindings := (name, binding) :: s.bindings }
  return { t with scopes }

/-- Hands out slots of a scope that counts them. The result is the first one. -/
def takeSlots (t : ScopeTree) (owner : ScopeId) (count : Nat) : Except Fault (Nat × ScopeTree) := do
  let s ← t.scopes.fetch owner
  let scopes ← t.scopes.replace owner { s with slots := s.slots + count }
  return (s.slots, { t with scopes })

/-- Binds a name in a scope to a type and the next slot. The result is whether the name was free;
if it was not, nothing changes. -/
def declareIn (t : ScopeTree) (scope : ScopeId) (name : String) (type : Ty) :
    Except Fault (Bool × ScopeTree) := do
  match ← t.binding? scope name with
  | some _ => return (false, t)
  | none =>
    let (offset, t) ← t.takeSlots (← t.scopes.fetch scope).owner type.size
    return (true, ← t.bind scope name { type, offset := some offset })

/-- Binds a name in the current scope. -/
def declare (t : ScopeTree) (name : String) (type : Ty) : Except Fault (Bool × ScopeTree) :=
  t.declareIn t.current name type

/-- Binds a name in a scope to a type without a slot. -/
def reserveIn (t : ScopeTree) (scope : ScopeId) (name : String) (type : Ty) :
    Except Fault (Bool × ScopeTree) := do
  match ← t.binding? scope name with
  | some _ => return (false, t)
  | none => return (true, ← t.bind scope name { type, offset := none })

/-- Looks up a name in a scope and its ancestors, at most `fuel` of them. The result is its type and
the scope that binds it. -/
def resolveWithin (t : ScopeTree) (name : String) (fuel : Nat) (scope : ScopeId) :
    Except Fault (Option (Ty × ScopeId)) :=
  match fuel with
  | 0 => .error .endlessChain
  | fuel + 1 => do
    match ← t.binding? scope name with
    | some binding => return some (binding.type, scope)
    | none =>
      match ← t.parent scope with
      | none => return none
      | some parent => t.resolveWithin name fuel parent

/-- Looks up a name in a scope and its ancestors. A chain of ancestors has at most one entry for
each scope. -/
def resolveFrom (t : ScopeTree) (scope : ScopeId) (name : String) :
    Except Fault (Option (Ty × ScopeId)) :=
  t.resolveWithin name (t.scopes.size + 1) scope

/-- Looks up a name in the current scope and its ancestors. -/
def resolve (t : ScopeTree) (name : String) : Except Fault (Option (Ty × ScopeId)) :=
  t.resolveFrom t.current name

/-- The number of slots handed out by the scope that counts the slots of `scope`. -/
def frameSize (t : ScopeTree) (scope : ScopeId) : Except Fault Nat := do
  let s ← t.scopes.fetch scope
  return (← t.scopes.fetch s.owner).slots

end ScopeTree

end Awl
