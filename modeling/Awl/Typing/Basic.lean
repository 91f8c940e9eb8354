import Awl.Diagnostic
import Awl.Functions

/-!
# The checker's tables

The checker fills four tables: the registered types, the scopes, the functions, and what it finds
out about each node. It goes on after an error: it reports a `Problem` and uses a substitute type
from there on. A value whose type is a substitute is marked as erroneous, so that what depends on it
is not reported again.
-/

namespace Awl

/-- The name of the receiver in methods and constructors. -/
def receiverName : String := "this"

/-- What is known about nodes. Every entry is written once. -/
structure Annotations where
  types : NodeMap Ty := {}
  /-- The scope that binds the name which a node declares or uses. -/
  scopes : NodeMap ScopeId := {}

def Annotations.type? (a : Annotations) (node : NodeId) : Option Ty := a.types[node]?

def Annotations.scope? (a : Annotations) (node : NodeId) : Option ScopeId := a.scopes[node]?

/-- Classes with their types. -/
abbrev TypedClasses := List (ClassDef × ClassType)

/-- Everything the code generator needs to know about a checked unit. -/
structure Tables where
  types : TypeRegistry := {}
  scopes : ScopeTree := .new
  functions : FunctionTable := {}
  annotations : Annotations := {}

/-- The function with this number. -/
abbrev Tables.function? (t : Tables) (f : FunctionId) : Option Function :=
  t.functions.functions.get? f

structure CheckState where
  tables : Tables := {}
  /-- The diagnostics so far, in the order of their report. -/
  diagnostics : Array Diagnostic := #[]

/-- Checking with the tables as state. It fails only if a table is used outside its contract. -/
abbrev Check := StateT CheckState (Except Fault)

/-- The type of a checked expression. -/
structure Typed where
  type : Ty
  /-- Whether an error has been reported, so that the type may be a substitute. -/
  erroneous : Bool

def Typed.sound (type : Ty) : Typed := { type, erroneous := false }

def Typed.error (type : Ty) : Typed := { type, erroneous := true }

/-- Where a statement stands with respect to the blocks of switches. -/
inductive SwitchPosition where
  | outside
  /-- In a block of a switch that another one follows. -/
  | followed
  /-- In the last block of a switch. -/
  | last
  deriving DecidableEq, Repr

/-- Where a statement or an expression is checked. -/
structure Context where
  scope : ScopeId
  /-- The function whose body is being checked. -/
  function : Option FunctionId
  position : SwitchPosition

namespace Check

def report (problem : Problem) (span : Span) : Check Unit :=
  modify fun s => { s with diagnostics := s.diagnostics.push { problem, span } }

def tables : Check Tables := return (← get).tables

def setScopes (scopes : ScopeTree) : Check Unit :=
  modify fun s => { s with tables := { s.tables with scopes } }

def setTypes (types : TypeRegistry) : Check Unit :=
  modify fun s => { s with tables := { s.tables with types } }

def setFunctions (functions : FunctionTable) : Check Unit :=
  modify fun s => { s with tables := { s.tables with functions } }

def setAnnotations (annotations : Annotations) : Check Unit :=
  modify fun s => { s with tables := { s.tables with annotations } }

/-! ## Scopes -/

def openChild (parent : ScopeId) (kind : ScopeKind) : Check ScopeId := do
  let (id, scopes) ← (← tables).scopes.openChild parent kind
  setScopes scopes
  return id

def declareIn (scope : ScopeId) (name : String) (type : Ty) : Check Bool := do
  let (free, scopes) ← (← tables).scopes.declareIn scope name type
  setScopes scopes
  return free

def reserveIn (scope : ScopeId) (name : String) (type : Ty) : Check Bool := do
  let (free, scopes) ← (← tables).scopes.reserveIn scope name type
  setScopes scopes
  return free

def resolveFrom (scope : ScopeId) (name : String) : Check (Option (Ty × ScopeId)) := do
  (← tables).scopes.resolveFrom scope name

def binding? (scope : ScopeId) (name : String) : Check (Option Binding) := do
  (← tables).scopes.binding? scope name

/-- The member scope of a class. -/
def memberScope (c : ClassType) : Check ScopeId := do
  match (← tables).types.memberScope? c with
  | some scope => return scope
  | none => throw .unset

/-! ## Functions and annotations -/

/-- Records the function that a node refers to. -/
def bindFunction (node : NodeId) (function : FunctionId) : Check Unit := do
  let (free, functions) := (← tables).functions.bind node function
  setFunctions functions
  if !free then throw .writtenTwice

def recordType (node : NodeId) (type : Ty) : Check Unit := do
  let annotations := (← tables).annotations
  if annotations.types.contains node then throw .writtenTwice
  setAnnotations { annotations with types := annotations.types.insert node type }

def recordScope (node : NodeId) (scope : ScopeId) : Check Unit := do
  let annotations := (← tables).annotations
  if annotations.scopes.contains node then throw .writtenTwice
  setAnnotations { annotations with scopes := annotations.scopes.insert node scope }

/-! ## Types -/

/-- The type that is written as `type`. The substitute stands in for a name that is no type. -/
def resolveType (substitute : Ty) (span : Span) : TypeExpr → Check Ty
  | .int => return .int
  | .bool => return .bool
  | .char => return .char
  | .void => return .void
  | .lock => return .lock
  | .array element => return .array (← resolveType substitute span element)
  | .named name => do
    match (← tables).types.lookup name with
    | some type => return type
    | none =>
      report (.unknownType name) span
      return substitute

/-- Reports that a value does not have the type its purpose needs, unless the value has been
reported. -/
def expectType (value : Typed) (expected : Ty) (span : Span) (purpose : Purpose) : Check Unit := do
  if !value.erroneous && value.type != expected then
    report (.mismatch expected purpose value.type) span

end Check

end Awl
