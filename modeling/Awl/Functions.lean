import Std.Data.TreeMap
import Awl.Scope
import Awl.Syntax.Basic

/-!
# Functions

The table of all functions, methods and constructors. Two entries of one name differ in their
argument types or in whether they are methods; the result type does not tell them apart. The table
also records which function a definition or a call refers to.
-/

namespace Awl

/-- The number of a function. -/
abbrev FunctionId := Nat

/-- Results that are filed under the numbers of nodes. -/
abbrev NodeMap (α : Type) := Std.TreeMap NodeId α

/-- The name that all constructors share. Their first argument, the new object, keeps those of
different classes apart. -/
def constructorName : String := "<constructor>"

structure Function where
  name : String
  signature : Signature
  isThread : Bool
  /-- The class of a method or constructor. -/
  owner : Option ClassType
  /-- The scope of the parameters and variables, once the body has been checked. -/
  scope : Option ScopeId := none
  deriving DecidableEq

def Function.isConstructor (f : Function) : Bool := f.name == constructorName

/-- Whether a call of `name` with these arguments means this function. -/
def Function.matches (f : Function) (name : String) (arguments : List Ty) (isMethod : Bool) :
    Bool :=
  f.name == name && f.signature.isMethod == isMethod && f.signature.arguments == arguments

/-- There is no index of the functions of a name: they are the ones of that name in `functions`, in
the order of their ids. -/
structure FunctionTable where
  functions : Slots Function := .empty
  /-- The function that a definition or a call refers to. -/
  bindings : NodeMap FunctionId := {}

namespace FunctionTable

/-- The function that a call means. -/
def resolveCall (t : FunctionTable) (name : String) (arguments : List Ty) (isMethod : Bool) :
    Option FunctionId :=
  t.functions.toList.findIdx? fun f => f.matches name arguments isMethod

/-- Adds a function, unless there is one that the same calls mean. -/
def define (t : FunctionTable) (name : String) (signature : Signature) (isThread : Bool)
    (owner : Option ClassType) : Option (FunctionId × FunctionTable) :=
  match t.resolveCall name signature.arguments signature.isMethod with
  | some _ => none
  | none =>
    let id := t.functions.nextId
    some (id, { t with functions := t.functions.push { name, signature, isThread, owner } })

/-- Whether there is any function of this name. -/
def isDefined (t : FunctionTable) (name : String) : Bool :=
  t.functions.toList.any fun f => f.name == name

/-- Records the function that a node refers to, in place of any other. The flag is whether the node
was free. -/
def bind (t : FunctionTable) (node : NodeId) (function : FunctionId) : Bool × FunctionTable :=
  (!t.bindings.contains node, { t with bindings := t.bindings.insert node function })

/-- The function that a node refers to. -/
def lookup (t : FunctionTable) (node : NodeId) : Option FunctionId := t.bindings[node]?

def get (t : FunctionTable) (id : FunctionId) : Except Fault Function := t.functions.fetch id

/-- Sets the scope of a function. -/
def attachScope (t : FunctionTable) (id : FunctionId) (scope : ScopeId) :
    Except Fault FunctionTable := do
  let f ← t.get id
  return { t with functions := ← t.functions.replace id { f with scope := some scope } }

/-- The functions in the order of their definition. -/
def entries (t : FunctionTable) : List (FunctionId × Function) := t.functions.entries

/-- The thread functions in the order of their definition. Thread `i` runs on core `i + 1`. -/
def threads (t : FunctionTable) : List FunctionId :=
  (t.entries.filter fun (_, f) => f.isThread).map (·.1)

end FunctionTable

end Awl
