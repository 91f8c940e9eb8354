import Awl.Slots

/-!
# Types

The types of values, and the registry of the enumerations and classes of a program. Enumerations and
classes are told apart by the number of their registration, never by their name alone.
-/

namespace Awl

/-- The number of a scope. -/
abbrev ScopeId := Nat

/-- A registered enumeration. -/
structure EnumType where
  index : Nat
  name : String
  values : List String
  deriving DecidableEq, Repr

/-- The ordinal of a member, from 1 on. It is 0 for a name that is no member. -/
def EnumType.ordinal (e : EnumType) (member : String) : Nat :=
  match e.values.findIdx? (· == member) with
  | some i => i + 1
  | none => 0

/-- A registered class. -/
structure ClassType where
  index : Nat
  name : String
  deriving DecidableEq, Repr

inductive Ty where
  | int | bool | char | void | lock
  /-- A reference to a block of elements in shared memory. -/
  | array (element : Ty)
  | function (arguments : List Ty) (result : Ty) (isMethod : Bool)
  | enumeration (e : EnumType)
  /-- A reference to an object in shared memory. -/
  | object (c : ClassType)

namespace Ty

mutual

def beq : Ty → Ty → Bool
  | int, int | bool, bool | char, char | void, void | lock, lock => true
  | array a, array b => a.beq b
  | function ts r m, function us s n => beqAll ts us && r.beq s && m == n
  | enumeration e, enumeration f => e == f
  | object c, object d => c == d
  | _, _ => false

def beqAll : List Ty → List Ty → Bool
  | [], [] => true
  | t :: ts, u :: us => t.beq u && beqAll ts us
  | _, _ => false

end

mutual

theorem beq_iff : ∀ a b : Ty, a.beq b = true ↔ a = b
  | int, b | bool, b | char, b | void, b | lock, b => by cases b <;> simp [beq]
  | array a, b => by cases b <;> simp [beq, beq_iff a]
  | function ts r m, b => by
    cases b <;> simp [beq, beqAll_iff ts, beq_iff r, and_assoc]
  | enumeration e, b | object e, b => by cases b <;> simp [beq]

theorem beqAll_iff : ∀ ts us : List Ty, beqAll ts us = true ↔ ts = us
  | [], us => by cases us <;> simp [beqAll]
  | t :: ts, us => by cases us <;> simp [beqAll, beq_iff t, beqAll_iff ts]

end

instance : DecidableEq Ty := fun a b => decidable_of_iff _ (beq_iff a b)

mutual

/-- How the type is written in messages. -/
def text : Ty → String
  | int => "int"
  | bool => "bool"
  | char => "char"
  | void => "void"
  | lock => "lock"
  | array element => element.text ++ "[]"
  | function arguments result isMethod =>
    (if isMethod then "method(" else "function(") ++ ", ".intercalate (textAll arguments) ++
      ") -> " ++ result.text
  | enumeration e => e.name
  | object c => c.name

def textAll : List Ty → List String
  | [] => []
  | t :: ts => t.text :: textAll ts

end

/-- The types of a list of arguments, as they are written in messages. -/
def listText (ts : List Ty) : String := ", ".intercalate (textAll ts)

/-- The number of words that a value takes. Arrays and objects are stored as an address. -/
def size (_ : Ty) : Nat := 1

def isFunction : Ty → Bool
  | function .. => true
  | _ => false

def element? : Ty → Option Ty
  | array element => some element
  | _ => none

def class? : Ty → Option ClassType
  | object c => some c
  | _ => none

end Ty

/-- The argument types and the result type of a function. A method has its receiver as the first
argument. -/
structure Signature where
  arguments : List Ty
  result : Ty
  isMethod : Bool
  deriving DecidableEq

def Signature.type (s : Signature) : Ty := .function s.arguments s.result s.isMethod

def Signature.text (s : Signature) : String := s.type.text

/-! ## The registry -/

/-- A type name is taken. -/
structure DuplicateType where
  name : String
  deriving DecidableEq, Repr

def DuplicateType.message (e : DuplicateType) : String :=
  "type `" ++ e.name ++ "` is already defined"

/-- The enumerations and classes by name, which share one namespace, and the member scope of every
class. Numbers of registrations are never used again. -/
structure TypeRegistry where
  enums : List (String × EnumType) := []
  classes : List (String × ClassType) := []
  enumCount : Nat := 0
  /-- The member scope of every class that was ever registered, once it has one. -/
  memberScopes : Slots (Option ScopeId) := .empty

namespace TypeRegistry

def enum? (r : TypeRegistry) (name : String) : Option EnumType := r.enums.lookup name

def class? (r : TypeRegistry) (name : String) : Option ClassType := r.classes.lookup name

def isDefined (r : TypeRegistry) (name : String) : Bool :=
  (r.enum? name).isSome || (r.class? name).isSome

/-- The type called `name`. -/
def lookup (r : TypeRegistry) (name : String) : Option Ty :=
  match r.enum? name with
  | some e => some (.enumeration e)
  | none => (r.class? name).map .object

def defineEnum (r : TypeRegistry) (name : String) (values : List String) :
    Except DuplicateType (EnumType × TypeRegistry) :=
  if r.isDefined name then .error { name }
  else
    let e : EnumType := { index := r.enumCount, name, values }
    .ok (e, { r with enums := (name, e) :: r.enums, enumCount := r.enumCount + 1 })

def defineClass (r : TypeRegistry) (name : String) :
    Except DuplicateType (ClassType × TypeRegistry) :=
  if r.isDefined name then .error { name }
  else
    let c : ClassType := { index := r.memberScopes.nextId, name }
    .ok (c, { r with classes := (name, c) :: r.classes, memberScopes := r.memberScopes.push none })

/-- The member scope of a class, if it has been set. -/
def memberScope? (r : TypeRegistry) (c : ClassType) : Option ScopeId :=
  (r.memberScopes.get? c.index).join

/-- Gives a class its member scope. Throws `writtenTwice` if it has one. -/
def setMemberScope (r : TypeRegistry) (c : ClassType) (scope : ScopeId) :
    Except Fault TypeRegistry := do
  match ← r.memberScopes.fetch c.index with
  | some _ => throw .writtenTwice
  | none => return { r with memberScopes := ← r.memberScopes.replace c.index (some scope) }

/-- Forgets all names. Types that were registered keep their member scopes. -/
def clear (r : TypeRegistry) : TypeRegistry := { r with enums := [], classes := [] }

end TypeRegistry

end Awl
