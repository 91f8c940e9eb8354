import Awl.Proofs.ReturnPaths
import Awl.Typing.Basic

/-!
# The typing rules

The rules that a unit must obey, stated without the checker: there is no order of passes, no report
and no substitute type. `Expr.HasType` gives the type of an expression, `Stmt.WellTyped` says that a
statement is well formed and which names are in scope after it, and `SourceUnit.WellTyped` is the
whole set of rules for a unit. The rules read the definitions of a unit through `Globals`.
-/

namespace Awl

/-! ## Names -/

/-- The names that one scope binds, the latest one first. A variable has its type, the name of a
method has none. -/
abbrev Names := List (String × Option Ty)

/-- What a name means inside these scopes, the innermost one first. -/
def Names.find (scopes : List Names) (x : String) : Option (Option Ty) :=
  scopes.findSome? (·.lookup x)

/-- What the definitions of a unit provide to its code. -/
structure Globals where
  /-- The enumeration or class of a name. -/
  type? : String → Option Ty
  /-- The type of a field of a class. -/
  field? : ClassType → String → Option Ty
  /-- The result type of the function that a call with these arguments means. The flag is whether
  the call has a receiver. -/
  result? : String → List Ty → Bool → Option Ty

/-- The type that is written as a type expression, given the named types. -/
def TypeExpr.denotes (types : String → Option Ty) : TypeExpr → Option Ty
  | .int => some .int
  | .bool => some .bool
  | .char => some .char
  | .void => some .void
  | .lock => some .lock
  | .array element => (element.denotes types).map .array
  | .named x => types x

/-! ## Expressions -/

/-- The operand types and the result type of the binary operators. -/
inductive OperandRule.Takes : OperandRule → Ty → Ty → Ty → Prop
  | arithmetic : OperandRule.Takes .arithmetic .int .int .int
  | orderInt : OperandRule.Takes .ordering .int .int .bool
  | orderChar : OperandRule.Takes .ordering .char .char .bool
  | equality {τ : Ty} : OperandRule.Takes .equality τ τ .bool
  | logical : OperandRule.Takes .logical .bool .bool .bool

section

variable (Γ : Globals) (scopes : List Names)

mutual

/-- The type of an expression. -/
inductive Expr.HasType : Expr → Ty → Prop
  | int {n : Node} {v : Int32} : Expr.HasType (.literal n (.int v)) .int
  | bool {n : Node} {v : Bool} : Expr.HasType (.literal n (.bool v)) .bool
  | char {n : Node} {v : Char} : Expr.HasType (.literal n (.char v)) .char
  | string {n : Node} {v : String} : Expr.HasType (.literal n (.string v)) (.array .char)
  | name {n : Node} {x : String} {τ : Ty} : Names.find scopes x = some (some τ) →
      Expr.HasType (.name n x) τ
  | enumValue {n : Node} {x member : String} {e : EnumType} : Γ.type? x = some (.enumeration e) →
      member ∈ e.values → Expr.HasType (.enumValue n x member) (.enumeration e)
  | arrayLiteral {n : Node} {es : List Expr} {τ : Ty} : es ≠ [] →
      (∀ e ∈ es, e.HasType τ) → Expr.HasType (.arrayLiteral n es) (.array τ)
  | newArray {n : Node} {t : TypeExpr} {e : Expr} {τ : Ty} : t.denotes Γ.type? = some τ →
      e.HasType .int → Expr.HasType (.newArray n t e) (.array τ)
  | index {n : Node} {a i : Expr} {τ : Ty} : a.HasType (.array τ) →
      i.HasType .int → Expr.HasType (.index n a i) τ
  | field {n : Node} {o : Expr} {c : ClassType} {x : String} {τ : Ty} :
      o.HasType (.object c) → Γ.field? c x = some τ → Expr.HasType (.field n o x) τ
  | call {n : Node} {f : String} {es : List Expr} {τs : List Ty} {τ : Ty} :
      Expr.HaveTypes es τs → Γ.result? f τs false = some τ → Expr.HasType (.call n f es) τ
  | methodCall {n : Node} {r : Expr} {c : ClassType} {m : String} {es : List Expr} {τs : List Ty}
      {τ : Ty} : r.HasType (.object c) → Expr.HaveTypes es τs →
      Γ.result? m (.object c :: τs) true = some τ → Expr.HasType (.methodCall n r m es) τ
  /-- An object can be made without arguments even if no constructor takes none. -/
  | new {n : Node} {x : String} {c : ClassType} {es : List Expr} {τs : List Ty} :
      Γ.type? x = some (.object c) → Expr.HaveTypes es τs →
      es = [] ∨ (Γ.result? constructorName (.object c :: τs) true).isSome →
      Expr.HasType (.new n x es) (.object c)
  | not {n : Node} {e : Expr} : e.HasType .bool → Expr.HasType (.unary n .not e) .bool
  | negate {n : Node} {e : Expr} : e.HasType .int → Expr.HasType (.unary n .negate e) .int
  | binary {n : Node} {op : BinaryOp} {l r : Expr} {σ ρ τ : Ty} : l.HasType σ →
      r.HasType ρ → op.rule.Takes σ ρ τ → Expr.HasType (.binary n op l r) τ

/-- The types of a list of expressions. -/
inductive Expr.HaveTypes : List Expr → List Ty → Prop
  | nil : Expr.HaveTypes [] []
  | cons {e : Expr} {es : List Expr} {τ : Ty} {τs : List Ty} : e.HasType τ →
      Expr.HaveTypes es τs → Expr.HaveTypes (e :: es) (τ :: τs)

end

/-- The type of the left side of an assignment. -/
inductive Target.HasType : Target → Ty → Prop
  | name {n : Node} {x : String} {τ : Ty} : Names.find scopes x = some (some τ) →
      Target.HasType (.name n x) τ
  | index {n : Node} {a i : Expr} {τ : Ty} : a.HasType Γ scopes (.array τ) →
      i.HasType Γ scopes .int → Target.HasType (.index n a i) τ
  | field {n : Node} {o : Expr} {c : ClassType} {x : String} {τ : Ty} :
      o.HasType Γ scopes (.object c) → Γ.field? c x = some τ → Target.HasType (.field n o x) τ

end

/-! ## Statements -/

section

variable (Γ : Globals) (result : Option Ty)

mutual

/-- The rules for statements. They hold inside a function with the given result type, or at the top
level if there is none. The flag is whether the statement is in a block of a switch that another
one follows. The scopes at the end are those after the statement. -/
inductive Stmt.WellTyped : Bool → List Names → Stmt → List Names → Prop
  /-- Only the global scope, which no other is around, has variables of type lock. -/
  | declaration {next : Bool} {names : Names} {outer : List Names} {n : Node} {d : Declaration}
      {τ : Ty} : d.type.denotes Γ.type? = some τ → τ ≠ .void → (τ = .lock → outer = []) →
      (∀ e, d.initializer = some e → e.HasType Γ (names :: outer) τ) →
      names.lookup d.name = none →
      Stmt.WellTyped next (names :: outer) (.declaration n d) (((d.name, some τ) :: names) :: outer)
  | assignment {next : Bool} {scopes : List Names} {n : Node} {t : Target} {e : Expr} {τ : Ty} :
      t.HasType Γ scopes τ → e.HasType Γ scopes τ →
      Stmt.WellTyped next scopes (.assignment n t e) scopes
  | ifElse {next : Bool} {scopes : List Names} {n : Node} {e : Expr} {b : Block}
      {b' : Option Block} : e.HasType Γ scopes .bool → Block.WellTyped next scopes b →
      Block.WellTypedOption next scopes b' → Stmt.WellTyped next scopes (.ifElse n e b b') scopes
  | whileLoop {next : Bool} {scopes : List Names} {n : Node} {e : Expr} {b : Block} :
      e.HasType Γ scopes .bool → Block.WellTyped next scopes b →
      Stmt.WellTyped next scopes (.whileLoop n e b) scopes
  | doLoop {next : Bool} {scopes : List Names} {n : Node} {e : Expr} {b : Block} :
      Block.WellTyped next scopes b → e.HasType Γ scopes .bool →
      Stmt.WellTyped next scopes (.doLoop n b e) scopes
  | forLoop {next : Bool} {scopes inner inner' : List Names} {n : Node} {i s : Option Stmt}
      {e : Expr} {b : Block} : Stmt.WellTypedOption next ([] :: scopes) i inner →
      e.HasType Γ inner .bool → Stmt.WellTypedOption next inner s inner' →
      Block.WellTyped next inner' b → Stmt.WellTyped next scopes (.forLoop n i e s b) scopes
  | block {next : Bool} {scopes : List Names} {n : Node} {b : Block} :
      Block.WellTyped next scopes b → Stmt.WellTyped next scopes (.block n b) scopes
  | switch {next : Bool} {scopes : List Names} {n : Node} {e : Expr} {τ : Ty} {cases : List Case}
      {b : Option Block} : e.HasType Γ scopes τ → Case.WellTypedAll b.isSome scopes τ cases →
      Block.WellTypedOption false scopes b →
      Stmt.WellTyped next scopes (.switch n e cases b) scopes
  | next {scopes : List Names} {n : Node} : Stmt.WellTyped true scopes (.next n) scopes
  | returnNone {next : Bool} {scopes : List Names} {n : Node} : result = some .void →
      Stmt.WellTyped next scopes (.return n none) scopes
  | returnSome {next : Bool} {scopes : List Names} {n : Node} {e : Expr} {τ : Ty} :
      result = some τ → τ ≠ .void → e.HasType Γ scopes τ →
      Stmt.WellTyped next scopes (.return n (some e)) scopes
  | expression {next : Bool} {scopes : List Names} {n : Node} {e : Expr} {τ : Ty} :
      e.HasType Γ scopes τ → Stmt.WellTyped next scopes (.expression n e) scopes
  | acquire {next : Bool} {scopes : List Names} {n : Node} {e : Expr} :
      e.HasType Γ scopes .lock → e.isPlace = true →
      Stmt.WellTyped next scopes (.acquire n e) scopes
  | release {next : Bool} {scopes : List Names} {n : Node} {e : Expr} :
      e.HasType Γ scopes .lock → e.isPlace = true →
      Stmt.WellTyped next scopes (.release n e) scopes

inductive Stmt.WellTypedOption : Bool → List Names → Option Stmt → List Names → Prop
  | none {next : Bool} {scopes : List Names} : Stmt.WellTypedOption next scopes none scopes
  | some {next : Bool} {scopes scopes' : List Names} {s : Stmt} :
      Stmt.WellTyped next scopes s scopes' → Stmt.WellTypedOption next scopes (some s) scopes'

inductive Stmt.WellTypedAll : Bool → List Names → List Stmt → List Names → Prop
  | nil {next : Bool} {scopes : List Names} : Stmt.WellTypedAll next scopes [] scopes
  | cons {next : Bool} {scopes scopes1 scopes' : List Names} {s : Stmt} {ss : List Stmt} :
      Stmt.WellTyped next scopes s scopes1 → Stmt.WellTypedAll next scopes1 ss scopes' →
      Stmt.WellTypedAll next scopes (s :: ss) scopes'

/-- A block has a scope of its own. -/
inductive Block.WellTyped : Bool → List Names → Block → Prop
  | mk {next : Bool} {scopes inner : List Names} {n : Node} {ss : List Stmt} :
      Stmt.WellTypedAll next ([] :: scopes) ss inner → Block.WellTyped next scopes (.mk n ss)

inductive Block.WellTypedOption : Bool → List Names → Option Block → Prop
  | none {next : Bool} {scopes : List Names} : Block.WellTypedOption next scopes none
  | some {next : Bool} {scopes : List Names} {b : Block} :
      Block.WellTyped next scopes b → Block.WellTypedOption next scopes (some b)

/-- The blocks of a switch, selected by values of one type. The flag is whether a fallback follows
them. -/
inductive Case.WellTypedAll : Bool → List Names → Ty → List Case → Prop
  | nil {fallback : Bool} {scopes : List Names} {τ : Ty} :
      Case.WellTypedAll fallback scopes τ []
  | cons {fallback : Bool} {scopes : List Names} {τ : Ty} {n : Node} {v : Expr} {b : Block}
      {cases : List Case} : v.HasType Γ scopes τ →
      Block.WellTyped (!cases.isEmpty || fallback) scopes b →
      Case.WellTypedAll fallback scopes τ cases →
      Case.WellTypedAll fallback scopes τ (.mk n v b :: cases)

end

end

section

variable {Γ : Globals} {result : Option Ty} {next fallback : Bool} {scopes scopes' : List Names}
  {n : Node} {e : Expr} {b : Block} {b' : Option Block} {cases : List Case}
  {ss : List Stmt} {s : Stmt}

theorem Stmt.wellTyped_assignment_iff {t : Target} :
    Stmt.WellTyped Γ result next scopes (.assignment n t e) scopes' ↔
      (∃ τ, t.HasType Γ scopes τ ∧ e.HasType Γ scopes τ) ∧ scopes' = scopes := by
  constructor
  · intro h
    cases h with | assignment ht he => exact ⟨⟨_, ht, he⟩, rfl⟩
  · rintro ⟨⟨τ, ht, he⟩, rfl⟩
    exact .assignment ht he

theorem Stmt.wellTyped_ifElse_iff :
    Stmt.WellTyped Γ result next scopes (.ifElse n e b b') scopes' ↔ e.HasType Γ scopes .bool ∧
      Block.WellTyped Γ result next scopes b ∧ Block.WellTypedOption Γ result next scopes b' ∧
      scopes' = scopes := by
  constructor
  · intro h
    cases h with | ifElse he hb hb' => exact ⟨he, hb, hb', rfl⟩
  · rintro ⟨he, hb, hb', rfl⟩
    exact .ifElse he hb hb'

theorem Stmt.wellTyped_whileLoop_iff :
    Stmt.WellTyped Γ result next scopes (.whileLoop n e b) scopes' ↔
      e.HasType Γ scopes .bool ∧ Block.WellTyped Γ result next scopes b ∧ scopes' = scopes := by
  constructor
  · intro h
    cases h with | whileLoop he hb => exact ⟨he, hb, rfl⟩
  · rintro ⟨he, hb, rfl⟩
    exact .whileLoop he hb

theorem Stmt.wellTyped_doLoop_iff :
    Stmt.WellTyped Γ result next scopes (.doLoop n b e) scopes' ↔
      Block.WellTyped Γ result next scopes b ∧ e.HasType Γ scopes .bool ∧ scopes' = scopes := by
  constructor
  · intro h
    cases h with | doLoop hb he => exact ⟨hb, he, rfl⟩
  · rintro ⟨hb, he, rfl⟩
    exact .doLoop hb he

theorem Stmt.wellTyped_forLoop_iff {i s : Option Stmt} :
    Stmt.WellTyped Γ result next scopes (.forLoop n i e s b) scopes' ↔
      (∃ inner inner', Stmt.WellTypedOption Γ result next ([] :: scopes) i inner ∧
        e.HasType Γ inner .bool ∧ Stmt.WellTypedOption Γ result next inner s inner' ∧
        Block.WellTyped Γ result next inner' b) ∧ scopes' = scopes := by
  constructor
  · intro h
    cases h with | forLoop hi he hs hb => exact ⟨⟨_, _, hi, he, hs, hb⟩, rfl⟩
  · rintro ⟨⟨inner, inner', hi, he, hs, hb⟩, rfl⟩
    exact .forLoop hi he hs hb

theorem Stmt.wellTyped_block_iff :
    Stmt.WellTyped Γ result next scopes (.block n b) scopes' ↔
      Block.WellTyped Γ result next scopes b ∧ scopes' = scopes := by
  constructor
  · intro h
    cases h with | block hb => exact ⟨hb, rfl⟩
  · rintro ⟨hb, rfl⟩
    exact .block hb

theorem Stmt.wellTyped_switch_iff :
    Stmt.WellTyped Γ result next scopes (.switch n e cases b') scopes' ↔ ∃ τ,
      e.HasType Γ scopes τ ∧ Case.WellTypedAll Γ result b'.isSome scopes τ cases ∧
      Block.WellTypedOption Γ result false scopes b' ∧ scopes' = scopes := by
  constructor
  · intro h
    cases h with | switch he hc hb => exact ⟨_, he, hc, hb, rfl⟩
  · rintro ⟨τ, he, hc, hb, rfl⟩
    exact .switch he hc hb

theorem Stmt.wellTyped_next_iff :
    Stmt.WellTyped Γ result next scopes (.next n) scopes' ↔ next = true ∧ scopes' = scopes := by
  constructor
  · intro h
    cases h with | next => exact ⟨rfl, rfl⟩
  · rintro ⟨rfl, rfl⟩
    exact .next

theorem Stmt.wellTyped_expression_iff :
    Stmt.WellTyped Γ result next scopes (.expression n e) scopes' ↔
      (∃ τ, e.HasType Γ scopes τ) ∧ scopes' = scopes := by
  constructor
  · intro h
    cases h with | expression he => exact ⟨⟨_, he⟩, rfl⟩
  · rintro ⟨⟨τ, he⟩, rfl⟩
    exact .expression he

theorem Stmt.wellTyped_acquire_iff :
    Stmt.WellTyped Γ result next scopes (.acquire n e) scopes' ↔
      (e.HasType Γ scopes .lock ∧ e.isPlace = true) ∧ scopes' = scopes := by
  constructor
  · intro h
    cases h with | acquire he hp => exact ⟨⟨he, hp⟩, rfl⟩
  · rintro ⟨⟨he, hp⟩, rfl⟩
    exact .acquire he hp

theorem Stmt.wellTyped_release_iff :
    Stmt.WellTyped Γ result next scopes (.release n e) scopes' ↔
      (e.HasType Γ scopes .lock ∧ e.isPlace = true) ∧ scopes' = scopes := by
  constructor
  · intro h
    cases h with | release he hp => exact ⟨⟨he, hp⟩, rfl⟩
  · rintro ⟨⟨he, hp⟩, rfl⟩
    exact .release he hp

theorem Stmt.wellTypedOption_none_iff : Stmt.WellTypedOption Γ result next scopes none scopes' ↔
    scopes' = scopes :=
  ⟨fun h => by cases h; rfl, fun h => h ▸ .none⟩

theorem Stmt.wellTypedOption_some_iff :
    Stmt.WellTypedOption Γ result next scopes (some s) scopes' ↔
      Stmt.WellTyped Γ result next scopes s scopes' :=
  ⟨fun h => by cases h; assumption, .some⟩

theorem Stmt.wellTypedAll_nil_iff : Stmt.WellTypedAll Γ result next scopes [] scopes' ↔
    scopes' = scopes :=
  ⟨fun h => by cases h; rfl, fun h => h ▸ .nil⟩

theorem Stmt.wellTypedAll_cons_iff :
    Stmt.WellTypedAll Γ result next scopes (s :: ss) scopes' ↔
      ∃ scopes1, Stmt.WellTyped Γ result next scopes s scopes1 ∧
      Stmt.WellTypedAll Γ result next scopes1 ss scopes' :=
  ⟨fun h => by cases h with | cons h h' => exact ⟨_, h, h'⟩, fun ⟨_, h, h'⟩ => .cons h h'⟩

theorem Block.wellTyped_iff :
    Block.WellTyped Γ result next scopes (.mk n ss) ↔
      ∃ inner, Stmt.WellTypedAll Γ result next ([] :: scopes) ss inner :=
  ⟨fun h => by cases h with | mk h => exact ⟨_, h⟩, fun ⟨_, h⟩ => .mk h⟩

theorem Block.wellTypedOption_some_iff :
    Block.WellTypedOption Γ result next scopes (some b) ↔ Block.WellTyped Γ result next scopes b :=
  ⟨fun h => by cases h; assumption, .some⟩

theorem Case.wellTypedAll_cons_iff {τ : Ty} :
    Case.WellTypedAll Γ result fallback scopes τ (.mk n e b :: cases) ↔ e.HasType Γ scopes τ ∧
      Block.WellTyped Γ result (!cases.isEmpty || fallback) scopes b ∧
      Case.WellTypedAll Γ result fallback scopes τ cases :=
  ⟨fun h => by cases h with | cons h h' h'' => exact ⟨h, h', h''⟩, fun ⟨h, h', h''⟩ =>
    .cons h h' h''⟩

end

/-! ## Definitions -/

/-- A function, method or constructor as its definition writes it. -/
structure Callable where
  node : Node
  name : String
  /-- The class of a method or constructor. -/
  owner : Option ClassType
  parameters : List Parameter
  result : TypeExpr
  isThread : Bool
  body : FunctionBody

def FunctionDef.callable (owner : Option ClassType) (f : FunctionDef) : Callable :=
  { f with owner, result := f.returnType }

/-- All constructors have one name and no result. -/
def ConstructorDef.callable (owner : ClassType) (k : ConstructorDef) : Callable :=
  { k with name := constructorName, owner := some owner, result := .void, isThread := false,
           body := .block k.body }

def ClassDef.callables (d : ClassDef) (c : ClassType) : List Callable :=
  d.methods.map (·.callable (some c)) ++ d.constructors.map (·.callable c)

namespace SourceUnit

/-- The classes with their types, in source order. -/
def classTypes (u : SourceUnit) : TypedClasses :=
  u.classes.zipIdx.map fun (d, i) => (d, { index := i, name := d.name })

/-- The enumerations with their types. -/
def enumTypes (u : SourceUnit) : List EnumType :=
  u.enums.zipIdx.map fun (d, i) => { index := i, name := d.name, values := d.values }

/-- The enumerations and classes under their names. -/
def namedTypes (u : SourceUnit) : List (String × Ty) :=
  u.enumTypes.map (fun e => (e.name, .enumeration e)) ++ u.classTypes.map fun p =>
    (p.1.name, .object p.2)

def type? (u : SourceUnit) (x : String) : Option Ty := u.namedTypes.lookup x

def callables (u : SourceUnit) : List Callable :=
  u.classTypes.flatMap (fun p => p.1.callables p.2) ++ u.functions.map (·.callable none)

end SourceUnit

/-- The types of the arguments of a call, the receiver first. -/
def Callable.arguments (types : String → Option Ty) (f : Callable) : Option (List Ty) :=
  (f.parameters.mapM fun p : Parameter => p.type.denotes types).map
    ((f.owner.map .object).toList ++ ·)

/-- Two functions that the same calls would mean. -/
def Callable.Clashes (types : String → Option Ty) (f g : Callable) : Prop :=
  f.name = g.name ∧ f.owner.isSome = g.owner.isSome ∧ f.arguments types = g.arguments types

/-- What the definitions of a unit provide. -/
def SourceUnit.globals (u : SourceUnit) : Globals where
  type? := u.type?
  field? c x := do
    let d ← u.classes[c.index]?
    let field ← d.fields.find? (·.name == x)
    field.type.denotes u.type?
  result? name arguments isMethod := do
    let f ← u.callables.find? fun f =>
      f.name == name && f.owner.isSome == isMethod && f.arguments u.type? == some arguments
    f.result.denotes u.type?

/-- The rules for the signature of a function. A thread function takes no arguments, gives no result
and is no method. -/
structure Callable.SignatureTyped (types : String → Option Ty) (f : Callable) : Prop where
  parameters : ∀ p ∈ f.parameters, ∃ τ, p.type.denotes types = some τ ∧ τ ≠ .void ∧ τ ≠ .lock
  result : ∃ τ, f.result.denotes types = some τ ∧ τ ≠ .lock
  thread : f.isThread = true → f.owner = none ∧ f.parameters = [] ∧
    f.result.denotes types = some .void

/-- The rules for the members of a class. -/
structure ClassDef.MembersTyped (types : String → Option Ty) (d : ClassDef) : Prop where
  fieldNames : (d.fields.map (·.name)).Nodup
  fields : ∀ x ∈ d.fields, ∃ τ, x.type.denotes types = some τ ∧ τ ≠ .void ∧ τ ≠ .lock
  methods : ∀ m ∈ d.methods, ∀ x ∈ d.fields, m.name ≠ x.name

/-- The names that the members of a class bind in its methods and constructors. -/
def ClassDef.names (types : String → Option Ty) (d : ClassDef) : Names :=
  d.fields.map (fun x => (x.name, x.type.denotes types)) ++ d.methods.map fun m => (m.name, none)

/-- The names of the parameters, the receiver first. -/
def Callable.parameterNames (f : Callable) : List String :=
  (f.owner.map fun _ => receiverName).toList ++ f.parameters.map (·.name)

/-- The scopes around the code of a function: its parameters, the members of its class and the
global variables. -/
def SourceUnit.scopesOf (u : SourceUnit) (globals : Names) (f : Callable) (arguments : List Ty) :
    List Names :=
  f.parameterNames.zip (arguments.map some) ::
    ((f.owner.bind fun c => u.classes[c.index]?).map (·.names u.type?)).toList ++ [globals]

/-- The rules for the body of a function: it is well typed, and if there is a result, every way
through it ends with a `return`. -/
def FunctionBody.WellTyped (Γ : Globals) (result : Ty) (scopes : List Names) :
    FunctionBody → Prop
  | .block b => (∃ scopes', Stmt.WellTypedAll Γ (some result) false scopes b.statements scopes') ∧
      (result ≠ .void → ∀ o, b.Completes o → o = .returned)
  | .expression e => e.HasType Γ scopes result

/-- The rules for the code of a function. -/
def Callable.CodeTyped (u : SourceUnit) (globals : Names) (f : Callable) : Prop :=
  f.parameterNames.Nodup ∧ ∃ arguments result, f.arguments u.type? = some arguments ∧
    f.result.denotes u.type? = some result ∧
    f.body.WellTyped u.globals result (u.scopesOf globals f arguments)

/-- The rules for a unit. -/
structure SourceUnit.WellTyped (u : SourceUnit) : Prop where
  typeNames : (u.namedTypes.map (·.1)).Nodup
  members : ∀ d ∈ u.classes, d.MembersTyped u.type?
  signatures : ∀ f ∈ u.callables, f.SignatureTyped u.type?
  overloads : u.callables.Pairwise fun f g => ¬ f.Clashes u.type? g
  /-- The code of functions and the initial values of fields can use all global variables. -/
  code : ∃ globals, Stmt.WellTypedAll u.globals none false [[]] u.statements [globals] ∧
    (∀ d ∈ u.classes, ∀ x ∈ d.fields, ∀ e, x.initializer = some e →
      ∃ τ, x.type.denotes u.type? = some τ ∧ e.HasType u.globals [globals] τ) ∧
    ∀ f ∈ u.callables, f.CodeTyped u globals

end Awl
