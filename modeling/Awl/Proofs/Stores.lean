import Awl.Proofs.Ready

/-!
# Values that are stored under names

An assignment to a name and a declaration with an initial value store a value under a name.
`NameStore.Typed` says that the value has the type of the variable that the name means there.
-/

namespace Awl

variable {t' t : Tables} {qs : List NameStore}

/-! ## Stores -/

/-- The value of an expression is stored under a name, whose node this is. -/
structure NameStore where
  node : NodeId
  name : String
  value : Expr

def Target.stores (value : Expr) : Target → List NameStore
  | .name n x => [⟨n.id, x, value⟩]
  | .index .. | .field .. => []

/-- A declaration without an initial value stores zero, which is no value of an expression. -/
def Declaration.stores (d : Declaration) : List NameStore :=
  d.initializer.toList.map fun e => ⟨d.node.id, d.name, e⟩

mutual

def Stmt.stores : Stmt → List NameStore
  | .declaration _ d => d.stores
  | .assignment _ t e => t.stores e
  | .ifElse _ _ b b' => b.stores ++ Block.storesOption b'
  | .whileLoop _ _ b => b.stores
  | .doLoop _ b _ => b.stores
  | .forLoop _ i _ s b => Stmt.storesOption i ++ (Stmt.storesOption s ++ b.stores)
  | .block _ b => b.stores
  | .switch _ _ cases b => Case.storesAll cases ++ Block.storesOption b
  | .next _ | .return .. | .expression .. | .acquire .. | .release .. => []

def Stmt.storesOption : Option Stmt → List NameStore
  | none => []
  | some s => s.stores

def Stmt.storesAll : List Stmt → List NameStore
  | [] => []
  | s :: ss => s.stores ++ Stmt.storesAll ss

def Block.stores : Block → List NameStore
  | .mk _ ss => Stmt.storesAll ss

def Block.storesOption : Option Block → List NameStore
  | none => []
  | some b => b.stores

def Case.storesAll : List Case → List NameStore
  | [] => []
  | .mk _ _ b :: cases => b.stores ++ Case.storesAll cases

end

def FunctionBody.stores : FunctionBody → List NameStore
  | .block b => b.stores
  | .expression _ => []

/-! ## Types of stored values -/

/-- The stored value has the type of the variable that the name means. -/
def NameStore.Typed (t : Tables) (q : NameStore) : Prop :=
  ∃ id sc b, t.annotations.scope? q.node = some id ∧ t.scopes.scopes.get? id = some sc ∧
    sc.bindings.lookup q.name = some b ∧ t.annotations.type? q.value.id = some b.type

theorem NameStore.Typed.mono {q : NameStore} (hle : t.Le t') (h : q.Typed t) : q.Typed t' := by
  obtain ⟨id, sc, b, hid, hsc, hb, ht⟩ := h
  obtain ⟨sc', hsc', hs⟩ := hle.scopes id sc hsc
  exact ⟨id, sc', b, hle.placed _ _ hid, hsc', hs.bindings _ _ hb, hle.typed _ _ ht⟩

/-- All of these stores are typed. -/
def Tables.Stores (t : Tables) (qs : List NameStore) : Prop := ∀ q ∈ qs, q.Typed t

theorem Tables.Stores.mono (hle : t.Le t') (h : t.Stores qs) : t'.Stores qs :=
  fun q hq => (h q hq).mono hle

theorem Tables.stores_nil (t : Tables) : t.Stores [] := List.forall_mem_nil _

theorem Tables.stores_append {qs' : List NameStore} :
    t.Stores (qs ++ qs') ↔ t.Stores qs ∧ t.Stores qs' := List.forall_mem_append

end Awl
