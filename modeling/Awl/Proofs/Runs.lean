import Awl.Proofs.Scopes
import Awl.Typing.Basic

/-!
# Runs of checking actions

An action of the checker takes a state to a result and a new state, or fails with a fault. The
lemmas here say what a successful run of each small action is; as `simp` lemmas they take the run
of a whole action apart.
-/

namespace Awl

variable {n : NodeId} {id scope : ScopeId} {x : String} {type : Ty} {u : Unit}

namespace Check

variable {α β : Type} {s s' : CheckState} {m : Check α} {free : Bool} {a : α}

@[simp] theorem bind_eq_ok {f : α → Check β} {b : β} :
    (m >>= f) s = .ok (b, s') ↔ ∃ a s1, m s = .ok (a, s1) ∧ f a s1 = .ok (b, s') := by
  rw [show (m >>= f) s = (m s >>= fun p => f p.1 p.2) from rfl, except_bind_eq_ok]
  exact ⟨fun ⟨p, h⟩ => ⟨p.1, p.2, h⟩, fun ⟨a, s1, h⟩ => ⟨(a, s1), h⟩⟩

@[simp] theorem pure_eq_ok {b : α} : (pure a : Check α) s = .ok (b, s') ↔ b = a ∧ s' = s :=
  ⟨fun h => by cases h; exact ⟨rfl, rfl⟩, fun ⟨h, h'⟩ => by subst h h'; rfl⟩

@[simp] theorem lift_eq_ok {x : Except Fault α} : (liftM x : Check α) s = .ok (a, s') ↔
    x = .ok a ∧ s' = s := by
  cases x with
  | error e => exact ⟨fun h => (nomatch h), fun ⟨h, _⟩ => (nomatch h)⟩
  | ok b => exact ⟨fun h => by cases h; exact ⟨rfl, rfl⟩, fun ⟨h, h'⟩ => by cases h; subst h'; rfl⟩

@[simp] theorem throw_eq_ok {f : Fault} : (throw f : Check α) s = .ok (a, s') ↔ False :=
  ⟨fun h => (nomatch h), False.elim⟩

@[simp] theorem discard_eq_ok : (discard m : Check Unit) s = .ok (u, s') ↔
    ∃ a, m s = .ok (a, s') := by
  rw [show (discard m : Check Unit) = (m >>= fun _ => pure ()) from rfl, bind_eq_ok]
  simp

@[simp] theorem tables_eq_ok {t : Tables} : tables s = .ok (t, s') ↔ t = s.tables ∧ s' = s :=
  ⟨fun h => by cases h; exact ⟨rfl, rfl⟩, fun ⟨h, h'⟩ => by subst h h'; rfl⟩

@[simp] theorem report_eq_ok {p : Problem} {span : Span} :
    report p span s = .ok (u, s') ↔
      s' = { s with diagnostics := s.diagnostics.push { problem := p, span } } :=
  ⟨fun h => by cases h; rfl, fun h => by subst h; rfl⟩

@[simp] theorem setScopes_eq_ok {t : ScopeTree} :
    setScopes t s = .ok (u, s') ↔ s' = { s with tables := { s.tables with scopes := t } } :=
  ⟨fun h => by cases h; rfl, fun h => by subst h; rfl⟩

@[simp] theorem setTypes_eq_ok {r : TypeRegistry} :
    setTypes r s = .ok (u, s') ↔ s' = { s with tables := { s.tables with types := r } } :=
  ⟨fun h => by cases h; rfl, fun h => by subst h; rfl⟩

@[simp] theorem setFunctions_eq_ok {f : FunctionTable} :
    setFunctions f s = .ok (u, s') ↔ s' = { s with tables := { s.tables with functions := f } } :=
  ⟨fun h => by cases h; rfl, fun h => by subst h; rfl⟩

@[simp] theorem setAnnotations_eq_ok {a : Annotations} :
    setAnnotations a s = .ok (u, s') ↔
      s' = { s with tables := { s.tables with annotations := a } } :=
  ⟨fun h => by cases h; rfl, fun h => by subst h; rfl⟩

theorem openChild_eq_ok {parent : ScopeId} {kind : ScopeKind} :
    openChild parent kind s = .ok (id, s') ↔
      ∃ t, s.tables.scopes.openChild parent kind = .ok (id, t) ∧
        s' = { s with tables := { s.tables with scopes := t } } := by
  unfold openChild
  simp only [bind_eq_ok, tables_eq_ok, lift_eq_ok, setScopes_eq_ok, pure_eq_ok]
  grind

theorem declareIn_eq_ok :
    declareIn scope x type s = .ok (free, s') ↔
      ∃ t, s.tables.scopes.declareIn scope x type = .ok (free, t) ∧
        s' = { s with tables := { s.tables with scopes := t } } := by
  unfold declareIn
  simp only [bind_eq_ok, tables_eq_ok, lift_eq_ok, setScopes_eq_ok, pure_eq_ok]
  grind

theorem reserveIn_eq_ok :
    reserveIn scope x type s = .ok (free, s') ↔
      ∃ t, s.tables.scopes.reserveIn scope x type = .ok (free, t) ∧
        s' = { s with tables := { s.tables with scopes := t } } := by
  unfold reserveIn
  simp only [bind_eq_ok, tables_eq_ok, lift_eq_ok, setScopes_eq_ok, pure_eq_ok]
  grind

@[simp] theorem resolveFrom_eq_ok {r : Option (Ty × ScopeId)} :
    resolveFrom scope x s = .ok (r, s') ↔ s.tables.scopes.resolveFrom scope x = .ok r ∧ s' = s := by
  unfold resolveFrom
  simp only [bind_eq_ok, tables_eq_ok, lift_eq_ok]
  grind

@[simp] theorem binding?_eq_ok {r : Option Binding} :
    binding? scope x s = .ok (r, s') ↔ s.tables.scopes.binding? scope x = .ok r ∧ s' = s := by
  unfold binding?
  simp only [bind_eq_ok, tables_eq_ok, lift_eq_ok]
  grind

@[simp] theorem memberScope_eq_ok {c : ClassType} :
    memberScope c s = .ok (id, s') ↔ s.tables.types.memberScope? c = some id ∧ s' = s := by
  unfold memberScope
  simp only [bind_eq_ok, tables_eq_ok, and_assoc, exists_and_left, exists_eq_left]
  cases s.tables.types.memberScope? c with
  | none => simp
  | some i => simp only [pure_eq_ok, Option.some.injEq, @eq_comm _ i]

end Check

/-! ## Entries of nodes -/

theorem NodeMap.get?_eq_none {α : Type} {m : NodeMap α} (h : ¬ m.contains n = true) :
    m[n]? = none :=
  Std.TreeMap.getElem?_eq_none_of_contains_eq_false (Bool.eq_false_iff.2 h)

namespace Annotations

theorem type?_insert (a : Annotations) (n : NodeId) (type : Ty) (m : NodeId) :
    ({ a with types := a.types.insert n type } : Annotations).type? m =
      if m = n then some type else a.type? m := by
  simp only [type?, Std.TreeMap.getElem?_insert]
  by_cases h : m = n
  · simp [h]
  · simp [h, Ne.symm h]

theorem scope?_insert (a : Annotations) (n : NodeId) (id : ScopeId) (m : NodeId) :
    ({ a with scopes := a.scopes.insert n id } : Annotations).scope? m =
      if m = n then some id else a.scope? m := by
  simp only [scope?, Std.TreeMap.getElem?_insert]
  by_cases h : m = n
  · simp [h]
  · simp [h, Ne.symm h]

end Annotations

theorem FunctionTable.lookup_insert (t : FunctionTable) (n : NodeId) (f : FunctionId) (m : NodeId) :
    ({ t with bindings := t.bindings.insert n f } : FunctionTable).lookup m =
      if m = n then some f else t.lookup m := by
  simp only [lookup, Std.TreeMap.getElem?_insert]
  by_cases h : m = n
  · simp [h]
  · simp [h, Ne.symm h]

namespace Check

variable {s s' : CheckState}

theorem recordType_ok (h : recordType n type s = .ok (u, s')) :
    s.tables.annotations.type? n = none ∧ ∃ a, s' = { s with tables := { s.tables with
      annotations := a } } ∧ a.scopes = s.tables.annotations.scopes ∧
      ∀ m, a.type? m = if m = n then some type else s.tables.annotations.type? m := by
  unfold recordType at h
  simp only [bind_eq_ok, tables_eq_ok] at h
  obtain ⟨_, s1, ⟨rfl, hs1⟩, h⟩ := h
  subst s1
  split at h
  · simp at h
  · rename_i hc
    simp only [setAnnotations_eq_ok] at h
    refine ⟨?_, _, h, rfl, fun m => Annotations.type?_insert ..⟩
    exact NodeMap.get?_eq_none hc

theorem recordScope_ok (h : recordScope n id s = .ok (u, s')) :
    s.tables.annotations.scope? n = none ∧ ∃ a, s' = { s with tables := { s.tables with
      annotations := a } } ∧ a.types = s.tables.annotations.types ∧
      ∀ m, a.scope? m = if m = n then some id else s.tables.annotations.scope? m := by
  unfold recordScope at h
  simp only [bind_eq_ok, tables_eq_ok] at h
  obtain ⟨_, s1, ⟨rfl, hs1⟩, h⟩ := h
  subst s1
  split at h
  · simp at h
  · rename_i hc
    simp only [setAnnotations_eq_ok] at h
    refine ⟨?_, _, h, rfl, fun m => Annotations.scope?_insert ..⟩
    exact NodeMap.get?_eq_none hc

theorem bindFunction_ok {f : FunctionId} (h : bindFunction n f s = .ok (u, s')) :
    s.tables.functions.lookup n = none ∧ ∃ t, s' = { s with tables := { s.tables with
      functions := t } } ∧ t.functions = s.tables.functions.functions ∧
      ∀ m, t.lookup m = if m = n then some f else s.tables.functions.lookup m := by
  unfold bindFunction at h
  simp only [bind_eq_ok, tables_eq_ok, FunctionTable.bind, setFunctions_eq_ok] at h
  obtain ⟨t, s1, ⟨rfl, hs1⟩, _, _, rfl, h⟩ := h
  subst s1
  by_cases hc : s.tables.functions.bindings.contains n = true
  · simp [hc] at h
  · simp only [hc, Bool.not_false, Bool.not_true, Bool.false_eq_true, ↓reduceIte,
      pure_eq_ok] at h
    exact ⟨NodeMap.get?_eq_none hc, _, h.2, rfl, fun m => FunctionTable.lookup_insert ..⟩

end Check

end Awl
