import Mathlib.Logic.ExistsUnique
import Mathlib.Logic.Relation
import Awl.Proofs.Scopes

/-!
# Calls on a scope tree

`ScopeTree.Calls t t'` says that some sequence of calls on scopes that exist takes `t` to `t'`. A
call that runs a closure in another scope may do any calls in between. Every such sequence from the
empty tree keeps `ScopeTree.Sound`: parents come before their children, and the slots that a scope
has counted are in use, each by one name. So a chain of ancestors ends, and a name is found in the
nearest scope that binds it (`calls_sound`).
-/

namespace Awl

namespace ScopeTree

variable {t t' t1 t2 : ScopeTree} {id parent scope owner : ScopeId} {kind : ScopeKind} {x : String}
  {type : Ty} {free : Bool} {k : Nat} {p : ScopeId × String} {s : Scope}

/-! ## Sequences of calls -/

/-- The tree after an attempt to close the current scope. A refusal comes without another tree. -/
def afterClose (t : ScopeTree) : Except ScopeError (ScopeId × ScopeTree) → ScopeTree
  | .ok (_, t') => t'
  | .error _ => t

/-- Some sequence of calls, each on scopes that exist, takes one tree to the other. -/
inductive Calls : ScopeTree → ScopeTree → Prop
  | refl (t : ScopeTree) : Calls t t
  | openChild {t t1 t2 : ScopeTree} {parent id : ScopeId} {kind : ScopeKind} : Calls t t1 →
      parent < t1.scopes.size → t1.openChild parent kind = .ok (id, t2) → Calls t t2
  | openScope {t t1 t2 : ScopeTree} {id : ScopeId} {kind : ScopeKind} : Calls t t1 →
      t1.openScope kind = .ok (id, t2) → Calls t t2
  | closeScope {t t1 : ScopeTree} {r : Except ScopeError (ScopeId × ScopeTree)} : Calls t t1 →
      t1.closeScope = .ok r → Calls t (t1.afterClose r)
  /-- The closure does calls of its own. -/
  | withScope {t t1 : ScopeTree} {scope : ScopeId} {α : Type} {f : ScopeTree →
      α × ScopeTree} : Calls t t1 → scope < t1.scopes.size →
      Calls { t1 with current := scope } (f { t1 with current := scope }).2 →
      Calls t (t1.withScope scope f).2
  | declare {t t1 t2 : ScopeTree} {x : String} {type : Ty} {free : Bool} : Calls t t1 →
      t1.declare x type = .ok (free, t2) → Calls t t2
  | declareIn {t t1 t2 : ScopeTree} {scope : ScopeId} {x : String} {type : Ty} {free : Bool} :
      Calls t t1 →
      scope < t1.scopes.size → t1.declareIn scope x type = .ok (free, t2) → Calls t t2
  | reserveIn {t t1 t2 : ScopeTree} {scope : ScopeId} {x : String} {type : Ty} {free : Bool} :
      Calls t t1 →
      scope < t1.scopes.size → t1.reserveIn scope x type = .ok (free, t2) → Calls t t2

/-! ## The shape of a tree -/

/-- The name of a pair has the slot `k` in its scope, whose slots are counted by `owner`. -/
def Draws (t : ScopeTree) (owner : ScopeId) (p : ScopeId × String) (k : Nat) : Prop :=
  ∃ s b, t.scopes.get? p.1 = some s ∧ s.owner = owner ∧ s.bindings.lookup p.2 = some b ∧
    b.offset = some k

/-- What every tree has that calls lead to. The slots that a scope has counted are in use. -/
structure Sound (t : ScopeTree) : Prop extends Slotted t where
  current : t.current < t.scopes.size
  filled : ∀ owner o k, t.scopes.get? owner = some o → o.owner = owner → k < o.slots →
    ∃ p, t.Draws owner p k

theorem Draws.mono (h : t.Draws owner p k) (hle : t.Le t') : t'.Draws owner p k := by
  obtain ⟨s, b, hs, ho, hb, hk⟩ := h
  obtain ⟨s', hs', hsle⟩ := hle _ s hs
  exact ⟨s', b, hs', hsle.owner.trans ho, hsle.bindings _ b hb, hk⟩

theorem Slotted.parent_eq_none_iff (h : t.Slotted) (hs : t.scopes.get? id = some s) :
    s.parent = none ↔ id = globalId := by
  refine ⟨fun hp => h.single id s hs (h.root id s hs hp), ?_⟩
  rintro rfl
  obtain ⟨g, hg, hp, -⟩ := h.global
  exact Option.mem_unique hs hg ▸ hp

theorem Slotted.draws_lt (h : t.Slotted) {o : Scope} (ho : t.scopes.get? owner = some o)
    (hd : t.Draws owner p k) :
    k < o.slots := by
  obtain ⟨s, b, hs, rfl, hb, hk⟩ := hd
  exact h.bound _ s o _ b k hs ho hb hk

theorem Slotted.draws_unique (h : t.Slotted) {p' : ScopeId × String} (hd : t.Draws owner p k)
    (hd' : t.Draws owner p' k) : p = p' := by
  obtain ⟨s, b, hs, rfl, hb, hk⟩ := hd
  obtain ⟨s', b', hs', ho, hb', hk'⟩ := hd'
  obtain ⟨hid, hx⟩ := h.apart _ s _ b _ s' _ b' k hs hs' hb hb' hk hk' ho.symm
  exact Prod.ext hid hx

theorem Sound.move (h : t.Sound) (hid : id < t.scopes.size) :
    ({ t with current := id } : ScopeTree).Sound :=
  { h with current := hid }

theorem Le.size_le (h : t.Le t') : t.scopes.size ≤ t'.scopes.size := by
  refine Nat.le_of_not_lt fun hlt => ?_
  obtain ⟨s, hs⟩ := Slots.exists_of_lt hlt
  obtain ⟨s', hs', -⟩ := h _ s hs
  exact Nat.lt_irrefl _ (Slots.lt_of_get? hs')

theorem new_sound : ScopeTree.new.Sound := by
  refine ⟨new_laid.toSlotted, Nat.zero_lt_one, fun owner o k h _ hk => ?_⟩
  obtain ⟨-, rfl⟩ := new_get? h
  exact absurd hk (Nat.not_lt_zero k)

/-! ## One call -/

theorem openChild_current (h : t.openChild parent kind = .ok (id, t')) :
    t'.current = t.current := by
  unfold openChild at h
  split at h
  · cases h
  · simp only [except_bind_eq_ok] at h
    obtain ⟨_, -, -, rfl⟩ := h
    rfl

theorem openChild_sound (h : t.openChild parent kind = .ok (id, t')) (ht : t.Sound)
    (hp : parent < t.scopes.size) :
    t'.Sound := by
  have hle := openChild_le h
  refine ⟨openChild_slotted h hp ht.toSlotted,
    openChild_current h ▸ Nat.lt_of_lt_of_le ht.current hle.size_le, fun j o k hj ho hk => ?_⟩
  obtain ⟨-, owner, hs, -⟩ := openChild_ok h
  rw [hs, Slots.get?_push] at hj
  split at hj
  · cases hj
    exact absurd hk (Nat.not_lt_zero k)
  · exact (ht.filled j o k hj ho hk).imp fun _ hd => hd.mono hle

theorem declareIn_current (h : t.declareIn scope x type = .ok (free, t')) :
    t'.current = t.current := by
  unfold declareIn takeSlots bind at h
  simp only [except_bind_eq_ok] at h
  obtain ⟨r, -, h⟩ := h
  cases r with
  | some b =>
    cases h
    rfl
  | none =>
    simp only [except_bind_eq_ok, except_pure_eq_ok] at h
    obtain ⟨_, -, _, ⟨_, -, _, -, rfl⟩, _, ⟨_, -, _, -, rfl⟩, -, rfl⟩ := h
    rfl

theorem declareIn_sound (h : t.declareIn scope x type = .ok (free, t')) (ht : t.Sound) :
    t'.Sound := by
  have hle := declareIn_le h
  refine ⟨declareIn_slotted h ht.toSlotted,
    declareIn_current h ▸ Nat.lt_of_lt_of_le ht.current hle.size_le, fun j o k hj ho hk => ?_⟩
  rcases declareIn_ok h with ⟨-, rfl, -⟩ | ⟨-, s0, o0, hs0, hx0, ho0, hget⟩
  · exact ht.filled j o k hj ho hk
  rw [hget, Option.map_eq_some_iff] at hj
  obtain ⟨r0, h0, rfl⟩ := hj
  by_cases hk0 : k < r0.slots
  · exact (ht.filled j r0 k h0 ho hk0).imp fun _ hd => hd.mono hle
  -- The slot that was handed out is that of the new name.
  simp only [afterDeclare] at hk
  split at hk
  · subst j
    obtain rfl := Option.mem_unique h0 ho0
    obtain rfl : k = r0.slots := by omega
    exact ⟨(scope, x), afterDeclare scope s0.owner x { type, offset := some r0.slots } scope s0,
      { type, offset := some r0.slots }, by rw [hget, hs0]; rfl, rfl, by simp [afterDeclare], rfl⟩
  · exact absurd hk hk0

theorem reserveIn_current (h : t.reserveIn scope x type = .ok (free, t')) :
    t'.current = t.current := by
  unfold reserveIn bind at h
  simp only [except_bind_eq_ok] at h
  obtain ⟨r, -, h⟩ := h
  cases r with
  | some b =>
    cases h
    rfl
  | none =>
    simp only [except_bind_eq_ok, except_pure_eq_ok] at h
    obtain ⟨_, ⟨_, -, _, -, rfl⟩, -, rfl⟩ := h
    rfl

theorem reserveIn_sound (h : t.reserveIn scope x type = .ok (free, t')) (ht : t.Sound) :
    t'.Sound := by
  have hle := reserveIn_le h
  refine ⟨reserveIn_slotted h ht.toSlotted,
    reserveIn_current h ▸ Nat.lt_of_lt_of_le ht.current hle.size_le, fun j o k hj ho hk => ?_⟩
  have hold : ∃ o0, t.scopes.get? j = some o0 ∧ o0.owner = j ∧ k < o0.slots := by
    rcases reserveIn_ok h with ⟨-, rfl⟩ | ⟨-, s, hs, -, hget⟩
    · exact ⟨o, hj, ho, hk⟩
    rw [hget] at hj
    split at hj
    · rename_i hscope
      cases hj
      exact ⟨s, hscope ▸ hs, ho, hk⟩
    · exact ⟨o, hj, ho, hk⟩
  obtain ⟨o0, h0, ho0, hk0⟩ := hold
  exact (ht.filled j o0 k h0 ho0 hk0).imp fun _ hd => hd.mono hle

theorem openScope_ok (h : t.openScope kind = .ok (id, t')) :
    ∃ t1, t.openChild t.current kind = .ok (id, t1) ∧ t' = { t1 with current := id } := by
  unfold openScope at h
  simp only [except_bind_eq_ok] at h
  obtain ⟨⟨_, t1⟩, h1, rfl, rfl⟩ := h
  exact ⟨t1, h1, rfl⟩

theorem closeScope_ok {r : Except ScopeError (ScopeId × ScopeTree)} (h : t.closeScope = .ok r) :
    ∃ s, t.scopes.get? t.current = some s ∧ (s.parent = none ∧ r = .error .closeOutermost ∨
      ∃ p, s.parent = some p ∧ r = .ok (t.current, { t with current := p })) := by
  unfold closeScope at h
  simp only [except_bind_eq_ok] at h
  obtain ⟨q, hq, h⟩ := h
  obtain ⟨s, hs, rfl⟩ := parent_ok hq
  refine ⟨s, hs, ?_⟩
  cases hp : s.parent with
  | none =>
    rw [hp] at h
    cases h
    exact .inl ⟨rfl, rfl⟩
  | some p =>
    rw [hp] at h
    cases h
    exact .inr ⟨p, rfl, rfl⟩

/-! ## All calls -/

theorem Calls.le (h : Calls t t') : t.Le t' := by
  induction h with
  | refl t => exact .refl t
  | openChild _ _ hc ih => exact ih.trans (openChild_le hc)
  | openScope _ hc ih =>
    obtain ⟨t1, h1, rfl⟩ := openScope_ok hc
    have hle : ScopeTree.Le _ t1 := openChild_le h1
    exact ih.trans hle
  | closeScope _ hc ih =>
    obtain ⟨s, -, ⟨-, rfl⟩ | ⟨p, -, rfl⟩⟩ := closeScope_ok hc
    · exact ih
    · exact ih
  | withScope _ _ _ ih ihf => exact ih.trans ihf
  | declare _ hc ih => exact ih.trans (declareIn_le hc)
  | declareIn _ _ hc ih => exact ih.trans (declareIn_le hc)
  | reserveIn _ _ hc ih => exact ih.trans (reserveIn_le hc)

theorem Calls.sound (h : Calls t t') (ht : t.Sound) : t'.Sound := by
  induction h with
  | refl t => exact ht
  | openChild _ hp hc ih => exact openChild_sound hc (ih ht) hp
  | openScope _ hc ih =>
    obtain ⟨t1, h1, rfl⟩ := openScope_ok hc
    refine (openChild_sound h1 (ih ht) (ih ht).current).move ?_
    obtain ⟨rfl, o, hs, -⟩ := openChild_ok h1
    rw [hs, Slots.size_push]
    exact Nat.lt_succ_self _
  | closeScope _ hc ih =>
    obtain ⟨s, hs, ⟨-, rfl⟩ | ⟨p, hp, rfl⟩⟩ := closeScope_ok hc
    · exact ih ht
    · exact (ih ht).move (Nat.lt_trans ((ih ht).older _ s p hs hp) (ih ht).current)
  | withScope _ hscope hf ih ihf =>
    exact (ihf ((ih ht).move hscope)).move (Nat.lt_of_lt_of_le (ih ht).current hf.le.size_le)
  | declare _ hc ih => exact declareIn_sound hc (ih ht)
  | declareIn _ _ hc ih => exact declareIn_sound hc (ih ht)
  | reserveIn _ _ hc ih => exact reserveIn_sound hc (ih ht)

/-! ## Calls succeed -/

/-- A name is taken exactly if it is bound in the scope itself, and then nothing changes. -/
theorem declareIn_free_iff (h : t.declareIn scope x type = .ok (free, t')) :
    (free = false ↔ t.bindingAt? scope x ≠ none) ∧ (free = false → t' = t) := by
  rcases declareIn_ok h with ⟨rfl, rfl, s, b, hs, hb⟩ | ⟨rfl, s, -, hs, hb, -⟩
  · simp [bindingAt?_eq hs, hb]
  · simp [bindingAt?_eq hs, hb]

theorem reserveIn_free_iff (h : t.reserveIn scope x type = .ok (free, t')) :
    (free = false ↔ t.bindingAt? scope x ≠ none) ∧ (free = false → t' = t) := by
  obtain ⟨r, hr, h⟩ := except_bind_eq_ok.1 h
  obtain ⟨s, hs, rfl⟩ := binding?_ok hr
  rw [bindingAt?_eq hs]
  cases hb : s.bindings.lookup x with
  | some b =>
    rw [hb] at h
    cases h
    simp
  | none =>
    rw [hb] at h
    obtain ⟨t1, -, h⟩ := except_bind_eq_ok.1 h
    cases h
    simp

/-! ## Looking up names -/

/-- The second scope is the first one, its parent, or a parent further up. -/
def Ancestor (t : ScopeTree) : ScopeId → ScopeId → Prop :=
  Relation.ReflTransGen fun a p => ∃ s, t.scopes.get? a = some s ∧ s.parent = some p

/-- The answer about a name is the binding in the nearest ancestor that has one. -/
def Nearest (t : ScopeTree) (scope : ScopeId) (x : String) : Option (Ty × ScopeId) → Prop
  | none => ∀ a, t.Ancestor scope a → t.bindingAt? a x = none
  | some (type, id) => t.Ancestor scope id ∧ (∃ b, t.bindingAt? id x = some b ∧ b.type = type) ∧
      ∀ a, t.Ancestor scope a → t.Ancestor a id → a ≠ id → t.bindingAt? a x = none

theorem Sound.le_of_ancestor (h : t.Sound) {a b : ScopeId} (hab : t.Ancestor a b) : b ≤ a := by
  induction hab with
  | refl => exact Nat.le_refl a
  | tail _ hp ih =>
    obtain ⟨s, hs, hp⟩ := hp
    exact Nat.le_trans (Nat.le_of_lt (h.older _ s _ hs hp)) ih

/-- A name that a scope does not bind is looked up in its parent. -/
theorem Nearest.up {r : Option (Ty × ScopeId)} {q : ScopeId} (hs : t.scopes.get? scope = some s)
    (hq : s.parent = some q) (hx : t.bindingAt? scope x = none) (h : t.Nearest q x r) :
    t.Nearest scope x r := by
  have hstep : ∀ {a}, t.Ancestor scope a → a = scope ∨ t.Ancestor q a := by
    intro a ha
    rcases Relation.ReflTransGen.cases_head ha with rfl | ⟨q', ⟨s', hs', hq'⟩, ha⟩
    · exact .inl rfl
    · rw [hs] at hs'
      cases hs'
      rw [hq] at hq'
      cases hq'
      exact .inr ha
  match r, h with
  | none, h =>
    intro a ha
    rcases hstep ha with rfl | ha
    · exact hx
    · exact h a ha
  | some (type, id), ⟨hid, hb, hbetween⟩ =>
    refine ⟨.head ⟨s, hs, hq⟩ hid, hb, fun a ha haid hne => ?_⟩
    rcases hstep ha with rfl | ha
    · exact hx
    · exact hbetween a ha haid hne

/-- A chain of ancestors gets smaller at every step, so fuel for each number below is enough. -/
theorem Sound.resolveWithin_nearest (h : t.Sound) (x : String) {fuel : Nat} (hfuel : scope < fuel)
    (hscope : scope < t.scopes.size) : ∃ r, t.resolveWithin x fuel scope = .ok r ∧
      t.Nearest scope x r := by
  induction fuel generalizing scope with
  | zero => exact absurd hfuel (Nat.not_lt_zero _)
  | succ fuel ih =>
    obtain ⟨s, hs⟩ := Slots.exists_of_lt hscope
    unfold resolveWithin
    rw [binding?_eq hs]
    cases hb : s.bindings.lookup x with
    | some b =>
      refine ⟨some (b.type, scope), rfl, .refl, ⟨b, by rw [bindingAt?_eq hs, hb], rfl⟩,
        fun a ha ha' hne => ?_⟩
      exact absurd (Nat.le_antisymm (h.le_of_ancestor ha) (h.le_of_ancestor ha')) hne
    | none =>
      have hx : t.bindingAt? scope x = none := by rw [bindingAt?_eq hs, hb]
      rw [parent_eq hs]
      cases hp : s.parent with
      | none =>
        refine ⟨none, rfl, fun a ha => ?_⟩
        rcases Relation.ReflTransGen.cases_head ha with rfl | ⟨q, ⟨s', hs', hq⟩, -⟩
        · exact hx
        · rw [hs] at hs'
          cases hs'
          rw [hp] at hq
          cases hq
      | some q =>
        have hlt := h.older scope s q hs hp
        obtain ⟨r, hr, hnear⟩ := ih (Nat.lt_of_lt_of_le hlt (Nat.lt_succ_iff.1 hfuel))
          (Nat.lt_trans hlt hscope)
        exact ⟨r, hr, hnear.up hs hp hx⟩

/-- **Scope trees.** Whatever calls are made on scopes that exist: only the global scope has no
parent, and any other scope is younger than its parent; the slots that a scope counts are in use up
to their number, each by one name; a binding stays as it is; a refused call changes nothing; a
closure leaves the current scope as it was; and a name is found in the nearest scope that binds
it. -/
theorem calls_sound (h : Calls .new t) (h' : Calls t t') :
    (∀ id s, t.scopes.get? id = some s →
      (s.parent = none ↔ id = globalId) ∧ ∀ p, s.parent = some p → p < id) ∧
    (∀ id s, t.scopes.get? id = some s → ∃ n, t.frameSize id = .ok n ∧
      (∀ k, k < n → ∃! p, t.Draws s.owner p k) ∧ ∀ p k, t.Draws s.owner p k → k < n) ∧
    (∀ id x b, t.bindingAt? id x = some b → t'.bindingAt? id x = some b) ∧
    (∀ parent kind, parent < t.scopes.size → kind ≠ .global →
      ∃ id t1, t.openChild parent kind = .ok (id, t1)) ∧
    (∀ scope x type, scope < t.scopes.size →
      (∃ free t1, t.declareIn scope x type = .ok (free, t1) ∧
        (free = false ↔ t.bindingAt? scope x ≠ none) ∧
        (free = false → t1 = t)) ∧
      ∃ free t1, t.reserveIn scope x type = .ok (free, t1) ∧
        (free = false ↔ t.bindingAt? scope x ≠ none) ∧
        (free = false → t1 = t)) ∧
    (∃ r, t.closeScope = .ok r ∧ (r = .error .closeOutermost ↔ t.current = globalId) ∧
      (t.current = globalId → t.afterClose r = t)) ∧
    (∀ (α : Type) scope (f : ScopeTree → α × ScopeTree),
      (t.withScope scope f).2.current = t.current ∧
      (t.withScope scope f).2.scopes = (f { t with current := scope }).2.scopes) ∧
    (∀ scope x, scope < t.scopes.size → ∃ r, t.resolveFrom scope x = .ok r ∧
      t.Nearest scope x r) := by
  have ht := h.sound new_sound
  refine ⟨fun id s hs => ⟨ht.parent_eq_none_iff hs, fun p => ht.older id s p hs⟩, fun id s hs => ?_,
    fun _ _ _ =>
    h'.le.bindingAt?, fun parent kind hp hk => ?_, fun scope x type hscope => ?_, ?_, fun _ _ _ =>
    ⟨rfl, rfl⟩, fun scope x hscope => ht.resolveWithin_nearest x (Nat.lt_succ_of_lt hscope) hscope⟩
  · obtain ⟨o, ho, hoo⟩ := ht.owner id s hs
    refine ⟨o.slots, frameSize_eq hs ho, fun k hk => ?_, fun p k => ht.draws_lt ho⟩
    obtain ⟨p, hp⟩ := ht.filled _ o k ho hoo hk
    exact ⟨p, hp, fun p' hp' => ht.draws_unique hp' hp⟩
  · obtain ⟨s, hs⟩ := Slots.exists_of_lt hp
    exact exists_openChild hs hk
  · obtain ⟨s, hs⟩ := Slots.exists_of_lt hscope
    obtain ⟨o, ho, -⟩ := ht.owner scope s hs
    obtain ⟨free, t1, h1⟩ := exists_declareIn hs ho x type
    obtain ⟨free', t2, h2⟩ := exists_reserveIn hs x type
    exact ⟨⟨free, t1, h1, declareIn_free_iff h1⟩, free', t2, h2, reserveIn_free_iff h2⟩
  · obtain ⟨s, hs⟩ := Slots.exists_of_lt ht.current
    unfold closeScope
    rw [parent_eq hs]
    have hroot := ht.parent_eq_none_iff hs
    cases hp : s.parent with
    | none => exact ⟨.error .closeOutermost, rfl, by simp [hroot.1 hp], fun _ => rfl⟩
    | some p =>
      have hne : t.current ≠ globalId := fun hc => by
        rw [hroot.2 hc] at hp
        cases hp
      exact ⟨.ok (t.current, { t with current := p }), rfl, by simp [hne], fun hc => absurd hc hne⟩

/-- A block in a function, each with a variable, another variable of the function, and a closure
that declares a global variable. -/
def nestedCalls : Except Fault ScopeTree := do
  let (function, t) ← ScopeTree.new.openScope .function
  let (_, t) ← t.declare "a" .int
  let (_, t) ← t.openScope .block
  let (_, t) ← t.declare "a" .bool
  let (_, t) ← t.declareIn function "b" .char
  return (t.withScope globalId fun t =>
    match t.declare "g" .int with
    | .ok (free, t') => (some free, t')
    | .error _ => (none, t)).2

theorem nestedCalls_calls (h : nestedCalls = .ok t) : Calls .new t := by
  unfold nestedCalls at h
  simp only [except_bind_eq_ok, except_pure_eq_ok] at h
  obtain ⟨⟨function, t1⟩, h1, ⟨_, t2⟩, h2, ⟨_, t3⟩, h3, ⟨_, t4⟩, h4, ⟨_, t5⟩, h5, rfl⟩ := h
  have c1 : Calls .new t1 := .openScope (.refl _) h1
  have later : Calls t1 t4 := .declare (.openScope (.declare (.refl _) h2) h3) h4
  have c4 : Calls .new t4 := .declare (.openScope (.declare c1 h2) h3) h4
  have hfunction : function < t4.scopes.size := by
    refine Nat.lt_of_lt_of_le ?_ later.le.size_le
    have hcurrent := (c1.sound new_sound).current
    obtain ⟨_, -, rfl⟩ := openScope_ok h1
    exact hcurrent
  have c5 : Calls .new t5 := .declareIn c4 hfunction h5
  have hglobal : globalId < t5.scopes.size :=
    Nat.lt_of_le_of_lt (Nat.zero_le _) (c5.sound new_sound).current
  refine .withScope c5 hglobal ?_
  split
  · exact .declare (.refl _) ‹_›
  · exact .refl _

/-- The three variables of the function have the slots 0, 1 and 2 of its frame, and the closure has
left the block current. -/
theorem nestedCalls_sound : ∃ t, nestedCalls = .ok t ∧ Calls .new t ∧ t.current = 2 ∧
    t.frameSize 1 = .ok 3 ∧
    (∃ s, t.scopes.get? 1 = some s ∧ ∀ k, k < 3 → ∃! p, t.Draws s.owner p k) ∧
    ∃ r, t.resolveFrom 2 "g" = .ok r ∧ t.Nearest 2 "g" r := by
  have hview : nestedCalls.toOption.map (fun t =>
    (t.current, t.scopes.size, (t.frameSize 1).toOption)) =
      some (2, 3, some 3) := by decide +kernel
  cases hrun : nestedCalls with
  | error f =>
    rw [hrun] at hview
    cases hview
  | ok t =>
    rw [hrun] at hview
    obtain ⟨hcurrent, hsize, hframe⟩ : t.current = 2 ∧ t.scopes.size = 3 ∧
        (t.frameSize 1).toOption = some 3 := by
      simpa [Except.toOption] using hview
    have hcalls := nestedCalls_calls hrun
    obtain ⟨-, hslots, -, -, -, -, -, hresolve⟩ := calls_sound hcalls (.refl t)
    obtain ⟨s, hs⟩ := Slots.exists_of_lt (show 1 < t.scopes.size by omega)
    obtain ⟨n, hn, hused, -⟩ := hslots 1 s hs
    rw [hn] at hframe
    cases hframe
    exact ⟨t, rfl, hcalls, hcurrent, hn, ⟨s, hs, hused⟩, hresolve 2 "g" (by omega)⟩

end ScopeTree

end Awl
