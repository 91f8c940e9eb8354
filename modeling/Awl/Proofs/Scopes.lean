import Awl.Scope

/-!
# Scope trees that grow

The checker only ever adds to a scope tree. `ScopeTree.Le t t'` says that `t'` has every scope and
every binding of `t`, and `ScopeTree.Laid` is what every such tree has: the slots that one scope
counts go to different names. Each operation is described once through the view `Slots.get?`
(`openChild_ok`, `declareIn_ok`, `reserveIn_ok`), and both facts follow from that
(`*_le`, `*_laid`).
-/

namespace Awl

variable {b : Binding} {free : Bool} {s : Scope} {id parent scope : ScopeId} {kind : ScopeKind}
  {t t' : ScopeTree} {x : String} {type : Ty}

theorem except_bind_eq_ok {ε α β : Type} {x : Except ε α} {f : α → Except ε β} {b : β} :
    (x >>= f) = .ok b ↔ ∃ a, x = .ok a ∧ f a = .ok b := by
  cases x with
  | error e => exact ⟨fun h => (nomatch h), fun ⟨_, h, _⟩ => (nomatch h)⟩
  | ok a => exact ⟨fun h => ⟨a, rfl, h⟩, fun ⟨_, h, hf⟩ => by cases h; exact hf⟩

theorem except_pure_eq_ok {ε α : Type} {a b : α} : (pure a : Except ε α) = .ok b ↔ b = a :=
  ⟨fun h => by cases h; rfl, fun h => by subst h; rfl⟩

/-! ## Slots -/

namespace Slots

variable {α : Type}

theorem replace_ok {s s' : Slots α} {id : Nat} {a : α} (h : s.replace id a = .ok s') :
    id < s.size ∧ s'.size = s.size ∧ ∀ j, s'.get? j = if j = id then some a else s.get? j := by
  unfold replace at h
  split at h
  · rename_i hlt
    cases h
    refine ⟨hlt, by simp [size], fun j => ?_⟩
    simp only [size] at hlt
    simp only [get?]
    by_cases hj : j = id
    · simp [hj, hlt]
    · simp [hj, Ne.symm hj]
  · cases h

theorem replace_eq_ok {s : Slots α} {id : Nat} {a : α} (h : id < s.size) :
    ∃ s', s.replace id a = .ok s' := ⟨_, if_pos h⟩

theorem lt_of_get? {s : Slots α} {id : Nat} {a : α} (h : s.get? id = some a) : id < s.size := by
  apply Nat.lt_of_not_le
  intro hc
  rw [(get?_eq_none_iff s id).2 hc] at h
  cases h

theorem exists_of_lt {s : Slots α} {id : Nat} (h : id < s.size) : ∃ a, s.get? id = some a := by
  cases hs : s.get? id with
  | some a => exact ⟨a, rfl⟩
  | none => exact absurd ((get?_eq_none_iff s id).1 hs) (by omega)

theorem get?_push_of_some {s : Slots α} {id : Nat} {a b : α} (h : s.get? id = some b) :
    (s.push a).get? id = some b := by
  rw [get?_push, if_neg, h]
  exact Nat.ne_of_lt (lt_of_get? h)

end Slots

/-! ## The order -/

/-- A scope with more bindings and more slots handed out. -/
structure Scope.Le (s s' : Scope) : Prop where
  parent : s'.parent = s.parent
  kind : s'.kind = s.kind
  owner : s'.owner = s.owner
  slots : s.slots ≤ s'.slots
  bindings : ∀ x b, s.bindings.lookup x = some b → s'.bindings.lookup x = some b

theorem Scope.Le.refl (s : Scope) : s.Le s := ⟨rfl, rfl, rfl, Nat.le_refl _, fun _ _ h => h⟩

theorem Scope.Le.trans {s1 s2 s3 : Scope} (h : s1.Le s2) (h' : s2.Le s3) : s1.Le s3 where
  parent := h'.parent.trans h.parent
  kind := h'.kind.trans h.kind
  owner := h'.owner.trans h.owner
  slots := Nat.le_trans h.slots h'.slots
  bindings x b hb := h'.bindings x b (h.bindings x b hb)

namespace ScopeTree

/-- `t'` has every scope of `t`, with at least its bindings. -/
def Le (t t' : ScopeTree) : Prop :=
  ∀ id s, t.scopes.get? id = some s → ∃ s', t'.scopes.get? id = some s' ∧ s.Le s'

theorem Le.refl (t : ScopeTree) : t.Le t := fun _ s h => ⟨s, h, .refl s⟩

theorem Le.trans {t1 t2 t3 : ScopeTree} (h : t1.Le t2) (h' : t2.Le t3) : t1.Le t3 := by
  intro id s hs
  obtain ⟨s', hs', hle⟩ := h id s hs
  obtain ⟨s'', hs'', hle'⟩ := h' id s' hs'
  exact ⟨s'', hs'', hle.trans hle'⟩

/-- The binding of a name in one scope, none if there is no such scope. -/
def bindingAt? (t : ScopeTree) (id : ScopeId) (x : String) : Option Binding :=
  (t.scopes.get? id).bind fun s => s.bindings.lookup x

theorem bindingAt?_eq (h : t.scopes.get? id = some s) (x : String) :
    t.bindingAt? id x = s.bindings.lookup x := by
  simp [bindingAt?, h]

theorem exists_of_bindingAt? (h : t.bindingAt? id x = some b) :
    ∃ s, t.scopes.get? id = some s ∧ s.bindings.lookup x = some b := by
  simpa [bindingAt?, Option.bind_eq_some_iff] using h

theorem Le.bindingAt? (h : t.Le t') (hb : t.bindingAt? id x = some b) :
    t'.bindingAt? id x = some b := by
  obtain ⟨s, hs, hx⟩ := exists_of_bindingAt? hb
  obtain ⟨s', hs', hle⟩ := h id s hs
  rw [bindingAt?_eq hs', hle.bindings x b hx]

/-! ## What the operations do -/

theorem binding?_eq (h : t.scopes.get? id = some s) (x : String) :
    t.binding? id x = .ok (s.bindings.lookup x) := by
  unfold binding?
  rw [Slots.fetch_eq_ok_iff.2 h]
  rfl

theorem binding?_ok {r : Option Binding} (h : t.binding? id x = .ok r) :
    ∃ s, t.scopes.get? id = some s ∧ r = s.bindings.lookup x := by
  unfold binding? at h
  simpa only [except_bind_eq_ok, except_pure_eq_ok, Slots.fetch_eq_ok_iff] using h

theorem offset?_eq (h : t.scopes.get? id = some s) (x : String) :
    t.offset? id x = .ok ((s.bindings.lookup x).bind (·.offset)) := by
  unfold offset?
  rw [binding?_eq h]
  rfl

theorem kind_eq (h : t.scopes.get? id = some s) : t.kind id = .ok s.kind := by
  unfold kind
  rw [Slots.fetch_eq_ok_iff.2 h]
  rfl

theorem parent_eq (h : t.scopes.get? id = some s) : t.parent id = .ok s.parent := by
  unfold parent
  simp only [except_bind_eq_ok, Slots.fetch_eq_ok_iff]
  exact ⟨s, h, rfl⟩

theorem parent_ok {r : Option ScopeId} (h : t.parent id = .ok r) :
    ∃ s, t.scopes.get? id = some s ∧ r = s.parent := by
  unfold parent at h
  simpa only [except_bind_eq_ok, except_pure_eq_ok, Slots.fetch_eq_ok_iff] using h

theorem isGlobal_ok {r : Bool} (h : t.isGlobal id = .ok r) :
    ∃ s, t.scopes.get? id = some s ∧ r = s.parent.isNone := by
  unfold isGlobal at h
  simp only [except_bind_eq_ok, except_pure_eq_ok] at h
  obtain ⟨p, hp, rfl⟩ := h
  obtain ⟨s, hs, rfl⟩ := parent_ok hp
  exact ⟨s, hs, rfl⟩

variable {o : Scope}

theorem frameSize_eq (h : t.scopes.get? id = some s) (ho : t.scopes.get? s.owner = some o) :
    t.frameSize id = .ok o.slots := by
  unfold frameSize
  simp only [except_bind_eq_ok, Slots.fetch_eq_ok_iff]
  exact ⟨s, h, o, ho, rfl⟩

/-- The new scope is empty; only a block shares the counter of its parent. -/
theorem openChild_ok (h : t.openChild parent kind = .ok (id, t')) :
    id = t.scopes.size ∧ ∃ owner, t'.scopes = t.scopes.push { parent := some parent, kind, owner } ∧
      kind ≠ .global ∧ (kind.ownsSlots = true ∧ owner = id ∨
        kind = .block ∧ ∃ s, t.scopes.get? parent = some s ∧ owner = s.owner) := by
  unfold openChild at h
  by_cases hk : kind = .global
  · subst hk; cases h
  have hk' : (kind == ScopeKind.global) = false := by simpa using hk
  simp only [hk', Bool.false_eq_true, ↓reduceIte, except_bind_eq_ok, except_pure_eq_ok,
    Prod.mk.injEq] at h
  obtain ⟨owner, ho, rfl, rfl⟩ := h
  refine ⟨rfl, owner, rfl, hk, ?_⟩
  unfold ownerFor at ho
  split at ho
  · rename_i hown
    cases ho
    exact .inl ⟨hown, rfl⟩
  · refine .inr ⟨by cases kind <;> simp_all [ScopeKind.ownsSlots], ?_⟩
    simpa only [except_bind_eq_ok, except_pure_eq_ok, Slots.fetch_eq_ok_iff] using ho

theorem bind_ok (h : t.bind id x b = .ok t') :
    ∃ s, t.scopes.get? id = some s ∧ ∀ j, t'.scopes.get? j =
      if j = id then some { s with bindings := (x, b) :: s.bindings } else t.scopes.get? j := by
  unfold bind at h
  simp only [except_bind_eq_ok, except_pure_eq_ok, Slots.fetch_eq_ok_iff] at h
  obtain ⟨s, hs, scopes, hr, rfl⟩ := h
  exact ⟨s, hs, (Slots.replace_ok hr).2.2⟩

theorem takeSlots_ok {owner : ScopeId} {count first : Nat}
    (h : t.takeSlots owner count = .ok (first, t')) :
    ∃ o, t.scopes.get? owner = some o ∧ first = o.slots ∧ ∀ j, t'.scopes.get? j =
      if j = owner then some { o with slots := o.slots + count } else t.scopes.get? j := by
  unfold takeSlots at h
  simp only [except_bind_eq_ok, Slots.fetch_eq_ok_iff] at h
  obtain ⟨o, ho, scopes, hr, rfl, rfl⟩ := h
  exact ⟨o, ho, rfl, (Slots.replace_ok hr).2.2⟩

/-- A scope after a name was bound in it, and after it handed out a slot. -/
def afterDeclare (scope owner : ScopeId) (x : String) (b : Binding) (j : ScopeId) (s : Scope) :
    Scope :=
  { s with
    slots := if j = owner then s.slots + 1 else s.slots
    bindings := if j = scope then (x, b) :: s.bindings else s.bindings }

theorem le_slots_afterDeclare (scope owner : ScopeId) (x : String) (b : Binding) (j : ScopeId)
    (s : Scope) : s.slots ≤ (afterDeclare scope owner x b j s).slots := by
  simp only [afterDeclare]
  split <;> omega

/-- A free name gets the slot that its owner hands out next, and a taken one changes nothing. -/
theorem declareIn_ok (h : t.declareIn scope x type = .ok (free, t')) :
    (free = false ∧ t' = t ∧ ∃ s b, t.scopes.get? scope = some s ∧ s.bindings.lookup x = some b) ∨
    (free = true ∧ ∃ s o, t.scopes.get? scope = some s ∧ s.bindings.lookup x = none ∧
      t.scopes.get? s.owner = some o ∧
      ∀ j, t'.scopes.get? j = (t.scopes.get? j).map
        (afterDeclare scope s.owner x { type, offset := some o.slots } j)) := by
  unfold declareIn at h
  simp only [except_bind_eq_ok] at h
  obtain ⟨r, hr, h⟩ := h
  obtain ⟨s, hs, rfl⟩ := binding?_ok hr
  cases hb : s.bindings.lookup x with
  | some b =>
    rw [hb] at h
    cases h
    exact .inl ⟨rfl, rfl, s, b, hs, hb⟩
  | none =>
    rw [hb] at h
    simp only [except_bind_eq_ok, Slots.fetch_eq_ok_iff] at h
    obtain ⟨s', hs', ⟨k, t1⟩, ht, t2, hbind, rfl, rfl⟩ := h
    rw [hs] at hs'
    cases hs'
    obtain ⟨o, ho, rfl, hget⟩ := takeSlots_ok ht
    obtain ⟨s1, hs1, hget'⟩ := bind_ok hbind
    refine .inr ⟨rfl, s, o, hs, hb, ho, fun j => ?_⟩
    rw [hget] at hs1
    rw [hget', hget]
    by_cases hj : j = scope
    · subst hj
      by_cases hjo : j = s.owner
      · rw [← hjo, hs] at ho
        cases ho
        simp only [hjo] at hs1
        cases hs1
        simp [hs, ← hjo, afterDeclare, Ty.size]
      · simp only [hjo, hs] at hs1
        cases hs1
        simp [hs, hjo, afterDeclare]
    · by_cases hjo : j = s.owner
      · subst hjo
        simp [hj, ho, afterDeclare, Ty.size]
      · cases t.scopes.get? j <;> simp [afterDeclare, hj, hjo]

theorem reserveIn_ok (h : t.reserveIn scope x type = .ok (free, t')) :
    (free = false ∧ t' = t) ∨ (free = true ∧ ∃ s, t.scopes.get? scope = some s ∧
      s.bindings.lookup x = none ∧ ∀ j, t'.scopes.get? j = if j = scope then
        some { s with bindings := (x, { type, offset := none }) :: s.bindings }
        else t.scopes.get? j) := by
  unfold reserveIn at h
  simp only [except_bind_eq_ok] at h
  obtain ⟨r, hr, h⟩ := h
  obtain ⟨s, hs, rfl⟩ := binding?_ok hr
  cases hb : s.bindings.lookup x with
  | some b =>
    rw [hb] at h
    cases h
    exact .inl ⟨rfl, rfl⟩
  | none =>
    rw [hb] at h
    simp only [except_bind_eq_ok] at h
    obtain ⟨t1, hbind, rfl, rfl⟩ := h
    obtain ⟨s', hs', hget⟩ := bind_ok hbind
    rw [hs] at hs'
    cases hs'
    exact .inr ⟨rfl, s, hs, hb, hget⟩

/-- A name is bound in the scope itself, or it is looked up in the parent. -/
theorem resolveWithin_ok {fuel : Nat} (h : t.resolveWithin x fuel scope = .ok (some (type, id))) :
    ∃ s n, fuel = n + 1 ∧ t.scopes.get? scope = some s ∧
      ((∃ b, s.bindings.lookup x = some b ∧ type = b.type ∧ id = scope) ∨
        s.bindings.lookup x = none ∧
        ∃ p, s.parent = some p ∧ t.resolveWithin x n p = .ok (some (type, id))) := by
  obtain _ | n := fuel
  · cases h
  unfold resolveWithin at h
  simp only [except_bind_eq_ok] at h
  obtain ⟨r, hr, h⟩ := h
  obtain ⟨s, hs, rfl⟩ := binding?_ok hr
  refine ⟨s, n, rfl, hs, ?_⟩
  cases hb : s.bindings.lookup x with
  | some b =>
    rw [hb] at h
    cases h
    exact .inl ⟨b, rfl, rfl, rfl⟩
  | none =>
    rw [hb] at h
    simp only [except_bind_eq_ok] at h
    obtain ⟨r, hp, h⟩ := h
    obtain ⟨s', hs', rfl⟩ := parent_ok hp
    rw [hs] at hs'
    cases hs'
    cases hpar : s.parent with
    | none => rw [hpar] at h; cases h
    | some p =>
      rw [hpar] at h
      exact .inr ⟨rfl, p, rfl, h⟩

/-! ## The operations only add -/

theorem openChild_le (h : t.openChild parent kind = .ok (id, t')) : t.Le t' := by
  obtain ⟨-, owner, hs, -⟩ := openChild_ok h
  intro j s hj
  exact ⟨s, by rw [hs]; exact Slots.get?_push_of_some hj, .refl s⟩

theorem lookup_cons_of_none {l : List (String × Binding)} {y : String} {c : Binding}
    (h : l.lookup x = none) (hy : l.lookup y = some c) : ((x, b) :: l).lookup y = some c := by
  have hne : y ≠ x := by rintro rfl; rw [h] at hy; cases hy
  simpa [List.lookup_cons, beq_eq_false_iff_ne.2 hne] using hy

theorem declareIn_le (h : t.declareIn scope x type = .ok (free, t')) : t.Le t' := by
  rcases declareIn_ok h with ⟨-, rfl, -⟩ | ⟨-, s, o, hs, hx, ho, hget⟩
  · exact .refl _
  intro j r hj
  refine ⟨afterDeclare scope s.owner x { type, offset := some o.slots } j r,
    by rw [hget, hj]; rfl, rfl, rfl, rfl, le_slots_afterDeclare .., fun y b hy => ?_⟩
  simp only [afterDeclare]
  split
  · subst j
    rw [hs] at hj
    cases hj
    exact lookup_cons_of_none hx hy
  · exact hy

theorem reserveIn_le (h : t.reserveIn scope x type = .ok (free, t')) : t.Le t' := by
  rcases reserveIn_ok h with ⟨-, rfl⟩ | ⟨-, s, hs, hx, hget⟩
  · exact .refl _
  intro j r hj
  rw [hget]
  split
  · subst j
    rw [hs] at hj
    cases hj
    exact ⟨_, rfl, rfl, rfl, rfl, Nat.le_refl _, fun y b hy => lookup_cons_of_none hx hy⟩
  · exact ⟨r, hj, .refl r⟩

/-! ## Scopes that stay -/

section
variable {t1 : ScopeTree} {inner : Option ScopeId} {sc : Scope}

/-- All scopes stay, and names are bound in no other scope than `inner`. -/
def Keeps (inner : Option ScopeId) (t t' : ScopeTree) : Prop :=
  ∀ id sc, t.scopes.get? id = some sc → ∃ sc', t'.scopes.get? id = some sc' ∧
    sc'.parent = sc.parent ∧ sc'.kind = sc.kind ∧ (inner ≠ some id → sc'.bindings = sc.bindings)

theorem Keeps.refl (inner : Option ScopeId) (t : ScopeTree) : t.Keeps inner t := fun _ sc h =>
  ⟨sc, h, rfl, rfl, fun _ => rfl⟩

theorem Keeps.outside (hk : t.Keeps inner t') (hs : t.scopes.get? id = some s)
    (hi : ∀ j, inner = some j → id < j) :
    ∃ s', t'.scopes.get? id = some s' ∧ s'.parent = s.parent ∧ s'.bindings = s.bindings := by
  obtain ⟨s', hs', hp, -, hb⟩ := hk id s hs
  exact ⟨s', hs', hp, hb fun h => Nat.lt_irrefl _ (hi id h)⟩

theorem Keeps.trans (h : t.Keeps inner t1) (h' : t1.Keeps inner t') : t.Keeps inner t' := by
  intro id sc hsc
  obtain ⟨sc1, hsc1, hp, hk, hb⟩ := h id sc hsc
  obtain ⟨sc', hsc', hp', hk', hb'⟩ := h' id sc1 hsc1
  exact ⟨sc', hsc', hp'.trans hp, hk'.trans hk, fun hi => (hb' hi).trans (hb hi)⟩

theorem Keeps.weaken (h : t.Keeps none t') : t.Keeps inner t' := by
  intro id sc hsc
  obtain ⟨sc', hsc', hp, hk, hb⟩ := h id sc hsc
  exact ⟨sc', hsc', hp, hk, fun _ => hb (by simp)⟩

/-- Names bound in a scope that was not there before do not count. -/
theorem Keeps.fresh (h : t.Keeps none t1) (hid : t.scopes.get? id = none)
    (h' : t1.Keeps (some id) t') : t.Keeps none t' := by
  intro j sc hsc
  obtain ⟨sc1, hsc1, hp, hk, hb⟩ := h j sc hsc
  obtain ⟨sc', hsc', hp', hk', hb'⟩ := h' j sc1 hsc1
  refine ⟨sc', hsc', hp'.trans hp, hk'.trans hk, fun hi => (hb' ?_).trans (hb hi)⟩
  rintro hj
  cases hj
  rw [hid] at hsc
  cases hsc

theorem openChild_keeps (h : t.openChild parent kind = .ok (id, t')) : t.Keeps none t' := by
  obtain ⟨-, owner, hs, -⟩ := openChild_ok h
  intro j sc hj
  exact ⟨sc, by rw [hs]; exact Slots.get?_push_of_some hj, rfl, rfl, fun _ => rfl⟩

/-- The scope of a new name. -/
theorem declareIn_new (h : t.declareIn id x type = .ok (free, t'))
    (hsc : t.scopes.get? id = some sc) :
    free = (sc.bindings.lookup x).isNone ∧ (sc.bindings.lookup x = none → ∃ sc' k,
      t'.scopes.get? id = some sc' ∧ sc'.parent = sc.parent ∧ sc'.kind = sc.kind ∧
      sc'.bindings = (x, { type, offset := some k }) :: sc.bindings) := by
  rcases declareIn_ok h with ⟨rfl, rfl, s, b, hs, hb⟩ | ⟨rfl, s, o, hs, hb, -, hget⟩
  · rw [hsc] at hs
    cases hs
    exact ⟨by rw [hb]; rfl, fun hx => nomatch hb.symm.trans hx⟩
  · rw [hsc] at hs
    cases hs
    refine ⟨by rw [hb]; rfl, fun _ =>
      ⟨afterDeclare id sc.owner x { type, offset := some o.slots } id sc,
      o.slots, by rw [hget, hsc]; rfl, rfl, rfl, ?_⟩⟩
    simp [afterDeclare]

theorem declareIn_keeps (h : t.declareIn id x type = .ok (free, t')) : t.Keeps (some id) t' := by
  rcases declareIn_ok h with ⟨-, rfl, -⟩ | ⟨-, s, o, hs, hx, ho, hget⟩
  · exact .refl _ _
  intro j r hj
  refine ⟨afterDeclare id s.owner x { type, offset := some o.slots } j r,
    by rw [hget, hj]; rfl, rfl,
    rfl, fun hi => ?_⟩
  have hne : j ≠ id := fun h => hi (by rw [h])
  simp [afterDeclare, hne]

end

/-! ## The operations succeed -/

theorem exists_openChild (hp : t.scopes.get? parent = some s) (hk : kind ≠ .global) :
    ∃ id t', t.openChild parent kind = .ok (id, t') := by
  have hk' : (kind == ScopeKind.global) = false := by simpa using hk
  unfold openChild ownerFor
  simp only [hk', Bool.false_eq_true, ↓reduceIte, Slots.fetch_eq_ok_iff.2 hp]
  split <;> exact ⟨_, _, rfl⟩

theorem exists_bind (hs : t.scopes.get? id = some s) (x : String) (b : Binding) :
    ∃ t', t.bind id x b = .ok t' := by
  obtain ⟨scopes, hr⟩ := Slots.replace_eq_ok (Slots.lt_of_get? hs)
  refine ⟨{ t with scopes }, ?_⟩
  unfold bind
  simp only [except_bind_eq_ok, Slots.fetch_eq_ok_iff]
  exact ⟨s, hs, scopes, hr, rfl⟩

theorem exists_takeSlots (hs : t.scopes.get? id = some s) (count : Nat) :
    ∃ k t', t.takeSlots id count = .ok (k, t') := by
  obtain ⟨scopes, hr⟩ := Slots.replace_eq_ok (Slots.lt_of_get? hs)
  refine ⟨s.slots, { t with scopes }, ?_⟩
  unfold takeSlots
  simp only [except_bind_eq_ok, Slots.fetch_eq_ok_iff]
  exact ⟨s, hs, scopes, hr, rfl⟩

theorem exists_declareIn (hs : t.scopes.get? id = some s) (ho : t.scopes.get? s.owner = some o)
    (x : String) (type : Ty) : ∃ free t', t.declareIn id x type = .ok (free, t') := by
  obtain ⟨k, t1, h1⟩ := exists_takeSlots ho type.size
  obtain ⟨_, -, -, hget⟩ := takeSlots_ok h1
  obtain ⟨s1, hs1⟩ : ∃ s1, t1.scopes.get? id = some s1 := by
    rw [hget]
    split
    · exact ⟨_, rfl⟩
    · exact ⟨_, hs⟩
  obtain ⟨t2, h2⟩ := exists_bind hs1 x { type, offset := some k }
  unfold declareIn
  rw [binding?_eq hs]
  cases s.bindings.lookup x with
  | some b => exact ⟨_, _, rfl⟩
  | none =>
    refine ⟨true, t2, except_bind_eq_ok.2 ⟨none, rfl, ?_⟩⟩
    simp only [except_bind_eq_ok, Slots.fetch_eq_ok_iff]
    exact ⟨s, hs, (k, t1), h1, t2, h2, rfl⟩

theorem exists_reserveIn (hs : t.scopes.get? scope = some s) (x : String) (type : Ty) :
    ∃ free t', t.reserveIn scope x type = .ok (free, t') := by
  obtain ⟨t', ht'⟩ := exists_bind hs x { type, offset := none }
  unfold reserveIn
  rw [binding?_eq hs]
  cases s.bindings.lookup x with
  | some b => exact ⟨_, _, rfl⟩
  | none => exact ⟨true, t', except_bind_eq_ok.2 ⟨none, rfl, except_bind_eq_ok.2 ⟨t', ht', rfl⟩⟩⟩

/-! ## Where scopes and bindings come from -/

/-- Every scope of `t'` is one of `t`, with bindings of `bound` at most, or an empty one of
`new`. -/
structure Grows (new : ScopeId → Scope → Prop) (bound : ScopeId → String → Binding → Prop)
    (t t' : ScopeTree) : Prop where
  le : t.Le t'
  origin : ∀ {j r}, t'.scopes.get? j = some r → new j r ∧ r.bindings = [] ∨
    ∃ r0, t.scopes.get? j = some r0 ∧ r0.Le r ∧
      ∀ {y b}, r.bindings.lookup y = some b → r0.bindings.lookup y = some b ∨ bound j y b

theorem openChild_grows (h : t.openChild parent kind = .ok (id, t')) :
    Grows (fun j r => j = id ∧ r.parent = some parent ∧ r.kind = kind)
      (fun _ _ _ => False) t t' := by
  obtain ⟨rfl, owner, hs, -⟩ := openChild_ok h
  refine ⟨openChild_le h, fun {j r} hj => ?_⟩
  rw [hs, Slots.get?_push] at hj
  split at hj
  · cases hj
    exact .inl ⟨⟨‹_›, rfl, rfl⟩, rfl⟩
  · exact .inr ⟨r, hj, .refl r, .inl⟩

theorem declareIn_grows (h : t.declareIn scope x type = .ok (free, t')) :
    Grows (fun _ _ => False) (fun j y b => j = scope ∧ y = x ∧ b.type = type ∧
      ∃ s o o', t.scopes.get? j = some s ∧ t.scopes.get? s.owner = some o ∧
        b.offset = some o.slots ∧
        t'.scopes.get? s.owner = some o' ∧ o.slots < o'.slots) t t' := by
  refine ⟨declareIn_le h, fun {j r} hj => .inr ?_⟩
  have hle := declareIn_le h
  rcases declareIn_ok h with ⟨-, rfl, -⟩ | ⟨-, s, o, hs, -, ho, hget⟩
  · exact ⟨r, hj, .refl r, .inl⟩
  have hj' := hj
  rw [hget, Option.map_eq_some_iff] at hj'
  obtain ⟨r0, h0, rfl⟩ := hj'
  obtain ⟨r', hr', hle'⟩ := hle j r0 h0
  obtain rfl := Option.mem_unique hj hr'
  refine ⟨r0, h0, hle', fun {y b} hy => ?_⟩
  simp only [afterDeclare] at hy
  split at hy
  · subst j
    rw [List.lookup_cons] at hy
    split at hy
    · rename_i hyx
      cases hy
      exact .inr ⟨rfl, by simpa using hyx, rfl, s, o, _, hs, ho, rfl, by rw [hget, ho]; rfl,
        by simp [afterDeclare]⟩
    · exact .inl hy
  · exact .inl hy

theorem reserveIn_grows (h : t.reserveIn scope x type = .ok (free, t')) : Grows (fun _ _ => False)
      (fun j y b => j = scope ∧ y = x ∧ b = { type, offset := none }) t t' := by
  refine ⟨reserveIn_le h, fun {j r} hj => .inr ?_⟩
  rcases reserveIn_ok h with ⟨-, rfl⟩ | ⟨-, s, hs, hx, hget⟩
  · exact ⟨r, hj, .refl r, .inl⟩
  rw [hget] at hj
  split at hj
  · subst j
    cases hj
    refine ⟨s, hs, ⟨rfl, rfl, rfl, Nat.le_refl _, fun y b => lookup_cons_of_none hx⟩,
      fun {y b} hy => ?_⟩
    rw [List.lookup_cons] at hy
    split at hy
    · rename_i hyx
      cases hy
      exact .inr ⟨rfl, by simpa using hyx, rfl⟩
    · exact .inl hy
  · exact ⟨r, hj, .refl r, .inl⟩

section
variable {new : ScopeId → Scope → Prop} {bound : ScopeId → String → Binding → Prop}

/-- What all bindings have in common stays so. -/
theorem Grows.bindings {Q : ScopeKind → Binding → Prop} (hg : Grows new bound t t')
    (hbound : ∀ j r y b, t.scopes.get? j = some r → bound j y b → Q r.kind b)
    (h : ∀ j r y b, t.scopes.get? j = some r → r.bindings.lookup y = some b → Q r.kind b) :
    ∀ j r y b, t'.scopes.get? j = some r → r.bindings.lookup y = some b → Q r.kind b := by
  intro j r y b hj hy
  rcases hg.origin hj with ⟨-, hr⟩ | ⟨r0, h0, hle, hb⟩
  · rw [hr] at hy
    cases hy
  · rw [hle.kind]
    rcases hb hy with hy | hy
    · exact h j r0 y b h0 hy
    · exact hbound j r0 y b h0 hy

/-! ## The layout of slots -/

/-- What every tree has: one global scope, at the root, and slots that no two names share. -/
structure Slotted (t : ScopeTree) : Prop where
  global : ∃ s, t.scopes.get? globalId = some s ∧ s.parent = none ∧ s.kind = .global ∧
    s.owner = globalId
  root : ∀ id s, t.scopes.get? id = some s → s.parent = none → s.kind = .global
  single : ∀ id s, t.scopes.get? id = some s → s.kind = .global → id = globalId
  older : ∀ id s p, t.scopes.get? id = some s → s.parent = some p → p < id
  owner : ∀ id s, t.scopes.get? id = some s → ∃ o, t.scopes.get? s.owner = some o ∧
    o.owner = s.owner
  bound : ∀ id s o x b k, t.scopes.get? id = some s → t.scopes.get? s.owner = some o →
    s.bindings.lookup x = some b → b.offset = some k → k < o.slots
  apart : ∀ id s x b id' s' x' b' k, t.scopes.get? id = some s → t.scopes.get? id' = some s' →
    s.bindings.lookup x = some b → s'.bindings.lookup x' = some b' → b.offset = some k →
    b'.offset = some k → s.owner = s'.owner → id = id' ∧ x = x'

/-- What every tree of the checker has. -/
structure Laid (t : ScopeTree) : Prop extends Slotted t where
  /-- Only the names of methods are bound without a slot. -/
  reserved : ∀ id s x b, t.scopes.get? id = some s → s.bindings.lookup x = some b →
    b.offset = none → b.type.isFunction = true

theorem new_get? (h : ScopeTree.new.scopes.get? id = some s) :
    id = globalId ∧ s = { parent := none, kind := .global, owner := globalId } := by
  simp only [new, Slots.get?_push] at h
  split at h
  · cases h
    exact ⟨‹_›, rfl⟩
  · cases h

theorem new_laid : ScopeTree.new.Laid := by
  have hg : ScopeTree.new.scopes.get? globalId =
      some { parent := none, kind := .global, owner := globalId } := rfl
  refine ⟨⟨⟨_, hg, rfl, rfl, rfl⟩, fun id s h _ => ?_, fun id s h _ => ?_, fun id s p h hp => ?_,
    fun id s h => ?_,
    fun id s o x b k h _ hx _ => ?_, fun id s x b id' s' x' b' k h _ hx _ _ _ _ => ?_⟩,
    fun id s x b h hx _ => ?_⟩
  all_goals obtain ⟨rfl, rfl⟩ := new_get? h
  · rfl
  · rfl
  · cases hp
  · exact ⟨_, hg, rfl⟩
  all_goals cases hx

/-- New scopes lie below older ones, and a new name gets a slot that was not handed out. -/
theorem Slotted.grow (scope : ScopeId) (x : String) (ht : t.Slotted) (hg : Grows new bound t t')
    (hnew : ∀ {j r}, t'.scopes.get? j = some r → new j r →
      r.kind ≠ .global ∧ (∃ p, r.parent = some p ∧ p < j) ∧
      ∃ o, t'.scopes.get? r.owner = some o ∧ o.owner = r.owner)
    (hbound : ∀ {j y b k}, bound j y b → b.offset = some k →
      j = scope ∧ y = x ∧ ∃ s o o', t.scopes.get? j = some s ∧
      t.scopes.get? s.owner = some o ∧ k = o.slots ∧ t'.scopes.get? s.owner = some o' ∧
      k < o'.slots) :
    t'.Slotted := by
  obtain ⟨g, hglob, hgp, hgk, hgo⟩ := ht.global
  obtain ⟨g', hg', hgle⟩ := hg.le _ _ hglob
  refine ⟨⟨g', hg', hgle.parent.trans hgp, hgle.kind.trans hgk, hgle.owner.trans hgo⟩,
    fun j r hj hp =>
    ?_, fun j r hj hk => ?_, fun j r p hj hp => ?_, fun j r hj => ?_, fun j r o y b k hj ho hy hb =>
    ?_, fun j r y b j' r' y' b' k hj hj' hy hy' hb hb' hoo => ?_⟩
  all_goals rcases hg.origin hj with ⟨hn, hr⟩ | ⟨r0, h0, hle, hold⟩
  · obtain ⟨-, ⟨p, hp', -⟩, -⟩ := hnew hj hn
    cases hp.symm.trans hp'
  · exact hle.kind.trans (ht.root j r0 h0 (hle.parent ▸ hp))
  · exact absurd hk (hnew hj hn).1
  · exact ht.single j r0 h0 (hle.kind ▸ hk)
  · obtain ⟨-, ⟨p', hp', hlt⟩, -⟩ := hnew hj hn
    cases hp.symm.trans hp'
    exact hlt
  · exact ht.older j r0 p h0 (hle.parent ▸ hp)
  · exact (hnew hj hn).2.2
  · obtain ⟨o, ho, hoo⟩ := ht.owner j r0 h0
    obtain ⟨o', ho', hole⟩ := hg.le _ _ ho
    exact ⟨o', hle.owner ▸ ho', by rw [hole.owner, hoo, hle.owner]⟩
  · rw [hr] at hy
    cases hy
  · obtain ⟨q, hq, -⟩ := ht.owner j r0 h0
    obtain ⟨q', hq', hqle⟩ := hg.le _ _ hq
    obtain rfl := Option.mem_unique ho (hle.owner ▸ hq')
    rcases hold hy with hy | hy
    · exact Nat.lt_of_lt_of_le (ht.bound j r0 q y b k h0 hq hy hb) hqle.slots
    · obtain ⟨-, -, s, -, o', hs, -, -, ho', hlt⟩ := hbound hy hb
      obtain rfl := Option.mem_unique hs h0
      exact Option.mem_unique ho' hq' ▸ hlt
  · rw [hr] at hy
    cases hy
  · rcases hg.origin hj' with ⟨-, hr⟩ | ⟨r0', h0', hle', hold'⟩
    · rw [hr] at hy'
      cases hy'
    rw [hle.owner, hle'.owner] at hoo
    rcases hold hy with hy | hy <;> rcases hold' hy' with hy' | hy'
    · exact ht.apart j r0 y b j' r0' y' b' k h0 h0' hy hy' hb hb' hoo
    · obtain ⟨-, -, s, o, -, hs, ho, rfl, -⟩ := hbound hy' hb'
      obtain rfl := Option.mem_unique hs h0'
      exact absurd (ht.bound j r0 o y b _ h0 (hoo ▸ ho) hy hb) (Nat.lt_irrefl _)
    · obtain ⟨-, -, s, o, -, hs, ho, rfl, -⟩ := hbound hy hb
      obtain rfl := Option.mem_unique hs h0
      exact absurd (ht.bound j' r0' o y' b' _ h0' (hoo ▸ ho) hy' hb') (Nat.lt_irrefl _)
    · obtain ⟨rfl, rfl, -⟩ := hbound hy hb
      obtain ⟨rfl, rfl, -⟩ := hbound hy' hb'
      exact ⟨rfl, rfl⟩

end

theorem openChild_slotted (h : t.openChild parent kind = .ok (id, t')) (hp : parent < t.scopes.size)
    (ht : t.Slotted) : t'.Slotted := by
  refine ht.grow id "" (openChild_grows h) ?_ fun hb => hb.elim
  rintro j r hj ⟨rfl, -, -⟩
  obtain ⟨rfl, owner, hs, hk, how⟩ := openChild_ok h
  obtain rfl := Option.some.inj (hj.symm.trans (by rw [hs, Slots.get?_push]; exact if_pos rfl))
  refine ⟨hk, ⟨parent, rfl, hp⟩, ?_⟩
  rcases how with ⟨-, rfl⟩ | ⟨-, p, hp, rfl⟩
  · exact ⟨_, hj, rfl⟩
  · obtain ⟨o, ho, hoo⟩ := ht.owner parent p hp
    exact ⟨o, by rw [hs]; exact Slots.get?_push_of_some ho, hoo⟩

theorem declareIn_slotted (h : t.declareIn scope x type = .ok (free, t')) (ht : t.Slotted) :
    t'.Slotted := by
  refine ht.grow scope x (declareIn_grows h) (fun _ hn => hn.elim) ?_
  rintro j y b k ⟨rfl, rfl, -, s, o, o', hs, ho, hb, ho', hlt⟩ hk
  cases hb.symm.trans hk
  exact ⟨rfl, rfl, s, o, o', hs, ho, rfl, ho', hlt⟩

theorem reserveIn_slotted (h : t.reserveIn scope x type = .ok (free, t')) (ht : t.Slotted) :
    t'.Slotted := by
  refine ht.grow scope x (reserveIn_grows h) (fun _ hn => hn.elim) ?_
  rintro j y b k ⟨-, -, rfl⟩ hk
  cases hk

theorem openChild_laid (h : t.openChild parent kind = .ok (id, t')) (hp : parent < t.scopes.size)
    (ht : t.Laid) : t'.Laid :=
  ⟨openChild_slotted h hp ht.toSlotted,
    (openChild_grows h).bindings (Q := fun _ b => b.offset = none → b.type.isFunction = true)
    (fun _ _ _ _ _ hb => hb.elim) ht.reserved⟩

theorem declareIn_laid (h : t.declareIn scope x type = .ok (free, t')) (ht : t.Laid) : t'.Laid := by
  refine ⟨declareIn_slotted h ht.toSlotted,
    (declareIn_grows h).bindings (Q := fun _ b => b.offset = none → b.type.isFunction = true)
    ?_ ht.reserved⟩
  rintro j r y b - ⟨-, -, -, s, o, o', -, -, hb, -⟩ hk
  cases hb.symm.trans hk

theorem reserveIn_laid (h : t.reserveIn scope x type = .ok (free, t')) (hf : type.isFunction = true)
    (ht : t.Laid) : t'.Laid := by
  refine ⟨reserveIn_slotted h ht.toSlotted,
    (reserveIn_grows h).bindings (Q := fun _ b => b.offset = none → b.type.isFunction = true)
    ?_ ht.reserved⟩
  rintro j r y b - ⟨-, -, rfl⟩ -
  exact hf

end ScopeTree

end Awl
