import Awl.Proofs.Scopes
import Awl.Typing.Basic

/-!
# The scopes of a routine

`ScopeTree.Inside t frame id` places a scope in the routine whose parameters and variables `frame`
counts, or in the code of the main core if there is no frame. `ScopeTree.Reaches t frame s` says
that such a routine can use the names of a scope: globals always, fields through its receiver, and
of parameters and variables only its own. `Inside.resolve` says that a name that is looked up in a
routine is one that the routine reaches.
-/

namespace Awl.ScopeTree

/-- The scope that counts the slots of a routine's frame. -/
def frameOwner (frame : Option ScopeId) : ScopeId := frame.getD globalId

/-- The slot of the receiver in the frame of a routine. -/
def ReceiverAt (t : ScopeTree) (frame : Option ScopeId) (k : Nat) : Prop :=
  ∃ f s b, frame = some f ∧ t.scopes.get? f = some s ∧ s.bindings.lookup receiverName = some b ∧
    b.offset = some k

/-- The routine with this frame can use the names of a scope. -/
def Reaches (t : ScopeTree) (frame : Option ScopeId) (s : Scope) : Prop :=
  match s.kind with
  | .global => True
  | .members => ∃ k, t.ReceiverAt frame k
  | .function | .block => s.owner = frameOwner frame

/-- The parent of a function's scope: the global scope, or the members of a class, which the
function then uses through its receiver. -/
def Home (t : ScopeTree) (frame : Option ScopeId) (p : ScopeId) : Prop :=
  p = globalId ∨ ∃ m, t.scopes.get? p = some m ∧ m.kind = .members ∧ m.parent = some globalId ∧
    ∃ k, t.ReceiverAt frame k

/-- A scope inside the routine with this frame. -/
inductive Inside (t : ScopeTree) (frame : Option ScopeId) : ScopeId → Prop
  | main : frame = none → Inside t frame globalId
  | function {f p : ScopeId} {s : Scope} : frame = some f → t.scopes.get? f = some s →
      s.kind = .function → s.owner = f → s.parent = some p → t.Home frame p → Inside t frame f
  | block {id p : ScopeId} {s : Scope} : t.scopes.get? id = some s → s.kind = .block →
      s.parent = some p → s.owner = frameOwner frame → Inside t frame p → Inside t frame id

/-- Locks are shared by all cores: only global variables have their type. -/
def LocksGlobal (t : ScopeTree) : Prop :=
  ∀ id s x b, t.scopes.get? id = some s → s.bindings.lookup x = some b → b.type = .lock →
    s.kind = .global

/-! ## More scopes change nothing -/

variable {p id : ScopeId} {s : Scope}

section
variable {t t' : ScopeTree} {frame : Option ScopeId}

theorem ReceiverAt.mono {k : Nat} (h : t.ReceiverAt frame k) (hle : t.Le t') :
    t'.ReceiverAt frame k := by
  obtain ⟨f, s, b, hf, hs, hb, hk⟩ := h
  obtain ⟨s', hs', hsle⟩ := hle f s hs
  exact ⟨f, s', b, hf, hs', hsle.bindings _ _ hb, hk⟩

theorem Reaches.mono {s' : Scope} (h : t.Reaches frame s) (hle : t.Le t') (hs : s.Le s') :
    t'.Reaches frame s' := by
  unfold Reaches at h ⊢
  rw [hs.kind, hs.owner]
  split
  · trivial
  · rename_i hk
    rw [hk] at h
    obtain ⟨k, h⟩ := h
    exact ⟨k, h.mono hle⟩
  · rename_i hk
    rw [hk] at h
    exact h
  · rename_i hk
    rw [hk] at h
    exact h

theorem Home.mono (h : t.Home frame p) (hle : t.Le t') : t'.Home frame p := by
  rcases h with rfl | ⟨m, hm, hk, hp, k, hr⟩
  · exact .inl rfl
  · obtain ⟨m', hm', hmle⟩ := hle p m hm
    exact .inr ⟨m', hm', hmle.kind.trans hk, hmle.parent.trans hp, k, hr.mono hle⟩

theorem Inside.mono (h : t.Inside frame id) (hle : t.Le t') : t'.Inside frame id := by
  induction h with
  | main hf => exact .main hf
  | function hf hs hk ho hp hh =>
    obtain ⟨s', hs', hsle⟩ := hle _ _ hs
    exact .function hf hs' (hsle.kind.trans hk) (hsle.owner.trans ho)
      (hsle.parent.trans hp) (hh.mono hle)
  | block hs hk hp ho _ ih =>
    obtain ⟨s', hs', hsle⟩ := hle _ _ hs
    exact .block hs' (hsle.kind.trans hk) (hsle.parent.trans hp) (hsle.owner.trans ho) ih

/-- The slots of a scope inside a routine belong to its frame. -/
theorem Inside.owner (h : t.Inside frame id) (ht : t.Laid) :
    ∃ s, t.scopes.get? id = some s ∧ s.owner = frameOwner frame := by
  cases h with
  | main hf =>
    obtain ⟨s, hs, -, -, ho⟩ := ht.global
    exact ⟨s, hs, by rw [ho, hf]; rfl⟩
  | function hf hs _ ho => exact ⟨_, hs, by rw [ho, hf]; rfl⟩
  | block hs _ _ ho => exact ⟨_, hs, ho⟩

end

/-! ## Names -/

section
variable {t : ScopeTree} {frame : Option ScopeId} {x : String} {type : Ty}
  {scope : ScopeId} {fuel : Nat}

theorem resolveWithin_global (ht : t.Laid)
    (h : t.resolveWithin x fuel globalId = .ok (some (type, id))) : ∃ s b,
    t.scopes.get? id = some s ∧ s.kind = .global ∧ s.bindings.lookup x = some b ∧
    b.type = type := by
  obtain ⟨g, hg, hp, hk, -⟩ := ht.global
  obtain ⟨s, _, -, hs, hr⟩ := resolveWithin_ok h
  cases hg.symm.trans hs
  rcases hr with ⟨b, hb, rfl, rfl⟩ | ⟨-, p, hp', -⟩
  · exact ⟨g, b, hg, hk, hb, rfl⟩
  · cases hp.symm.trans hp'

theorem Home.resolve (hh : t.Home frame p) (ht : t.Laid)
    (h : t.resolveWithin x fuel p = .ok (some (type, id))) : ∃ s b,
    t.scopes.get? id = some s ∧ s.bindings.lookup x = some b ∧ b.type = type ∧
    t.Reaches frame s := by
  rcases hh with rfl | ⟨m, hm, hk, hp, hr⟩
  · obtain ⟨s, b, hs, hk, hb, rfl⟩ := resolveWithin_global ht h
    exact ⟨s, b, hs, hb, rfl, by simp [Reaches, hk]⟩
  obtain ⟨s, _, -, hs, hres⟩ := resolveWithin_ok h
  cases hm.symm.trans hs
  rcases hres with ⟨b, hb, rfl, rfl⟩ | ⟨-, q, hq, hres⟩
  · exact ⟨m, b, hm, hb, rfl, by simpa [Reaches, hk] using hr⟩
  · cases hp.symm.trans hq
    obtain ⟨s, b, hs, hk, hb, rfl⟩ := resolveWithin_global ht hres
    exact ⟨s, b, hs, hb, rfl, by simp [Reaches, hk]⟩

/-- A name that is looked up in a routine is bound in a scope that the routine reaches. -/
theorem Inside.resolve (hi : t.Inside frame scope) (ht : t.Laid)
    (h : t.resolveWithin x fuel scope = .ok (some (type, id))) :
    ∃ s b, t.scopes.get? id = some s ∧ s.bindings.lookup x = some b ∧ b.type = type ∧
      t.Reaches frame s := by
  induction hi generalizing fuel with
  | main =>
    obtain ⟨s, b, hs, hk, hb, rfl⟩ := resolveWithin_global ht h
    exact ⟨s, b, hs, hb, rfl, by simp [Reaches, hk]⟩
  | @function f p s hf hs hk ho hp hh =>
    obtain ⟨s', _, -, hs', hres⟩ := resolveWithin_ok h
    cases hs.symm.trans hs'
    rcases hres with ⟨b, hb, rfl, rfl⟩ | ⟨-, q, hq, hres⟩
    · exact ⟨s, b, hs, hb, rfl, by simp [Reaches, hk, ho, hf, frameOwner]⟩
    · cases hp.symm.trans hq
      exact hh.resolve ht hres
  | @block b p s hs hk hp ho _ ih =>
    obtain ⟨s', _, -, hs', hres⟩ := resolveWithin_ok h
    cases hs.symm.trans hs'
    rcases hres with ⟨c, hc, rfl, rfl⟩ | ⟨-, q, hq, hres⟩
    · exact ⟨s, c, hs, hc, rfl, by simp [Reaches, hk, ho]⟩
    · cases hp.symm.trans hq
      exact ih hres

/-- A block of a routine lies inside it. -/
theorem Inside.openBlock {t' : ScopeTree} (hi : t.Inside frame scope)
    (ht : t.Laid) (h : t.openChild scope .block = .ok (id, t')) : t'.Inside frame id := by
  have hle := openChild_le h
  obtain ⟨rfl, owner, hs, -, how⟩ := openChild_ok h
  rcases how with ⟨hk, -⟩ | ⟨-, s, hsc, rfl⟩
  · cases hk
  obtain ⟨s', hs', ho⟩ := hi.owner ht
  rw [hsc] at hs'
  cases hs'
  refine .block (s := { parent := some scope, kind := .block, owner := s.owner })
    ?_ rfl rfl ho (hi.mono hle)
  rw [hs]
  exact (Slots.get?_push ..).trans (if_pos rfl)

end

/-- A routine reaches the scopes inside it. -/
theorem Inside.reaches {t : ScopeTree} {frame : Option ScopeId} (hi : t.Inside frame id)
    (ht : t.Laid) (hs : t.scopes.get? id = some s) : t.Reaches frame s := by
  cases hi with
  | main =>
    obtain ⟨g, hg, -, hk, -⟩ := ht.global
    rw [hg] at hs
    cases hs
    simp [Reaches, hk]
  | function hf hs' hk ho =>
    rw [hs'] at hs
    cases hs
    simp [Reaches, hk, ho, hf, frameOwner]
  | block hs' hk _ ho =>
    rw [hs'] at hs
    cases hs
    simp [Reaches, hk, ho]

/-! ## Declarations -/

section
variable {t t' : ScopeTree} {scope : ScopeId} {x : String} {type : Ty} {free : Bool}

/-- A name that was free is bound to its type and a slot. -/
theorem declareIn_binds (h : t.declareIn scope x type = .ok (true, t')) : ∃ s k,
      t'.scopes.get? scope = some s ∧ s.bindings.lookup x = some { type, offset := some k } := by
  rcases declareIn_ok h with ⟨hf, -⟩ | ⟨-, s, o, hs, hx, -, hget⟩
  · cases hf
  · exact ⟨_, o.slots, by rw [hget, hs]; rfl, by simp [afterDeclare]⟩

theorem new_locks : ScopeTree.new.LocksGlobal := by
  intro j s y b hj hb hl
  obtain ⟨-, rfl⟩ := new_get? hj
  cases hb

theorem openChild_locks {kind : ScopeKind}
    (h : t.openChild scope kind = .ok (id, t')) (ht : t.LocksGlobal) : t'.LocksGlobal :=
  (openChild_grows h).bindings (Q := fun kind b => b.type = .lock → kind = .global)
    (fun _ _ _ _ _ hb => hb.elim) ht

theorem declareIn_locks (h : t.declareIn scope x type = .ok (free, t'))
    (hg : type = .lock → ∀ s, t.scopes.get? scope = some s → s.kind = .global)
    (ht : t.LocksGlobal) : t'.LocksGlobal := by
  refine (declareIn_grows h).bindings (Q := fun kind b => b.type = .lock → kind = .global) ?_ ht
  rintro j r y b hj ⟨rfl, -, rfl, -⟩ hl
  exact hg hl r hj

theorem reserveIn_locks (h : t.reserveIn scope x type = .ok (free, t'))
    (hf : type.isFunction = true) (ht : t.LocksGlobal) : t'.LocksGlobal := by
  refine (reserveIn_grows h).bindings (Q := fun kind b => b.type = .lock → kind = .global) ?_ ht
  rintro j r y b - ⟨-, -, rfl⟩ rfl
  cases hf

end

end Awl.ScopeTree
