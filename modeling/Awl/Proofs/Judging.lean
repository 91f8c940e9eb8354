import Awl.Proofs.Runs
import Awl.Proofs.Rules

/-!
# Checking and the typing rules

An action of the checker that succeeds in a given state is described by `Check.Sat`. What it says
about a rule is `Judged`: if the action reports nothing, the rule holds of its result, and if the
rule holds of anything, nothing is reported and that is the result. Judgments compose like the
actions that make them (`Judged.bind`), which is what carries them through a whole check.

`Tables.Whole` says that nothing in the tables points outside of them, so that no lookup fails.
`Tables.Models` and `ScopeTree.Chain` relate the tables to what the typing rules read.
-/

namespace Awl

/-! ## Runs that succeed -/

namespace Check

variable {α β : Type}

/-- The action succeeds in this state, with a result and a state as described. -/
def Sat (m : Check α) (s : CheckState) (Q : α → CheckState → Prop) : Prop :=
  ∃ a s', m s = .ok (a, s') ∧ Q a s'

namespace Sat

variable {s : CheckState} {R : α → CheckState → Prop} {Q : β → CheckState → Prop} {f : α → Check β}
  {m : Check β} {l : List α} {b : β}

theorem weaken {Q' : β → CheckState → Prop} (h : Sat m s Q) (hq : ∀ b s', Q b s' → Q' b s') :
    Sat m s Q' := by
  obtain ⟨b, s', hrun, hb⟩ := h
  exact ⟨b, s', hrun, hq b s' hb⟩

theorem bind {m : Check α} (hm : Sat m s R) (hf : ∀ a s1, R a s1 → Sat (f a) s1 Q) :
    Sat (m >>= f) s Q := by
  obtain ⟨a, s1, h1, hr⟩ := hm
  obtain ⟨b, s', h2, hq⟩ := hf a s1 hr
  exact ⟨b, s', bind_eq_ok.2 ⟨a, s1, h1, h2⟩, hq⟩

theorem pure (h : Q b s) : Sat (Pure.pure b) s Q := ⟨b, s, rfl, h⟩

theorem report {p : Problem} {span : Span} {Q : Unit → CheckState → Prop}
    (h : Q () { s with diagnostics := s.diagnostics.push { problem := p, span } }) :
    Sat (Check.report p span) s Q := ⟨(), _, rfl, h⟩

/-- A first action that is known to give `a`. -/
theorem step {m : Check α} {a : α} {s1 : CheckState} (hm : m s = .ok (a, s1))
    (h : Sat (f a) s1 Q) : Sat (m >>= f) s Q := by
  obtain ⟨b, s', hrun, hq⟩ := h
  exact ⟨b, s', bind_eq_ok.2 ⟨a, s1, hm, hrun⟩, hq⟩

theorem tables {f : Tables → Check β} (h : Sat (f s.tables) s Q) :
    Sat (Check.tables >>= f) s Q := step rfl h

theorem lift {x : Except Fault α} {a : α} (hx : x = .ok a)
    (h : Sat (f a) s Q) : Sat (liftM x >>= f) s Q := step (lift_eq_ok.2 ⟨hx, rfl⟩) h

theorem discard {m : Check α} {Q : Unit → CheckState → Prop}
    (h : Sat m s fun _ s' => Q () s') : Sat (Functor.discard m) s Q := by
  obtain ⟨a, s', hrun, hq⟩ := h
  exact ⟨(), s', discard_eq_ok.2 ⟨a, hrun⟩, hq⟩

/-- What holds of every run holds of this one. -/
theorem run {P : β → CheckState → Prop} (h : Sat m s Q)
    (hm : ∀ b s', m s = .ok (b, s') → P b s') : Sat m s fun b s' => Q b s' ∧ P b s' := by
  obtain ⟨b, s', hrun, hq⟩ := h
  exact ⟨b, s', hrun, hq, hm b s' hrun⟩

/-- There is only one run. -/
theorem of_run {s' : CheckState} (h : Sat m s Q) (hm : m s = .ok (b, s')) : Q b s' := by
  obtain ⟨b', s1, hrun, hq⟩ := h
  cases hrun.symm.trans hm
  exact hq

/-- A loop keeps an invariant about the elements that are done. -/
theorem forM {I : List α → CheckState → Prop} {f : α → Check PUnit}
    (h : ∀ done a rest s, l = done ++ a :: rest → I done s →
      Sat (f a) s fun _ s' => I (done ++ [a]) s') (h0 : I [] s) :
    Sat (l.forM f) s fun _ s' => I l s' := by
  have key : ∀ rest done s, l = done ++ rest → I done s →
      Sat (rest.forM f) s fun _ s' => I l s' := by
    intro rest
    induction rest with
    | nil =>
      intro done s hl hi
      rw [List.append_nil] at hl
      exact .pure (hl ▸ hi)
    | cons a rest ih =>
      intro done s hl hi
      refine .bind (h done a rest s hl hi) fun _ s1 hi1 => ih (done ++ [a]) s1 ?_ hi1
      rw [hl, List.append_assoc]
      rfl
  exact key l [] s rfl h0

theorem mapM {I : List α → List β → CheckState → Prop}
    (h : ∀ done bs a rest s, l = done ++ a :: rest → I done bs s →
      Sat (f a) s fun b s' => I (done ++ [a]) (bs ++ [b]) s') (h0 : I [] [] s) :
    Sat (l.mapM f) s fun bs s' => I l bs s' := by
  have key : ∀ rest done bs s, l = done ++ rest → I done bs s →
      Sat (rest.mapM f) s fun bs' s' => I l (bs ++ bs') s' := by
    intro rest
    induction rest with
    | nil =>
      intro done bs s hl hi
      rw [List.append_nil] at hl
      rw [List.mapM_nil]
      exact .pure (by rw [List.append_nil]; exact hl ▸ hi)
    | cons a rest ih =>
      intro done bs s hl hi
      rw [List.mapM_cons]
      refine .bind (h done bs a rest s hl hi) fun b s1 hi1 => ?_
      refine .bind (ih (done ++ [a]) (bs ++ [b]) s1 (by rw [hl, List.append_assoc]; rfl) hi1)
        fun bs' s' hi' => .pure ?_
      rw [List.append_assoc] at hi'
      exact hi'
  exact key l [] [] s rfl h0

end Sat

end Check

/-! ## Judgments -/

namespace CheckState

/-- Nothing has been reported between two states. -/
def Quiet (s s' : CheckState) : Prop := s'.diagnostics = s.diagnostics

/-- No report between two states has been taken back. -/
def Adds (s s' : CheckState) : Prop := s.diagnostics.toList <+: s'.diagnostics.toList

variable {s s1 s' : CheckState}

theorem Quiet.refl (s : CheckState) : s.Quiet s := rfl

theorem Adds.refl (s : CheckState) : s.Adds s := List.prefix_rfl

theorem Adds.trans (h : s.Adds s1) (h' : s1.Adds s') : s.Adds s' := List.IsPrefix.trans h h'

theorem Quiet.adds (h : s.Quiet s') : s.Adds s' :=
  ⟨[], by rw [List.append_nil, show s'.diagnostics = s.diagnostics from h]⟩

theorem quiet_trans_iff (h : s.Adds s1) (h' : s1.Adds s') :
    s.Quiet s' ↔ s.Quiet s1 ∧ s1.Quiet s' := by
  constructor
  · intro hq
    rw [Adds, hq] at h'
    have h1 : s.Quiet s1 := Array.toList_inj.1 (h'.eq_of_length_le h.length_le)
    exact ⟨h1, hq.trans h1.symm⟩
  · exact fun ⟨h1, h2⟩ => Eq.trans h2 h1

theorem quiet_iff_of_quiet (hq : s1.Quiet s') : s.Quiet s' ↔ s.Quiet s1 := by
  rw [Quiet, Quiet, hq]

theorem not_quiet_push (s : CheckState) (d : Diagnostic) :
    ¬ s.Quiet { s with diagnostics := s.diagnostics.push d } := by
  intro h
  have := congrArg Array.size h
  simp at this

/-- A problem of this kind has been reported. -/
def Reports (kind : DiagnosticKind) (s : CheckState) : Prop :=
  ∃ d ∈ s.diagnostics.toList, d.problem.kind = kind

theorem Reports.after {kind : DiagnosticKind} (h : s.Reports kind) (ha : s.Adds s') :
    s'.Reports kind := by
  obtain ⟨d, hd, hk⟩ := h
  exact ⟨d, ha.subset hd, hk⟩

theorem reports_push (s : CheckState) (d : Diagnostic) :
    { s with diagnostics := s.diagnostics.push d }.Reports d.problem.kind :=
  ⟨d, by rw [Array.toList_push]; exact List.mem_append_right _ (.head _), rfl⟩

end CheckState

/-- Nothing is reported if and only if a condition holds. -/
structure CheckState.Verdict (C : Prop) (s s' : CheckState) : Prop where
  adds : s.Adds s'
  quiet : s.Quiet s' ↔ C

namespace CheckState.Verdict

variable {s s1 s' : CheckState} {C D : Prop}

theorem ofQuiet (hq : s.Quiet s') (h : C) : s.Verdict C s' := ⟨hq.adds, fun _ => h, fun _ => hq⟩

/-- A second verdict may rely on the first condition. -/
theorem and (h : s.Verdict C s1) (ha : s1.Adds s') (h' : C → s1.Verdict D s') :
    s.Verdict (C ∧ D) s' := by
  refine ⟨h.adds.trans ha, ?_⟩
  rw [quiet_trans_iff h.adds ha, h.quiet]
  exact ⟨fun ⟨hc, hq⟩ => ⟨hc, (h' hc).quiet.1 hq⟩, fun ⟨hc, hd⟩ => ⟨hc, (h' hc).quiet.2 hd⟩⟩

theorem congr (h : s.Verdict C s') (hcd : C ↔ D) : s.Verdict D s' := ⟨h.adds, h.quiet.trans hcd⟩

/-- What was done before without a report does not matter. -/
theorem after (hq : s.Quiet s1) (h : s1.Verdict C s') : s.Verdict C s' := by
  refine ⟨hq.adds.trans h.adds, ?_⟩
  rw [quiet_trans_iff hq.adds h.adds, h.quiet]
  exact ⟨And.right, fun hC => ⟨hq, hC⟩⟩

end CheckState.Verdict

open CheckState

/-- What an action says about a rule `P`: if it reports nothing, the rule holds of its result, and
if the rule holds of anything, nothing is reported and that is the result. -/
structure Judged {α ρ : Type} (mk : α → ρ) (P : α → Prop) (r : ρ) (s s' : CheckState) : Prop where
  sound : s.Quiet s' → ∃ a, r = mk a ∧ P a
  complete : ∀ a, P a → s.Quiet s' ∧ r = mk a

namespace Judged

variable {α β ρ ρ' : Type} {mk : α → ρ} {mk' : β → ρ'} {P : α → Prop} {r : ρ} {r' : ρ'}
  {s s1 s' : CheckState}

theorem accept {a : α} (hq : s.Quiet s') (hr : r = mk a) (ha : P a) (hu : ∀ b, P b → b = a) :
    Judged mk P r s s' :=
  ⟨fun _ => ⟨a, hr, ha⟩, fun b hb => ⟨hq, by rw [hu b hb, hr]⟩⟩

theorem reject (hq : ¬ s.Quiet s') (hn : ∀ a, ¬ P a) : Judged mk P r s s' :=
  ⟨fun h => absurd h hq, fun a ha => absurd ha (hn a)⟩

theorem congr {Q : α → Prop} (h : Judged mk P r s s') (hpq : ∀ a, P a ↔ Q a) :
    Judged mk Q r s s' := by
  have : P = Q := funext fun a => propext (hpq a)
  exact this ▸ h

/-- One rule after another that uses its result. -/
theorem bind {Q : α → β → Prop} (h : Judged mk P r s s1) (ha : s.Adds s1) (ha' : s1.Adds s')
    (h' : ∀ a, r = mk a → Judged mk' (Q a) r' s1 s') :
    Judged mk' (fun b => ∃ a, P a ∧ Q a b) r' s s' := by
  constructor
  · intro hq
    obtain ⟨hq1, hq2⟩ := (quiet_trans_iff ha ha').1 hq
    obtain ⟨a, hr, hp⟩ := h.sound hq1
    obtain ⟨b, hr', hb⟩ := (h' a hr).sound hq2
    exact ⟨b, hr', a, hp, hb⟩
  · rintro b ⟨a, hp, hb⟩
    obtain ⟨hq1, hr⟩ := h.complete a hp
    obtain ⟨hq2, hr'⟩ := (h' a hr).complete b hb
    exact ⟨(quiet_trans_iff ha ha').2 ⟨hq1, hq2⟩, hr'⟩

/-- What follows without a report does not matter. -/
theorem quiet {s2 : CheckState} (h : Judged mk P r s s') (hq : s'.Quiet s2) :
    Judged mk P r s s2 := by
  have heq := quiet_iff_of_quiet (s := s) hq
  exact ⟨fun h' => h.sound (heq.1 h'), fun a ha => (h.complete a ha).imp_left heq.2⟩

end Judged

/-! ## Tables without loose ends -/

/-- The class of every object that the type speaks of has a member scope. -/
def Ty.Known (r : TypeRegistry) : Ty → Prop
  | .object c => ∃ id, r.memberScope? c = some id
  | .array element => element.Known r
  | _ => True

/-- The functions without the scopes of their bodies, which are not known before all calls are
checked. -/
def FunctionTable.heads (t : FunctionTable) : List Function :=
  t.functions.toList.map fun f => { f with scope := none }

theorem FunctionTable.heads_getElem? (t : FunctionTable) (i : FunctionId) :
    t.heads[i]? = (t.functions.get? i).map fun f => { f with scope := none } := by
  simp [heads, Slots.toList, Slots.get?]

/-- The function that a call means is the first one that matches. -/
theorem FunctionTable.resolveCall_heads (t : FunctionTable) (name : String) (arguments : List Ty)
    (isMethod : Bool) :
    ((t.resolveCall name arguments isMethod).bind fun i =>
        (t.functions.get? i).map (·.signature.result)) =
      (t.heads.find? (·.matches name arguments isMethod)).map (·.signature.result) := by
  have hfind : t.heads.find? (·.matches name arguments isMethod) =
      (t.functions.toList.find? (·.matches name arguments isMethod)).map
        fun f => { f with scope := none } := by
    rw [heads, List.find?_map]
    rfl
  rw [hfind]
  unfold resolveCall
  cases h : t.functions.toList.findIdx? (·.matches name arguments isMethod) with
  | none =>
    have hnone : t.functions.toList.find? (·.matches name arguments isMethod) = none := by
      simpa [List.findIdx?_eq_none_iff] using h
    rw [hnone]
    rfl
  | some i =>
    obtain ⟨hi, hp, hmin⟩ := List.findIdx?_eq_some_iff_getElem.1 h
    have hsome : t.functions.toList.find? (·.matches name arguments isMethod) =
        some (t.functions.toList.get ⟨i, hi⟩) := by
      rw [List.find?_eq_some_iff_getElem]
      exact ⟨hp, i, hi, rfl, fun j hj => by simpa using hmin j hj⟩
    rw [hsome]
    simp [Slots.get?, Slots.toList] at hi ⊢
    simp [hi]

/-- Nothing in the tables points outside of them. -/
structure Tables.Whole (t : Tables) : Prop where
  laid : t.scopes.Laid
  bindings : ∀ id sc x b, t.scopes.scopes.get? id = some sc → sc.bindings.lookup x = some b →
    b.type.Known t.types
  members : ∀ c id, t.types.memberScope? c = some id →
    ∃ sc, t.scopes.scopes.get? id = some sc ∧ sc.kind = .members ∧
    sc.parent = some ScopeTree.globalId ∧ sc.owner = id
  classes : ∀ x c, t.types.class? x = some c → (Ty.object c).Known t.types
  arguments : ∀ f ∈ t.functions.heads, ∀ type ∈ f.signature.arguments, type.Known t.types
  results : ∀ f ∈ t.functions.heads, f.signature.result.Known t.types
  /-- No name is both an enumeration and a class. -/
  apart : ∀ x e, t.types.enum? x = some e → t.types.class? x = none

variable {t : Tables} {Γ : Globals}

theorem Tables.head_mem {i : FunctionId} {f : Function} (hf : t.function? i = some f) :
    { f with scope := none } ∈ t.functions.heads :=
  List.mem_of_getElem? ((FunctionTable.heads_getElem? ..).trans (congrArg (Option.map _) hf))

theorem Tables.Whole.congr {t' : Tables} (h : t.Whole) (htypes : t'.types = t.types)
    (hscopes : t'.scopes = t.scopes)
    (hfuns : t'.functions.heads = t.functions.heads) : t'.Whole := by
  obtain ⟨hl, hb, hm, hc, harg, hres, ha⟩ := h
  refine ⟨?_, ?_, ?_, ?_, ?_, ?_, ?_⟩ <;> simp only [htypes, hscopes, hfuns] <;> assumption

/-! ## What the rules read -/

/-- The tables provide to code what the rules say that definitions provide. -/
structure Tables.Models (t : Tables) (Γ : Globals) : Prop where
  types : Γ.type? = t.types.lookup
  fields : ∀ c id sc x, t.types.memberScope? c = some id → t.scopes.scopes.get? id = some sc →
    sc.kind = .members →
    Γ.field? c x = (sc.bindings.lookup x).bind fun b => b.offset.map fun _ => b.type
  results : ∀ name arguments isMethod, Γ.result? name arguments isMethod =
    (t.functions.heads.find? (·.matches name arguments isMethod)).map (·.signature.result)

theorem Tables.Models.resolveCall (h : t.Models Γ) (name : String)
    (arguments : List Ty) (isMethod : Bool) : Γ.result? name arguments isMethod =
      (t.functions.resolveCall name arguments isMethod).bind fun i =>
        (t.function? i).map (·.signature.result) :=
  (h.results name arguments isMethod).trans (t.functions.resolveCall_heads ..).symm

/-- The meaning of a binding in the rules: the name of a method is no variable. -/
def Ty.asVariable (type : Ty) : Option Ty := if type.isFunction then none else some type

/-- A scope binds these names. -/
def Scope.Shows (sc : Scope) (names : Names) : Prop :=
  ∀ x, names.lookup x = (sc.bindings.lookup x).map (·.type.asVariable)

namespace ScopeTree

/-- The names that a scope and those around it bind. -/
inductive Chain (t : ScopeTree) : ScopeId → List Names → Prop
  | root {id : ScopeId} {sc : Scope} {names : Names} : t.scopes.get? id = some sc →
      sc.parent = none → sc.Shows names → Chain t id [names]
  | child {id p : ScopeId} {sc : Scope} {names : Names} {outer : List Names} :
      t.scopes.get? id = some sc → sc.parent = some p → sc.Shows names → Chain t p outer →
      Chain t id (names :: outer)

variable {t : ScopeTree} {scopes : List Names} {id : ScopeId}

/-- Every scope has a chain, since parents have smaller numbers. -/
theorem exists_chain (ht : t.Laid) (id : ScopeId) : ∀ sc, t.scopes.get? id = some sc →
    ∃ scopes, t.Chain id scopes := by
  induction id using Nat.strongRecOn with
  | ind id ih =>
    intro sc hsc
    have hshows : sc.Shows (sc.bindings.map fun p => (p.1, p.2.type.asVariable)) := by
      intro x
      induction sc.bindings with
      | nil => rfl
      | cons q l ihl =>
        rw [List.map_cons, List.lookup_cons, List.lookup_cons, ihl]
        cases x == q.1 <;> rfl
    cases hp : sc.parent with
    | none => exact ⟨_, .root hsc hp hshows⟩
    | some p =>
      have hlt := ht.older id sc p hsc hp
      obtain ⟨sc', hsc'⟩ := Slots.exists_of_lt (Nat.lt_trans hlt (Slots.lt_of_get? hsc))
      obtain ⟨outer, ho⟩ := ih p hlt sc' hsc'
      exact ⟨_, .child hsc hp hshows ho⟩

/-- A name is looked up along the chain. -/
theorem Chain.resolveWithin (ht : t.Laid) (h : t.Chain id scopes) (x : String) :
    ∀ fuel, id < fuel → ∃ r, t.resolveWithin x fuel id = .ok r ∧
      r.map (·.1.asVariable) = Names.find scopes x := by
  induction h with
  | @root id sc names hsc hp hn =>
    rintro (_ | fuel) hlt
    · cases hlt
    unfold ScopeTree.resolveWithin
    rw [binding?_eq hsc]
    have hx := hn x
    cases hb : sc.bindings.lookup x with
    | some b =>
      rw [hb] at hx
      exact ⟨some (b.type, id), rfl, by simp [Names.find, hx]⟩
    | none =>
      rw [hb] at hx
      refine ⟨none, ?_, by simp [Names.find, hx]⟩
      rw [parent_eq hsc, hp]
      rfl
  | @child id p sc names outer hsc hp hn _ ih =>
    rintro (_ | fuel) hlt
    · cases hlt
    unfold ScopeTree.resolveWithin
    rw [binding?_eq hsc]
    have hx := hn x
    cases hb : sc.bindings.lookup x with
    | some b =>
      rw [hb] at hx
      exact ⟨some (b.type, id), rfl, by simp [Names.find, hx]⟩
    | none =>
      rw [hb] at hx
      obtain ⟨r, hres, hr'⟩ :=
        ih fuel (Nat.lt_of_lt_of_le (ht.older id sc p hsc hp) (Nat.le_of_lt_succ hlt))
      refine ⟨r, ?_, by simpa [Names.find, hx] using hr'⟩
      rw [parent_eq hsc, hp]
      exact hres

theorem Chain.resolveFrom (ht : t.Laid) (h : t.Chain id scopes) (x : String) :
    ∃ r, t.resolveFrom id x = .ok r ∧ r.map (·.1.asVariable) = Names.find scopes x := by
  have hlt : id < t.scopes.size := by
    cases h with
    | root hsc _ _ => exact Slots.lt_of_get? hsc
    | child hsc _ _ _ => exact Slots.lt_of_get? hsc
  exact h.resolveWithin ht x _ (Nat.lt_succ_of_lt hlt)

/-- A name that is found has a binding. -/
theorem exists_of_resolveWithin {x : String} {type : Ty} {owner : ScopeId} :
    ∀ {fuel : Nat} {id : ScopeId}, t.resolveWithin x fuel id = .ok (some (type, owner)) →
      ∃ sc b, t.scopes.get? owner = some sc ∧ sc.bindings.lookup x = some b ∧ type = b.type
  | fuel, id, h => by
    obtain ⟨sc, n, rfl, hsc, ⟨b, hb, rfl, rfl⟩ | ⟨-, p, -, hp⟩⟩ := resolveWithin_ok h
    · exact ⟨sc, b, hsc, hb, rfl⟩
    · exact exists_of_resolveWithin hp

end ScopeTree

/-! ## Entries of nodes -/

/-- No node of the list has an entry yet, and none is listed twice. -/
structure Tables.Free (t : Tables) (ns : List NodeId) : Prop where
  nodup : ns.Nodup
  types : ∀ n ∈ ns, t.annotations.type? n = none
  scopes : ∀ n ∈ ns, t.annotations.scope? n = none
  calls : ∀ n ∈ ns, t.functions.lookup n = none

/-- Only the listed nodes have got entries. -/
structure Tables.Touches (ns : List NodeId) (t t' : Tables) : Prop where
  types : ∀ n, n ∉ ns → t'.annotations.type? n = t.annotations.type? n
  scopes : ∀ n, n ∉ ns → t'.annotations.scope? n = t.annotations.scope? n
  calls : ∀ n, n ∉ ns → t'.functions.lookup n = t.functions.lookup n

namespace Tables

variable {t t1 t' : Tables} {ns ms : List NodeId} {n : NodeId}

theorem Touches.refl (ns : List NodeId) (t : Tables) : Touches ns t t :=
  ⟨fun _ _ => rfl, fun _ _ => rfl, fun _ _ => rfl⟩

theorem Touches.trans (h : Touches ns t t1) (h' : Touches ns t1 t') : Touches ns t t' :=
  ⟨fun n hn => (h'.types n hn).trans (h.types n hn), fun n hn =>
    (h'.scopes n hn).trans (h.scopes n hn), fun n hn => (h'.calls n hn).trans (h.calls n hn)⟩

theorem Touches.mono (h : Touches ns t t') (hsub : ns ⊆ ms) : Touches ms t t' :=
  ⟨fun n hn => h.types n fun hm => hn (hsub hm), fun n hn => h.scopes n fun hm => hn (hsub hm),
    fun n hn => h.calls n fun hm => hn (hsub hm)⟩

theorem Free.sub (h : t.Free ms) (hsub : ns.Sublist ms) : t.Free ns :=
  ⟨h.nodup.sublist hsub, fun n hn => h.types n (hsub.subset hn), fun n hn =>
    h.scopes n (hsub.subset hn), fun n hn => h.calls n (hsub.subset hn)⟩

theorem Free.left (h : t.Free (ns ++ ms)) : t.Free ns := h.sub (List.sublist_append_left ..)

theorem Free.tail (h : t.Free (n :: ns)) : t.Free ns := h.sub (List.sublist_cons_self ..)

/-- Nodes that were not touched are still free. -/
theorem Free.touches (h : t.Free (ns ++ ms)) (ht : Touches ns t t') : t'.Free ms := by
  have hnot : ∀ n ∈ ms, n ∉ ns := fun n hm hn => (List.nodup_append.1 h.nodup).2.2 n hn n hm rfl
  exact ⟨(List.nodup_append.1 h.nodup).2.1, fun n hn =>
    (ht.types n (hnot n hn)).trans (h.types n (List.mem_append_right _ hn)), fun n hn =>
    (ht.scopes n (hnot n hn)).trans (h.scopes n (List.mem_append_right _ hn)), fun n hn =>
    (ht.calls n (hnot n hn)).trans (h.calls n (List.mem_append_right _ hn))⟩

theorem Free.head (h : t.Free (n :: ns)) (ht : Touches ns t t') : t'.Free [n] := by
  have hn : n ∉ ns := (List.nodup_cons.1 h.nodup).1
  refine ⟨by simp, fun m hm => ?_, fun m hm => ?_, fun m hm => ?_⟩ <;>
    obtain rfl := List.mem_singleton.1 hm
  · exact (ht.types m hn).trans (h.types m (.head _))
  · exact (ht.scopes m hn).trans (h.scopes m (.head _))
  · exact (ht.calls m hn).trans (h.calls m (.head _))

end Tables

/-- Checking an expression gives entries to its nodes, and nothing else in the tables changes. -/
structure CheckState.Marks (ns : List NodeId) (s s' : CheckState) : Prop extends
    Tables.Touches ns s.tables s'.tables where
  adds : s.Adds s'
  registry : s'.tables.types = s.tables.types
  tree : s'.tables.scopes = s.tables.scopes
  functions : s'.tables.functions.heads = s.tables.functions.heads

namespace CheckState

variable {s s1 s' : CheckState} {ns ms : List NodeId}

theorem Marks.refl (s : CheckState) : s.Marks ns s := ⟨.refl ns _, .refl s, rfl, rfl, rfl⟩

theorem Marks.trans (h : s.Marks ns s1) (h' : s1.Marks ns s') : s.Marks ns s' :=
  ⟨h.toTouches.trans h'.toTouches, h.adds.trans h'.adds, h'.registry.trans h.registry,
    h'.tree.trans h.tree, h'.functions.trans h.functions⟩

theorem Marks.mono (h : s.Marks ns s') (hsub : ns ⊆ ms) : s.Marks ms s' :=
  ⟨h.toTouches.mono hsub, h.adds, h.registry, h.tree, h.functions⟩

/-- The nodes of one part after those of another. -/
theorem Marks.append (h : s.Marks ns s1) (h' : s1.Marks ms s') : s.Marks (ns ++ ms) s' :=
  (h.mono (List.subset_append_left ..)).trans (h'.mono (List.subset_append_right ..))

theorem Marks.ofTables (h : s.Adds s') (ht : s'.tables = s.tables) : s.Marks ns s' := by
  refine ⟨?_, h, ?_, ?_, ?_⟩ <;> rw [ht]
  exact .refl ns _

theorem Marks.report (s : CheckState) (d : Diagnostic) :
    s.Marks ns { s with diagnostics := s.diagnostics.push d } :=
  ⟨.refl ns _, ⟨[d], by simp⟩, rfl, rfl, rfl⟩

theorem Marks.whole (h : s.Marks ns s') (hw : s.tables.Whole) : s'.tables.Whole :=
  hw.congr h.registry h.tree h.functions

theorem Marks.models (h : s.Marks ns s') (hm : s.tables.Models Γ) : s'.tables.Models Γ := by
  refine ⟨?_, ?_, ?_⟩
  · simpa only [h.registry] using hm.types
  · simpa only [h.registry, h.tree] using hm.fields
  · simpa only [h.functions] using hm.results

end CheckState

end Awl
