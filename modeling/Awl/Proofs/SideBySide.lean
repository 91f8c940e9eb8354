import Mathlib.Logic.Relator
import Awl.Proofs.Judging
import Awl.Proofs.Numbering
import Awl.Typing.Unit

/-!
# Two checks side by side

Two checks of units that differ in their nodes only go side by side: `Sides.Pair` relates them
action by action. They end with the same types, scopes and functions and with the same problems, and
with the same results at nodes that belong together. The checker files its results under the numbers
of nodes and looks nothing else up there.

A pair of checks may also be loose: it is about one unit, with different substitutes for types that
cannot be determined. An answer with a substitute is marked as erroneous, and nothing is reported
about it again. Only the substitute of an unknown type name is not marked, so from the report of one
on the checks may part.

Main result: `Sides.unit_pair`.
-/

namespace Awl

/-- Numbers of nodes of one unit and of another that belong together. No number belongs to two. -/
structure Renumbering where
  rel : NodeId → NodeId → Prop
  unique : Relator.BiUnique rel

theorem Renumbering.eq_iff (ρ : Renumbering) {a b a' b' : NodeId} (ha : ρ.rel a a')
    (hb : ρ.rel b b') :
    a = b ↔ a' = b' :=
  ⟨fun h => ρ.unique.2 ha (h ▸ hb), fun h => ρ.unique.1 ha (h ▸ hb)⟩

section
variable {R : NodePairs}

mutual

theorem Stmt.returns_eq : ∀ s s' : Stmt, s.Like R s' → ∀ followed,
    s'.returns followed = s.returns followed
  | .declaration _ _, _, h, _ | .expression _ _, _, h, _ | .acquire _ _, _, h,
      _ | .release _ _, _, h, _
  | .return _ _, _, h, _ => by
    obtain ⟨_, _, rfl, -⟩ := h
    rfl
  | .assignment _ _ _, _, h, _ | .whileLoop _ _ _, _, h, _ | .doLoop _ _ _, _, h, _ => by
    obtain ⟨_, _, _, rfl, -⟩ := h
    rfl
  | .forLoop _ _ _ _ _, _, h, _ => by
    obtain ⟨_, _, _, _, _, rfl, -⟩ := h
    rfl
  | .next _, _, h, _ => by
    obtain ⟨_, rfl, -⟩ := h
    rfl
  | .block _ b, _, h, followed => by
    obtain ⟨_, b', rfl, hb⟩ := h
    exact Block.returnsIn_eq b b' hb followed
  | .ifElse _ _ b none, _, h, _ => by
    obtain ⟨_, _, b', _, rfl, -, -, rfl⟩ := h
    rfl
  | .ifElse _ _ b (some f), _, h, followed => by
    obtain ⟨_, _, b', _, rfl, -, hb, f', rfl, hf⟩ := h
    simp only [Stmt.returns, Block.returnsIn_eq b b' hb, Block.returnsIn_eq f f' hf]
  | .switch _ _ _ none, _, h, _ => by
    obtain ⟨_, _, _, _, rfl, -, -, rfl⟩ := h
    rfl
  | .switch _ _ cases (some f), _, h, followed => by
    obtain ⟨_, _, cases', _, rfl, -, hcases, f', rfl, hf⟩ := h
    simp only [Stmt.returns, Case.allReturn_eq cases cases' hcases, Block.returnsIn_eq f f' hf]
termination_by structural s => s

theorem Stmt.anyReturns_eq : ∀ ss ss' : List Stmt, Stmt.LikeAll R ss ss' → ∀ followed,
    Stmt.anyReturns followed ss' = Stmt.anyReturns followed ss
  | [], _, h, _ => by
    obtain rfl := h
    rfl
  | s :: ss, _, h, followed => by
    obtain ⟨s', ss', rfl, hs, hss⟩ := h
    simp only [Stmt.anyReturns, Stmt.returns_eq s s' hs, Stmt.anyReturns_eq ss ss' hss]
termination_by structural ss => ss

theorem Block.returnsIn_eq : ∀ b b' : Block, b.Like R b' → ∀ followed,
    b'.returnsIn followed = b.returnsIn followed
  | .mk _ ss, _, h, followed => by
    obtain ⟨_, ss', rfl, hss⟩ := h
    exact Stmt.anyReturns_eq ss ss' hss followed
termination_by structural b => b

theorem Case.allReturn_eq : ∀ cases cases' : List Case, Case.LikeAll R cases cases' →
    Case.allReturn cases' = Case.allReturn cases
  | [], _, h => by
    obtain rfl := h
    rfl
  | .mk _ _ b :: cases, _, h => by
    obtain ⟨_, _, b', cases', rfl, -, -, hb, hcases⟩ := h
    simp only [Case.allReturn, Block.returnsIn_eq b b' hb, Case.allReturn_eq cases cases' hcases]
termination_by structural cases => cases

end

end

/-- How two checks differ. In a loose pair, answers that are marked as erroneous may differ, and
with them the functions that the inner nodes refer to. -/
structure Sides extends Renumbering where
  loose : Prop
  inner : NodeId → Prop
  same : loose → rel = Eq

namespace Sides

/-- Nodes that belong together are the same in a loose pair. -/
def nodes (ρ : Sides) : NodePairs where
  code n n' := ρ.rel n.id n'.id ∧ (ρ.loose → n' = n ∧ ρ.inner n.id)
  head n n' := ρ.rel n.id n'.id ∧ (ρ.loose → n' = n ∧ ¬ ρ.inner n.id)
  mark n n' := ρ.loose → n' = n

variable {ρ : Sides} {α β : Type} {Q : α → α → Prop} {R : β → β → Prop} {σ σ' : Ty} {ctx : Context}
  {n n' : Node} {k k' : NodeId} {span span' : Span} {p : Problem} {x : String} {a a' b b' : Typed}
  {as as' : List Typed} {e e' : Expr} {d d' : Declaration} {u u' : SourceUnit}

theorem code_span (h : ρ.nodes.code n n') (hl : ρ.loose) : n'.span = n.span :=
  congrArg Node.span (h.2 hl).1

theorem head_span (h : ρ.nodes.head n n') (hl : ρ.loose) : n'.span = n.span :=
  congrArg Node.span (h.2 hl).1

theorem mark_span (h : ρ.nodes.mark n n') (hl : ρ.loose) : n'.span = n.span :=
  congrArg Node.span (h hl)

theorem eq_of_rel (hl : ρ.loose) (h : ρ.rel k k') : k' = k := by
  rw [ρ.same hl] at h
  exact h.symm

/-- Two lists of reports that are the same up to an unknown type name. -/
def Parts (ds ds' : List Diagnostic) : Prop := ∃ before name span,
  before ++ [{ problem := .unknownType name, span }] <+: ds ∧
  before ++ [{ problem := .unknownType name, span }] <+: ds'

theorem Parts.mono {ds ds' es es' : List Diagnostic} (h : Parts ds ds') (hd : ds <+: es)
    (hd' : ds' <+: es') :
    Parts es es' := by
  obtain ⟨before, name, span, h, h'⟩ := h
  exact ⟨before, name, span, h.trans hd, h'.trans hd'⟩

variable (ρ) in
/-- The same answer, or two that are both marked as erroneous. -/
def Answers (a a' : Typed) : Prop := a = a' ∨ ρ.loose ∧ a.erroneous = true ∧ a'.erroneous = true

variable (ρ) in
/-- States with the same tables, and with the same results at nodes that belong together. -/
structure Alike (s s' : CheckState) : Prop where
  types : s'.tables.types = s.tables.types
  scopes : s'.tables.scopes = s.tables.scopes
  functions : s'.tables.functions.functions = s.tables.functions.functions
  lookup : ∀ ⦃k k'⦄, ρ.rel k k' → (ρ.loose → ¬ ρ.inner k) →
    s'.tables.functions.lookup k' = s.tables.functions.lookup k
  recorded : ¬ ρ.loose → ∀ ⦃k k'⦄, ρ.rel k k' →
    s'.tables.annotations.type? k' = s.tables.annotations.type? k ∧
      s'.tables.annotations.scope? k' = s.tables.annotations.scope? k
  problems : s'.diagnostics.toList.map (·.problem) = s.diagnostics.toList.map (·.problem)
  reports : ρ.loose → s'.diagnostics = s.diagnostics

namespace Alike

variable {s s' t t' : CheckState}

theorem new : ρ.Alike {} {} :=
  ⟨rfl, rfl, rfl, fun _ _ _ _ => by simp [FunctionTable.lookup], fun _ _ _ _ => by
    simp [Annotations.type?, Annotations.scope?], rfl, fun _ => rfl⟩

theorem refl (hl : ρ.loose) (s : CheckState) : ρ.Alike s s :=
  ⟨rfl, rfl, rfl, fun _ _ h _ => by rw [eq_of_rel hl h], fun h => absurd hl h, rfl, fun _ => rfl⟩

theorem adds (hl : ρ.loose) (h : ρ.Alike s t) : s.Adds t := by
  simp only [CheckState.Adds, h.reports hl, List.prefix_rfl]

/-- Steps on both sides that change nothing that matters. -/
theorem across (hl : ρ.loose) (h : ρ.Alike s s') (ht : ρ.Alike s t) (ht' : ρ.Alike s' t') :
    ρ.Alike t t' := by
  have hd : t'.diagnostics = t.diagnostics :=
    (ht'.reports hl).trans ((h.reports hl).trans (ht.reports hl).symm)
  have hrefl : ∀ k, ρ.rel k k := fun k => by rw [ρ.same hl]
  refine ⟨ht'.types.trans (h.types.trans ht.types.symm),
    ht'.scopes.trans (h.scopes.trans ht.scopes.symm),
    ht'.functions.trans (h.functions.trans ht.functions.symm), fun k k' hk hi => ?_, fun h =>
    absurd hl h,
    by rw [hd], fun _ => hd⟩
  rw [eq_of_rel hl hk, ht'.lookup (hrefl k) hi, h.lookup (hrefl k) hi, ht.lookup (hrefl k) hi]

end Alike

variable (ρ) in
/-- Two checks that go side by side, with answers that `Q` relates, until they part. -/
structure Pair (Q : α → α → Prop) (m m' : Check α) : Prop where
  left : ρ.loose → ∀ {s a t}, m s = .ok (a, t) → s.Adds t
  right : ρ.loose → ∀ {s a t}, m' s = .ok (a, t) → s.Adds t
  both : ∀ {s s' a a' t t'}, ρ.Alike s s' → m s = .ok (a, t) → m' s' = .ok (a', t') →
    Q a a' ∧ ρ.Alike t t' ∨ ρ.loose ∧ Parts t.diagnostics.toList t'.diagnostics.toList

namespace Pair

open Check

variable {m m' : Check α} {f f' : α → Check β} {γ : Type}

theorem pure {a a' : α} (h : Q a a') : ρ.Pair Q (Pure.pure a) (Pure.pure a') := by
  refine ⟨fun _ _ _ _ h => ?_, fun _ _ _ _ h => ?_, fun hs h1 h2 => ?_⟩
  · rw [(pure_eq_ok.1 h).2]
    exact .refl _
  · rw [(pure_eq_ok.1 h).2]
    exact .refl _
  · obtain ⟨rfl, rfl⟩ := pure_eq_ok.1 h1
    obtain ⟨rfl, rfl⟩ := pure_eq_ok.1 h2
    exact .inl ⟨h, hs⟩

/-- One action after another. In a loose pair the actions after the checks have parted are related
to themselves. -/
theorem bind (hm : ρ.Pair Q m m') (hq : ρ.loose → ∀ a, Q a a)
    (hf : ∀ a a', Q a a' → ρ.Pair R (f a) (f' a')) : ρ.Pair R (m >>= f) (m' >>= f') := by
  refine ⟨fun h s a t hrun => ?_, fun h s a t hrun => ?_, fun hs h1 h2 => ?_⟩
  · obtain ⟨a, t, h1, h2⟩ := bind_eq_ok.1 hrun
    exact (hm.left h h1).trans ((hf a a (hq h a)).left h h2)
  · obtain ⟨a, t, h1, h2⟩ := bind_eq_ok.1 hrun
    exact (hm.right h h1).trans ((hf a a (hq h a)).right h h2)
  · obtain ⟨a, t, hm1, hf1⟩ := bind_eq_ok.1 h1
    obtain ⟨a', t', hm2, hf2⟩ := bind_eq_ok.1 h2
    rcases hm.both hs hm1 hm2 with ⟨ha, ht⟩ | ⟨h, hp⟩
    · exact (hf a a' ha).both ht hf1 hf2
    · exact .inr ⟨h, hp.mono ((hf a a (hq h a)).left h hf1) ((hf a' a' (hq h a')).right h hf2)⟩

/-- Checks with the same answers. -/
theorem seq (hm : ρ.Pair Eq m m') (hf : ∀ a, ρ.Pair R (f a) (f' a)) :
    ρ.Pair R (m >>= f) (m' >>= f') :=
  hm.bind (fun _ _ => rfl) fun a _ h => h ▸ hf a

theorem like {m m' : Check Typed} {f f' : Typed → Check β} (hm : ρ.Pair ρ.Answers m m')
    (hf : ∀ a a', ρ.Answers a a' → ρ.Pair R (f a) (f' a')) : ρ.Pair R (m >>= f) (m' >>= f') :=
  hm.bind (fun _ _ => .inl rfl) hf

theorem likes {m m' : Check (List Typed)} {f f' : List Typed → Check β}
    (hm : ρ.Pair (List.Forall₂ ρ.Answers) m m')
    (hf : ∀ as as', List.Forall₂ ρ.Answers as as' → ρ.Pair R (f as) (f' as')) :
    ρ.Pair R (m >>= f) (m' >>= f') :=
  hm.bind (fun _ _ => List.forall₂_same.2 fun _ _ => .inl rfl) hf

theorem tables {f f' : Tables → Check β}
    (hf : ∀ s s', ρ.Alike s s' → ρ.Pair R (f s.tables) (f' s'.tables)) :
    ρ.Pair R (tables >>= f) (tables >>= f') :=
  ⟨fun hl s _ _ h => (hf s s (.refl hl s)).left hl h, fun hl s _ _ h =>
    (hf s s (.refl hl s)).right hl h,
    fun {s s' _ _ _ _} hs h1 h2 => (hf s s' hs).both hs h1 h2⟩

theorem throw (e : Fault) : ρ.Pair Q (MonadExcept.throw e) (MonadExcept.throw e) := by
  refine ⟨fun _ _ _ _ h => ?_, fun _ _ _ _ h => ?_, fun _ h _ => ?_⟩ <;> cases h

theorem lift (x : Except Fault α) : ρ.Pair Eq (liftM x) (liftM x) := by
  cases x with
  | error e => exact .throw e
  | ok a => exact .pure rfl

theorem scopes (g : ScopeTree → Except Fault γ) {f f' : γ → Check β}
    (hf : ∀ r, ρ.Pair R (f r) (f' r)) :
    ρ.Pair R (do f (← g (← Check.tables).scopes)) (do f' (← g (← Check.tables).scopes)) := by
  refine .tables fun s s' h => ?_
  rw [h.scopes]
  exact (lift _).seq hf

theorem function (i : FunctionId) {f f' : Function → Check β} (hf : ∀ g, ρ.Pair R (f g) (f' g)) :
    ρ.Pair R (do f (← (← Check.tables).functions.get i))
      (do f' (← (← Check.tables).functions.get i)) := by
  refine .tables fun s s' h => ?_
  unfold FunctionTable.get
  rw [h.functions]
  exact (lift _).seq hf

theorem ite {c : Prop} [Decidable c] {k k' : Check α} (h : ρ.Pair Q m m') (h' : ρ.Pair Q k k') :
    ρ.Pair Q (if c then m else k) (if c then m' else k') := by
  by_cases hc : c
  · rwa [if_pos hc, if_pos hc]
  · rwa [if_neg hc, if_neg hc]

theorem guard {c : Prop} [Decidable c] {k k' : Check Unit} {f f' : Unit → Check β}
    (h : ρ.Pair Eq k k') (hf : ∀ a, ρ.Pair R (f a) (f' a)) :
    ρ.Pair R (if c then k >>= f else f ()) (if c then k' >>= f' else f' ()) :=
  .ite (h.seq hf) (hf ())

theorem skip {c c' : Prop} [Decidable c] [Decidable c'] {k k' : Check Unit} {f f' : Unit → Check β}
    (hc : ¬ c) (hc' : ¬ c') (hf : ρ.Pair R (f ()) (f' ())) :
    ρ.Pair R (if c then k >>= f else f ()) (if c' then k' >>= f' else f' ()) := by
  rwa [if_neg hc, if_neg hc']

theorem discard (h : ρ.Pair Q m m') (hq : ρ.loose → ∀ a, Q a a) :
    ρ.Pair Eq (Functor.discard m : Check Unit) (Functor.discard m') := by
  have h' : ρ.Pair Eq (m >>= fun _ => Pure.pure ()) (m' >>= fun _ => Pure.pure ()) :=
    h.bind hq fun _ _ _ => .pure rfl
  exact h'

theorem forM {L : γ → γ → Prop} {g g' : γ → Check Unit} {l l' : List γ} (h : List.Forall₂ L l l')
    (hg : ∀ x x', L x x' → ρ.Pair Eq (g x) (g' x')) : ρ.Pair Eq (l.forM g) (l'.forM g') := by
  induction h with
  | nil => exact .pure rfl
  | cons hx _ ih => exact (hg _ _ hx).seq fun _ => ih

theorem mapM {L : γ → γ → Prop} {g g' : γ → Check α} {l l' : List γ} (h : List.Forall₂ L l l')
    (hg : ∀ x x', L x x' → ρ.Pair Eq (g x) (g' x')) : ρ.Pair Eq (l.mapM g) (l'.mapM g') := by
  induction h with
  | nil => exact .pure rfl
  | cons hx _ ih =>
    rw [List.mapM_cons, List.mapM_cons]
    exact (hg _ _ hx).seq fun _ => ih.seq fun _ => .pure rfl

/-- Two actions that report nothing and change nothing that matters. -/
theorem silent (hl : ρ.loose) {P : α → Prop} (hm : ∀ {s a t}, m s = .ok (a, t) → P a ∧ ρ.Alike s t)
    (hm' : ∀ {s a t}, m' s = .ok (a, t) → P a ∧ ρ.Alike s t) (hq : ∀ a a', P a → P a' → Q a a') :
    ρ.Pair Q m m' :=
  ⟨fun hl _ _ _ h => (hm h).2.adds hl, fun hl _ _ _ h => (hm' h).2.adds hl, fun hs h h' =>
    .inl ⟨hq _ _ (hm h).1 (hm' h').1, hs.across hl (hm h).2 (hm' h').2⟩⟩

theorem modify {g g' : CheckState → CheckState} (hg : ∀ s : CheckState, s.Adds (g s))
    (hg' : ∀ s : CheckState, s.Adds (g' s)) (h : ∀ s s', ρ.Alike s s' → ρ.Alike (g s) (g' s')) :
    ρ.Pair Eq (MonadState.modifyGet fun s => ((), g s))
      (MonadState.modifyGet fun s => ((), g' s)) := by
  refine ⟨fun _ s _ _ h => ?_, fun _ s _ _ h => ?_, fun {s s' _ _ _ _} hs h1 h2 => ?_⟩
  · cases h
    exact hg s
  · cases h
    exact hg' s
  · cases h1
    cases h2
    exact .inl ⟨rfl, h s s' hs⟩

end Pair

/-! ## The small actions -/

open Check

theorem report_pair (hs : ρ.loose → span' = span) : ρ.Pair Eq (report p span) (report p span') := by
  have hadds : ∀ span (s : CheckState),
      s.Adds { s with diagnostics := s.diagnostics.push ⟨p, span⟩ } := fun span s => by
    rw [CheckState.Adds, Array.toList_push]
    exact List.prefix_append ..
  exact .modify (hadds _) (hadds _) fun s s' h => { h with
    problems := by simp [h.problems]
    reports := fun hl => by rw [h.reports hl, hs hl] }

theorem reportIf_pair {c : Prop} [Decidable c] (hs : ρ.loose → span' = span) :
    ρ.Pair Eq (if c then report p span else pure ()) (if c then report p span' else pure ()) :=
  .ite (report_pair hs) (.pure rfl)

theorem setScopes_pair (t : ScopeTree) : ρ.Pair Eq (setScopes t) (setScopes t) := .modify (fun _ =>
  List.prefix_rfl) (fun _ => List.prefix_rfl) fun _ _ h => { h with scopes := rfl }

theorem setTypes_pair (r : TypeRegistry) : ρ.Pair Eq (setTypes r) (setTypes r) := .modify (fun _ =>
  List.prefix_rfl) (fun _ => List.prefix_rfl) fun _ _ h => { h with types := rfl }

theorem setFunctions_pair {t t' : FunctionTable} (ht : t'.functions = t.functions)
    (hl : ∀ ⦃k k'⦄, ρ.rel k k' → (ρ.loose → ¬ ρ.inner k) → t'.lookup k' = t.lookup k) :
    ρ.Pair Eq (setFunctions t) (setFunctions t') := .modify (fun _ => List.prefix_rfl) (fun _ =>
  List.prefix_rfl) fun _ _ h => { h with functions := ht, lookup := hl }

theorem openChild_pair (parent : ScopeId) (kind : ScopeKind) :
    ρ.Pair Eq (openChild parent kind) (openChild parent kind) :=
      .scopes (fun t => t.openChild parent kind) fun r =>
  (setScopes_pair r.2).seq fun _ => .pure rfl

theorem declareIn_pair (scope : ScopeId) (x : String) (type : Ty) :
    ρ.Pair Eq (declareIn scope x type) (declareIn scope x type) := .scopes (fun t =>
  t.declareIn scope x type) fun r => (setScopes_pair r.2).seq fun _ => .pure rfl

theorem reserveIn_pair (scope : ScopeId) (x : String) (type : Ty) :
    ρ.Pair Eq (reserveIn scope x type) (reserveIn scope x type) := .scopes (fun t =>
  t.reserveIn scope x type) fun r => (setScopes_pair r.2).seq fun _ => .pure rfl

theorem resolveFrom_pair (scope : ScopeId) (x : String) :
    ρ.Pair Eq (resolveFrom scope x) (resolveFrom scope x) := by
  refine .tables fun s s' h => ?_
  rw [h.scopes]
  exact .lift _

theorem binding?_pair (scope : ScopeId) (x : String) :
    ρ.Pair Eq (binding? scope x) (binding? scope x) := by
  refine .tables fun s s' h => ?_
  rw [h.scopes]
  exact .lift _

theorem memberScope_pair (c : ClassType) : ρ.Pair Eq (memberScope c) (memberScope c) := by
  refine .tables fun s s' h => ?_
  rw [h.types]
  cases s.tables.types.memberScope? c with
  | none => exact .throw _
  | some scope => exact .pure rfl

theorem recordType_pair (hk : ρ.rel k k') {type type' : Ty} (ht : ¬ ρ.loose → type' = type) :
    ρ.Pair Eq (recordType k type) (recordType k' type') := by
  refine ⟨fun _ _ _ _ h => ?_, fun _ _ _ _ h => ?_, fun hs h h' => .inl ⟨rfl, ?_⟩⟩
  · obtain ⟨-, _, rfl, -⟩ := recordType_ok h
    exact List.prefix_rfl
  · obtain ⟨-, _, rfl, -⟩ := recordType_ok h
    exact List.prefix_rfl
  · obtain ⟨-, a, rfl, ha, hget⟩ := recordType_ok h
    obtain ⟨-, a', rfl, ha', hget'⟩ := recordType_ok h'
    refine { hs with recorded := fun hl j j' hj => ⟨?_, ?_⟩ }
    · rw [hget, hget', (hs.recorded hl hj).1, ht hl]
      simp only [ρ.eq_iff hj hk]
    · simpa only [Annotations.scope?, ha, ha'] using (hs.recorded hl hj).2

theorem recordScope_pair (hk : ρ.rel k k') (scope : ScopeId) :
    ρ.Pair Eq (recordScope k scope) (recordScope k' scope) := by
  refine ⟨fun _ _ _ _ h => ?_, fun _ _ _ _ h => ?_, fun hs h h' => .inl ⟨rfl, ?_⟩⟩
  · obtain ⟨-, _, rfl, -⟩ := recordScope_ok h
    exact List.prefix_rfl
  · obtain ⟨-, _, rfl, -⟩ := recordScope_ok h
    exact List.prefix_rfl
  · obtain ⟨-, a, rfl, ha, hget⟩ := recordScope_ok h
    obtain ⟨-, a', rfl, ha', hget'⟩ := recordScope_ok h'
    refine { hs with recorded := fun hl j j' hj => ⟨?_, ?_⟩ }
    · simpa only [Annotations.type?, ha, ha'] using (hs.recorded hl hj).1
    · rw [hget, hget', (hs.recorded hl hj).2]
      simp only [ρ.eq_iff hj hk]

theorem bindFunction_pair (hk : ρ.rel k k') (f : FunctionId) :
    ρ.Pair Eq (bindFunction k f) (bindFunction k' f) := by
  refine ⟨fun _ _ _ _ h => ?_, fun _ _ _ _ h => ?_, fun hs h h' => .inl ⟨rfl, ?_⟩⟩
  · obtain ⟨-, _, rfl, -⟩ := bindFunction_ok h
    exact List.prefix_rfl
  · obtain ⟨-, _, rfl, -⟩ := bindFunction_ok h
    exact List.prefix_rfl
  · obtain ⟨-, t, rfl, ht, hl⟩ := bindFunction_ok h
    obtain ⟨-, t', rfl, ht', hl'⟩ := bindFunction_ok h'
    refine { hs with
      functions := ht'.trans (hs.functions.trans ht.symm), lookup := fun j j' hj hi => ?_ }
    rw [hl, hl', hs.lookup hj hi]
    simp only [ρ.eq_iff hj hk]

/-- A name that is bound to what a node declares. -/
theorem bound_pair (hn : ρ.nodes.code n n') (scope : ScopeId) (x : String) (type : Ty) :
    ρ.Pair Eq
      (do if !(← declareIn scope x type) then report p n.span
          recordType n.id type; recordScope n.id scope)
      (do if !(← declareIn scope x type) then report p n'.span
          recordType n'.id type; recordScope n'.id scope) :=
  (declareIn_pair ..).seq fun _ => .guard (report_pair (code_span hn)) fun _ =>
    (recordType_pair hn.1 fun _ => rfl).seq fun _ => recordScope_pair hn.1 scope

/-- The checks part where the name of a type is unknown. -/
theorem resolveType_pair (hσ : ¬ ρ.loose → σ = σ') (hs : ρ.loose → span' = span) :
    ∀ t : TypeExpr, ρ.Pair Eq (resolveType σ span t) (resolveType σ' span' t)
  | .int | .bool | .char | .void | .lock => .pure rfl
  | .array element => (resolveType_pair hσ hs element).seq fun _ => .pure rfl
  | .named x => by
    refine .tables fun s s' h => ?_
    rw [h.types]
    cases s.tables.types.lookup x with
    | some type => exact .pure rfl
    | none =>
      have hpair : ρ.Pair (fun _ _ : Ty => True) (do report (.unknownType x) span; pure σ)
          (do report (.unknownType x) span'; pure σ') := (report_pair hs).seq fun _ => .pure trivial
      refine ⟨hpair.left, hpair.right, fun {s1 s1' a a' t t'} h1 hm hm' => ?_⟩
      by_cases hl : ρ.loose
      · cases hm
        cases hm'
        refine .inr ⟨hl, s1.diagnostics.toList, x, span, ?_, ?_⟩
        · simp only [Array.toList_push, List.prefix_rfl]
        · simp only [Array.toList_push, h1.reports hl, hs hl, List.prefix_rfl]
      · rw [← hσ hl] at hm'
        exact ((report_pair hs).seq fun _ => .pure rfl : ρ.Pair Eq _ _).both h1 hm hm'

/-! ## Expressions -/

/-- A type that could not be determined. In a pair that is not loose it has one substitute. -/
theorem Answers.error (hσ : ¬ ρ.loose → σ = σ') : ρ.Answers (.error σ) (.error σ') := by
  by_cases hl : ρ.loose
  · exact .inr ⟨hl, rfl, rfl⟩
  · exact .inl (by rw [hσ hl])

theorem reportError_pair (hσ : ¬ ρ.loose → σ = σ') (hs : ρ.loose → span' = span) :
    ρ.Pair ρ.Answers (do report p span; return .error σ) (do report p span'; return .error σ') :=
  (report_pair hs).seq fun _ => .pure (.error hσ)

/-- A report about an answer, unless the answer is marked as erroneous. -/
theorem complain_pair (h : ρ.Answers a a') (hs : ρ.loose → span' = span) (x : Ty → Bool)
    (q : Ty → Problem) {f f' : Unit → Check β} (hf : ∀ a, ρ.Pair R (f a) (f' a)) :
    ρ.Pair R (if !a.erroneous && x a.type then report (q a.type) span >>= f else f ())
      (if !a'.erroneous && x a'.type then report (q a'.type) span' >>= f' else f' ()) := by
  rcases h with rfl | ⟨-, h, h'⟩
  · exact .guard (report_pair hs) hf
  · exact .skip (by simp [h]) (by simp [h']) (hf ())

theorem complainLast_pair (h : ρ.Answers a a') (hs : ρ.loose → span' = span) (x : Ty → Bool)
    (q : Ty → Problem) :
    ρ.Pair Eq (if !a.erroneous && x a.type then report (q a.type) span else pure ())
      (if !a'.erroneous && x a'.type then report (q a'.type) span' else pure ()) := by
  rcases h with rfl | ⟨-, h, h'⟩
  · exact reportIf_pair hs
  · rw [if_neg (by simp [h]), if_neg (by simp [h'])]
    exact .pure rfl

theorem expectType_pair (h : ρ.Answers a a') (hs : ρ.loose → span' = span) {expected : Ty}
    {purpose : Purpose} :
    ρ.Pair Eq (expectType a expected span purpose) (expectType a' expected span' purpose) :=
  complainLast_pair h hs (· != expected) (.mismatch expected purpose)

/-- Answers about parts that are erroneous. -/
theorem skip_pair (hl : ρ.loose) {b b' : Bool} (h : b = true) (h' : b' = true)
    {m m' : Check Typed} :
    ρ.Pair ρ.Answers (if b then pure (.error σ) else m) (if b' then pure (.error σ') else m') := by
  rw [if_pos h, if_pos h']
  exact .pure (.inr ⟨hl, rfl, rfl⟩)

/-- Arguments are the same, or some of them are erroneous in both checks. -/
theorem Answers.all (h : List.Forall₂ ρ.Answers as as') :
    as = as' ∨ ρ.loose ∧ as.any (·.erroneous) = true ∧ as'.any (·.erroneous) = true := by
  induction h with
  | nil => exact .inl rfl
  | cons ha _ ih =>
    rcases ha with rfl | ⟨hl, h, h'⟩
    · rcases ih with rfl | ⟨hl, h, h'⟩
      · exact .inl rfl
      · exact .inr ⟨hl, by simp [h], by simp [h']⟩
    · exact .inr ⟨hl, by simp [h], by simp [h']⟩

section
variable (hσ : ¬ ρ.loose → σ = σ') {isMethod : Bool}
include hσ

theorem nameType_pair (hn : ρ.nodes.code n n') :
    ρ.Pair ρ.Answers (nameType σ ctx n x) (nameType σ' ctx n' x) := by
  refine (resolveFrom_pair ..).seq fun r => ?_
  rcases r with _ | ⟨type, scope⟩
  · exact reportError_pair hσ (code_span hn)
  · exact .ite (reportError_pair hσ (code_span hn)) ((recordScope_pair hn.1 scope).seq fun _ =>
      .pure (.inl rfl))

theorem enumValueType_pair (hs : ρ.loose → span' = span) {member : String} :
    ρ.Pair ρ.Answers (enumValueType σ span x member) (enumValueType σ' span' x member) := by
  refine .tables fun s s' h => ?_
  rw [h.types]
  cases s.tables.types.enum? x with
  | none => exact reportError_pair hσ hs
  | some e => exact .ite (reportError_pair (fun _ => rfl) hs) (.pure (.inl rfl))

theorem elementType_pair (hs : ρ.loose → span' = span) (ha : ρ.Answers a a') (hb : ρ.Answers b b') :
    ρ.Pair ρ.Answers (elementType σ span a b) (elementType σ' span' a' b') := by
  unfold elementType
  refine complain_pair hb hs (· != .int) .arrayIndex fun _ => ?_
  rcases ha with rfl | ⟨hl, h, h'⟩
  · refine .ite (.pure (.error hσ)) ?_
    cases a.type.element? with
    | none => exact reportError_pair hσ hs
    | some element => exact .pure (.inl rfl)
  · exact skip_pair hl h h'

theorem fieldType_pair (hs : ρ.loose → span' = span) (h : ρ.Answers a a') :
    ρ.Pair ρ.Answers (fieldType σ span a x) (fieldType σ' span' a' x) := by
  rcases h with rfl | ⟨hl, h, h'⟩
  · refine .ite (.pure (.error hσ)) ?_
    cases a.type.class? with
    | none => exact reportError_pair hσ hs
    | some c =>
      refine (memberScope_pair c).seq fun scope => (binding?_pair scope x).seq fun b => ?_
      rcases b with _ | ⟨type, _ | offset⟩
      · exact reportError_pair hσ hs
      · exact reportError_pair hσ hs
      · exact .pure (.inl rfl)
  · exact skip_pair hl h h'

omit hσ in
/-- In a loose pair, it does not matter which function an inner node refers to. -/
theorem bindFunction_silent {f : FunctionId} {v : Unit} {s t : CheckState} (hl : ρ.loose)
    (hk : ρ.inner k) (h : bindFunction k f s = .ok (v, t)) : ρ.Alike s t := by
  obtain ⟨-, t, rfl, ht, hget⟩ := bindFunction_ok h
  refine { Alike.refl hl s with functions := ht, lookup := fun j j' hj hi => ?_ }
  rw [hget, eq_of_rel hl hj, if_neg]
  rintro rfl
  exact hi hl hk

omit hσ in
/-- A call with erroneous arguments reports nothing, whether it finds a function or not. -/
theorem callType_silent (hl : ρ.loose) (hn : ρ.inner n.id) (has : as.any (·.erroneous) = true)
    {s t : CheckState} (h : callType σ n x as isMethod s = .ok (a, t)) :
    a.erroneous = true ∧ ρ.Alike s t := by
  obtain ⟨_, s1, h1, h⟩ := bind_eq_ok.1 h
  obtain ⟨rfl, rfl⟩ := tables_eq_ok.1 h1
  cases hf : s1.tables.functions.resolveCall x (as.map (·.type)) isMethod with
  | some f =>
    rw [hf] at h
    simp only [bind_eq_ok, lift_eq_ok] at h
    obtain ⟨_, _, hbind, _, _, ⟨-, rfl⟩, rfl, rfl⟩ := h
    exact ⟨has, bindFunction_silent hl hn hbind⟩
  | none =>
    rw [hf] at h
    simp only [has] at h
    obtain ⟨rfl, rfl⟩ := h
    exact ⟨rfl, .refl hl _⟩

theorem callType_pair (hn : ρ.nodes.code n n') (h : List.Forall₂ ρ.Answers as as') :
    ρ.Pair ρ.Answers (callType σ n x as isMethod) (callType σ' n' x as' isMethod) := by
  rcases Answers.all h with rfl | ⟨hl, h, h'⟩
  · refine .tables fun s s' hs => ?_
    simp only [FunctionTable.resolveCall, FunctionTable.isDefined, FunctionTable.get, hs.functions]
    have herror : ∀ p, ρ.Pair ρ.Answers (do report p n.span; return .error σ)
      (do report p n'.span; return .error σ') :=
      fun _ => reportError_pair hσ (code_span hn)
    cases s.tables.functions.functions.toList.findIdx? fun g =>
        g.matches x (as.map (·.type)) isMethod with
    | none => exact .ite (.pure (.error hσ)) (.ite (herror _) (herror _))
    | some f =>
      exact (bindFunction_pair hn.1 f).seq fun _ => (Pair.lift _).seq fun _ => .pure (.inl rfl)
  · obtain ⟨rfl, hi⟩ := hn.2 hl
    exact .silent hl (callType_silent hl hi h) (callType_silent hl hi h') fun _ _ ha ha' =>
      .inr ⟨hl, ha, ha'⟩

theorem methodCallType_pair (hn : ρ.nodes.code n n') (ha : ρ.Answers a a')
    (h : List.Forall₂ ρ.Answers as as') :
    ρ.Pair ρ.Answers (methodCallType σ n a x as) (methodCallType σ' n' a' x as') := by
  rcases ha with rfl | ⟨hl, ha, ha'⟩
  · exact .ite (.pure (.error hσ)) (.ite (reportError_pair hσ (code_span hn))
      (callType_pair hσ hn (.cons (.inl rfl) h)))
  · exact skip_pair hl ha ha'

theorem newType_pair (hn : ρ.nodes.code n n') (h : List.Forall₂ ρ.Answers as as') :
    ρ.Pair ρ.Answers (newType σ n x as) (newType σ' n' x as') := by
  refine .tables fun s s' hs => ?_
  rw [hs.types]
  cases s.tables.types.class? x with
  | none => exact reportError_pair hσ (code_span hn)
  | some c =>
    simp only [FunctionTable.resolveCall, hs.functions]
    rcases Answers.all h with rfl | ⟨hl, h, h'⟩
    · cases s.tables.functions.functions.toList.findIdx? fun g =>
        g.matches constructorName (.object c :: as.map (·.type)) true with
      | none => exact .guard (report_pair (code_span hn)) fun _ => .pure (.inl rfl)
      | some f => exact (bindFunction_pair hn.1 f).seq fun _ => .pure (.inl rfl)
    · obtain ⟨rfl, hi⟩ := hn.2 hl
      have hbound : ∀ {f : FunctionId} {s t a},
          (do bindFunction n'.id f; return Typed.sound (.object c) : Check Typed) s = .ok (a, t) →
          a = .sound (.object c) ∧ ρ.Alike s t := by
        intro f s t a h
        obtain ⟨_, t1, hbind, h⟩ := bind_eq_ok.1 h
        obtain ⟨rfl, rfl⟩ := pure_eq_ok.1 h
        exact ⟨rfl, bindFunction_silent hl hi hbind⟩
      have hunbound : ∀ {as : List Typed}, as.any (·.erroneous) = true → ∀ {s t a},
          (do
            if !as.isEmpty && !as.any (·.erroneous) then
              report (.noConstructor x (as.map (·.type))) n'.span
            return Typed.sound (.object c) : Check Typed) s = .ok (a, t) →
          a = .sound (.object c) ∧ ρ.Alike s t := by
        intro as has s t a h
        simp only [has, Bool.not_true, Bool.and_false] at h
        obtain ⟨rfl, rfl⟩ := h
        exact ⟨rfl, .refl hl _⟩
      refine .silent hl (P := (· = .sound (.object c))) (fun hm => ?_) (fun hm => ?_)
        fun _ _ ha ha' => .inl (ha.trans ha'.symm)
      · generalize s.tables.functions.functions.toList.findIdx? _ = o at hm
        cases o with
        | some f => exact hbound hm
        | none => exact hunbound h hm
      · generalize s.tables.functions.functions.toList.findIdx? _ = o at hm
        cases o with
        | some f => exact hbound hm
        | none => exact hunbound h' hm

omit hσ in
theorem unaryType_pair (hs : ρ.loose → span' = span) {op : UnaryOp} (h : ρ.Answers a a') :
    ρ.Pair ρ.Answers (unaryType span op a) (unaryType span' op a') := by
  rcases h with rfl | ⟨hl, h, h'⟩
  · exact .ite (.pure (.inl rfl)) (.ite (reportError_pair (fun _ => rfl) hs) (.pure (.inl rfl)))
  · exact skip_pair hl h h'

omit hσ in
theorem binaryType_pair (hs : ρ.loose → span' = span) {op : BinaryOp} (ha : ρ.Answers a a')
    (hb : ρ.Answers b b') :
    ρ.Pair ρ.Answers (binaryType span op a b) (binaryType span' op a' b') := by
  rcases Answers.all (.cons ha (.cons hb .nil)) with h | ⟨hl, h, h'⟩
  · cases h
    exact .ite (.pure (.inl rfl)) (.ite (reportError_pair (fun _ => rfl) hs) (.pure (.inl rfl)))
  · exact skip_pair hl (by simpa using h) (by simpa using h')

omit hσ in
/-- The answer is recorded, whatever it is. -/
theorem record_pair (hk : ρ.rel k k') {m m' : Check Typed} (h : ρ.Pair ρ.Answers m m') :
    ρ.Pair ρ.Answers (do let a ← m; recordType k a.type; return a)
      (do let a ← m'; recordType k' a.type; return a) := by
  refine h.like fun a a' ha => (recordType_pair hk fun hl => ?_).seq fun _ => .pure ha
  rcases ha with rfl | ⟨h, -⟩
  · rfl
  · exact absurd h hl

omit hσ in
mutual

theorem expr_pair (hσ : ¬ ρ.loose → σ = σ') : ∀ e e' : Expr, e.Like ρ.nodes e' →
    ρ.Pair ρ.Answers (expr σ ctx e) (expr σ' ctx e')
  | .literal _ l, _, h => by
    obtain ⟨n', rfl, hn⟩ := h
    exact record_pair hn.1 (.pure (.inl rfl))
  | .name _ x, _, h => by
    obtain ⟨n', rfl, hn⟩ := h
    exact record_pair hn.1 (nameType_pair hσ hn)
  | .enumValue _ x m, _, h => by
    obtain ⟨n', rfl, hn⟩ := h
    exact record_pair hn.1 (enumValueType_pair hσ (code_span hn))
  | .arrayLiteral _ [], _, h => by
    obtain ⟨n', es', rfl, hn, rfl⟩ := h
    exact (report_pair (code_span hn)).seq fun _ =>
      record_pair hn.1 (.pure (.error fun h => by rw [hσ h]))
  | .arrayLiteral _ (e :: es), _, h => by
    obtain ⟨n', es', rfl, hn, e', es', rfl, he, hes⟩ := h
    refine (expr_pair hσ e e' he).like fun a a' ha => ?_
    rcases ha with rfl | ⟨hl, ha, ha'⟩
    · exact elements_pair hσ es es' hes (.inr rfl) fun _ _ => record_pair hn.1 (.pure (.inl rfl))
    · rw [ha, ha']
      exact elements_pair hσ es es' hes (.inl ⟨hl, rfl⟩) fun _ hb =>
        record_pair hn.1 (.pure (.inr ⟨hl, hb rfl, hb rfl⟩))
  | .newArray _ t l, _, h => by
    obtain ⟨n', l', rfl, hn, hl⟩ := h
    exact (resolveType_pair hσ (code_span hn) t).seq fun _ =>
      (expr_pair hσ l l' hl).like fun a a' ha => record_pair hn.1
      (complain_pair ha (code_span hn) (· != .int) .arrayLength fun _ => .pure (.inl rfl))
  | .index _ a i, _, h => by
    obtain ⟨n', a', i', rfl, hn, ha, hi⟩ := h
    exact (expr_pair hσ a a' ha).like fun _ _ ha => (expr_pair hσ i i' hi).like fun _ _ hi =>
      record_pair hn.1 (elementType_pair hσ (code_span hn) ha hi)
  | .field _ o x, _, h => by
    obtain ⟨n', o', rfl, hn, ho⟩ := h
    exact (expr_pair hσ o o' ho).like fun _ _ ho =>
      record_pair hn.1 (fieldType_pair hσ (code_span hn) ho)
  | .call _ f es, _, h => by
    obtain ⟨n', es', rfl, hn, hes⟩ := h
    exact (exprs_pair hσ es es' hes).likes fun _ _ has => record_pair hn.1 (callType_pair hσ hn has)
  | .methodCall _ r x es, _, h => by
    obtain ⟨n', r', es', rfl, hn, hr, hes⟩ := h
    exact (expr_pair hσ r r' hr).like fun _ _ hr => (exprs_pair hσ es es' hes).likes fun _ _ has =>
      record_pair hn.1 (methodCallType_pair hσ hn hr has)
  | .new _ c es, _, h => by
    obtain ⟨n', es', rfl, hn, hes⟩ := h
    exact (exprs_pair hσ es es' hes).likes fun _ _ has => record_pair hn.1 (newType_pair hσ hn has)
  | .unary _ op e, _, h => by
    obtain ⟨n', e', rfl, hn, he⟩ := h
    exact (expr_pair hσ e e' he).like fun _ _ he =>
      record_pair hn.1 (unaryType_pair (code_span hn) he)
  | .binary _ op l r, _, h => by
    obtain ⟨n', l', r', rfl, hn, hl, hr⟩ := h
    exact (expr_pair hσ l l' hl).like fun _ _ hl => (expr_pair hσ r r' hr).like fun _ _ hr =>
      record_pair hn.1 (binaryType_pair (code_span hn) hl hr)
termination_by structural e => e

theorem exprs_pair (hσ : ¬ ρ.loose → σ = σ') : ∀ es es' : List Expr, Expr.LikeAll ρ.nodes es es' →
    ρ.Pair (List.Forall₂ ρ.Answers) (exprs σ ctx es) (exprs σ' ctx es')
  | [], _, h => by
    obtain rfl := h
    exact .pure .nil
  | e :: es, _, h => by
    obtain ⟨e', es', rfl, he, hes⟩ := h
    exact (expr_pair hσ e e' he).like fun _ _ ha => (exprs_pair hσ es es' hes).likes fun _ _ has =>
      .pure (.cons ha has)
termination_by structural es => es

/-- Elements whose first one is the same, or erroneous in both checks. What comes after them may
rely on an erroneous element being found. -/
theorem elements_pair (hσ : ¬ ρ.loose → σ = σ') :
    ∀ es es' : List Expr, Expr.LikeAll ρ.nodes es es' → ∀ {first first' : Ty} {b : Bool},
    ρ.loose ∧ b = true ∨ first = first' → ∀ {f f' : Bool → Check Typed},
    (∀ c, (b = true → c = true) → ρ.Pair ρ.Answers (f c) (f' c)) →
    ρ.Pair ρ.Answers (elements σ ctx first b es >>= f) (elements σ' ctx first' b es' >>= f')
  | [], _, h, _, _, b, _, _, _, hf => by
    obtain rfl := h
    exact hf b id
  | e :: es, _, h, first, first', b, hb, f, f', hf => by
    obtain ⟨e', es', rfl, he, hes⟩ := h
    rw [elements, elements, bind_assoc, bind_assoc]
    refine (expr_pair hσ e e' he).like fun v v' hv => ?_
    have hflag : ρ.loose ∧ (b || v.erroneous) = true ∧ (b || v'.erroneous) = true ∨
        first = first' ∧ v = v' := by
      rcases hv with rfl | ⟨hl, hv, hv'⟩
      · rcases hb with ⟨hl, rfl⟩ | rfl
        · exact .inl ⟨hl, rfl, rfl⟩
        · exact .inr ⟨rfl, rfl⟩
      · exact .inl ⟨hl, by rw [hv, Bool.or_true], by rw [hv', Bool.or_true]⟩
    rcases hflag with ⟨hl, hv, hv'⟩ | ⟨rfl, rfl⟩
    · rw [hv, hv']
      exact elements_pair hσ es es' hes (.inl ⟨hl, rfl⟩) fun c hc => hf c fun _ => hc rfl
    · by_cases hc : (!(b || v.erroneous) && v.type != first) = true
      · rw [if_pos hc, if_pos hc]
        exact (report_pair (code_span he.node)).seq fun _ =>
          elements_pair hσ es es' hes (.inr rfl) fun c hc => hf c fun _ => hc rfl
      · rw [if_neg hc, if_neg hc]
        exact elements_pair hσ es es' hes (.inr rfl) fun c hc => hf c fun hb =>
          hc (by rw [hb, Bool.true_or])
termination_by structural es => es

end

/-! ## Statements -/

theorem target_pair {t t' : Target} (h : t.Like ρ.nodes t') :
    ρ.Pair ρ.Answers (target σ ctx t) (target σ' ctx t') := by
  cases t with
  | name n x =>
    obtain ⟨n', rfl, hn⟩ := h
    refine (resolveFrom_pair ..).seq fun r => ?_
    rcases r with _ | ⟨type, scope⟩
    · exact record_pair hn.1 (reportError_pair hσ (code_span hn))
    · exact .ite (record_pair hn.1 (reportError_pair hσ (code_span hn)))
        ((recordScope_pair hn.1 scope).seq fun _ => record_pair hn.1 (.pure (.inl rfl)))
  | index n a i =>
    obtain ⟨n', a', i', rfl, hn, ha, hi⟩ := h
    exact (expr_pair hσ a a' ha).like fun _ _ ha => (expr_pair hσ i i' hi).like fun _ _ hi =>
      record_pair hn.1 (elementType_pair hσ (code_span hn) ha hi)
  | field n o x =>
    obtain ⟨n', o', rfl, hn, ho⟩ := h
    exact (expr_pair hσ o o' ho).like fun _ _ ho =>
      record_pair hn.1 (fieldType_pair hσ (code_span hn) ho)

theorem declaration_pair (h : d.Like ρ.nodes d') :
    ρ.Pair Eq (declaration σ ctx d) (declaration σ' ctx d') := by
  have hi := h.initializer
  have hs := code_span h.node
  unfold declaration
  rw [h.type, h.name]
  refine (resolveType_pair hσ hs d.type).seq fun type => .guard (report_pair hs) fun _ =>
    .scopes (fun t => t.isGlobal ctx.scope) fun _ => .guard (report_pair hs) fun _ => ?_
  generalize d.initializer = v, d'.initializer = v' at hi
  cases hi with
  | none => exact bound_pair h.node ..
  | some he =>
    exact (expr_pair hσ _ _ he).like fun _ _ hv => (expectType_pair hv (code_span he.node)).seq
      fun _ => bound_pair h.node ..

theorem condition_pair (h : e.Like ρ.nodes e') (construct : Construct) :
    ρ.Pair Eq (condition σ ctx construct e) (condition σ' ctx construct e') :=
  (expr_pair hσ e e' h).like fun _ _ hv =>
    complainLast_pair hv (code_span h.node) (· != .bool) (.condition construct)

theorem lockOperand_pair (h : e.Like ρ.nodes e') (operation : LockOperation) :
    ρ.Pair Eq (lockOperand σ ctx operation e) (lockOperand σ' ctx operation e') := by
  refine (expr_pair hσ e e' h).like fun v v' hv => ?_
  rw [h.isPlace_eq]
  rcases hv with rfl | ⟨-, hv, hv'⟩
  · exact .ite (report_pair (code_span h.node)) (reportIf_pair (code_span h.node))
  · rw [hv, hv']
    exact .pure rfl

theorem returnStatement_pair {v v' : Option Expr} (h : Expr.LikeOption ρ.nodes v v')
    (hs : ρ.loose → span' = span) :
    ρ.Pair Eq (returnStatement σ ctx span v) (returnStatement σ' ctx span' v') := by
  unfold returnStatement
  cases ctx.function with
  | none =>
    refine (report_pair hs).seq fun _ => ?_
    cases h with
    | none => exact .pure rfl
    | some h => exact .discard (expr_pair hσ _ _ h) fun _ _ => .inl rfl
  | some function =>
    refine .function function fun f => ?_
    cases h with
    | none => exact reportIf_pair hs
    | some h =>
      exact (expr_pair hσ _ _ h).like fun _ _ hv => .ite (report_pair hs) (expectType_pair hv hs)

omit hσ in
mutual

theorem stmt_pair (hσ : ¬ ρ.loose → σ = σ') : ∀ s s' : Stmt, s.Like ρ.nodes s' →
    ∀ ctx : Context, ρ.Pair Eq (stmt σ ctx s) (stmt σ' ctx s')
  | .declaration _ d, _, h, ctx => by
    obtain ⟨n', d', rfl, hd⟩ := h
    exact declaration_pair hσ hd
  | .assignment _ t v, _, h, ctx => by
    obtain ⟨n', t', v', rfl, hn, ht, hv⟩ := h
    refine (target_pair hσ ht).like fun a a' ha => (expr_pair hσ v v' hv).like fun _ _ hv => ?_
    rcases ha with rfl | ⟨-, ha, ha'⟩
    · exact .ite (expectType_pair hv (mark_span hn)) (.pure rfl)
    · rw [ha, ha']
      exact .pure rfl
  | .ifElse _ c b f, _, h, ctx => by
    obtain ⟨n', c', b', f', rfl, hc, hb, hf⟩ := h
    exact (condition_pair hσ hc _).seq fun _ => (block_pair hσ b b' hb ctx).seq fun _ =>
      optionalBlock_pair hσ f f' hf ctx
  | .whileLoop _ c b, _, h, ctx => by
    obtain ⟨n', c', b', rfl, hc, hb⟩ := h
    exact (condition_pair hσ hc _).seq fun _ => block_pair hσ b b' hb ctx
  | .doLoop _ b c, _, h, ctx => by
    obtain ⟨n', b', c', rfl, hb, hc⟩ := h
    exact (block_pair hσ b b' hb ctx).seq fun _ => condition_pair hσ hc _
  | .forLoop _ i c s b, _, h, ctx => by
    obtain ⟨n', i', c', s', b', rfl, hi, hc, hs, hb⟩ := h
    exact (openChild_pair ..).seq fun _ => (optionalStmt_pair hσ i i' hi _).seq fun _ =>
      (condition_pair hσ hc _).seq fun _ => (optionalStmt_pair hσ s s' hs _).seq fun _ =>
      block_pair hσ b b' hb _
  | .block _ b, _, h, ctx => by
    obtain ⟨n', b', rfl, hb⟩ := h
    exact block_pair hσ b b' hb ctx
  | .switch _ d cases f, _, h, ctx => by
    obtain ⟨n', d', cases', f', rfl, hd, hcases, hf⟩ := h
    have hfall : f'.isSome = f.isSome := by
      cases f with
      | none => rw [hf]
      | some => obtain ⟨c', rfl, -⟩ := hf; rfl
    simp only [stmt, hfall]
    exact (expr_pair hσ d d' hd).like fun _ _ ha =>
      (switchCases_pair hσ cases cases' hcases ctx ha _).seq fun _ =>
      optionalBlock_pair hσ f f' hf _
  | .next _, _, h, ctx => by
    obtain ⟨n', rfl, hn⟩ := h
    exact reportIf_pair (mark_span hn)
  | .return _ v, _, h, ctx => by
    obtain ⟨n', v', rfl, hn, hv⟩ := h
    exact returnStatement_pair hσ hv (mark_span hn)
  | .expression _ e, _, h, ctx => by
    obtain ⟨n', e', rfl, he⟩ := h
    exact .discard (expr_pair hσ e e' he) fun _ _ => .inl rfl
  | .acquire _ l, _, h, ctx => by
    obtain ⟨n', l', rfl, hl⟩ := h
    exact lockOperand_pair hσ hl _
  | .release _ l, _, h, ctx => by
    obtain ⟨n', l', rfl, hl⟩ := h
    exact lockOperand_pair hσ hl _
termination_by structural s => s

theorem optionalStmt_pair (hσ : ¬ ρ.loose → σ = σ') :
    ∀ s s' : Option Stmt, Stmt.LikeOption ρ.nodes s s' → ∀ ctx : Context,
    ρ.Pair Eq (optionalStmt σ ctx s) (optionalStmt σ' ctx s')
  | none, _, h, _ => by
    obtain rfl := h
    exact .pure rfl
  | some s, _, h, ctx => by
    obtain ⟨s', rfl, hs⟩ := h
    exact stmt_pair hσ s s' hs ctx
termination_by structural s => s

theorem stmts_pair (hσ : ¬ ρ.loose → σ = σ') : ∀ ss ss' : List Stmt, Stmt.LikeAll ρ.nodes ss ss' →
    ∀ ctx : Context,
    ρ.Pair Eq (stmts σ ctx ss) (stmts σ' ctx ss')
  | [], _, h, _ => by
    obtain rfl := h
    exact .pure rfl
  | s :: ss, _, h, ctx => by
    obtain ⟨s', ss', rfl, hs, hss⟩ := h
    exact (stmt_pair hσ s s' hs ctx).seq fun _ => stmts_pair hσ ss ss' hss ctx
termination_by structural ss => ss

theorem block_pair (hσ : ¬ ρ.loose → σ = σ') : ∀ b b' : Block, b.Like ρ.nodes b' →
    ∀ ctx : Context, ρ.Pair Eq (block σ ctx b) (block σ' ctx b')
  | .mk _ ss, _, h, ctx => by
    obtain ⟨n', ss', rfl, hss⟩ := h
    exact (openChild_pair ..).seq fun _ => stmts_pair hσ ss ss' hss _
termination_by structural b => b

theorem optionalBlock_pair (hσ : ¬ ρ.loose → σ = σ') :
    ∀ b b' : Option Block, Block.LikeOption ρ.nodes b b' → ∀ ctx : Context,
    ρ.Pair Eq (optionalBlock σ ctx b) (optionalBlock σ' ctx b')
  | none, _, h, _ => by
    obtain rfl := h
    exact .pure rfl
  | some b, _, h, ctx => by
    obtain ⟨b', rfl, hb⟩ := h
    exact block_pair hσ b b' hb ctx
termination_by structural b => b

theorem switchCases_pair (hσ : ¬ ρ.loose → σ = σ') : ∀ cases cases' : List Case,
    Case.LikeAll ρ.nodes cases cases' → ∀ (ctx : Context) {a a' : Typed},
    ρ.Answers a a' → ∀ fallback : Bool,
    ρ.Pair Eq (switchCases σ ctx a fallback cases) (switchCases σ' ctx a' fallback cases')
  | [], _, h, _, _, _, _, _ => by
    obtain rfl := h
    exact .pure rfl
  | .mk n v b :: cases, _, h, ctx, a, a', ha, fallback => by
    obtain ⟨n', v', b', cases', rfl, hn, hv, hb, hcases⟩ := h
    have hempty : cases'.isEmpty = cases.isEmpty := by
      rw [Bool.eq_iff_iff, List.isEmpty_iff_length_eq_zero, List.isEmpty_iff_length_eq_zero,
        Case.length_likeAll hcases]
    simp only [switchCases, hempty]
    refine (expr_pair hσ v v' hv).like fun c c' hc => ?_
    have hrest : ∀ _ : Unit, ρ.Pair Eq
        (do block σ (ctx.inCase (if !cases.isEmpty || fallback then .followed else .last)) b
            switchCases σ ctx a fallback cases)
        (do block σ' (ctx.inCase (if !cases.isEmpty || fallback then .followed else .last)) b'
            switchCases σ' ctx a' fallback cases') := fun _ => (block_pair hσ b b' hb _).seq
            fun _ => switchCases_pair hσ cases cases' hcases ctx ha fallback
    rcases Answers.all (.cons ha (.cons hc .nil)) with h | ⟨-, h, h'⟩
    · cases h
      exact .guard (report_pair (mark_span hn)) hrest
    · simp only [List.any_cons, List.any_nil, Bool.or_false, Bool.or_eq_true] at h h'
      exact .skip (by rcases h with h | h <;> simp [h])
        (by rcases h' with h | h <;> simp [h]) (hrest ())
termination_by structural cases => cases

end

/-! ## Types and signatures -/

omit hσ in
theorem declareEnum_pair {d d' : EnumDef} (h : d.Like ρ.nodes d') :
    ρ.Pair Eq (declareEnum d) (declareEnum d') := by
  refine .tables fun s s' hs => ?_
  rw [hs.types, h.name, h.values]
  cases s.tables.types.defineEnum d.name d.values with
  | ok r => exact setTypes_pair r.2
  | error e => exact report_pair (mark_span h.node)

variable (ρ) in
omit hσ in
/-- Classes that are registered, with their types. -/
def Classes (p p' : ClassDef × ClassType) : Prop := p.1.Like ρ.nodes p'.1 ∧ p'.2 = p.2

omit hσ in
/-- What comes after the registration of classes. -/
theorem declareClasses_pair {ds ds' : List ClassDef}
    (h : List.Forall₂ (ClassDef.Like ρ.nodes) ds ds') :
    ∀ {f f' : TypedClasses → Check β},
    (∀ ps ps', List.Forall₂ ρ.Classes ps ps' → ρ.Pair R (f ps) (f' ps')) →
    ρ.Pair R (do f ((← ds.mapM declareClass).filterMap id))
    (do f' ((← ds'.mapM declareClass).filterMap id)) := by
  induction h with
  | nil => exact fun hf => hf [] [] .nil
  | @cons d d' ds ds' hd _ ih =>
    intro f f' hf
    rw [List.mapM_cons, List.mapM_cons]
    simp only [declareClass, bind_assoc]
    refine .tables fun s s' hs => ?_
    rw [hs.types, hd.name]
    cases s.tables.types.defineClass d.name with
    | ok r =>
      obtain ⟨c, types⟩ := r
      exact (setTypes_pair types).seq fun _ => ih fun ps ps' hps =>
        hf ((d, c) :: ps) ((d', c) :: ps') (.cons ⟨hd, rfl⟩ hps)
    | error e =>
      exact (report_pair (mark_span hd.node)).seq fun _ => ih hf

theorem declareFields_pair {d d' : ClassDef} (h : d.Like ρ.nodes d') (c : ClassType) :
    ρ.Pair Eq (declareFields σ d c) (declareFields σ' d' c) := by
  refine (openChild_pair ..).seq fun scope => .tables fun s s' hs => ?_
  rw [hs.types]
  refine (Pair.lift _).seq fun r => (setTypes_pair r).seq fun _ => .forM h.fields fun d d' h => ?_
  have hs := code_span h.node
  unfold declareField
  rw [h.type, h.name]
  exact (resolveType_pair hσ hs d.type).seq fun _ => .guard (report_pair hs) fun _ =>
    bound_pair h.node ..

theorem parameterTypes_pair {qs qs' : List Parameter}
    (h : List.Forall₂ (Parameter.Like ρ.nodes) qs qs') :
    ρ.Pair Eq (qs.mapM (parameterType σ)) (qs'.mapM (parameterType σ')) := by
  refine .mapM h fun q q' h => ?_
  have hs := code_span h.node
  unfold parameterType
  rw [h.type, h.name]
  exact (resolveType_pair hσ hs q.type).seq fun _ => .guard (report_pair hs) fun _ =>
    .guard (report_pair hs) fun _ => .pure rfl

theorem resultType_pair (hs : ρ.loose → span' = span) (type : TypeExpr) :
    ρ.Pair Eq (resultType σ x span type) (resultType σ' x span' type) :=
  (resolveType_pair hσ hs type).seq fun _ => .guard (report_pair hs) fun _ => .pure rfl

omit hσ in
theorem defineFunction_pair (hn : ρ.nodes.head n n') {signature : Signature} {isThread : Bool}
    {owner : Option ClassType} :
    ρ.Pair Eq (defineFunction x signature isThread owner n)
      (defineFunction x signature isThread owner n') := by
  refine .tables fun s s' h => ?_
  unfold FunctionTable.define FunctionTable.resolveCall
  rw [h.functions]
  cases s.tables.functions.functions.toList.findIdx? _ with
  | some _ => exact report_pair (head_span hn)
  | none => exact Pair.seq (setFunctions_pair rfl h.lookup) fun _ => bindFunction_pair hn.1 _

omit hσ in
theorem reserveMethod_pair (hs : ρ.loose → span' = span) (c : ClassType) (scope : ScopeId)
    (signature : Signature) :
    ρ.Pair Eq (reserveMethod c scope x signature span)
      (reserveMethod c scope x signature span') := by
  refine (binding?_pair ..).seq fun b => ?_
  cases b with
  | some b => exact reportIf_pair hs
  | none => exact .discard (reserveIn_pair ..) fun _ _ => rfl

theorem declareMethod_pair {m m' : FunctionDef} (h : m.Like ρ.nodes m') (c : ClassType)
    (scope : ScopeId) :
    ρ.Pair Eq (declareMethod σ c scope m) (declareMethod σ' c scope m') := by
  have hs := head_span h.node
  unfold declareMethod
  rw [h.isThread, h.name, h.returnType]
  exact .guard (report_pair hs) fun _ => (parameterTypes_pair hσ h.parameters).seq fun _ =>
    (resultType_pair hσ hs _).seq fun _ => (reserveMethod_pair hs ..).seq fun _ =>
    defineFunction_pair h.node

theorem declareFunction_pair {f f' : FunctionDef} (h : f.Like ρ.nodes f') :
    ρ.Pair Eq (declareFunction σ f) (declareFunction σ' f') := by
  have hs := head_span h.node
  unfold declareFunction
  rw [h.isThread, h.name, h.returnType]
  exact (parameterTypes_pair hσ h.parameters).seq fun _ => (resultType_pair hσ hs _).seq fun _ =>
    .guard (report_pair hs) fun _ => defineFunction_pair h.node

theorem declareFunctions_pair (h : u.Like ρ.nodes u') {ps ps' : TypedClasses}
    (hps : List.Forall₂ ρ.Classes ps ps') :
    ρ.Pair Eq (declareFunctions σ u ps) (declareFunctions σ' u' ps') := by
  refine (Pair.forM hps fun q q' hq => ?_).seq fun _ => .forM h.functions fun f f' hf =>
    declareFunction_pair hσ hf
  obtain ⟨hd, hc⟩ := hq
  simp only [hc]
  exact (memberScope_pair q.2).seq fun scope =>
    (Pair.forM hd.methods fun _ _ hm => declareMethod_pair hσ hm q.2 scope).seq fun _ =>
      .forM hd.constructors fun _ _ hk => (parameterTypes_pair hσ hk.parameters).seq fun _ =>
      defineFunction_pair hk.node

/-! ## Units -/

theorem fieldInitializer_pair (h : d.Like ρ.nodes d') (c : ClassType) :
    ρ.Pair Eq (fieldInitializer σ c d) (fieldInitializer σ' c d') := by
  have hi := h.initializer
  unfold fieldInitializer
  rw [h.name]
  generalize d.initializer = v, d'.initializer = v' at hi
  cases hi with
  | none => exact .pure rfl
  | some he =>
    refine (expr_pair hσ _ _ he).like fun _ _ hv => (memberScope_pair c).seq fun scope =>
      (binding?_pair ..).seq fun b => ?_
    cases b with
    | none => exact .pure rfl
    | some b => exact expectType_pair hv (code_span he.node)

theorem body_pair {b b' : FunctionBody} (h : b.Like ρ.nodes b') (hs : ρ.loose → span' = span)
    (f : FunctionId)
    (scope : ScopeId) : ρ.Pair Eq (body σ f scope span b) (body σ' f scope span' b') := by
  cases h with
  | @block b b' h =>
    simp only [body, Block.returns, Block.returnsIn_eq b b' h]
    obtain ⟨_, ss⟩ := b
    obtain ⟨_, ss', rfl, hss⟩ := h
    exact .function f fun g => (stmts_pair hσ ss ss' hss _).seq fun _ => reportIf_pair hs
  | expression h =>
    exact .function f fun g => (expr_pair hσ _ _ h).like fun _ _ hv =>
      expectType_pair hv (code_span h.node)

omit hσ in
theorem attachScope_pair (f : FunctionId) (scope : ScopeId) {k k' : Unit → Check β}
    (hk : ∀ a, ρ.Pair R (k a) (k' a)) :
    ρ.Pair R (do k (← setFunctions (← (← tables).functions.attachScope f scope)))
      (do k' (← setFunctions (← (← tables).functions.attachScope f scope))) := by
  refine .tables fun s s' h => ?_
  unfold FunctionTable.attachScope FunctionTable.get
  rw [h.functions]
  cases s.tables.functions.functions.fetch f with
  | error e => exact .throw e
  | ok g =>
    have hok : ∀ k : Function → Except Fault FunctionTable, Except.ok g >>= k = k g := fun _ => rfl
    rw [hok, hok]
    cases s.tables.functions.functions.replace f _ with
    | error e => exact .throw e
    | ok r =>
      have hset : ρ.Pair Eq (setFunctions { s.tables.functions with functions := r })
          (setFunctions { s'.tables.functions with functions := r }) :=
        setFunctions_pair rfl h.lookup
      exact hset.seq hk

omit hσ in
theorem parameters_pair {qs qs' : List Parameter}
    (h : List.Forall₂ (Parameter.Like ρ.nodes) qs qs') (scope : ScopeId) (types : List Ty) :
    ρ.Pair Eq ((qs.zip types).forM fun (q, type) => declareParameter scope q type)
      ((qs'.zip types).forM fun (q, type) => declareParameter scope q type) := by
  induction h generalizing types with
  | nil => exact .pure rfl
  | cons hq _ ih =>
    cases types with
    | nil => exact .pure rfl
    | cons type types =>
      refine Pair.seq ?_ fun _ => ih types
      simp only [declareParameter, hq.name]
      exact bound_pair hq.node ..

/-- A definition is found by its node, which is no inner node. -/
theorem definition_pair (hn : ρ.nodes.head n n') (owner : Option ClassType)
    {qs qs' : List Parameter} (hqs : List.Forall₂ (Parameter.Like ρ.nodes) qs qs')
    {b b' : FunctionBody} (hb : b.Like ρ.nodes b') :
    ρ.Pair Eq (definition σ n owner qs b) (definition σ' n' owner qs' b') := by
  refine .tables fun s s' hs => ?_
  rw [hs.lookup hn.1 fun hl => (hn.2 hl).2]
  cases s.tables.functions.lookup n.id with
  | none => exact .pure rfl
  | some f =>
    have hrest : ∀ scope arguments, ρ.Pair Eq
        (do (qs.zip arguments).forM fun (p, type) => declareParameter scope p type
            setFunctions (← (← tables).functions.attachScope f scope)
            body σ f scope n.span b)
        (do (qs'.zip arguments).forM fun (p, type) => declareParameter scope p type
            setFunctions (← (← tables).functions.attachScope f scope)
            body σ' f scope n'.span b') := fun scope arguments =>
      (parameters_pair hqs scope arguments).seq fun _ => attachScope_pair f scope fun _ =>
        body_pair hσ hb (head_span hn) f scope
    cases owner with
    | none =>
      exact (openChild_pair ScopeTree.globalId .function).seq fun scope => .function f fun g =>
        hrest scope g.signature.arguments
    | some c =>
      exact (memberScope_pair c).seq fun parent => (openChild_pair parent .function).seq
        fun scope => .function f fun g => (Pair.discard (declareIn_pair ..) fun _ _ => rfl).seq
          fun _ => hrest scope g.signature.arguments.tail

theorem bodies_pair (h : u.Like ρ.nodes u') {ps ps' : TypedClasses}
    (hps : List.Forall₂ ρ.Classes ps ps') : ρ.Pair Eq (bodies σ u ps) (bodies σ' u' ps') := by
  refine (stmts_pair hσ _ _ h.statements _).seq fun _ => (Pair.forM hps fun q q' hq => ?_).seq
    fun _ => .forM h.functions fun _ _ hf => definition_pair hσ hf.node none hf.parameters hf.body
  obtain ⟨hd, hc⟩ := hq
  simp only [hc]
  exact (Pair.forM hd.fields fun _ _ hf => fieldInitializer_pair hσ hf q.2).seq fun _ =>
    (Pair.forM hd.methods fun _ _ hm => definition_pair hσ hm.node
      (some q.2) hm.parameters hm.body).seq fun _ => .forM hd.constructors fun _ _ hk =>
      definition_pair hσ hk.node (some q.2) hk.parameters (.block hk.body)

theorem unit_pair (h : u.Like ρ.nodes u') : ρ.Pair Eq (unit σ u) (unit σ' u') := by
  simp only [unit, declareTypes, bind_assoc]
  refine (Pair.forM h.enums fun _ _ he => declareEnum_pair he).seq fun _ =>
    declareClasses_pair h.classes fun ps ps' hps => (Pair.forM hps fun q q' hq => ?_).seq fun _ =>
      (declareFunctions_pair hσ h hps).seq fun _ => bodies_pair hσ h hps
  obtain ⟨hd, hc⟩ := hq
  simp only [hc]
  exact declareFields_pair hσ hd q.2

end

end Sides

end Awl
