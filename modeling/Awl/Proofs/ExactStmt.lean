import Awl.Proofs.ExactExpr

/-!
# Checking statements decides the rules for statements

Statements open scopes and bind names, so the relation between the states is wider than for
expressions: `CheckState.Widens` says which nodes have got entries, that all scopes stay and in
which scope names are bound. `Check.Governs` is the judgment of a rule that takes the names in scope
to those after it. `Check.stmt_sat` puts the two together for every statement.
-/

namespace Awl

variable {free : Bool} {ctx : Context} {e : Expr} {Γ : Globals} {result : Option Ty} {sc : Scope}
  {kind : ScopeKind} {x : String} {type : Ty} {inner : Option ScopeId}

/-! ## Scopes that stay -/

namespace ScopeTree

variable {t t1 t' : ScopeTree} {inner : Option ScopeId} {id parent : ScopeId} {sc : Scope}

/-- The chain of a scope below `inner` stays. -/
theorem Chain.keeps (hk : t.Keeps inner t') (ht : t.Laid) {scopes : List Names}
    (h : t.Chain id scopes) (hi : ∀ j, inner = some j → id < j) : t'.Chain id scopes := by
  induction h with
  | @root id sc names hsc hp hn =>
    obtain ⟨sc', hsc', hp', hb⟩ := hk.outside hsc hi
    exact .root hsc' (hp'.trans hp) fun x => by rw [hb, hn x]
  | @child id p sc names outer hsc hp hn _ ih =>
    obtain ⟨sc', hsc', hp', hb⟩ := hk.outside hsc hi
    refine .child hsc' (hp'.trans hp) (fun x => by rw [hb, hn x]) (ih fun j hj => ?_)
    exact Nat.lt_trans (ht.older id sc p hsc hp) (hi j hj)

end ScopeTree

/-! ## Tables without loose ends -/

namespace Tables

variable {t : Tables} {scopes : ScopeTree} {id parent : ScopeId} {sc : Scope}

theorem Whole.grow {new : ScopeId → Scope → Prop} {bound : ScopeId → String → Binding → Prop}
    (h : t.Whole) (hg : t.scopes.Grows new bound scopes) (hl : scopes.Laid)
    (hb : ∀ j y b, bound j y b → b.type.Known t.types) :
    { t with scopes }.Whole := by
  refine ⟨hl, hg.bindings (Q := fun _ b => b.type.Known t.types) (fun j _ y b _ =>
    hb j y b) h.bindings, fun c j hj => ?_, h.classes, h.arguments, h.results, h.apart⟩
  obtain ⟨r, hr, hk, hp, ho⟩ := h.members c j hj
  obtain ⟨r', hr', hle⟩ := hg.le j r hr
  exact ⟨r', hr', hle.kind.trans hk, hle.parent.trans hp, hle.owner.trans ho⟩

theorem Whole.openChild (h : t.Whole) (ho : t.scopes.openChild parent kind = .ok (id, scopes))
    (hp : t.scopes.scopes.get? parent = some sc) : { t with scopes }.Whole :=
  h.grow (ScopeTree.openChild_grows ho) (ScopeTree.openChild_laid ho (Slots.lt_of_get? hp) h.laid)
    fun _ _ _ hb => hb.elim

theorem Whole.declareIn (h : t.Whole) (hd : t.scopes.declareIn id x type = .ok (free, scopes))
    (hk : type.Known t.types) : { t with scopes }.Whole :=
  h.grow (ScopeTree.declareIn_grows hd) (ScopeTree.declareIn_laid hd h.laid)
    fun _ _ _ hb => hb.2.2.1 ▸ hk

/-- What the definitions provide does not change with the names of other scopes. -/
theorem Models.keeps {t' : Tables} (h : t.Models Γ) (hw : t.Whole) (htypes : t'.types = t.types)
    (hheads : t'.functions.heads = t.functions.heads) (hk : t.scopes.Keeps inner t'.scopes)
    (hi : ∀ id sc, inner = some id → t.scopes.scopes.get? id = some sc → sc.kind ≠ .members) :
    t'.Models Γ := by
  refine ⟨?_, fun c id sc x hid hsc hkind => ?_, ?_⟩
  · simpa only [htypes] using h.types
  · rw [htypes] at hid
    obtain ⟨sc0, hsc0, hkind0, -⟩ := hw.members c id hid
    obtain ⟨sc', hsc', -, -, hb⟩ := hk id sc0 hsc0
    rw [hsc] at hsc'
    cases hsc'
    rw [hb fun h' => hi id sc0 h' hsc0 hkind0]
    exact h.fields c id sc0 x hid hsc0 hkind0
  · simpa only [hheads] using h.results

end Tables

/-! ## States of statements -/

namespace CheckState

variable {s s1 s' : CheckState} {inner : Option ScopeId} {ns ms : List NodeId} {id : ScopeId}

/-- The listed nodes have got entries and scopes have been added. Names have been bound in no other
scope than `inner`. -/
structure Widens (inner : Option ScopeId) (ns : List NodeId) (s s' : CheckState) : Prop extends
    Tables.Touches ns s.tables s'.tables where
  adds : s.Adds s'
  registry : s'.tables.types = s.tables.types
  functions : s'.tables.functions.heads = s.tables.functions.heads
  keeps : s.tables.scopes.Keeps inner s'.tables.scopes
  whole : s.tables.Whole → s'.tables.Whole

theorem Widens.refl (s : CheckState) : s.Widens inner ns s :=
  ⟨.refl ns _, .refl s, rfl, rfl, .refl _ _, fun h => h⟩

theorem Widens.trans (h : s.Widens inner ns s1) (h' : s1.Widens inner ns s') :
    s.Widens inner ns s' :=
  ⟨h.toTouches.trans h'.toTouches, h.adds.trans h'.adds, h'.registry.trans h.registry,
    h'.functions.trans h.functions, h.keeps.trans h'.keeps, fun hw => h'.whole (h.whole hw)⟩

theorem Widens.mono (h : s.Widens inner ns s') (hsub : ns ⊆ ms) : s.Widens inner ms s' :=
  { h with toTouches := h.toTouches.mono hsub }

theorem Widens.append (h : s.Widens inner ns s1) (h' : s1.Widens inner ms s') :
    s.Widens inner (ns ++ ms) s' :=
  (h.mono (List.subset_append_left ..)).trans (h'.mono (List.subset_append_right ..))

theorem Widens.weaken (h : s.Widens none ns s') : s.Widens inner ns s' :=
  { h with keeps := h.keeps.weaken }

theorem Widens.fresh (h : s.Widens none [] s1) (hid : s.tables.scopes.scopes.get? id = none)
    (h' : s1.Widens (some id) ns s') : s.Widens none ns s' :=
  { toTouches := (h.toTouches.mono (List.nil_subset ns)).trans h'.toTouches
    adds := h.adds.trans h'.adds
    registry := h'.registry.trans h.registry
    functions := h'.functions.trans h.functions
    keeps := h.keeps.fresh hid h'.keeps
    whole := fun hw => h'.whole (h.whole hw) }

theorem Marks.widens (h : s.Marks ns s') : s.Widens none ns s' :=
  { h with
    keeps := by rw [h.tree]; exact .refl _ _
    whole := h.whole }

theorem Widens.models (h : s.Widens none ns s') (hw : s.tables.Whole) (hΓ : s.tables.Models Γ) :
    s'.tables.Models Γ :=
  hΓ.keeps hw h.registry h.functions h.keeps fun _ _ h => nomatch h

end CheckState

namespace Check

open CheckState

variable {s s1 s2 s' : CheckState} {scope parent : ScopeId} {sc : Scope} {ns ms : List NodeId}

/-- A new scope is empty, and it is the only thing that is new. -/
theorem openChild_sat (hp : s.tables.scopes.scopes.get? parent = some sc) (hk : kind ≠ .global) :
    Sat (openChild parent kind) s fun id s' => s.tables.scopes.scopes.get? id = none ∧
      (∃ sc', s'.tables.scopes.scopes.get? id = some sc' ∧ sc'.parent = some parent ∧
        sc'.kind = kind ∧ sc'.bindings = []) ∧
      s.Widens none [] s' ∧ s.Quiet s' ∧ s'.tables.annotations = s.tables.annotations ∧
      s'.tables.functions = s.tables.functions := by
  obtain ⟨id, scopes, ho⟩ := ScopeTree.exists_openChild hp hk
  obtain ⟨rfl, owner, hs, -, -⟩ := ScopeTree.openChild_ok ho
  refine ⟨_, _, openChild_eq_ok.2 ⟨scopes, ho, rfl⟩, (Slots.get?_eq_none_iff _ _).2 (Nat.le_refl _),
    ⟨{ parent := some parent, kind, owner }, ?_, rfl, rfl, rfl⟩, ?_, rfl, rfl, rfl⟩
  · rw [hs, Slots.get?_push]
    exact if_pos rfl
  exact ⟨⟨fun _ _ => rfl, fun _ _ => rfl, fun _ _ => rfl⟩, .refl s, rfl, rfl,
    ScopeTree.openChild_keeps ho, fun hw => hw.openChild ho hp⟩

theorem declareIn_sat (hl : s.tables.scopes.Laid)
    (hsc : s.tables.scopes.scopes.get? scope = some sc) :
    Sat (declareIn scope x type) s fun free s' => ∃ scopes,
      s.tables.scopes.declareIn scope x type = .ok (free, scopes) ∧
      s' = { s with tables := { s.tables with scopes } } := by
  obtain ⟨o, ho, -⟩ := hl.owner scope sc hsc
  obtain ⟨free, scopes, hd⟩ := ScopeTree.exists_declareIn hsc ho x type
  exact ⟨free, _, declareIn_eq_ok.2 ⟨scopes, hd, rfl⟩, scopes, hd, rfl⟩

/-! ## Judgments that change the scopes -/

/-- The judgment of a rule that takes the names in scope to those after it. -/
structure Governs (scope : ScopeId) (P : Globals → List Names → List Names → Prop)
    (s s' : CheckState) : Prop where
  sound : ∀ Γ F, s.tables.Models Γ → s.tables.scopes.Chain scope F → s.Quiet s' →
    ∃ F', P Γ F F' ∧ s'.tables.scopes.Chain scope F'
  complete : ∀ Γ F F', s.tables.Models Γ → s.tables.scopes.Chain scope F → P Γ F F' →
    s.Quiet s' ∧ s'.tables.scopes.Chain scope F'

variable {P Q : Globals → List Names → List Names → Prop}

theorem Governs.congr (h : Governs scope P s s') (hpq : ∀ Γ F F', P Γ F F' ↔ Q Γ F F') :
    Governs scope Q s s' := by
  have : P = Q := funext fun Γ => funext fun F => funext fun F' => propext (hpq Γ F F')
  exact this ▸ h

/-- One rule after another. -/
theorem Governs.seq (h : Governs scope P s s1) (hΓ : ∀ Γ, s.tables.Models Γ → s1.tables.Models Γ)
    (ha : s.Adds s1) (ha' : s1.Adds s') (h' : Governs scope Q s1 s') :
    Governs scope (fun Γ F F' => ∃ F1, P Γ F F1 ∧ Q Γ F1 F') s s' := by
  constructor
  · intro Γ F hm hF hq
    obtain ⟨hq1, hq2⟩ := (quiet_trans_iff ha ha').1 hq
    obtain ⟨F1, hP, hF1⟩ := h.sound Γ F hm hF hq1
    obtain ⟨F', hQ, hF'⟩ := h'.sound Γ F1 (hΓ Γ hm) hF1 hq2
    exact ⟨F', ⟨F1, hP, hQ⟩, hF'⟩
  · rintro Γ F F' hm hF ⟨F1, hP, hQ⟩
    obtain ⟨hq1, hF1⟩ := h.complete Γ F F1 hm hF hP
    obtain ⟨hq2, hF'⟩ := h'.complete Γ F1 F' (hΓ Γ hm) hF1 hQ
    exact ⟨(quiet_trans_iff ha ha').2 ⟨hq1, hq2⟩, hF'⟩

/-- A condition and a rule after it. -/
theorem Governs.guard {C : Globals → List Names → Prop}
    (h : Governs scope (fun Γ F F' => C Γ F ∧ F' = F) s s1)
    (hΓ : ∀ Γ, s.tables.Models Γ → s1.tables.Models Γ) (ha : s.Adds s1) (ha' : s1.Adds s')
    (h' : Governs scope Q s1 s') : Governs scope (fun Γ F F' => C Γ F ∧ Q Γ F F') s s' :=
  (h.seq hΓ ha ha' h').congr fun _ F _ =>
    ⟨fun ⟨_, ⟨hC, heq⟩, hQ⟩ => ⟨hC, heq ▸ hQ⟩, fun ⟨hC, hQ⟩ => ⟨F, ⟨hC, rfl⟩, hQ⟩⟩

/-- A rule that uses the result of another one, which binds no names. -/
theorem Governs.after {α ρ : Type} {mk : α → ρ} {r : ρ} {P : Globals → List Names → α → Prop}
    {Q : α → Globals → List Names → List Names → Prop} (h : Ruled mk scope P r s s1)
    (hm : s.Marks ns s1) (ha : s1.Adds s') (h' : ∀ a, r = mk a → Governs scope (Q a) s1 s') :
    Governs scope (fun Γ F F' => ∃ a, P Γ F a ∧ Q a Γ F F') s s' := by
  constructor
  · intro Γ F hΓ hF hq
    obtain ⟨hq1, hq2⟩ := (quiet_trans_iff hm.adds ha).1 hq
    obtain ⟨a, hr, hP⟩ := (h Γ F hΓ hF).sound hq1
    obtain ⟨F', hQ, hF'⟩ := (h' a hr).sound Γ F (hm.models hΓ) (by rwa [hm.tree]) hq2
    exact ⟨F', ⟨a, hP, hQ⟩, hF'⟩
  · rintro Γ F F' hΓ hF ⟨a, hP, hQ⟩
    obtain ⟨hq1, hr⟩ := (h Γ F hΓ hF).complete a hP
    obtain ⟨hq2, hF'⟩ := (h' a hr).complete Γ F F' (hm.models hΓ) (by rwa [hm.tree]) hQ
    exact ⟨(quiet_trans_iff hm.adds ha).2 ⟨hq1, hq2⟩, hF'⟩

/-- A rule that binds no names. -/
theorem Governs.ofRuled {P : Globals → List Names → Prop} {mk : Unit → Unit}
    (h : Ruled mk scope (fun Γ F _ => P Γ F) () s s') (ht : s'.tables.scopes = s.tables.scopes) :
    Governs scope (fun Γ F F' => P Γ F ∧ F' = F) s s' := by
  constructor
  · intro Γ F hΓ hF hq
    obtain ⟨_, _, hP⟩ := (h Γ F hΓ hF).sound hq
    exact ⟨F, ⟨hP, rfl⟩, by rwa [ht]⟩
  · rintro Γ F F' hΓ hF ⟨hP, rfl⟩
    exact ⟨((h Γ _ hΓ hF).complete () hP).1, by rwa [ht]⟩

/-- A rule in a new scope. -/
theorem Governs.inNew {id : ScopeId} (hw : s.tables.Whole)
    (hid : s.tables.scopes.scopes.get? id = none)
    (hnew : ∃ sc', s1.tables.scopes.scopes.get? id = some sc' ∧ sc'.parent = some scope ∧
      sc'.bindings = [])
    (hs : s.Widens none [] s1) (hq : s.Quiet s1) (hs' : s1.Widens (some id) ns s')
    (h : Governs id P s1 s') :
    Governs scope (fun Γ F F' => (∃ F1, P Γ ([] :: F) F1) ∧ F' = F) s s' := by
  obtain ⟨sc', hsc', hp, hb⟩ := hnew
  have hinner : ∀ F, s.tables.scopes.Chain scope F → s1.tables.scopes.Chain id ([] :: F) :=
    fun F hF => .child hsc' hp (fun x => by rw [hb]; rfl)
      (hF.keeps hs.keeps hw.laid fun _ h => nomatch h)
  have houter : ∀ F, s.tables.scopes.Chain scope F → s'.tables.scopes.Chain scope F := fun F hF =>
    hF.keeps (hs.fresh hid hs').keeps hw.laid fun _ h => nomatch h
  have hquiet : s.Quiet s' ↔ s1.Quiet s' := by
    rw [quiet_trans_iff hs.adds hs'.adds]
    exact ⟨And.right, fun h => ⟨hq, h⟩⟩
  constructor
  · intro Γ F hΓ hF hq'
    obtain ⟨F1, hP, -⟩ := h.sound Γ _ (hs.models hw hΓ) (hinner F hF) (hquiet.1 hq')
    exact ⟨F, ⟨⟨F1, hP⟩, rfl⟩, houter F hF⟩
  · rintro Γ F F' hΓ hF ⟨⟨F1, hP⟩, rfl⟩
    obtain ⟨hq', -⟩ := h.complete Γ _ F1 (hs.models hw hΓ) (hinner _ hF) hP
    exact ⟨hquiet.2 hq', houter _ hF⟩

end Check

/-! ## Conditions -/

/-- A condition has been tested: it is reported if it does not hold, and nothing else happens. -/
structure CheckState.Tests (C : Prop) (s s' : CheckState) : Prop where
  adds : s.Adds s'
  tables : s'.tables = s.tables
  quiet : s.Quiet s' ↔ C

/-- A place is in a scope that binds variables, inside a function with this result. -/
structure Context.Fits (ctx : Context) (result : Option Ty) (t : Tables) : Prop where
  scope : ∃ sc, t.scopes.scopes.get? ctx.scope = some sc ∧ sc.kind ≠ .members
  function : match ctx.function with
    | none => result = none
    | some i => ∃ f, t.function? i = some f ∧ result = some f.signature.result

section

open CheckState Check

variable {s s' : CheckState} {scope : ScopeId} {ns : List NodeId} {C : Prop}

theorem Context.Fits.widens (h : ctx.Fits result s.tables) (hs : s.Widens inner ns s') :
    ctx.Fits result s'.tables := by
  obtain ⟨⟨sc, hsc, hk⟩, hf⟩ := h
  obtain ⟨sc', hsc', -, hk', -⟩ := hs.keeps _ _ hsc
  refine ⟨⟨sc', hsc', hk' ▸ hk⟩, ?_⟩
  cases hfun : ctx.function with
  | none => simpa only [hfun] using hf
  | some i =>
    simp only [hfun] at hf ⊢
    obtain ⟨f, hget, hres⟩ := hf
    have hi := congrArg (·[i]?) hs.functions
    simp only [FunctionTable.heads_getElem?, hget] at hi
    obtain ⟨f', hf', heq⟩ := Option.map_eq_some_iff.1 hi
    exact ⟨f', hf', by rw [hres, ← congrArg Function.signature heq]⟩

theorem Context.Fits.inCase {position : SwitchPosition} (h : ctx.Fits result s.tables) :
    (ctx.inCase position).Fits result s.tables :=
  ⟨h.scope, h.function⟩

theorem Context.Fits.models (h : ctx.Fits result s.tables) (hw : s.tables.Whole)
    (hs : s.Widens (some ctx.scope) ns s') (hΓ : s.tables.Models Γ) : s'.tables.Models Γ := by
  obtain ⟨sc, hsc, hk⟩ := h.scope
  refine hΓ.keeps hw hs.registry hs.functions hs.keeps fun id sc' hid hsc' => ?_
  cases hid
  rw [hsc] at hsc'
  cases hsc'
  exact hk

theorem CheckState.Tests.pass (h : C) : s.Tests C s := ⟨.refl s, rfl, fun _ => h, fun _ => rfl⟩

theorem CheckState.Tests.fail (d : Diagnostic) (h : ¬ C) :
    s.Tests C { s with diagnostics := s.diagnostics.push d } :=
  ⟨⟨[d], by simp⟩, rfl, fun hq => absurd hq (not_quiet_push s d), fun hC => absurd hC h⟩

theorem CheckState.Tests.marks (h : s.Tests C s') : s.Marks ns s' := .ofTables h.adds h.tables

theorem CheckState.Tests.ruled (h : s.Tests C s') :
    Ruled (fun _ : Unit => ()) scope (fun _ _ _ => C) () s s' := fun _ _ _ _ => ⟨fun hq =>
  ⟨(), rfl, h.quiet.1 hq⟩, fun _ hC => ⟨h.quiet.2 hC, rfl⟩⟩

theorem CheckState.Tests.models (h : s.Tests C s') (hΓ : s.tables.Models Γ) :
    s'.tables.Models Γ := by
  rwa [h.tables]

theorem Check.Governs.ofTests (h : s.Tests C s') :
    Governs scope (fun _ F F' => C ∧ F' = F) s s' :=
  .ofRuled h.ruled (congrArg Tables.scopes h.tables)

end

namespace Check

open CheckState

variable {s s1 s2 s' : CheckState} {scope : ScopeId} {ns ms : List NodeId} {sub : Ty}
  {ctx : Context} {result : Option Ty} {span : Span} {p : Problem} {value : Typed} {C : Ty → Prop}
  {n : NodeId} {c : Prop}

theorem reportIf_sat [Decidable c] :
    Sat (if c then report p span else pure ()) s fun _ s' => s.Tests (¬ c) s' := by
  split
  · rename_i hc
    exact .report (.fail _ fun h => h hc)
  · rename_i hc
    exact .pure (.pass hc)

/-- A condition that is tested before something else is done. -/
theorem reportThen_sat {β : Type} [Decidable c] {k : Unit → Check β}
    {Q : β → CheckState → Prop} (h : ∀ s1, s.Tests (¬ c) s1 → Sat (k ()) s1 Q) :
    Sat (if c then (do let r ← report p span; k r) else k ()) s Q := by
  split
  · rename_i hc
    exact .bind (.report (.fail _ fun h => h hc)) fun _ => h
  · rename_i hc
    exact h s (.pass hc)

theorem expectType_sat {expected : Ty} {purpose : Purpose} :
    Sat (expectType value expected span purpose) s fun _ s' => s.Marks [] s' ∧
      ∀ σ, value = .sound σ → s.Tests (σ = expected) s' := by
  refine reportIf_sat.weaken fun _ s' h => ⟨h.marks, ?_⟩
  rintro σ rfl
  exact ⟨h.adds, h.tables, by rw [h.quiet]; simp [Typed.sound]⟩

/-- A name is bound and filed under its node, unless the scope binds it already. -/
theorem bindName_sat (hl : s.tables.scopes.Laid) (hsc : s.tables.scopes.scopes.get? scope = some sc)
    (hf : s.tables.Free [n]) :
    Sat (do
        if !(← declareIn scope x type) then report p span
        recordType n type
        recordScope n scope) s fun _ s' =>
      s.tables.Touches [n] s'.tables ∧ s.Verdict (sc.bindings.lookup x = none) s' ∧
      s'.tables.types = s.tables.types ∧ s'.tables.functions = s.tables.functions ∧
      ∃ free, s.tables.scopes.declareIn scope x type = .ok (free, s'.tables.scopes) := by
  refine .bind (declareIn_sat hl hsc) fun free s1 h1 => ?_
  obtain ⟨scopes, hd, rfl⟩ := h1
  refine reportThen_sat fun s2 ht => ?_
  have htype : s2.tables.annotations.type? n = none := by
    rw [ht.tables]
    exact hf.types n (.head _)
  refine .bind (recordType_sat htype) fun _ s3 h3 => ?_
  obtain ⟨hm3, hq3, hsame, hfun3⟩ := h3
  have hscope : s3.tables.annotations.scope? n = none := by
    rw [Annotations.scope?, hsame, ht.tables]
    exact hf.scopes n (.head _)
  refine (recordScope_sat hscope).weaken fun _ s4 h4 => ?_
  obtain ⟨hm4, hq4, -, hfun4⟩ := h4
  have hm := hm3.trans hm4
  refine ⟨?_, ?_, ?_, ?_, free, ?_⟩
  · have := hm.toTouches
    rw [ht.tables] at this
    exact ⟨this.types, this.scopes, this.calls⟩
  · have hfree := (ScopeTree.declareIn_new hd hsc).1
    have hquiet : s2.Quiet s4 := Eq.trans hq4 hq3
    refine ⟨ht.adds.trans hm.adds, (quiet_iff_of_quiet hquiet).trans (ht.quiet.trans ?_)⟩
    rw [hfree, ← Option.isNone_iff_eq_none]
    cases (sc.bindings.lookup x).isNone <;> simp
  · rw [hm.registry, ht.tables]
  · rw [hfun4, hfun3, ht.tables]
  · rw [hm.tree, ht.tables]
    exact hd

/-- A name is bound in tables without loose ends. -/
theorem bindName_widens (hw : s.tables.Whole) (hsc : s.tables.scopes.scopes.get? scope = some sc)
    (hk : type.Known s.tables.types) (hf : s.tables.Free [n]) :
    Sat (do
        if !(← declareIn scope x type) then report p span
        recordType n type
        recordScope n scope) s fun _ s' =>
      s.Widens (some scope) [n] s' ∧ s.Verdict (sc.bindings.lookup x = none) s' ∧
      ∃ free, s.tables.scopes.declareIn scope x type = .ok (free, s'.tables.scopes) := by
  refine (bindName_sat hw.laid hsc hf).weaken fun _ s' ⟨ht, hv, htypes, hfuns, free, hd⟩ =>
    ⟨⟨ht, hv.adds, htypes, by rw [hfuns], ScopeTree.declareIn_keeps hd, fun hw => ?_⟩, hv, free, hd⟩
  exact (hw.declareIn hd hk).congr htypes rfl (by rw [hfuns])

/-- The rule for a new name: no other one of the innermost scope is like it. -/
theorem bindName_governs (hw : s.tables.Whole) (hsc : s.tables.scopes.scopes.get? scope = some sc)
    (hfun : type.isFunction = false) (hs : s.Widens (some scope) ns s')
    (hv : s.Verdict (sc.bindings.lookup x = none) s')
    (hd : s.tables.scopes.declareIn scope x type = .ok (free, s'.tables.scopes)) :
    Governs scope (fun _ F F' => ∃ names outer, F = names :: outer ∧ names.lookup x = none ∧
      F' = ((x, some type) :: names) :: outer) s s' := by
  -- The scope shows the names `names`, so the name is free in both or in neither.
  have hchain : ∀ F, s.tables.scopes.Chain scope F → ∃ names outer, F = names :: outer ∧
      (names.lookup x = none ↔ sc.bindings.lookup x = none) ∧ (sc.bindings.lookup x = none →
        s'.tables.scopes.Chain scope (((x, some type) :: names) :: outer)) := by
    intro F hF
    have hshow : ∀ names : Names, sc.Shows names → ∀ sc' : Scope, ∀ k : Nat,
        sc'.bindings = (x, { type, offset := some k }) :: sc.bindings →
        sc'.Shows ((x, some type) :: names) := by
      intro names hn sc' k hb y
      rw [hb, List.lookup_cons, List.lookup_cons]
      split
      · simp [Ty.asVariable, hfun]
      · exact hn y
    cases hF with
    | @root _ sc0 names hsc0 hp hn =>
      rw [hsc] at hsc0
      cases hsc0
      refine ⟨names, [], rfl, by rw [hn x]; simp, fun hx => ?_⟩
      obtain ⟨sc', k, hsc', hp', -, hb⟩ := (ScopeTree.declareIn_new hd hsc).2 hx
      exact .root hsc' (hp'.trans hp) (hshow names hn sc' k hb)
    | @child _ q sc0 names outer hsc0 hp hn ho =>
      rw [hsc] at hsc0
      cases hsc0
      refine ⟨names, outer, rfl, by rw [hn x]; simp, fun hx => ?_⟩
      obtain ⟨sc', k, hsc', hp', -, hb⟩ := (ScopeTree.declareIn_new hd hsc).2 hx
      refine .child hsc' (hp'.trans hp) (hshow names hn sc' k hb)
        (ho.keeps hs.keeps hw.laid fun j hj => ?_)
      cases hj
      exact hw.laid.older _ _ _ hsc hp
  constructor
  · intro Γ F _ hF hquiet
    obtain ⟨names, outer, rfl, hiff, hch⟩ := hchain F hF
    have hx := hv.quiet.1 hquiet
    exact ⟨_, ⟨names, outer, rfl, hiff.2 hx, rfl⟩, hch hx⟩
  · rintro Γ F F' _ hF ⟨names, outer, rfl, hx, rfl⟩
    obtain ⟨names', outer', heq, hiff, hch⟩ := hchain _ hF
    cases heq
    exact ⟨hv.quiet.2 (hiff.1 hx), hch (hiff.1 hx)⟩

/-- A value whose type is tested. -/
theorem Decides.tested {P : Globals → List Names → Ty → Prop} (h : Decides scope ns P s value s1)
    (hm : s1.Marks [] s') (ht : ∀ σ, value = .sound σ → s1.Tests (C σ) s') : s.Marks ns s' ∧
    Governs scope (fun Γ F F' => (∃ σ, P Γ F σ ∧ C σ) ∧ F' = F) s s' := by
  have hall := h.marks.trans (hm.mono (List.nil_subset _))
  exact ⟨hall, .ofRuled (h.ruled.bind h.marks hm.adds fun σ hσ => (ht σ hσ).ruled) hall.tree⟩

section
variable [sub.StandIn] (hw : s.tables.Whole)
  (hc : ctx.Fits result s.tables) {next : Bool}
include hw hc

/-- An expression whose type is tested. -/
theorem tested_sat {k : Typed → Check Unit} (hf : s.tables.Free (e.nodes.map (·.id)))
    (hk : ∀ value s1, Sat (k value) s1 fun _ s' => s1.Marks [] s' ∧ ∀ σ, value = .sound σ →
      s1.Tests (C σ) s') :
    Sat (do let value ← expr sub ctx e; k value) s fun _ s' =>
      s.Marks (e.nodes.map (·.id)) s' ∧
      Governs ctx.scope (fun Γ F F' => (∃ σ, e.HasType Γ F σ ∧ C σ) ∧ F' = F) s s' := by
  obtain ⟨sc, hsc, -⟩ := hc.scope
  refine .bind (expr_sat e hw hsc hf) fun value s1 he => ?_
  exact (hk value s1).weaken fun _ s' ⟨hm, ht⟩ => he.tested hm ht

theorem expression_sat (hf : s.tables.Free (e.nodes.map (·.id))) :
    Sat (discard <| expr sub ctx e) s fun _ s' => s.Marks (e.nodes.map (·.id)) s' ∧
      Governs ctx.scope (fun Γ F F' => (∃ σ, e.HasType Γ F σ) ∧ F' = F) s s' :=
  (tested_sat hw hc hf fun _ s1 => .pure ⟨.refl s1, fun _ _ => .pass trivial⟩).weaken
    fun _ _ ⟨hm, hg⟩ => ⟨hm, hg.congr fun _ _ _ => by simp⟩

theorem condition_sat {construct : Construct} (hf : s.tables.Free (e.nodes.map (·.id))) :
    Sat (condition sub ctx construct e) s fun _ s' => s.Marks (e.nodes.map (·.id)) s' ∧
      Governs ctx.scope (fun Γ F F' => e.HasType Γ F .bool ∧ F' = F) s s' := by
  refine (tested_sat hw hc hf (C := (· = .bool)) fun value s1 => ?_).weaken
    fun _ s' ⟨hm, hg⟩ => ⟨hm, hg.congr fun Γ F F' => by simp⟩
  refine reportIf_sat.weaken fun _ s' h => ⟨h.marks, ?_⟩
  rintro σ rfl
  exact ⟨h.adds, h.tables, by rw [h.quiet]; simp [Typed.sound]⟩

theorem lockOperand_sat {operation : LockOperation} (hf : s.tables.Free (e.nodes.map (·.id))) :
    Sat (lockOperand sub ctx operation e) s fun _ s' => s.Marks (e.nodes.map (·.id)) s' ∧
      Governs ctx.scope (fun Γ F F' => (e.HasType Γ F .lock ∧ e.isPlace = true) ∧ F' = F) s s' := by
  refine (tested_sat hw hc hf (C := fun σ => σ = .lock ∧ e.isPlace = true) fun value s1 =>
    ?_).weaken fun _ s' ⟨hm, hg⟩ => ⟨hm, hg.congr fun Γ F F' => ?_⟩
  · split
    · rename_i hne
      refine .report ⟨.report s1 _, ?_⟩
      rintro σ rfl
      exact .fail _ fun h => by simp [Typed.sound, h.1] at hne
    · rename_i heq
      refine reportIf_sat.weaken fun _ s' h => ⟨h.marks, ?_⟩
      rintro σ rfl
      have hlock : σ = .lock := by simpa [Typed.sound] using heq
      exact ⟨h.adds, h.tables, by rw [h.quiet]; simp [Typed.sound, hlock]⟩
  · constructor
    · rintro ⟨⟨σ, hσ, rfl, hp⟩, hF⟩
      exact ⟨⟨hσ, hp⟩, hF⟩
    · rintro ⟨⟨hσ, hp⟩, hF⟩
      exact ⟨⟨_, hσ, rfl, hp⟩, hF⟩

theorem returnStatement_sat {value : Option Expr}
    (hf : s.tables.Free ((Expr.nodesOption value).map (·.id))) {n : Node} :
    Sat (returnStatement sub ctx n.span value) s fun _ s' => s.Marks
      ((Expr.nodesOption value).map (·.id)) s' ∧ Governs ctx.scope
      (fun Γ F F' => Stmt.WellTyped Γ result next F (.return n value) F') s s' := by
  have hfun := hc.function
  unfold returnStatement
  cases hi : ctx.function with
  | none =>
    simp only [hi] at hfun ⊢
    subst hfun
    refine .bind (.report (Q := fun _ s1 => s.Tests False s1) (.fail _ id)) fun _ s1 ht => ?_
    have hfalse : ∀ Γ F F', ¬ Stmt.WellTyped Γ none next F (.return n value) F' := by
      intro Γ F F' h
      cases h <;> contradiction
    cases value with
    | none =>
      refine .pure ⟨ht.marks, (Governs.ofTests ht).congr fun Γ F F' => ?_⟩
      simp [hfalse Γ F F']
    | some e =>
      have hm1 : s.Marks [] s1 := ht.marks
      have hc1 : ctx.Fits none s1.tables := ht.tables ▸ hc
      refine (expression_sat (hm1.whole hw) hc1 (by rwa [ht.tables])).weaken fun _ s' ⟨hm, hg⟩ => ?_
      refine ⟨hm1.append hm, ((Governs.ofTests ht).seq (fun _ => hm1.models) hm1.adds hm.adds
        hg).congr fun Γ F F' => ?_⟩
      simp [hfalse Γ F F']
  | some i =>
    simp only [hi] at hfun ⊢
    obtain ⟨f, hget, rfl⟩ := hfun
    refine .tables (.lift (Slots.fetch_eq_ok_iff.2 hget) ?_)
    cases value with
    | none =>
      refine reportIf_sat.weaken fun _ s' ht =>
        ⟨ht.marks, (Governs.ofTests ht).congr fun Γ F F' => ?_⟩
      constructor
      · rintro ⟨hv, rfl⟩
        exact .returnNone (by simpa using hv)
      · intro h
        cases h with | returnNone h => exact ⟨by simpa using h, rfl⟩
    | some e =>
      refine (tested_sat hw hc hf (C := fun σ => f.signature.result ≠ .void ∧
        σ = f.signature.result)
        fun value s1 => ?_).weaken fun _ s' ⟨hm, hg⟩ => ⟨hm, hg.congr fun Γ F F' => ?_⟩
      · split
        · rename_i hv
          exact .report ⟨.report s1 _, fun σ _ => .fail _ fun h => h.1 (by simpa using hv)⟩
        · rename_i hv
          refine expectType_sat.weaken fun _ s' ⟨hm, ht⟩ => ⟨hm, fun σ hσ => ?_⟩
          have hne : f.signature.result ≠ .void := by simpa using hv
          exact ⟨hm.adds, (ht σ hσ).tables, by rw [(ht σ hσ).quiet]; simp [hne]⟩
      · constructor
        · rintro ⟨⟨σ, hσ, hv, rfl⟩, rfl⟩
          exact .returnSome rfl hv hσ
        · intro h
          cases h with | returnSome h hv he => cases h; exact ⟨⟨_, he, hv, rfl⟩, rfl⟩

theorem target_sat {t : Target} (hf : s.tables.Free (t.nodes.map (·.id))) :
    Sat (target sub ctx t) s (Decides ctx.scope (t.nodes.map (·.id))
      (fun Γ F τ => t.HasType Γ F τ) s) := by
  obtain ⟨sc, hsc, -⟩ := hc.scope
  cases t with
  | name n x =>
    rw [target_name]
    refine rule_decides hf (.refl s) (variableType_sat hw hsc hf) fun r s' ha =>
      (ha.ruled () trivial).congr fun Γ scopes τ => ?_
    exact ⟨.name, fun h => by cases h; assumption⟩
  | index n a i =>
    refine (expr_sat (.index n a i) hw hsc hf).weaken fun r s' h => ⟨h.marks, h.known, h.ruled.congr
      fun Γ scopes τ => ⟨fun h => ?_, fun h => ?_⟩⟩
    · cases h with | index ha hi => exact .index ha hi
    · cases h with | index ha hi => exact .index ha hi
  | field n o x =>
    refine (expr_sat (.field n o x) hw hsc hf).weaken fun r s' h => ⟨h.marks, h.known, h.ruled.congr
      fun Γ scopes τ => ⟨fun h => ?_, fun h => ?_⟩⟩
    · cases h with | field ho hx => exact .field ho hx
    · cases h with | field ho hx => exact .field ho hx

omit hw hc in
/-- Only the global scope, which has no parent, binds locks. -/
theorem localLock_ruled (hsc : s.tables.scopes.scopes.get? scope = some sc)
    (h : s.Tests (¬ (type == .lock && !sc.parent.isNone) = true) s') :
    Ruled (fun _ : Unit => ()) scope (fun _ F _ => type = .lock → F.tail = []) () s s' := by
  intro Γ F hΓ hF
  have hglobal : F.tail = [] ↔ sc.parent = none := by
    cases hF with
    | root h hp _ =>
      rw [hsc] at h
      cases h
      simp [hp]
    | child h hp _ ho =>
      rw [hsc] at h
      cases h
      cases ho <;> simp [hp]
  refine (h.ruled Γ F hΓ hF).congr fun _ => ?_
  dsimp only
  rw [hglobal]
  cases sc.parent <;> simp

theorem declaration_sat {d : Declaration} {n : Node} (hf : s.tables.Free (d.nodes.map (·.id))) :
    Sat (declaration sub ctx d) s fun _ s' => s.Widens (some ctx.scope) (d.nodes.map (·.id)) s' ∧
      Governs ctx.scope (fun Γ F F' => Stmt.WellTyped Γ result next F
        (.declaration n d) F') s s' := by
  obtain ⟨sc, hsc, hkind⟩ := hc.scope
  simp only [Declaration.nodes] at hf ⊢
  refine .bind (resolveType_sat d.type) fun type s1 ⟨ha1, ht1, hreg, hj⟩ => ?_
  refine reportThen_sat fun s2 hvoid => ?_
  have hglobal : s2.tables.scopes.isGlobal ctx.scope = .ok sc.parent.isNone := by
    rw [hvoid.tables, ht1, ScopeTree.isGlobal, ScopeTree.parent_eq hsc]
    rfl
  refine .tables (.lift hglobal (reportThen_sat fun s3 hlock => ?_))
  have h1 : s.Marks [] s1 := .ofTables ha1 ht1
  have ht3 : s3.tables = s.tables := hlock.tables.trans (hvoid.tables.trans ht1)
  have h13 : s1.Adds s3 := hvoid.adds.trans hlock.adds
  have h3 : s.Marks [] s3 := .ofTables (ha1.trans h13) ht3
  have hw3 := h3.whole hw
  have hsc3 : s3.tables.scopes.scopes.get? ctx.scope = some sc := by rwa [ht3]
  have hf3 := ht3 ▸ hf
  -- The name is bound after its initial value has been checked.
  have hrest : ∀ s4, s3.Marks ((Expr.nodesOption d.initializer).map (·.id)) s4 →
      Governs ctx.scope (fun Γ F F' => (∀ e, d.initializer = some e → e.HasType Γ F type) ∧
        F' = F) s3 s4 →
      Sat (do
        if !(← declareIn ctx.scope d.name type) then report (.redeclared d.name) d.node.span
        recordType d.node.id type
        recordScope d.node.id ctx.scope) s4 fun _ s' =>
        s.Widens (some ctx.scope) (d.node.id :: (Expr.nodesOption d.initializer).map (·.id)) s' ∧
        Governs ctx.scope (fun Γ F F' =>
            Stmt.WellTyped Γ result next F (.declaration n d) F') s s' := by
    intro s4 hm4 hinit
    have hsc4 : s4.tables.scopes.scopes.get? ctx.scope = some sc := by rwa [hm4.tree]
    have hk4 : type.Known s4.tables.types := by
      rw [hm4.registry, ht3]
      exact hw.known hreg
    refine (bindName_widens (hm4.whole hw3) hsc4 hk4 (hf3.head hm4.toTouches)).weaken
      fun _ s' ⟨hs', hv, free, hd⟩ => ?_
    have hs4 := ((h3.append hm4).mono (List.subset_cons_self d.node.id _)).widens
    refine ⟨hs4.weaken.trans (hs'.mono (by simp)), ?_⟩
    have hbind := bindName_governs (hm4.whole hw3) hsc4 hreg.isFunction hs' hv hd
    have hdenotes : Ruled id ctx.scope (fun Γ _ τ => d.type.denotes Γ.type? = some τ) type s s1 :=
      fun Γ _ hΓ _ => by simpa only [hΓ.types] using hj
    have hlocal := localLock_ruled (by rwa [hvoid.tables, ht1]) hlock
    have ha' : s3.Adds s' := hm4.adds.trans hs'.adds
    have hrules := (Governs.ofTests hvoid).guard (fun _ => hvoid.models) hvoid.adds
      (hlock.adds.trans ha') ((Governs.ofRuled hlocal (congrArg Tables.scopes hlock.tables)).guard
        (fun _ => hlock.models) hlock.adds ha'
        (hinit.guard (fun _ => hm4.models) hm4.adds hs'.adds hbind))
    refine (Governs.after (Q := fun τ Γ F F' => ¬ (τ == .void) = true ∧ (τ = .lock → F.tail = []) ∧
      (∀ e, d.initializer = some e → e.HasType Γ F τ) ∧ ∃ names outer, F = names :: outer ∧
        names.lookup d.name = none ∧ F' = ((d.name, some τ) :: names) :: outer)
      hdenotes h1 (h13.trans ha') fun τ hτ => ?_).congr fun Γ F F' => ?_
    · obtain rfl : type = τ := hτ
      exact hrules
    · constructor
      · rintro ⟨τ, hτ, hv, hl, he, names, outer, rfl, hx, rfl⟩
        exact .declaration hτ (by simpa using hv) hl he hx
      · intro h
        cases h with
        | declaration hτ hv hl he hx =>
          exact ⟨_, hτ, by simpa using hv, hl, he, _, _, rfl, hx, rfl⟩
  cases hd : d.initializer with
  | none =>
    rw [hd] at hrest
    exact hrest s3 (.refl s3) ((Governs.ofTests (.pass trivial)).congr fun Γ F F' => by simp)
  | some e =>
    rw [hd] at hrest hf3
    refine .bind (expr_sat e hw3 hsc3 hf3.tail) fun value s4 he =>
      .bind expectType_sat fun _ s5 ⟨hm, ht⟩ => ?_
    obtain ⟨hall, hg⟩ := he.tested hm ht
    exact hrest s5 hall (hg.congr fun Γ F F' => by simp)

end

/-! ## Statements -/

/-- What is checked in a new scope around it. -/
theorem openBlock_sat {k : ScopeId → Check Unit} {P : Globals → List Names → List Names → Prop}
    (hw : s.tables.Whole) (hc : ctx.Fits result s.tables) (hf : s.tables.Free ns)
    (hk : ∀ id s1, s1.tables.Whole → (ctx.inScope id).Fits result s1.tables →
      s1.tables.Free ns → Sat (k id) s1 fun _ s' => s1.Widens (some id) ns s' ∧
      Governs id P s1 s') :
    Sat (do let id ← openChild ctx.scope .block; k id) s fun _ s' => s.Widens none ns s' ∧
      Governs ctx.scope (fun Γ F F' => (∃ F1, P Γ ([] :: F) F1) ∧ F' = F) s s' := by
  obtain ⟨sc, hsc, -⟩ := hc.scope
  refine .bind (openChild_sat hsc (by simp))
    fun id s1 ⟨hid, ⟨sc', hsc', hp, hkind, hb⟩, hs1, hq, ha, hfun⟩ => ?_
  have hc1 : (ctx.inScope id).Fits result s1.tables :=
    ⟨⟨sc', hsc', by rw [hkind]; simp⟩, (hc.widens hs1).function⟩
  have hf1 : s1.tables.Free ns :=
    ⟨hf.nodup, by rw [ha]; exact hf.types, by rw [ha]; exact hf.scopes,
      by rw [hfun]; exact hf.calls⟩
  refine (hk id s1 (hs1.whole hw) hc1 hf1).weaken fun _ s' ⟨hs', hg⟩ => ?_
  exact ⟨hs1.fresh hid hs', .inNew hw hid ⟨sc', hsc', hp, hb⟩ hs1 hq hs' hg⟩

mutual

/-- Checking a statement decides the rules for it. -/
theorem stmt_sat [sub.StandIn] : ∀ (st : Stmt) {ctx : Context}
    {s : CheckState}, s.tables.Whole → ctx.Fits result s.tables →
    s.tables.Free (st.nodes.map (·.id)) →
    Sat (stmt sub ctx st) s fun _ s' =>
      s.Widens (some ctx.scope) (st.nodes.map (·.id)) s' ∧ Governs ctx.scope (fun Γ F F' =>
        Stmt.WellTyped Γ result (ctx.position == .followed) F st F') s s'
  | .declaration n d, ctx, s, hw, hc, hf => declaration_sat hw hc hf
  | .assignment n t e, ctx, s, hw, hc, hf => by
    simp only [Stmt.nodes, List.map_append] at hf ⊢
    obtain ⟨sc, hsc, -⟩ := hc.scope
    refine .bind (target_sat hw hc hf.left) fun target s1 ht =>
      .bind (expr_sat e (ht.marks.whole hw) (by rwa [ht.marks.tree])
        (hf.touches ht.marks.toTouches)) fun value s2 he => ?_
    have htest : Sat (if !target.erroneous then expectType value target.type n.span .assignment
        else pure ()) s2 fun _ s' => s2.Marks [] s' ∧ ∀ τ, target = .sound τ →
          ∀ σ, value = .sound σ →
          s2.Tests (σ = τ) s' := by
      split
      · refine expectType_sat.weaken fun _ s' ⟨hm, ht⟩ => ⟨hm, ?_⟩
        rintro τ rfl
        exact ht
      · rename_i herr
        refine .pure ⟨.refl _, ?_⟩
        rintro τ rfl
        exact absurd rfl herr
    refine htest.weaken fun _ s' ⟨hm, htest⟩ => ?_
    have hall := (ht.marks.append he.marks).trans (hm.mono (List.nil_subset _))
    refine ⟨hall.widens.weaken,
      (Governs.ofRuled (ht.ruled.bind ht.marks (he.marks.adds.trans hm.adds) fun τ hτ =>
      he.ruled.bind he.marks hm.adds fun σ hσ => (htest τ hτ σ hσ).ruled)
      hall.tree).congr fun Γ F F' => ?_⟩
    rw [Stmt.wellTyped_assignment_iff]
    simp
  | .ifElse n c b b', ctx, s, hw, hc, hf => by
    simp only [Stmt.nodes, List.map_append] at hf ⊢
    refine .bind (condition_sat hw hc hf.left.left) fun _ s1 ⟨hm1, hg1⟩ => ?_
    have hs1 := hm1.widens
    refine .bind (block_sat b (hs1.whole hw) (hc.widens hs1) (hf.left.touches hs1.toTouches))
      fun _ s2 ⟨hs2, hg2⟩ => ?_
    have hs12 := hs1.append hs2
    refine (optionalBlock_sat b' (hs12.whole hw) (hc.widens hs12)
      (hf.touches hs12.toTouches)).weaken
      fun _ s' ⟨hs', hg'⟩ => ⟨(hs12.append hs').weaken, ?_⟩
    refine (hg1.guard (fun _ => hs1.models hw) hs1.adds (hs2.adds.trans hs'.adds)
      (hg2.guard (fun _ => hs2.models (hs1.whole hw)) hs2.adds hs'.adds hg')).congr fun Γ F F' => ?_
    rw [Stmt.wellTyped_ifElse_iff]
  | .whileLoop n c b, ctx, s, hw, hc, hf => by
    simp only [Stmt.nodes, List.map_append] at hf ⊢
    refine .bind (condition_sat hw hc hf.left) fun _ s1 ⟨hm1, hg1⟩ => ?_
    have hs1 := hm1.widens
    refine (block_sat b (hs1.whole hw) (hc.widens hs1) (hf.touches hs1.toTouches)).weaken
      fun _ s' ⟨hs', hg'⟩ => ⟨(hs1.append hs').weaken, ?_⟩
    refine (hg1.guard (fun _ => hs1.models hw) hs1.adds hs'.adds hg').congr fun Γ F F' => ?_
    rw [Stmt.wellTyped_whileLoop_iff]
  | .doLoop n b c, ctx, s, hw, hc, hf => by
    simp only [Stmt.nodes, List.map_append] at hf ⊢
    refine .bind (block_sat b hw hc hf.left) fun _ s1 ⟨hs1, hg1⟩ => ?_
    refine (condition_sat (hs1.whole hw) (hc.widens hs1) (hf.touches hs1.toTouches)).weaken
      fun _ s' ⟨hm', hg'⟩ => ⟨(hs1.append hm'.widens).weaken, ?_⟩
    refine (hg1.guard (fun _ => hs1.models hw) hs1.adds hm'.adds hg').congr fun Γ F F' => ?_
    rw [Stmt.wellTyped_doLoop_iff]
  | .forLoop n i c st b, ctx, s, hw, hc, hf => by
    refine (openBlock_sat (P := fun Γ F F' => ∃ F1, Stmt.WellTypedOption Γ result
        (ctx.position == .followed) F i F1 ∧ c.HasType Γ F1 .bool ∧ ∃ F2, Stmt.WellTypedOption Γ
        result (ctx.position == .followed) F1 st F2 ∧ Block.WellTyped Γ result
        (ctx.position == .followed) F2 b ∧ F' = F2) hw hc hf fun id s0 hw hc hf => ?_).weaken
      fun _ s' ⟨hs', hg'⟩ => ⟨hs'.weaken, hg'.congr fun Γ F F' => ?_⟩
    · simp only [Stmt.nodes, List.map_append] at hf ⊢
      refine .bind (optionalStmt_sat i hw hc hf.left.left.left) fun _ s1 ⟨hs1, hg1⟩ => ?_
      refine .bind (condition_sat (hs1.whole hw) (hc.widens hs1)
        (hf.left.left.touches hs1.toTouches)) fun _ s2 ⟨hm2, hg2⟩ => ?_
      have hs2 : s0.Widens (some id) _ s2 := hs1.append hm2.widens.weaken
      refine .bind (optionalStmt_sat st (hs2.whole hw) (hc.widens hs2)
        (hf.left.touches hs2.toTouches)) fun _ s3 ⟨hs3, hg3⟩ => ?_
      have hs13 := hs2.append hs3
      refine (block_sat b (hs13.whole hw) (hc.widens hs13) (hf.touches hs13.toTouches)).weaken
        fun _ s' ⟨hs', hg'⟩ => ⟨hs13.append hs'.weaken, ?_⟩
      exact hg1.seq (fun _ => hc.models hw hs1) hs1.adds (hm2.adds.trans (hs3.adds.trans hs'.adds))
        (hg2.guard (fun _ => hm2.models) hm2.adds (hs3.adds.trans hs'.adds)
          (hg3.seq (fun _ => (hc.widens hs2).models (hs2.whole hw) hs3) hs3.adds hs'.adds hg'))
    · rw [Stmt.wellTyped_forLoop_iff]
      constructor
      · rintro ⟨⟨_, F1, hi, he, F2, hs, hb, -⟩, hF⟩
        exact ⟨⟨F1, F2, hi, he, hs, hb⟩, hF⟩
      · rintro ⟨⟨F1, F2, hi, he, hs, hb⟩, hF⟩
        exact ⟨⟨F2, F1, hi, he, F2, hs, hb, rfl⟩, hF⟩
  | .block n b, ctx, s, hw, hc, hf => by
    refine (block_sat b hw hc hf).weaken fun _ s' ⟨hs', hg'⟩ =>
      ⟨hs'.weaken, hg'.congr fun Γ F F' => ?_⟩
    rw [Stmt.wellTyped_block_iff]
  | .switch n e cs b, ctx, s, hw, hc, hf => by
    simp only [Stmt.nodes, List.map_append] at hf ⊢
    obtain ⟨sc, hsc, -⟩ := hc.scope
    refine .bind (expr_sat e hw hsc hf.left.left) fun d s1 he => ?_
    have hs1 := he.marks.widens
    refine .bind (switchCases_sat cs (hs1.whole hw) (hc.widens hs1)
      (hf.left.touches hs1.toTouches)) fun _ s2 ⟨hs2, hg2⟩ => ?_
    have hs12 := hs1.append hs2
    refine (optionalBlock_sat b (hs12.whole hw) (hc.widens hs12).inCase
      (hf.touches hs12.toTouches)).weaken fun _ s' ⟨hs', hg'⟩ => ⟨(hs12.append hs').weaken, ?_⟩
    refine (Governs.after he.ruled he.marks (hs2.adds.trans hs'.adds) fun σ hσ =>
      (hg2 σ hσ).guard (fun _ => hs2.models (hs1.whole hw)) hs2.adds hs'.adds hg').congr
      fun Γ F F' => ?_
    rw [Stmt.wellTyped_switch_iff]
    rfl
  | .next n, ctx, s, hw, hc, hf => by
    refine reportIf_sat.weaken fun _ s' h =>
      ⟨h.marks.widens.weaken, (Governs.ofTests h).congr fun Γ F F' => ?_⟩
    rw [Stmt.wellTyped_next_iff]
    simp
  | .return n value, ctx, s, hw, hc, hf =>
    (returnStatement_sat hw hc hf).weaken fun _ s' ⟨hm, hg⟩ => ⟨hm.widens.weaken, hg⟩
  | .expression n e, ctx, s, hw, hc, hf => by
    refine (expression_sat hw hc hf).weaken fun _ s' ⟨hm, hg⟩ =>
      ⟨hm.widens.weaken, hg.congr fun Γ F F' => ?_⟩
    rw [Stmt.wellTyped_expression_iff]
  | .acquire n e, ctx, s, hw, hc, hf => by
    refine (lockOperand_sat hw hc hf).weaken fun _ s' ⟨hm, hg⟩ =>
      ⟨hm.widens.weaken, hg.congr fun Γ F F' => ?_⟩
    rw [Stmt.wellTyped_acquire_iff]
  | .release n e, ctx, s, hw, hc, hf => by
    refine (lockOperand_sat hw hc hf).weaken fun _ s' ⟨hm, hg⟩ =>
      ⟨hm.widens.weaken, hg.congr fun Γ F F' => ?_⟩
    rw [Stmt.wellTyped_release_iff]

theorem optionalStmt_sat [sub.StandIn] : ∀ (st : Option Stmt)
    {ctx : Context} {s : CheckState}, s.tables.Whole → ctx.Fits result s.tables →
    s.tables.Free ((Stmt.nodesOption st).map (·.id)) →
    Sat (optionalStmt sub ctx st) s fun _ s' =>
      s.Widens (some ctx.scope) ((Stmt.nodesOption st).map (·.id)) s' ∧
      Governs ctx.scope (fun Γ F F' =>
        Stmt.WellTypedOption Γ result (ctx.position == .followed) F st F') s s'
  | none, ctx, s, _, _, _ => by
    refine .pure ⟨.refl s, (Governs.ofTests (.pass trivial)).congr fun Γ F F' => ?_⟩
    rw [Stmt.wellTypedOption_none_iff]
    simp
  | some st, ctx, s, hw, hc, hf => by
    refine (stmt_sat st hw hc hf).weaken fun _ s' ⟨hs', hg'⟩ => ⟨hs', hg'.congr fun Γ F F' => ?_⟩
    rw [Stmt.wellTypedOption_some_iff]

theorem stmts_sat [sub.StandIn] : ∀ (ss : List Stmt) {ctx : Context}
    {s : CheckState}, s.tables.Whole → ctx.Fits result s.tables →
    s.tables.Free ((Stmt.nodesAll ss).map (·.id)) →
    Sat (stmts sub ctx ss) s fun _ s' =>
      s.Widens (some ctx.scope) ((Stmt.nodesAll ss).map (·.id)) s' ∧
      Governs ctx.scope (fun Γ F F' =>
        Stmt.WellTypedAll Γ result (ctx.position == .followed) F ss F') s s'
  | [], ctx, s, _, _, _ => by
    refine .pure ⟨.refl s, (Governs.ofTests (.pass trivial)).congr fun Γ F F' => ?_⟩
    rw [Stmt.wellTypedAll_nil_iff]
    simp
  | st :: ss, ctx, s, hw, hc, hf => by
    simp only [Stmt.nodesAll, List.map_append] at hf ⊢
    refine .bind (stmt_sat st hw hc hf.left) fun _ s1 ⟨hs1, hg1⟩ => ?_
    refine (stmts_sat ss (hs1.whole hw) (hc.widens hs1) (hf.touches hs1.toTouches)).weaken
      fun _ s' ⟨hs', hg'⟩ => ⟨hs1.append hs', ?_⟩
    refine (hg1.seq (fun _ => hc.models hw hs1) hs1.adds hs'.adds hg').congr fun Γ F F' => ?_
    rw [Stmt.wellTypedAll_cons_iff]

theorem block_sat [sub.StandIn] : ∀ (b : Block) {ctx : Context}
    {s : CheckState}, s.tables.Whole → ctx.Fits result s.tables →
    s.tables.Free (b.nodes.map (·.id)) →
    Sat (block sub ctx b) s fun _ s' => s.Widens none (b.nodes.map (·.id)) s' ∧
      Governs ctx.scope (fun Γ F F' =>
        Block.WellTyped Γ result (ctx.position == .followed) F b ∧ F' = F) s s'
  | .mk n ss, ctx, s, hw, hc, hf => by
    refine (openBlock_sat (P := fun Γ F F' => Stmt.WellTypedAll Γ result
      (ctx.position == .followed) F ss F') hw hc hf fun id s1 hw hc hf =>
        stmts_sat ss hw hc hf).weaken fun _ s' ⟨hs', hg'⟩ => ⟨hs', hg'.congr fun Γ F F' => ?_⟩
    rw [Block.wellTyped_iff]

theorem optionalBlock_sat [sub.StandIn] : ∀ (b : Option Block)
    {ctx : Context} {s : CheckState}, s.tables.Whole → ctx.Fits result s.tables →
    s.tables.Free ((Block.nodesOption b).map (·.id)) →
    Sat (optionalBlock sub ctx b) s fun _ s' =>
      s.Widens none ((Block.nodesOption b).map (·.id)) s' ∧ Governs ctx.scope (fun Γ F F' =>
        Block.WellTypedOption Γ result (ctx.position == .followed) F b ∧ F' = F) s s'
  | none, ctx, s, _, _, _ =>
    .pure ⟨.refl s, (Governs.ofTests (.pass trivial)).congr fun Γ F F' => by
      simp [Block.WellTypedOption.none]⟩
  | some b, ctx, s, hw, hc, hf => by
    refine (block_sat b hw hc hf).weaken fun _ s' ⟨hs', hg'⟩ => ⟨hs', hg'.congr fun Γ F F' => ?_⟩
    rw [Block.wellTypedOption_some_iff]

/-- The values of a switch are judged by the type of its discriminant, if that has one. -/
theorem switchCases_sat [sub.StandIn] : ∀ (cs : List Case)
    {ctx : Context} {s : CheckState} {discriminant : Typed} {fallback : Bool}, s.tables.Whole →
    ctx.Fits result s.tables → s.tables.Free ((Case.nodesAll cs).map (·.id)) →
    Sat (switchCases sub ctx discriminant fallback cs) s fun _ s' =>
      s.Widens none ((Case.nodesAll cs).map (·.id)) s' ∧ ∀ τ, discriminant = .sound τ →
        Governs ctx.scope (fun Γ F F' => Case.WellTypedAll Γ result fallback F τ cs ∧ F' = F) s s'
  | [], ctx, s, _, _, _, _, _ => by
    refine .pure ⟨.refl s, fun τ _ => (Governs.ofTests (.pass trivial)).congr fun Γ F F' => ?_⟩
    simp [Case.WellTypedAll.nil]
  | .mk n v b :: cs, ctx, s, discriminant, fallback, hw, hc, hf => by
    simp only [Case.nodesAll, List.map_append] at hf ⊢
    obtain ⟨sc, hsc, -⟩ := hc.scope
    refine .bind (expr_sat v hw hsc hf.left.left) fun value s1 hv => ?_
    refine reportThen_sat fun s2 ht => ?_
    have hm2 : s.Marks (v.nodes.map (·.id)) s2 := hv.marks.trans ht.marks
    have hs2 := hm2.widens
    refine .bind (block_sat b (hs2.whole hw) (hc.widens hs2).inCase
      (hf.left.touches hs2.toTouches)) fun _ s3 ⟨hs3, hg3⟩ => ?_
    have hs13 := hs2.append hs3
    refine (switchCases_sat cs (hs13.whole hw) (hc.widens hs13)
      (hf.touches hs13.toTouches)).weaken fun _ s' ⟨hs', hg'⟩ => ⟨hs13.append hs', ?_⟩
    rintro τ rfl
    have htype : ∀ σ, value = .sound σ → s1.Tests (σ = τ) s2 := by
      rintro σ rfl
      exact ⟨ht.adds, ht.tables, by rw [ht.quiet]; simp [Typed.sound]⟩
    have hvalue := (hv.tested ht.marks htype).2
    refine (hvalue.guard (fun _ => hm2.models) hm2.adds (hs3.adds.trans hs'.adds)
      (hg3.guard (fun _ => hs3.models (hs2.whole hw)) hs3.adds hs'.adds (hg' τ rfl))).congr
      fun Γ F F' => ?_
    have hposition : ((ctx.inCase (if (!cs.isEmpty || fallback) = true then .followed
        else .last)).position == .followed) = (!cs.isEmpty || fallback) := by
      cases !cs.isEmpty || fallback <;> rfl
    rw [Case.wellTypedAll_cons_iff, hposition]
    simp [and_assoc]

end

end Check

end Awl
