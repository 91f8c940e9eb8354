import Mathlib.Data.List.Perm.Basic
import Awl.Proofs.ExactSignatures
import Awl.Proofs.NextPlaces

/-!
# Checking a unit decides the typing rules

The second pass of the checker goes through all code: the statements of the main core, the initial
values of fields and the bodies of functions. `Check.unit_sat` says that the whole check never fails
and reports nothing exactly if the unit is well typed. `SourceUnit.check_eq_ok_iff` is the same for
`SourceUnit.check`, and `SourceUnit.body_returns_iff` says that the analysis of return paths is
exact for the bodies that the checker has looked at.
-/

namespace Awl

open CheckState

variable {f : Callable} {p : ClassDef × ClassType} {g : Function} {i : FunctionId}
  {ps : TypedClasses} {ns : List NodeId} {globals names : Names} {u : SourceUnit} {x : String}
  {type τ : Ty} {types : String → Option Ty} {s : CheckState} {span : Span} {β α : Type}
  {sc : Scope} {l : List α}

/-! ## The nodes of code -/

/-- The nodes that checking the code of a function gives entries to. -/
def Callable.codeNodes (f : Callable) : List NodeId :=
  f.parameters.map (·.node.id) ++ f.body.nodes.map (·.id)

def Declaration.codeNodes (d : Declaration) : List NodeId :=
  (Expr.nodesOption d.initializer).map (·.id)

def ClassDef.codeNodes (d : ClassDef) (c : ClassType) : List NodeId :=
  d.fields.flatMap Declaration.codeNodes ++ (d.callables c).flatMap Callable.codeNodes

def Check.CodePart.codeNodes : CodePart → List NodeId
  | .fields p => p.1.fields.flatMap Declaration.codeNodes
  | .routine _ f => f.codeNodes

/-- The nodes of all code after the statements of the main core. -/
def Check.codeNodes (ps : TypedClasses) (functions : List FunctionDef) : List NodeId :=
  (codeParts ps functions).flatMap CodePart.codeNodes

theorem Check.codeNodes_eq (ps : TypedClasses) (functions : List FunctionDef) :
    codeNodes ps functions = ps.flatMap (fun p => p.1.codeNodes p.2) ++
      (functions.map (·.callable none)).flatMap Callable.codeNodes := by
  simp [codeNodes, codeParts, List.flatMap_assoc, List.flatMap_map, CodePart.codeNodes,
    ClassDef.codeNodes]

theorem FunctionDef.nodes_eq (f : FunctionDef) (owner : Option ClassType) :
    f.nodes.map (·.id) = (f.callable owner).node.id :: (f.callable owner).codeNodes := by
  simp [FunctionDef.nodes, Callable.codeNodes, FunctionDef.callable, Function.comp_def,
    Parameter.entry]

theorem ConstructorDef.nodes_eq (k : ConstructorDef) (owner : ClassType) :
    k.nodes.map (·.id) = (k.callable owner).node.id :: (k.callable owner).codeNodes := by
  simp [ConstructorDef.nodes, Callable.codeNodes, ConstructorDef.callable, Function.comp_def,
    Parameter.entry, FunctionBody.nodes]

theorem ClassDef.nodes_perm (d : ClassDef) (c : ClassType) : (d.nodes.map (·.id)).Perm
    (d.fields.map (·.node.id) ++ (d.callables c).map (·.node.id) ++ d.codeNodes c) := by
  have hfields : (d.fields.flatMap Declaration.nodes).map (·.id) =
      d.fields.flatMap fun x => x.node.id :: x.codeNodes := by
    rw [List.map_flatMap]
    rfl
  have hcallables : (d.methods.flatMap FunctionDef.nodes ++
      d.constructors.flatMap ConstructorDef.nodes).map (·.id) =
      (d.callables c).flatMap fun f => f.node.id :: f.codeNodes := by
    simp only [ClassDef.callables, List.map_append, List.flatMap_append, List.map_flatMap,
      List.flatMap_map, FunctionDef.nodes_eq _ (some c), ConstructorDef.nodes_eq _ c]
  rw [ClassDef.nodes, List.append_assoc, List.map_append, hfields, hcallables]
  refine .trans (.append (List.map_append_flatMap_perm _ _ Declaration.codeNodes).symm
    (List.map_append_flatMap_perm _ _ Callable.codeNodes).symm) ?_
  rw [List.append_assoc, List.append_assoc]
  exact .append_left _ (List.perm_append_comm_assoc ..)

/-- The nodes of a unit by the pass that gives them entries. -/
theorem SourceUnit.nodes_perm (u : SourceUnit) (ps : TypedClasses) :
    (({ u with classes := ps.map (·.1) } : SourceUnit).nodes.map (·.id)).Perm
      ((ps.flatMap fun p => p.1.fields.map (·.node.id)) ++ (Check.callablesOf ps u.functions).map
        (·.node.id) ++
        ((Stmt.nodesAll u.statements).map (·.id) ++ Check.codeNodes ps u.functions)) := by
  have hclasses : ((ps.map (·.1)).flatMap ClassDef.nodes).map (·.id) =
      ps.flatMap fun p => p.1.nodes.map (·.id) := by
    rw [List.map_flatMap, List.flatMap_map]
  have hfunctions : (u.functions.flatMap FunctionDef.nodes).map (·.id) =
      (u.functions.map (·.callable none)).flatMap fun f => f.node.id :: f.codeNodes := by
    simp only [List.map_flatMap, List.flatMap_map, FunctionDef.nodes_eq _ none]
  have hmembers : (ps.flatMap fun p => p.1.nodes.map (·.id)).Perm
      ((ps.flatMap fun p => p.1.fields.map (·.node.id)) ++ (ps.flatMap fun p =>
        (p.1.callables p.2).map (·.node.id)) ++
        ps.flatMap fun p => p.1.codeNodes p.2) := by
    refine .trans (List.Perm.flatMap_left _ fun p _ => p.1.nodes_perm p.2) ?_
    refine .trans (List.flatMap_append_perm ..).symm ?_
    exact .append_right _ (List.flatMap_append_perm ..).symm
  rw [SourceUnit.nodes, List.map_append, List.map_append, hclasses, hfunctions, Check.codeNodes_eq,
    Check.callablesOf, List.map_append, List.map_flatMap]
  refine .trans (.append_right _ (.append hmembers
    (List.map_append_flatMap_perm _ _ Callable.codeNodes).symm)) ?_
  rw [List.perm_iff_count]
  intro n
  simp only [List.count_append]
  omega

/-! ## Frames -/

/-- The frame of a function shows one more name. -/
theorem Scope.Shows.snoc {sc' : Scope} {k : Nat} (h : sc.Shows names)
    (hx : sc.bindings.lookup x = none) (hfun : type.isFunction = false)
    (hb : sc'.bindings = (x, { type, offset := some k }) :: sc.bindings) :
    sc'.Shows (names ++ [(x, some type)]) := by
  intro y
  have hy := h y
  rw [hb, List.lookup_append, hy]
  by_cases heq : y = x
  · subst heq
    simp [hx, Ty.asVariable, hfun]
  · simp [List.lookup_cons, beq_eq_false_iff_ne.2 heq]

theorem Scope.Shows.lookup_eq_none_iff (h : sc.Shows names) (x : String) :
    sc.bindings.lookup x = none ↔ x ∉ names.map (·.1) := by
  rw [← Option.map_eq_none_iff, ← h x, List.lookup_eq_none_iff]
  simp only [List.mem_map, not_exists, not_and, bne_iff_ne]
  exact ⟨fun h p hp heq => h p hp heq.symm, fun h p hp heq => h p hp heq.symm⟩

namespace Check

variable {sub : Ty} [sub.StandIn] {s s1 s2 s' : CheckState} {scope : ScopeId} {sc : Scope}

theorem declareIn_widens (hw : s.tables.Whole) (hsc : s.tables.scopes.scopes.get? scope = some sc)
    (hk : type.Known s.tables.types) :
    Sat (declareIn scope x type) s fun free s' => s.Widens (some scope) [] s' ∧ s.Quiet s' ∧
      s'.tables.functions = s.tables.functions ∧
      s.tables.scopes.declareIn scope x type = .ok (free, s'.tables.scopes) := by
  refine (declareIn_sat hw.laid hsc).weaken fun free s' ⟨scopes, hd, hs'⟩ => ?_
  subst hs'
  exact ⟨⟨⟨fun _ _ => rfl, fun _ _ => rfl, fun _ _ => rfl⟩, .refl s, rfl, rfl,
    ScopeTree.declareIn_keeps hd, fun hw => hw.declareIn hd hk⟩, rfl, rfl, hd⟩

/-- The parameters have been bound in a frame that starts with the given names. -/
structure Frames (scope : ScopeId) (names : Names) (ps : List (Parameter × Ty))
    (s s' : CheckState) : Prop where
  widens : s.Widens (some scope) (ps.map (·.1.node.id)) s'
  verdict : (∀ p ∈ ps, p.2.isFunction = false) →
    s.Verdict (names.map (·.1) ++ ps.map (·.1.name)).Nodup s'
  shows : (∀ p ∈ ps, p.2.isFunction = false) → (names.map (·.1) ++ ps.map (·.1.name)).Nodup →
    ∃ sc, s'.tables.scopes.scopes.get? scope = some sc ∧
    sc.Shows (names ++ ps.map fun p => (p.1.name, some p.2))

theorem declareParameters_sat {ps : List (Parameter × Ty)} (hw : s.tables.Whole)
    (hsc : s.tables.scopes.scopes.get? scope = some sc) (hshows : sc.Shows names)
    (hnames : (names.map (·.1)).Nodup)
    (hk : ∀ p ∈ ps, p.2.Known s.tables.types) (hf : s.tables.Free (ps.map (·.1.node.id))) :
    Sat (ps.forM fun (p, type) => declareParameter scope p type) s
      fun _ s' => Frames scope names ps s s' := by
  refine .forM (I := fun done s' => Frames scope names done s s') (fun done p rest s1 hl h => ?_)
    ⟨.refl s, fun _ => .ofQuiet rfl (by simpa using hnames), fun _ _ =>
      ⟨sc, hsc, by simpa using hshows⟩⟩
  obtain ⟨sc1, hsc1, -⟩ := h.widens.keeps scope sc hsc
  have hfree : s1.tables.Free [p.1.node.id] := by
    rw [hl, List.map_append] at hf
    exact (hf.touches h.widens.toTouches).sub (by simp)
  have hknown : p.2.Known s1.tables.types := by
    rw [h.widens.registry]
    exact hk p (by rw [hl]; simp)
  refine (bindName_widens (h.widens.whole hw) hsc1 hknown hfree).weaken
    fun _ s' ⟨hs', hv, free, hd⟩ => ?_
  have hsnoc : (names.map (·.1) ++ (done ++ [p]).map (·.1.name)).Nodup ↔
      (names.map (·.1) ++ done.map (·.1.name)).Nodup ∧
      p.1.name ∉ names.map (·.1) ++ done.map (·.1.name) := by
    rw [List.map_append, ← List.append_assoc, List.map_singleton, nodup_snoc]
  have hscope : (∀ q ∈ done, q.2.isFunction = false) →
      (names.map (·.1) ++ done.map (·.1.name)).Nodup →
      sc1.Shows (names ++ done.map fun q => (q.1.name, some q.2)) := by
    intro hfun hdone
    obtain ⟨sc2, hsc2, hshows2⟩ := h.shows hfun hdone
    rw [hsc1] at hsc2
    cases hsc2
    exact hshows2
  have hfree' : (∀ q ∈ done, q.2.isFunction = false) →
      (names.map (·.1) ++ done.map (·.1.name)).Nodup → (sc1.bindings.lookup p.1.name = none ↔
        p.1.name ∉ names.map (·.1) ++ done.map (·.1.name)) := by
    intro hfun hdone
    rw [(hscope hfun hdone).lookup_eq_none_iff]
    simp [Function.comp_def]
  refine ⟨?_, fun hfun => ?_, fun hfun hall => ?_⟩
  · rw [List.map_append]
    exact h.widens.append hs'
  · rw [List.forall_mem_append] at hfun
    exact Verdict.congr (.and (h.verdict hfun.1) hv.adds fun hdone =>
      hv.congr (hfree' hfun.1 hdone)) hsnoc.symm
  · rw [List.forall_mem_append, List.forall_mem_singleton] at hfun
    obtain ⟨hdone, hnew⟩ := hsnoc.1 hall
    have hx := (hfree' hfun.1 hdone).2 hnew
    obtain ⟨sc', k, hsc', -, -, hb⟩ := (ScopeTree.declareIn_new hd hsc1).2 hx
    refine ⟨sc', hsc', ?_⟩
    rw [List.map_append, ← List.append_assoc]
    exact (hscope hfun.1 hdone).snoc hx hfun.2 hb

/-! ## Bodies -/

/-- A body has been checked in the scope of its parameters. -/
structure Examines (scope : ScopeId) (result : Ty) (b : FunctionBody)
    (s s' : CheckState) : Prop where
  widens : s.Widens (some scope) (b.nodes.map (·.id)) s'
  placed : ¬ s'.Reports .misplacedNext → b.NextPlaced
  verdict : ∀ Γ F, s.tables.Models Γ → s.tables.scopes.Chain scope F →
    s.Verdict (b.WellTyped Γ result F) s'

theorem body_sat {f : Function} (b : FunctionBody) (hw : s.tables.Whole)
    (hsc : s.tables.scopes.scopes.get? scope = some sc) (hkind : sc.kind ≠ .members)
    (hi : s.tables.functions.functions.get? i = some f) (hf : s.tables.Free (b.nodes.map (·.id))) :
    Sat (body sub i scope span b) s fun _ s' => Examines scope f.signature.result b s s' := by
  have hc : Context.Fits { scope, function := some i, position := .outside }
      (some f.signature.result) s.tables := ⟨⟨sc, hsc, hkind⟩, f, hi, rfl⟩
  cases b with
  | block b =>
    obtain ⟨n, ss⟩ := b
    refine .tables (.lift (Slots.fetch_eq_ok_iff.2 hi) ?_)
    refine .bind ((stmts_sat ss hw hc hf).run fun _ s1 h => stmts_places ss h)
      fun _ s1 ⟨⟨hs1, hg⟩, hplaced⟩ => ?_
    refine reportIf_sat.weaken fun _ s' ht =>
      ⟨hs1.trans ht.marks.widens.weaken, fun hno => ?_, fun Γ F hΓ hF => ?_⟩
    · exact hplaced.of_not_reports fun h => hno (h.after ht.adds)
    have hfirst : s.Verdict (∃ F', Stmt.WellTypedAll Γ
        (some f.signature.result) false F ss F') s1 := by
      refine ⟨hs1.adds, fun hq => ?_, fun ⟨F', hF'⟩ => (hg.complete Γ F F' hΓ hF hF').1⟩
      obtain ⟨F', hF', -⟩ := hg.sound Γ F hΓ hF hq
      exact ⟨F', hF'⟩
    refine hfirst.and ht.adds fun ⟨F', hF'⟩ => ⟨ht.adds, ht.quiet.trans ?_⟩
    have hreturns := Block.returns_iff (b := .mk n ss) (by
      exact hplaced.of_quiet (hfirst.quiet.2 ⟨F', hF'⟩))
    rw [← hreturns]
    simp
  | expression e =>
    refine .tables (.lift (Slots.fetch_eq_ok_iff.2 hi) ?_)
    refine (tested_sat hw hc hf fun value s1 => expectType_sat).weaken fun _ s' ⟨hm, hg⟩ =>
      ⟨hm.widens.weaken, fun _ => trivial, fun Γ F hΓ hF => ?_⟩
    refine ⟨hm.adds, fun hq => ?_, fun he => ?_⟩
    · obtain ⟨F', ⟨⟨σ, hσ, rfl⟩, -⟩, -⟩ := hg.sound Γ F hΓ hF hq
      exact hσ
    · exact (hg.complete Γ F F hΓ hF ⟨⟨_, he, rfl⟩, rfl⟩).1

/-! ## Definitions -/

/-- The tables provide to code what the rules say that the definitions and the global variables
provide. -/
structure Settled (u : SourceUnit) (globals : Names) (t : Tables) : Prop where
  declarations : u.DeclarationsTyped
  models : t.Models u.globals
  global : t.scopes.Chain ScopeTree.globalId [globals]
  members : ∀ p ∈ u.classTypes, t.HasMembers u.type? p
  heads : List.Forall₂ (Callable.Declares u.type?) u.callables t.functions.heads
  entries : ∀ j f, u.callables[j]? = some f → t.functions.lookup f.node.id = some j

theorem Settled.widens (h : Settled u globals s.tables) (hw : s.tables.Whole)
    (hs : s.Widens none ns s')
    (hn : ∀ f ∈ u.callables, f.node.id ∉ ns) : Settled u globals s'.tables := by
  refine ⟨h.declarations, hs.models hw h.models, h.global.keeps hs.keeps hw.laid fun _ h =>
    (nomatch h),
    fun p hp => ?_, by rw [hs.functions]; exact h.heads, fun j f hj => ?_⟩
  · obtain ⟨id, sc, hid, hsc, hparent, hshows⟩ := h.members p hp
    obtain ⟨sc', hsc', hp', -, hb⟩ := hs.keeps id sc hsc
    exact ⟨id, sc', by rw [hs.registry]; exact hid, hsc', hp'.trans hparent, fun x => by
      rw [hb (by simp)]; exact hshows x⟩
  · rw [hs.calls _ (hn f (List.mem_of_getElem? hj))]
    exact h.entries j f hj

/-- A part of the code after the statements of the main core has been checked: it obeys the rules
`C` if nothing is reported, and the rule `D` for the places of `next` if none is reported. -/
structure Inspects (u : SourceUnit) (ns : List NodeId) (C : Names → Prop) (D : Prop)
    (s s' : CheckState) : Prop where
  widens : s.Widens none ns s'
  placed : ¬ s'.Reports .misplacedNext → D
  verdict : ∀ globals, Settled u globals s.tables → s.Verdict (C globals) s'

end Check

/-- No written type is the type of a function. -/
theorem TypeExpr.isFunction_of_denotes (h : ∀ x τ, types x = some τ → τ.isFunction = false) :
    ∀ {te : TypeExpr} {τ : Ty}, te.denotes types = some τ → τ.isFunction = false
  | .named x, τ, hτ => h x τ hτ
  | .array te, τ, hτ => by
    obtain ⟨σ, -, rfl⟩ := Option.map_eq_some_iff.1 hτ
    rfl
  | .int, _, hτ | .bool, _, hτ | .char, _, hτ | .void, _, hτ | .lock, _, hτ => by
    cases hτ
    rfl

/-- A named type is an enumeration or a class. -/
theorem SourceUnit.eq_of_type? (h : u.type? x = some τ) :
    (∃ e, τ = .enumeration e) ∨ ∃ p ∈ u.classTypes, p.1.name = x ∧ τ = .object p.2 := by
  obtain ⟨l1, l2, hl, -⟩ := List.lookup_eq_some_iff.1 h
  have hmem : (x, τ) ∈ u.namedTypes := by rw [hl]; simp
  rcases List.mem_append.1 hmem with hmem | hmem
  · obtain ⟨e, -, heq⟩ := List.mem_map.1 hmem
    cases heq
    exact .inl ⟨e, rfl⟩
  · obtain ⟨p, hp, heq⟩ := List.mem_map.1 hmem
    cases heq
    exact .inr ⟨p, hp, rfl, rfl⟩

theorem SourceUnit.isFunction_of_type? (h : u.type? x = some τ) : τ.isFunction = false := by
  rcases eq_of_type? h with ⟨e, rfl⟩ | ⟨p, -, -, rfl⟩ <;> rfl

theorem SourceUnit.ne_void_of_type? (h : u.type? x = some τ) : τ ≠ .void := by
  rcases eq_of_type? h with ⟨e, rfl⟩ | ⟨p, -, -, rfl⟩ <;> simp

/-- Only `void` is written for `void`. -/
theorem TypeExpr.eq_void_of_denotes (h : ∀ x τ, types x = some τ → τ ≠ .void) : ∀ {te : TypeExpr},
    te.denotes types = some .void → te = .void
  | .named x, hτ => absurd rfl (h x _ hτ)
  | .array te, hτ => by
    obtain ⟨σ, -, hσ⟩ := Option.map_eq_some_iff.1 hτ
    cases hσ
  | .int, hτ | .bool, hτ | .char, hτ | .lock, hτ => by cases hτ
  | .void, _ => rfl

namespace Check

variable {sub : Ty} [sub.StandIn] {s s1 s2 s' : CheckState} {scope : ScopeId} {sc : Scope}
  {d : Declaration}

theorem zip_map_sublist {γ : Type} (g : α → γ) : ∀ (l : List α) (l' : List β),
    ((l.zip l').map fun p => g p.1).Sublist (l.map g)
  | [], _ => .slnil
  | _ :: _, [] => List.nil_sublist _
  | a :: l, _ :: l' => (zip_map_sublist g l l').cons_cons (g a)

/-- A function gets its scope, which no call reads. -/
theorem attachScope_sat (scope : ScopeId) {f : Function}
    (hi : s.tables.functions.functions.get? i = some f) :
    ∃ functions, s.tables.functions.attachScope i scope = .ok functions ∧
      functions.functions.get? i = some { f with scope := some scope } ∧
      s.Widens none [] { s with tables := { s.tables with functions } } := by
  obtain ⟨slots, hr⟩ := Slots.replace_eq_ok (Slots.lt_of_get? hi)
  have hok : s.tables.functions.attachScope i scope =
      .ok { s.tables.functions with functions := slots } := by
    unfold FunctionTable.attachScope FunctionTable.get
    rw [Slots.fetch_eq_ok_iff.2 hi]
    exact except_bind_eq_ok.2 ⟨f, rfl, except_bind_eq_ok.2 ⟨slots, hr, rfl⟩⟩
  obtain ⟨f', hf', -, hget⟩ := attachScope_ok hok
  rw [hi] at hf'
  cases hf'
  have hheads : ({ s.tables.functions with functions := slots } : FunctionTable).heads =
      s.tables.functions.heads := by
    refine List.ext_getElem? fun j => ?_
    rw [FunctionTable.heads_getElem?, FunctionTable.heads_getElem?, hget]
    split
    · rename_i hj
      rw [hj, hi]
      rfl
    · rfl
  refine ⟨_, hok,
    by rw [hget, if_pos rfl], ⟨fun _ _ => rfl, fun _ _ => rfl, fun _ _ => rfl⟩, .refl s,
    rfl, hheads, .refl _ _, fun hw => hw.congr rfl rfl hheads⟩

/-- The code of a function is checked in a new frame. -/
theorem frame_sat {f : Function} (names : Names) {parameters : List Parameter}
    {arguments : List Ty} (b : FunctionBody) (hw : s.tables.Whole)
    (hsc : s.tables.scopes.scopes.get? scope = some sc) (hkind : sc.kind ≠ .members)
    (hshows : sc.Shows names)
    (hnames : (names.map (·.1)).Nodup) (hi : s.tables.functions.functions.get? i = some f)
    (hk : ∀ τ ∈ arguments, τ.Known s.tables.types)
    (hf : s.tables.Free (parameters.map (·.node.id) ++ b.nodes.map (·.id))) : Sat (do
        (parameters.zip arguments).forM fun (p, type) => declareParameter scope p type
        setFunctions (← (← tables).functions.attachScope i scope)
        body sub i scope span b) s fun _ s' =>
      s.Widens (some scope) (parameters.map (·.node.id) ++ b.nodes.map (·.id)) s' ∧
      (¬ s'.Reports .misplacedNext → b.NextPlaced) ∧ ∀ Γ outer parent, s.tables.Models Γ →
          sc.parent = some parent →
          s.tables.scopes.Chain parent outer → (∀ τ ∈ arguments, τ.isFunction = false) →
          s.Verdict ((names.map (·.1) ++ (parameters.zip arguments).map (·.1.name)).Nodup ∧
            b.WellTyped Γ f.signature.result
              ((names ++ (parameters.zip arguments).map fun p => (p.1.name, some p.2)) :: outer))
              s' := by
  have hzip := zip_map_sublist (fun p : Parameter => p.node.id) parameters arguments
  refine .bind (declareParameters_sat hw hsc hshows hnames (fun p hp => hk _ (List.of_mem_zip hp).2)
    (hf.left.sub hzip)) fun _ s1 hframe => ?_
  have hs1 := hframe.widens.mono hzip.subset
  obtain ⟨sc1, hsc1, hparent1, hkind1, -⟩ := hs1.keeps scope sc hsc
  have hw1 := hs1.whole hw
  obtain ⟨f1, hi1, hf1⟩ : ∃ f1, s1.tables.functions.functions.get? i = some f1 ∧
      f1.signature = f.signature := by
    have := congrArg (·[i]?) hs1.functions
    simp only [FunctionTable.heads_getElem?, hi] at this
    obtain ⟨f1, hi1, heq⟩ := Option.map_eq_some_iff.1 this
    have hsig := congrArg Function.signature heq
    exact ⟨f1, hi1, hsig⟩
  obtain ⟨functions, hattach, hi2, hs2⟩ := attachScope_sat scope hi1
  refine .tables (.lift hattach (.step rfl ?_))
  have hfree1 : s1.tables.Free ([] ++ b.nodes.map (·.id)) := hf.touches hs1.toTouches
  refine (body_sat b (hs2.whole hw1)
    hsc1 (hkind1 ▸ hkind) hi2 (hfree1.touches hs2.toTouches)).weaken fun _ s' h => ?_
  have hs' : s1.Widens (some scope) (b.nodes.map (·.id)) s' :=
    (hs2.weaken.mono (List.nil_subset _)).trans h.widens
  refine ⟨hs1.append hs', h.placed, fun Γ outer parent hΓ hparent houter hfun => ?_⟩
  have hfun' : ∀ p ∈ parameters.zip arguments, p.2.isFunction = false :=
    fun p hp => hfun _ (List.of_mem_zip hp).2
  refine (hframe.verdict hfun').and hs'.adds fun hnodup => ?_
  obtain ⟨sc2, hsc2, hshows2⟩ := hframe.shows hfun' hnodup
  rw [hsc1] at hsc2
  cases hsc2
  have hrooted : parent < scope := hw.laid.older _ _ _ hsc hparent
  have hv := h.verdict Γ _ ?_ (.child hsc1 (hparent1.trans hparent) hshows2
    (houter.keeps hs1.keeps hw.laid fun j hj => by cases hj; exact hrooted))
  · rw [show ({ f1 with scope := some scope } : Function).signature = f.signature from hf1] at hv
    exact ⟨hv.adds, hv.quiet⟩
  · refine hs2.models hw1 (hΓ.keeps hw hs1.registry hs1.functions hs1.keeps fun id r hid hr => ?_)
    cases hid
    rw [hsc] at hr
    cases hr
    exact hkind

/-- The names that the frame of a function starts with. -/
def receiverNames (owner : Option ClassType) : Names :=
  (owner.map fun c => (receiverName, some (Ty.object c))).toList

/-- The types of the parameters, without that of the receiver. -/
def parameterTypes (owner : Option ClassType) (arguments : List Ty) : List Ty :=
  if owner.isSome then arguments.tail else arguments

/-- The scope around the frame of a function. -/
def Encloses (t : Tables) (owner : Option ClassType) (parent : ScopeId) : Prop :=
  match owner with
  | some c => t.types.memberScope? c = some parent
  | none => parent = ScopeTree.globalId

theorem enter_sat {parent : ScopeId} (hw : s.tables.Whole)
    (hi : s.tables.functions.lookup f.node.id = some i)
    (hg : s.tables.functions.functions.get? i = some g)
    (hparent : Encloses s.tables f.owner parent) (hf : s.tables.Free f.codeNodes) :
    Sat (definition sub f.node f.owner f.parameters f.body) s fun _ s' =>
      s.Widens none f.codeNodes s' ∧ (¬ s'.Reports .misplacedNext → f.body.NextPlaced) ∧
      ∀ Γ outer, s.tables.Models Γ →
          s.tables.scopes.Chain parent outer → (∀ τ ∈ g.signature.arguments, τ.isFunction = false) →
          s.Verdict (((receiverNames f.owner).map (·.1) ++
              (f.parameters.zip (parameterTypes f.owner g.signature.arguments)).map
              (·.1.name)).Nodup ∧
            f.body.WellTyped Γ g.signature.result ((receiverNames f.owner ++
              (f.parameters.zip (parameterTypes f.owner g.signature.arguments)).map
                fun p => (p.1.name, some p.2)) :: outer)) s' := by
  have hargs : ∀ τ ∈ g.signature.arguments, τ.Known s.tables.types :=
    (hw.arguments _ (Tables.head_mem hg) :)
  refine .tables ?_
  rw [hi]
  cases howner : f.owner with
  | none =>
    rw [howner] at hparent
    obtain rfl : parent = ScopeTree.globalId := hparent
    obtain ⟨r, hr, -⟩ := hw.laid.global
    refine .step rfl ?_
    refine .bind (openChild_sat hr (by simp))
      fun scope s2 ⟨hnew, ⟨sc, hsc, hpar, hkind, hb⟩, hs2, hq, ha, hfun⟩ => ?_
    refine .tables (.lift (Slots.fetch_eq_ok_iff.2 (hfun ▸ hg)) ?_)
    have hfree : s2.tables.Free (f.parameters.map (·.node.id) ++ f.body.nodes.map (·.id)) :=
      Tables.Free.touches (by rw [List.nil_append]; exact hf) hs2.toTouches
    refine (frame_sat [] f.body (hs2.whole hw) hsc (by rw [hkind]; simp)
      (fun x => by rw [hb]; rfl) (by simp) (hfun ▸ hg) (hs2.registry ▸ hargs) hfree).weaken
      fun _ s' ⟨hs', hp, hv⟩ => ⟨hs2.fresh hnew hs', hp, fun Γ outer hΓ hchain hnofun => ?_⟩
    exact .after hq (hv Γ outer _ (hs2.models hw hΓ) hpar
      (hchain.keeps hs2.keeps hw.laid fun _ h => nomatch h) hnofun)
  | some c =>
    rw [howner] at hparent
    have hparent' : s.tables.types.memberScope? c = some parent := hparent
    obtain ⟨r, hr, -⟩ := hw.members c parent hparent'
    refine .memberScope hparent' ?_
    refine .bind (openChild_sat hr (by simp))
      fun scope s2 ⟨hnew, ⟨sc, hsc, hpar, hkind, hb⟩, hs2, hq, ha, hfun⟩ => ?_
    refine .tables (.lift (Slots.fetch_eq_ok_iff.2 (hfun ▸ hg)) ?_)
    have hknown : (Ty.object c).Known s2.tables.types :=
      ⟨parent, by rw [hs2.registry]; exact hparent'⟩
    refine .bind (.discard (Q := fun _ s3 => s2.Widens (some scope) [] s3 ∧ s2.Quiet s3 ∧
      s3.tables.functions = s2.tables.functions ∧ ∃ free,
      s2.tables.scopes.declareIn scope receiverName (.object c) = .ok (free, s3.tables.scopes))
      ((declareIn_widens (hs2.whole hw) hsc hknown).weaken
        fun free s3 ⟨h, hq, hfun, hd⟩ => ⟨h, hq, hfun, free, hd⟩))
        fun _ s3 ⟨hs3, hq3, hfun3, free, hd⟩ => ?_
    have hempty : sc.Shows [] := fun x => by rw [hb]; rfl
    obtain ⟨sc', k, hsc', hpar', hkind', hb'⟩ :=
      (ScopeTree.declareIn_new hd hsc).2 (by rw [hb]; rfl)
    have hfree2 : s2.tables.Free
      ([] ++ (f.parameters.map (·.node.id) ++ f.body.nodes.map (·.id))) :=
      Tables.Free.touches (by rw [List.nil_append]; exact hf) hs2.toTouches
    have htypes3 : s3.tables.types = s.tables.types := hs3.registry.trans hs2.registry
    refine (frame_sat [(receiverName, some (.object c))] f.body (hs3.whole (hs2.whole hw)) hsc'
      (by rw [hkind', hkind]; simp) (hempty.snoc (by rw [hb]; rfl) rfl hb') (by simp)
      (hfun3 ▸ hfun ▸ hg) (fun τ hτ => htypes3 ▸ hargs τ (List.mem_of_mem_tail hτ))
      (hfree2.touches hs3.toTouches)).weaken fun _ s' ⟨hs', hp, hv⟩ =>
        ⟨hs2.fresh hnew (hs3.append hs'), hp, fun Γ outer hΓ hchain hnofun => ?_⟩
    have hrooted : parent < scope := (hs2.whole hw).laid.older _ _ _ hsc hpar
    have hΓ3 : s3.tables.Models Γ := by
      refine (hs2.models hw hΓ).keeps (hs2.whole hw) hs3.registry hs3.functions hs3.keeps
        fun id r hid hr => ?_
      cases hid
      rw [hsc] at hr
      cases hr
      rw [hkind]
      simp
    refine .after (Eq.trans hq3 hq) (hv Γ outer _ hΓ3 (hpar'.trans hpar) ?_
      fun τ hτ => hnofun τ (List.mem_of_mem_tail hτ))
    refine (hchain.keeps hs2.keeps hw.laid fun _ h => nomatch h).keeps hs3.keeps
      (hs2.whole hw).laid fun j hj => ?_
    cases hj
    exact hrooted

theorem length_of_mapM_denotes : ∀ {ps : List Parameter} {τs : List Ty},
    (ps.mapM fun p => p.type.denotes types) = some τs → τs.length = ps.length
  | [], τs, h => by
    cases h
    rfl
  | p :: ps, τs, h => by
    rw [List.mapM_cons] at h
    obtain ⟨τ, -, h⟩ := Option.bind_eq_some_iff.1 h
    obtain ⟨σs, hσs, h⟩ := Option.bind_eq_some_iff.1 h
    cases h
    simp [length_of_mapM_denotes hσs]

/-- What the frame of a declared function binds. -/
theorem frame_names (hd : f.Declares u.type? g) :
    (receiverNames f.owner).map (·.1) ++
      (f.parameters.zip (parameterTypes f.owner g.signature.arguments)).map (·.1.name) =
      f.parameterNames ∧
    (receiverNames f.owner ++ (f.parameters.zip (parameterTypes f.owner g.signature.arguments)).map
      fun p => (p.1.name, some p.2)) = f.parameterNames.zip (g.signature.arguments.map some) := by
  obtain ⟨τs, hτs, hargs⟩ := Option.map_eq_some_iff.1 hd.arguments
  have hlen := length_of_mapM_denotes hτs
  have hzip : (f.parameters.zip τs).map (·.1.name) = f.parameters.map (·.name) := by
    have hfst : (f.parameters.zip τs).map (·.1) = f.parameters := List.map_fst_zip (by omega)
    simpa [Function.comp_def] using congrArg (List.map (·.name)) hfst
  have hpairs : (f.parameters.zip τs).map (fun p => (p.1.name, some p.2)) =
      (f.parameters.map (·.name)).zip (τs.map some) := by
    rw [List.zip_map]
    rfl
  have htypes : parameterTypes f.owner g.signature.arguments = τs := by
    rw [← hargs]
    cases f.owner <;> rfl
  rw [htypes, hzip, hpairs, ← hargs]
  unfold receiverNames Callable.parameterNames
  cases f.owner <;> exact ⟨rfl, rfl⟩

theorem exists_of_mem_mapM_denotes {τ : Ty} :
    ∀ {ps : List Parameter} {τs : List Ty}, (ps.mapM fun p => p.type.denotes types) = some τs →
      τ ∈ τs → ∃ p ∈ ps, p.type.denotes types = some τ
  | [], τs, h, hτ => by
    cases h
    cases hτ
  | p :: ps, τs, h, hτ => by
    rw [List.mapM_cons] at h
    obtain ⟨σ, hσ, h⟩ := Option.bind_eq_some_iff.1 h
    obtain ⟨σs, hσs, h⟩ := Option.bind_eq_some_iff.1 h
    cases h
    rcases List.mem_cons.1 hτ with rfl | hτ
    · exact ⟨p, .head _, hσ⟩
    · obtain ⟨q, hq, h⟩ := exists_of_mem_mapM_denotes hσs hτ
      exact ⟨q, .tail _ hq, h⟩

/-- An argument is the receiver or belongs to a parameter. -/
theorem mem_arguments (hd : f.Declares u.type? g) (hτ : τ ∈ g.signature.arguments) :
    (∃ c, τ = .object c) ∨ ∃ p ∈ f.parameters, p.type.denotes u.type? = some τ := by
  obtain ⟨τs, hτs, hargs⟩ := Option.map_eq_some_iff.1 hd.arguments
  rw [← hargs, List.mem_append] at hτ
  refine hτ.imp (fun hτ => ?_) (exists_of_mem_mapM_denotes hτs)
  cases ho : f.owner with
  | none => simp [ho] at hτ
  | some c => exact ⟨c, by simpa [ho] using hτ⟩

theorem isFunction_of_declares (hd : f.Declares u.type? g) :
    ∀ τ ∈ g.signature.arguments, τ.isFunction = false := by
  intro τ hτ
  rcases mem_arguments hd hτ with ⟨c, rfl⟩ | ⟨p, -, hp⟩
  · rfl
  · exact TypeExpr.isFunction_of_denotes (fun _ _ => SourceUnit.isFunction_of_type?) hp

/-- The function of a definition is in the table under its number. -/
theorem exists_declares {t : FunctionTable} {fs : List Callable}
    (h : List.Forall₂ (Callable.Declares u.type?) fs t.heads)
    (hf : fs[i]? = some f) : ∃ g, t.functions.get? i = some g ∧ f.Declares u.type? g := by
  obtain ⟨hx, rfl⟩ := List.getElem?_eq_some_iff.1 hf
  have hy : i < t.heads.length := h.length_eq ▸ hx
  have hhead := List.getElem?_eq_getElem hy
  rw [FunctionTable.heads_getElem?] at hhead
  obtain ⟨g, hg, heq⟩ := Option.map_eq_some_iff.1 hhead
  have hd := h.get hx hy
  rw [List.get_eq_getElem, List.get_eq_getElem, ← heq] at hd
  exact ⟨g, hg, hd.name, hd.arguments, hd.result, hd.isMethod, hd.runs⟩

/-- The class of a method or constructor is one of the unit. -/
theorem exists_class_of_owner {c : ClassType} (hf : f ∈ u.callables) (hc : f.owner = some c) :
    ∃ p ∈ u.classTypes, p.2 = c ∧ u.classes[c.index]? = some p.1 := by
  rcases List.mem_append.1 hf with hf | hf
  · obtain ⟨p, hp, hf⟩ := List.mem_flatMap.1 hf
    have hpc : p.2 = c := by
      rcases List.mem_append.1 hf with hf | hf
      · obtain ⟨m, -, rfl⟩ := List.mem_map.1 hf
        exact Option.some.inj hc
      · obtain ⟨k, -, rfl⟩ := List.mem_map.1 hf
        exact Option.some.inj hc
    obtain ⟨⟨d, i⟩, hdi, rfl⟩ := List.mem_map.1 hp
    refine ⟨_, hp, hpc, ?_⟩
    rw [← hpc]
    exact (List.mem_zipIdx_iff_getElem?).1 hdi
  · obtain ⟨g, -, rfl⟩ := List.mem_map.1 hf
    cases hc

/-- Checking a definition decides the rules for its code. -/
theorem definition_sat (hw : s.tables.Whole)
    (howner : ∀ c, f.owner = some c → ∃ id, s.tables.types.memberScope? c = some id)
    (hbound : ∀ i, s.tables.functions.lookup f.node.id = some i →
      i < s.tables.functions.heads.length)
    (hf : s.tables.Free f.codeNodes) (hmem : u.DeclarationsTyped → f ∈ u.callables) :
    Sat (definition sub f.node f.owner f.parameters f.body) s fun _ s' =>
      Inspects u f.codeNodes (fun globals => f.CodeTyped u globals)
        (∀ i, s.tables.functions.lookup f.node.id = some i → f.body.NextPlaced) s s' := by
  cases hi : s.tables.functions.lookup f.node.id with
  | none =>
    refine .tables ?_
    rw [hi]
    refine .pure ⟨.refl s, fun _ i hi => ?_, fun globals h => ?_⟩
    · cases hi
    obtain ⟨j, hj⟩ := List.mem_iff_getElem?.1 (hmem h.declarations)
    cases hi.symm.trans (h.entries j f hj)
  | some i =>
    obtain ⟨g, hg⟩ : ∃ g, s.tables.functions.functions.get? i = some g := by
      refine Slots.exists_of_lt ?_
      simpa [FunctionTable.heads, Slots.toList, Slots.size] using hbound i hi
    obtain ⟨parent, hparent⟩ : ∃ parent, Encloses s.tables f.owner parent := by
      cases ho : f.owner with
      | none => exact ⟨_, rfl⟩
      | some c => exact howner c ho
    refine (enter_sat hw hi hg hparent hf).weaken fun _ s' h' => ?_
    obtain ⟨hs', hp, hv⟩ := h'
    refine ⟨hs', fun hno _ _ => hp hno, fun globals h => ?_⟩
    obtain ⟨j, hj⟩ := List.mem_iff_getElem?.1 (hmem h.declarations)
    obtain rfl : i = j := Option.some.inj (hi.symm.trans (h.entries j f hj))
    obtain ⟨g', hg', hd⟩ := exists_declares h.heads hj
    obtain rfl := Option.some.inj (hg.symm.trans hg')
    obtain ⟨hnames, hframe⟩ := frame_names hd
    have hchain : s.tables.scopes.Chain parent
        (((f.owner.bind fun c => u.classes[c.index]?).map (·.names u.type?)).toList ++
          [globals]) := by
      cases ho : f.owner with
      | none =>
        rw [ho] at hparent
        obtain rfl : parent = ScopeTree.globalId := hparent
        exact h.global
      | some c =>
        rw [ho] at hparent
        obtain ⟨p, hp, hpc, hclass⟩ := exists_class_of_owner (hmem h.declarations) ho
        obtain ⟨id, sc, hid, hsc, hpar, hshows⟩ := h.members p hp
        rw [hpc] at hid
        obtain rfl := Option.some.inj (hid.symm.trans hparent)
        simp only [Option.bind_some, hclass]
        exact .child hsc hpar hshows h.global
    refine (hv u.globals _ h.models hchain (isFunction_of_declares hd)).congr ?_
    rw [hnames, hframe]
    constructor
    · rintro ⟨hn, hb⟩
      exact ⟨hn, _, _, hd.arguments, hd.result, hb⟩
    · rintro ⟨hn, arguments, result, harg, hres, hb⟩
      obtain rfl := Option.some.inj (hd.arguments.symm.trans harg)
      obtain rfl := Option.some.inj (hd.result.symm.trans hres)
      exact ⟨hn, hb⟩

/-! ## Initial values of fields -/

theorem topLevel_fits (hw : s.tables.Whole) : topLevel.Fits none s.tables := by
  obtain ⟨g, hg, -, hkind, -⟩ := hw.laid.global
  exact ⟨⟨g, hg, by rw [hkind]; simp⟩, rfl⟩

/-- The rule for the initial value of a field. -/
def InitialTyped (u : SourceUnit) (d : Declaration) (globals : Names) : Prop :=
  ∀ e, d.initializer = some e → ∃ τ, d.type.denotes u.type? = some τ ∧
    e.HasType u.globals [globals] τ

/-- The binding of a field has its type. -/
theorem exists_field (hu : u.DeclarationsTyped) (hp : p ∈ u.classTypes)
    (hshows : sc.Shows (p.1.names u.type?)) (hd : d ∈ p.1.fields) :
    ∃ b, sc.bindings.lookup d.name = some b ∧ d.type.denotes u.type? = some b.type := by
  have htyped := forall_mem_classTypes.2 hu.members p hp
  obtain ⟨τ, hτ, -⟩ := htyped.fields d hd
  have hfield : (p.1.fields.map fun d => (d.name, d.type.denotes u.type?)).lookup d.name =
      some (d.type.denotes u.type?) :=
    lookup_of_mem_nodup (p := (d.name, d.type.denotes u.type?))
      (by simpa [Function.comp_def] using htyped.fieldNames) (List.mem_map.2 ⟨d, hd, rfl⟩)
  have hname := hshows d.name
  rw [ClassDef.names, List.lookup_append, hfield, hτ] at hname
  obtain ⟨b, hb, hvar⟩ := Option.map_eq_some_iff.1 hname.symm
  refine ⟨b, hb, hτ.trans ?_⟩
  unfold Ty.asVariable at hvar
  split at hvar
  · cases hvar
  · exact hvar.symm

theorem Settled.field {id : ScopeId} (h : Settled u globals s.tables) (hp : p ∈ u.classTypes)
    (hd : d ∈ p.1.fields) (hid : s.tables.types.memberScope? p.2 = some id)
    (hsc : s.tables.scopes.scopes.get? id = some sc) : ∃ b,
    sc.bindings.lookup d.name = some b ∧ d.type.denotes u.type? = some b.type := by
  obtain ⟨id', sc', hid', hsc', -, hshows⟩ := h.members p hp
  obtain rfl := Option.some.inj (hid.symm.trans hid')
  obtain rfl := Option.some.inj (hsc.symm.trans hsc')
  exact exists_field h.declarations hp hshows hd

theorem fieldInitializer_sat (hw : s.tables.Whole)
    (hc : ∃ id, s.tables.types.memberScope? p.2 = some id)
    (hf : s.tables.Free d.codeNodes) (hp : u.DeclarationsTyped → p ∈ u.classTypes)
    (hd : d ∈ p.1.fields) : Sat (fieldInitializer sub p.2 d) s
      fun _ s' => Inspects u d.codeNodes (InitialTyped u d) True s s' := by
  unfold fieldInitializer
  unfold Declaration.codeNodes at hf ⊢
  unfold InitialTyped
  generalize d.initializer = initializer at hf ⊢
  cases initializer with
  | none => exact .pure ⟨.refl s, fun _ => trivial, fun globals _ => .ofQuiet rfl (by simp)⟩
  | some e =>
    obtain ⟨id, hid⟩ := hc
    obtain ⟨sc, hsc, -⟩ := hw.members p.2 id hid
    obtain ⟨g, hg, -⟩ := hw.laid.global
    refine .bind (expr_sat e hw hg hf) fun value s1 he => ?_
    have hid1 : s1.tables.types.memberScope? p.2 = some id := by rw [he.marks.registry]; exact hid
    refine .memberScope hid1 (.binding? (he.marks.tree ▸ hsc) ?_)
    cases hlookup : sc.bindings.lookup d.name with
    | none =>
      refine .pure ⟨he.marks.widens, fun _ => trivial, fun globals h => ?_⟩
      obtain ⟨b, hb, -⟩ := h.field (hp h.declarations) hd hid hsc
      exact nomatch hlookup.symm.trans hb
    | some b =>
      refine expectType_sat.weaken fun _ s' ⟨hm, ht⟩ => ?_
      obtain ⟨hm', hg'⟩ := he.tested hm ht
      refine ⟨hm'.widens, fun _ => trivial, fun globals h =>
        ⟨hm'.adds, fun hq e' heq => ?_, fun h' => ?_⟩⟩
      · cases heq
        obtain ⟨b', hb', hτ⟩ := h.field (hp h.declarations) hd hid hsc
        obtain rfl := Option.some.inj (hlookup.symm.trans hb')
        obtain ⟨F', ⟨⟨σ, hσ, rfl⟩, -⟩, -⟩ := hg'.sound u.globals _ h.models h.global hq
        exact ⟨_, hτ, hσ⟩
      · obtain ⟨b', hb', hτ⟩ := h.field (hp h.declarations) hd hid hsc
        obtain rfl := Option.some.inj (hlookup.symm.trans hb')
        obtain ⟨τ, hτ', he'⟩ := h' e rfl
        obtain rfl := Option.some.inj (hτ.symm.trans hτ')
        exact (hg'.complete u.globals _ _ h.models h.global ⟨⟨_, he', rfl⟩, rfl⟩).1

/-! ## All code -/

/-- The tables that code can be checked with. The entries of definitions are those of `start`. -/
structure Runnable (u : SourceUnit) (ps : TypedClasses) (start t : Tables) : Prop where
  whole : t.Whole
  member : ∀ p ∈ ps, ∃ id, t.types.memberScope? p.2 = some id
  entries : ∀ f ∈ callablesOf ps u.functions,
    t.functions.lookup f.node.id = start.functions.lookup f.node.id
  bound : ∀ f ∈ callablesOf ps u.functions, ∀ i, t.functions.lookup f.node.id = some i →
    i < t.functions.heads.length

/-- The rule for the places of `next` in the body of a function with an entry. -/
def BodyPlaced (start : Tables) (f : Callable) : Prop :=
  ∀ i, start.functions.lookup f.node.id = some i → f.body.NextPlaced

section

variable {u : SourceUnit} {ps : TypedClasses} {inner : Option ScopeId}
  {ns ms : List NodeId} {start : Tables}

theorem Runnable.widens (h : Runnable u ps start s.tables) (hs : s.Widens inner ns s')
    (hn : ∀ f ∈ callablesOf ps u.functions, f.node.id ∉ ns) : Runnable u ps start s'.tables := by
  refine ⟨hs.whole h.whole, by rw [hs.registry]; exact h.member, fun f hf =>
    (hs.calls _ (hn f hf)).trans (h.entries f hf), fun f hf i hi => ?_⟩
  rw [hs.calls _ (hn f hf)] at hi
  rw [hs.functions]
  exact h.bound f hf i hi

/-- One part of the code after another. -/
theorem Inspects.append {C C' : Names → Prop} {D D' : Prop} (h : Inspects u ns C D s s1)
    (h' : Inspects u ms C' D' s1 s') (hw : s.tables.Whole)
    (hn : u.DeclarationsTyped → ∀ f ∈ u.callables, f.node.id ∉ ns) :
    Inspects u (ns ++ ms) (fun globals => C globals ∧ C' globals) (D ∧ D') s s' :=
  ⟨h.widens.append h'.widens, fun hno => ⟨h.placed fun hr =>
    hno (hr.after h'.widens.adds), h'.placed hno⟩, fun globals hs =>
    (h.verdict globals hs).and h'.widens.adds
    fun _ => h'.verdict globals (hs.widens hw h.widens (hn hs.declarations))⟩

theorem Inspects.congr {C C' : Names → Prop} {D D' : Prop} (h : Inspects u ns C D s s')
    (hc : ∀ g, C g ↔ C' g) (hd : D → D') : Inspects u ns C' D' s s' :=
  ⟨h.widens, fun hno => hd (h.placed hno), fun globals hs =>
    (h.verdict globals hs).congr (hc globals)⟩

/-- A loop over parts of the code. -/
theorem inspects_forM {m : α → Check PUnit} {nodes : α → List NodeId}
    {C : α → Names → Prop} {D : α → Prop}
    (hcall : u.DeclarationsTyped → u.callables = callablesOf ps u.functions)
    (hstep : ∀ a ∈ l, ∀ s, Runnable u ps start s.tables → s.tables.Free (nodes a) →
      Sat (m a) s fun _ s' => Inspects u (nodes a) (C a) (D a) s s')
    (hr : Runnable u ps start s.tables) (hf : s.tables.Free (l.flatMap nodes))
    (hn : ∀ f ∈ callablesOf ps u.functions, f.node.id ∉ l.flatMap nodes) :
    Sat (l.forM m) s fun _ s' =>
      Inspects u (l.flatMap nodes) (fun globals => ∀ a ∈ l, C a globals) (∀ a ∈ l, D a) s s' := by
  refine .forM (I := fun done s' => Inspects u (done.flatMap nodes)
    (fun globals => ∀ a ∈ done, C a globals) (∀ a ∈ done, D a) s s') (fun done a rest s1 hl h => ?_)
    ⟨.refl s, fun _ => by simp, fun _ _ => .ofQuiet rfl (by simp)⟩
  have hdone : ∀ f ∈ callablesOf ps u.functions, f.node.id ∉ done.flatMap nodes := by
    intro f hf hmem
    refine hn f hf ?_
    rw [hl, List.flatMap_append]
    exact List.mem_append_left _ hmem
  have hfree : s1.tables.Free (nodes a) := by
    rw [hl, List.flatMap_append] at hf
    exact (hf.touches h.widens.toTouches).left
  refine (hstep a (by rw [hl]; simp) s1 (hr.widens h.widens hdone) hfree).weaken fun _ s' h' => ?_
  rw [List.flatMap_append, List.flatMap_singleton]
  refine (h.append h' hr.whole fun hu f hf => hdone f (hcall hu ▸ hf)).congr (fun globals => ?_) ?_
  · rw [List.forall_mem_append, List.forall_mem_singleton]
  · rw [List.forall_mem_append, List.forall_mem_singleton]
    exact id

/-- The rule for a part of the code. -/
def CodePart.Typed (u : SourceUnit) (globals : Names) : CodePart → Prop
  | .fields p => ∀ d ∈ p.1.fields, InitialTyped u d globals
  | .routine _ f => f.CodeTyped u globals

def CodePart.Placed (start : Tables) : CodePart → Prop
  | .fields _ => True
  | .routine _ f => BodyPlaced start f

/-- The rules for all code but the statements of the main core. -/
def CodeTyped (u : SourceUnit) (ps : TypedClasses) (globals : Names) : Prop :=
  ∀ x ∈ codeParts ps u.functions, x.Typed u globals

theorem mem_callablesOf : f ∈ callablesOf ps u.functions ↔ ∃ q,
    .routine q f ∈ codeParts ps u.functions := by
  simp only [callablesOf, codeParts, List.mem_append, List.mem_flatMap, List.mem_cons, List.mem_map,
    reduceCtorEq, false_or, CodePart.routine.injEq, exists_or]
  constructor
  · rintro (⟨p, hp, hf⟩ | ⟨g, hg, rfl⟩)
    · exact .inl ⟨some p, p, hp, f, hf, rfl, rfl⟩
    · exact .inr ⟨none, g, hg, rfl, rfl⟩
  · rintro (⟨-, p, hp, g, hg, -, rfl⟩ | ⟨-, g, hg, -, rfl⟩)
    · exact .inl ⟨p, hp, hg⟩
    · exact .inr ⟨g, hg, rfl⟩

theorem definitions_sat
    (hps : u.DeclarationsTyped → ps = u.classTypes) (hr : Runnable u ps start s.tables)
    (hf : s.tables.Free (codeNodes ps u.functions))
    (hn : ∀ f ∈ callablesOf ps u.functions, f.node.id ∉ codeNodes ps u.functions) :
    Sat ((codeParts ps u.functions).forM (·.check sub)) s fun _ s' =>
      Inspects u (codeNodes ps u.functions) (CodeTyped u ps)
          (∀ x ∈ codeParts ps u.functions, x.Placed start) s s' := by
  have hcall : u.DeclarationsTyped → u.callables = callablesOf ps u.functions := by
    intro hu
    rw [hps hu]
    rfl
  refine inspects_forM hcall (fun x hx s hr hf => ?_) hr hf hn
  cases x with
  | fields p =>
    have hp : p ∈ ps := of_codeParts _ hx
    refine (inspects_forM hcall (fun d hd s hr hf =>
      fieldInitializer_sat hr.whole (hr.member p hp) hf (fun hu => hps hu ▸ hp) hd) hr hf
      fun f hf hmem => hn f hf (List.mem_flatMap.2 ⟨_, hx, hmem⟩)).weaken fun _ s' h =>
      h.congr (fun _ => .rfl) fun _ => trivial
  | routine q f =>
    have hmem := mem_callablesOf.2 ⟨q, hx⟩
    refine (definition_sat hr.whole (fun c hc => ?_) (hr.bound f hmem) hf
      fun hu => hcall hu ▸ hmem).weaken fun _ s' h => h.congr (fun _ => .rfl) fun hd i hi =>
        hd i ((hr.entries f hmem).trans hi)
    obtain ⟨p, hp, rfl⟩ := owner_mem (of_codeParts _ hx) c hc
    exact hr.member p hp

end

end Check

namespace Check

variable {sub : Ty} [sub.StandIn]

/-- The nodes of a unit are free in new tables. -/
theorem free_new (h : ns.Nodup) : ({} : Tables).Free ns :=
  ⟨h, fun _ _ => rfl, fun _ _ => rfl, fun _ _ => rfl⟩

/-- The first pass leaves the tables as code needs them. -/
theorem Declared.settled {s' : CheckState} (hd : Declared u ps s)
    (hs : s.Widens (some ScopeTree.globalId) ns s')
    (hu : u.DeclarationsTyped) (hn : ∀ f ∈ u.callables, f.node.id ∉ ns)
    (hglobal : s'.tables.scopes.Chain ScopeTree.globalId [globals]) :
    Settled u globals s'.tables := by
  refine ⟨hu, (topLevel_fits hd.whole).models hd.whole hs (hd.models hu), hglobal, fun p hp => ?_,
    by rw [hs.functions]; exact hd.heads hu, fun j f hj => ?_⟩
  · obtain ⟨id, sc, hid, hsc, hparent, hshows⟩ := hd.members hu p hp
    obtain ⟨sc', hsc', hp', -, hb⟩ := hs.keeps id sc hsc
    have hne : some ScopeTree.globalId ≠ some id := by
      rintro ⟨⟩
      exact Nat.lt_irrefl _ (hd.whole.laid.older _ _ _ hsc hparent)
    exact ⟨id, sc', by rw [hs.registry]; exact hid, hsc', hp'.trans hparent, fun x => by
      rw [hb hne]; exact hshows x⟩
  · rw [hs.calls _ (hn f (List.mem_of_getElem? hj))]
    exact hd.entries hu j f hj

/-- The global scope is the only one of its chain. -/
theorem chain_global {t : ScopeTree} {F : List Names} (ht : t.Laid)
    (h : t.Chain ScopeTree.globalId F) : ∃ globals, F = [globals] := by
  obtain ⟨g, hg, hparent, -⟩ := ht.global
  cases h with
  | root hsc hp hn => exact ⟨_, rfl⟩
  | child hsc hp hn ho =>
    rw [hg] at hsc
    cases hsc
    exact nomatch hparent.symm.trans hp

theorem wellTyped_iff : u.WellTyped ↔ u.DeclarationsTyped ∧ ∃ globals,
    Stmt.WellTypedAll u.globals none false [[]] u.statements [globals] ∧
    CodeTyped u u.classTypes globals := by
  have hcode : ∀ globals, CodeTyped u u.classTypes globals ↔
      (∀ p ∈ u.classTypes, ∀ d ∈ p.1.fields, InitialTyped u d globals) ∧ ∀ f ∈ u.callables,
      f.CodeTyped u globals := by
    intro globals
    simp only [CodeTyped, forall_codeParts, CodePart.Typed, SourceUnit.callables,
      List.forall_mem_append, List.forall_mem_flatMap, List.forall_mem_map, forall_and, and_assoc]
  simp only [hcode]
  constructor
  · rintro ⟨hn, hm, hsig, hover, globals, hss, hinit, hcode⟩
    exact ⟨⟨hn, hm, hsig, hover⟩, globals, hss, forall_mem_classTypes.2 hinit, hcode⟩
  · rintro ⟨⟨hn, hm, hsig, hover⟩, globals, hss, hinit, hcode⟩
    exact ⟨hn, hm, hsig, hover, globals, hss, forall_mem_classTypes.1 hinit, hcode⟩

/-- A unit has been checked. The body of a function whose definition is not taken, because there is
another one like it, is not looked at. -/
structure Checks (u : SourceUnit) (s : CheckState) : Prop where
  verdict : ({} : CheckState).Verdict u.WellTyped s
  placed : ¬ s.Reports .misplacedNext → ∀ f ∈ u.callables, f.body.NextPlaced ∨
    s.tables.functions.lookup f.node.id = none ∧
    (s.Reports .duplicateTypeDefinition ∨ s.Reports .duplicateFunction)

/-- Parts of a list without duplicates are told apart by any of their elements. -/
theorem eq_of_mem_flatMap_nodup {f : α → List β} (h : (l.flatMap f).Nodup) {a b : α} (ha : a ∈ l)
    (hb : b ∈ l) {x : β} (hxa : x ∈ f a) (hxb : x ∈ f b) : a = b := by
  induction l with
  | nil => cases ha
  | cons c l ih =>
    rw [List.flatMap_cons, List.nodup_append] at h
    rcases List.mem_cons.1 ha with rfl | ha' <;> rcases List.mem_cons.1 hb with rfl | hb'
    · rfl
    · exact absurd rfl (h.2.2 x hxa x (List.mem_flatMap.2 ⟨b, hb', hxb⟩))
    · exact absurd rfl (h.2.2 x hxb x (List.mem_flatMap.2 ⟨a, ha', hxa⟩))
    · exact ih h.2.1 ha' hb'

/-- The definitions of the unit among those that the checker has taken. -/
theorem exists_callable (ps : TypedClasses) (hf : f ∈ u.callables) :
    (∃ g ∈ callablesOf ps u.functions, g.node = f.node ∧ g.body = f.body) ∨
      ∃ d ∈ u.classes, d ∉ ps.map (·.1) ∧ f.node.id ∈ d.nodes.map (·.id) := by
  rcases List.mem_append.1 hf with hf | hf
  · obtain ⟨p, hp, hf⟩ := List.mem_flatMap.1 hf
    by_cases hmem : p.1 ∈ ps.map (·.1)
    · obtain ⟨q, hq, hqp⟩ := List.mem_map.1 hmem
      refine .inl ?_
      rcases List.mem_append.1 hf with hf | hf
      · obtain ⟨m, hm, rfl⟩ := List.mem_map.1 hf
        refine ⟨m.callable (some q.2),
          List.mem_append_left _ (List.mem_flatMap.2 ⟨q, hq, ?_⟩), rfl, rfl⟩
        exact List.mem_append_left _ (List.mem_map.2 ⟨m, hqp ▸ hm, rfl⟩)
      · obtain ⟨k, hk, rfl⟩ := List.mem_map.1 hf
        refine ⟨k.callable q.2, List.mem_append_left _ (List.mem_flatMap.2 ⟨q, hq, ?_⟩), rfl, rfl⟩
        exact List.mem_append_right _ (List.mem_map.2 ⟨k, hqp ▸ hk, rfl⟩)
    · refine .inr ⟨p.1, map_fst_classTypes u ▸ List.mem_map.2 ⟨p, hp, rfl⟩, hmem, ?_⟩
      rw [(p.1.nodes_perm p.2).mem_iff]
      exact List.mem_append_left _ (List.mem_append_right _ (List.mem_map.2 ⟨f, hf, rfl⟩))
  · exact .inl ⟨f, List.mem_append_right _ hf, rfl, rfl⟩

/-- The definitions of a class that is not taken have no entries. -/
theorem not_mem_nodes (hids : (u.nodes.map (·.id)).Nodup) (hps : (ps.map (·.1)).Sublist u.classes)
    {d : ClassDef}
    (hd : d ∈ u.classes) (hnot : d ∉ ps.map (·.1)) {n : NodeId} (hn : n ∈ d.nodes.map (·.id)) :
    n ∉ ({ u with classes := ps.map (·.1) } : SourceUnit).nodes.map (·.id) := by
  intro hmem
  rw [SourceUnit.nodes, List.append_assoc, List.map_append, List.map_flatMap] at hids
  rw [SourceUnit.nodes, List.append_assoc, List.map_append, List.map_flatMap,
    List.mem_append] at hmem
  rw [List.nodup_append] at hids
  rcases hmem with hmem | hmem
  · obtain ⟨d', hd', hn'⟩ := List.mem_flatMap.1 hmem
    exact hnot (eq_of_mem_flatMap_nodup hids.1 hd (hps.subset hd') hn hn' ▸ hd')
  · exact hids.2.2 n (List.mem_flatMap.2 ⟨d, hd, hn⟩) n hmem rfl

/-- The nodes that the passes give entries to, of registered classes and of functions, are apart. -/
theorem passNodes_nodup (hids : (u.nodes.map (·.id)).Nodup)
    (hps : (ps.map (·.1)).Sublist u.classes) :
    ((ps.flatMap fun p => p.1.fields.map (·.node.id)) ++ (callablesOf ps u.functions).map
      (·.node.id) ++
      ((Stmt.nodesAll u.statements).map (·.id) ++ codeNodes ps u.functions)).Nodup := by
  refine (u.nodes_perm ps).nodup_iff.1 (hids.sublist (.map _ ?_))
  exact .append_right (.append_right (hps.flatMap _) _) _

theorem fieldNodes_nodup (hids : (u.nodes.map (·.id)).Nodup) :
    ((u.classes.flatMap (·.fields)).map (·.node.id)).Nodup := by
  have hps : (u.classTypes.map (·.1)).Sublist u.classes := by rw [map_fst_classTypes]
  have hall := passNodes_nodup hids hps
  rw [← map_fst_classTypes u, List.map_flatMap, List.flatMap_map]
  exact (List.nodup_append.1 (List.nodup_append.1 hall).1).1

theorem callableNodes_nodup (hids : (u.nodes.map (·.id)).Nodup)
    (hps : (ps.map (·.1)).Sublist u.classes) :
    ((callablesOf ps u.functions).map (·.node.id)).Nodup :=
  (List.nodup_append.1 (List.nodup_append.1 (passNodes_nodup hids hps)).1).2.1

variable (sub) in
/-- Checking a unit never fails, and it reports nothing exactly if the unit is well typed. -/
theorem unit_sat (hids : (u.nodes.map (·.id)).Nodup) :
    Sat (unit sub u) {} fun _ s => Checks u s := by
  have hsplit : unit sub u = (do
      let ps ← (do
        let ps ← declareTypes sub u
        declareFunctions sub u ps
        return ps)
      stmts sub topLevel u.statements
      (codeParts ps u.functions).forM (·.check sub)) := by
    simp only [unit, bodies_eq, bind_assoc, pure_bind]
  rw [hsplit]
  refine .bind (declare_sat u (fieldNodes_nodup hids) fun ps hps =>
    callableNodes_nodup hids hps) fun ps s1 hd => ?_
  have hnodup := passNodes_nodup hids hd.sublist
  have hfree := (free_new hnodup).touches hd.touches
  have happart : ∀ f ∈ callablesOf ps u.functions,
      f.node.id ∉ (Stmt.nodesAll u.statements).map (·.id) ++ codeNodes ps u.functions :=
    fun f hf hmem => (List.nodup_append.1 hnodup).2.2 _
    (List.mem_append_right _ (List.mem_map.2 ⟨f, hf, rfl⟩)) _ hmem rfl
  have hcall : u.DeclarationsTyped → u.callables = callablesOf ps u.functions := by
    intro hu
    rw [hd.classes hu]
    rfl
  refine .bind (stmts_sat u.statements hd.whole (topLevel_fits hd.whole) hfree.left)
    fun _ s2 hstmts => ?_
  obtain ⟨hs2, hg⟩ := hstmts
  have hrun : Runnable u ps s1.tables s2.tables :=
    Runnable.widens ⟨hd.whole, hd.member, fun _ _ => rfl, fun f _ => hd.bound _⟩ hs2
    fun f hf hmem => happart f hf (List.mem_append_left _ hmem)
  refine (definitions_sat hd.classes hrun (hfree.touches hs2.toTouches) fun f hf hmem =>
    happart f hf (List.mem_append_right _ hmem)).weaken fun _ s' h => ?_
  have hsettled : ∀ globals, u.DeclarationsTyped →
      s2.tables.scopes.Chain ScopeTree.globalId [globals] →
      Settled u globals s2.tables := fun globals hu hchain => hd.settled hs2 hu
    (fun f hf hmem => happart f (hcall hu ▸ hf) (List.mem_append_left _ hmem)) hchain
  have hadds := hs2.adds.trans h.widens.adds
  have hlookup : ∀ n, n ∉ (Stmt.nodesAll u.statements).map (·.id) ++ codeNodes ps u.functions →
      s'.tables.functions.lookup n = s1.tables.functions.lookup n := by
    intro n hn
    rw [List.mem_append, not_or] at hn
    rw [h.widens.calls n hn.2, hs2.calls n hn.1]
  refine ⟨⟨hd.verdict.adds.trans hadds, ?_⟩, fun hno f hf => ?_⟩
  rotate_left
  · rcases exists_callable ps hf with ⟨g, hg, hnode, hbody⟩ | ⟨d, hdm, hnot, hn⟩
    · rw [← hnode, ← hbody, hlookup _ (happart g hg)]
      cases hi : s1.tables.functions.lookup g.node.id with
      | some i =>
        obtain ⟨q, hq⟩ := mem_callablesOf.1 hg
        exact .inl (h.placed hno _ hq i hi)
      | none =>
        refine .inr ⟨rfl, .inr ?_⟩
        rcases hd.full.2 with hr | hall
        · exact hr.after hadds
        · obtain ⟨i, hi'⟩ := hall g hg
          cases hi.symm.trans hi'
    · have hnew := not_mem_nodes hids hd.sublist hdm hnot hn
      rw [(u.nodes_perm ps).mem_iff, List.mem_append, not_or] at hnew
      refine .inr ⟨(hlookup _ hnew.2).trans (hd.touches.calls _ hnew.1), .inl ?_⟩
      rcases hd.full.1 with hr | hall
      · exact hr.after hadds
      · exact absurd (hall ▸ hdm) hnot
  rw [quiet_trans_iff hd.verdict.adds hadds, quiet_trans_iff hs2.adds h.widens.adds,
    hd.verdict.quiet, wellTyped_iff]
  constructor
  · rintro ⟨hu, hq1, hq2⟩
    obtain ⟨F, hss, hchain⟩ := hg.sound u.globals [[]] (hd.models hu) hd.global hq1
    obtain ⟨globals, rfl⟩ := chain_global hrun.whole.laid hchain
    rw [← hd.classes hu]
    exact ⟨hu, globals, hss, (h.verdict globals (hsettled globals hu hchain)).quiet.1 hq2⟩
  · rintro ⟨hu, globals, hss, hcode⟩
    obtain ⟨hq1, hchain⟩ := hg.complete u.globals [[]] [globals] (hd.models hu) hd.global hss
    rw [← hd.classes hu] at hcode
    exact ⟨hu, hq1, (h.verdict globals (hsettled globals hu hchain)).quiet.2 hcode⟩

end Check

/-! ## What the tables of an accepted unit say -/

theorem SourceUnit.definitions_eq (u : SourceUnit) :
    u.definitions = u.callables.map Callable.definition :=
  (Check.definitions_callablesOf (Check.map_fst_classTypes u)).symm

namespace Check

variable {sub : Ty} [sub.StandIn] {s s' : CheckState}

theorem length_arguments (hd : f.Declares u.type? g) :
    g.signature.arguments.length = f.definition.names.length := by
  obtain ⟨τs, hτs, hargs⟩ := Option.map_eq_some_iff.1 hd.arguments
  rw [← hargs, Definition.names, Callable.definition]
  cases f.owner <;> simp [length_of_mapM_denotes hτs]

theorem Declared.membersAt (hd : Declared u ps s) (hu : u.DeclarationsTyped)
    (hp : p ∈ u.classTypes) :
    ∃ id, MembersAt s.tables p.2 id p.1.fields := by
  obtain ⟨id, sc, hid, hsc, -, hshows⟩ := hd.members hu p hp
  refine ⟨id, hid, hd.whole.members p.2 id hid, fun d hdm => ?_⟩
  obtain ⟨b, hb, hτ⟩ := exists_field hu hp hshows hdm
  cases hk : b.offset with
  | some k => exact ⟨b, k, by rw [ScopeTree.bindingAt?_eq hsc, hb], hk⟩
  | none =>
    have hfun := hd.whole.laid.reserved id sc _ b hsc hb hk
    rw [TypeExpr.isFunction_of_denotes (fun _ _ => SourceUnit.isFunction_of_type?) hτ] at hfun
    cases hfun

/-- What the first pass leaves is where the second one starts. -/
theorem Declared.progress (hd : Declared u ps s) (hu : u.DeclarationsTyped) :
    Progress (fun n => ∃ d ∈ u.definitions, d.node.id = n) ps u.definitions [] s.tables := by
  obtain rfl := hd.classes hu
  refine ⟨⟨hd.whole.laid, .main rfl, hd.locks hu, fun n hn => .inl ?_⟩, fun x c => ?_, fun p hp =>
    hd.membersAt hu hp, fun i d hi => ?_, fun i f hf => ?_, fun i d hi => (nomatch hi),
    fun i f _ hf => hd.fresh i f hf⟩
  · by_contra hnot
    rw [hd.calls n fun hmem => hnot ?_] at hn
    · cases hn
    · obtain ⟨f, hf, rfl⟩ := List.mem_map.1 hmem
      exact ⟨f.definition, u.definitions_eq ▸ List.mem_map_of_mem hf, rfl⟩
  · rw [← TypeRegistry.lookup_eq_object_iff (hd.whole.apart x), ← (hd.models hu).types]
    constructor
    · intro hx
      rcases SourceUnit.eq_of_type? hx with ⟨e, he⟩ | ⟨p, hp, hname, heq⟩
      · cases he
      · cases heq
        exact ⟨p, hp, hname, rfl⟩
    · rintro ⟨q, hq, rfl, rfl⟩
      exact lookup_of_mem_nodup hu.typeNames (List.mem_append_right _ (List.mem_map.2 ⟨q, hq, rfl⟩))
  · rw [SourceUnit.definitions_eq, List.getElem?_map] at hi
    obtain ⟨f, hf, rfl⟩ := Option.map_eq_some_iff.1 hi
    obtain ⟨g, hg, hdecl⟩ := exists_declares (hd.heads hu) hf
    refine ⟨hd.entries hu i f hf, g, hg, length_arguments hdecl, hdecl.isMethod,
      fun τ hτ => ?_, hdecl.runs⟩
    rcases mem_arguments hdecl hτ with ⟨c, rfl⟩ | ⟨p, hp, hτ⟩
    · simp
    · obtain ⟨σ, hσ, -, hlock⟩ := (hu.signatures f (List.mem_of_getElem? hf)).parameters p hp
      rwa [Option.some.inj (hτ.symm.trans hσ)]
  · have hlt : i < s.tables.functions.heads.length := by
      simpa [FunctionTable.heads, Slots.toList, Slots.size] using Slots.lt_of_get? hf
    rwa [SourceUnit.definitions_eq, List.length_map, (hd.heads hu).length_eq]

/-- If nothing is reported, the second pass starts with all definitions in the tables. -/
theorem unit_bodies (hids : (u.nodes.map (·.id)).Nodup)
    (h : unit sub u {} = .ok ((), s)) (hd : s.diagnostics = #[]) :
    ∃ ps s1 s2, declareTypes sub u {} = .ok (ps, s1) ∧ declareFunctions sub u ps s1 = .ok ((), s2) ∧
      Declared u ps s2 ∧ u.DeclarationsTyped ∧ bodies sub u ps s2 = .ok ((), s) := by
  obtain ⟨ps, s1, htypes, h⟩ := bind_eq_ok.1 h
  obtain ⟨_, s2, hfuns, hbodies⟩ := bind_eq_ok.1 h
  have hrun : (do
      let ps ← declareTypes sub u
      declareFunctions sub u ps
      return ps : Check _) {} = .ok (ps, s2) := by
    simp only [bind_eq_ok, pure_eq_ok]
    exact ⟨ps, s1, htypes, _, s2, hfuns, rfl, rfl⟩
  have hdecl := (declare_sat u (fieldNodes_nodup hids) fun _ =>
    callableNodes_nodup hids).of_run hrun
  -- Whether anything is reported does not depend on what the first pass has found.
  have hquiet : Clean (Progress (fun _ => False) ps _ [])
      (bodies sub { u with classes := ps.map (·.1) } ps) _ :=
    bodies_clean rfl fun _ _ _ h => h
  exact ⟨ps, s1, s2, htypes, hfuns, hdecl,
    hdecl.verdict.quiet.1 (hquiet s2 _ s hbodies hd).1, hbodies⟩

end Check

/-- The tables of an accepted unit know everything that its code needs. -/
theorem SourceUnit.check_sound {t : Tables} (h : u.check = .ok t)
    (hids : (u.nodes.map (·.id)).Nodup) : u.Sound t := by
  obtain ⟨s, hrun, hd, rfl⟩ := SourceUnit.check_run h
  obtain ⟨ps, -, s1, -, -, hdecl, hu, hbodies⟩ := Check.unit_bodies hids hrun hd
  have hall : ps.map (·.1) = u.classes := by rw [hdecl.classes hu, Check.map_fst_classTypes]
  obtain ⟨hprog, hmain, hfields⟩ := (Check.bodies_clean hall (SourceUnit.newApart hids) s1 _ s
    hbodies hd).2 (hdecl.progress hu)
  have hnames := hu.typeNames
  rw [namedTypes_names, List.nodup_append] at hnames
  exact hprog.sound hall hnames.2.1 hmain hfields

theorem SourceUnit.check_of_run {u : SourceUnit} (hrun : Check.unit .bool u {} = .ok ((), s)) :
    u.check = if s.diagnostics.isEmpty then .ok s.tables else .error
      (.rejected s.diagnostics.toList) := by
  rw [check, checkWith, show (Check.unit .bool u).run {} = .ok ((), s) from hrun]

/-- The checker accepts exactly the well-typed units. It never fails: a unit that is not well typed
is rejected with a report. -/
theorem SourceUnit.check_eq_ok_iff {u : SourceUnit} (hids : (u.nodes.map (·.id)).Nodup) :
    ((∃ t, u.check = .ok t) ↔ u.WellTyped) ∧
      (¬ u.WellTyped → ∃ d ds, u.check = .error (.rejected (d :: ds))) := by
  obtain ⟨_, s, hrun, hv, -⟩ := Check.unit_sat .bool hids
  have hempty : s.diagnostics.isEmpty = true ↔ u.WellTyped := by
    rw [← hv.quiet, Quiet, Array.isEmpty_iff]
  have hcheck := check_of_run hrun
  refine ⟨⟨fun h => ?_, fun hu => ⟨s.tables, by rw [hcheck, if_pos (hempty.2 hu)]⟩⟩, fun hu => ?_⟩
  · obtain ⟨t, ht⟩ := h
    rw [hcheck] at ht
    split at ht
    · exact hempty.1 ‹_›
    · cases ht
  · rw [hcheck, if_neg fun h => hu (hempty.1 h)]
    cases hds : s.diagnostics.toList with
    | nil => exact absurd (hempty.1 (by simpa using hds)) hu
    | cons d ds => exact ⟨d, ds, rfl⟩

/-- A function that gives 1 if its argument holds, and otherwise what the second block does. -/
def pickUnit (otherwise : Option Block) : SourceUnit :=
  let first : Block := .mk 0 [.return 1 (some (.literal 2 (.int 1)))]
  { functions := [{
      node := 3
      name := "pick"
      parameters := [⟨4, "first", .bool⟩]
      returnType := .int
      isThread := false
      body := .block (.mk 5 [.ifElse 6 (.name 7 "first") first otherwise]) }]
    statements := [.declaration 8 ⟨9, .int, "x", some (.call 10 "pick"
      [.literal 11 (.bool true)])⟩] }

/-- The function needs its second block: without it, one way through its body has no result. -/
theorem pickUnit_wellTyped :
    ((pickUnit none).nodes.map (·.id)).Nodup ∧ ¬ (pickUnit none).WellTyped ∧
    ((pickUnit (some (.mk 12 [.return 13 (some (.literal 14 (.int 2)))]))).nodes.map (·.id)).Nodup ∧
    (pickUnit (some (.mk 12 [.return 13 (some (.literal 14 (.int 2)))]))).WellTyped := by
  have hok : ∀ u : SourceUnit, u.check.toBool = true → ∃ t, u.check = .ok t := by
    intro u h
    cases hc : u.check with
    | ok t => exact ⟨t, rfl⟩
    | error e => rw [hc] at h; cases h
  refine ⟨by decide +kernel, fun hu => ?_, by decide +kernel, ?_⟩
  · obtain ⟨t, ht⟩ := (SourceUnit.check_eq_ok_iff (by decide +kernel)).1.2 hu
    have hfalse : (pickUnit none).check.toBool = false := by decide +kernel
    rw [ht] at hfalse
    cases hfalse
  · exact (SourceUnit.check_eq_ok_iff (by decide +kernel)).1.1 (hok _ (by decide +kernel))

/-- However broken a unit is, its check ends with tables or with reports. It uses no table outside
of its contract: no entry of a node is written twice, no member scope is set twice or read before it
is set, no number is out of range, and no chain of scopes is endless. -/
theorem SourceUnit.check_faultless {u : SourceUnit} (hids : (u.nodes.map (·.id)).Nodup) :
    (∀ f, u.check ≠ .error (.fault f)) ∧
      ((∃ t, u.check = .ok t) ∨ ∃ d ds, u.check = .error (.rejected (d :: ds))) := by
  obtain ⟨_, s, hrun, -⟩ := Check.unit_sat .bool hids
  rw [check_of_run hrun]
  cases hds : s.diagnostics.toList with
  | nil =>
    have hempty : s.diagnostics.isEmpty = true := by simpa using hds
    rw [if_pos hempty]
    exact ⟨fun f h => (nomatch h), .inl ⟨s.tables, rfl⟩⟩
  | cons d ds =>
    have hempty : ¬ s.diagnostics.isEmpty = true := fun h => by
      rw [Array.isEmpty_iff.1 h] at hds
      cases hds
    rw [if_neg hempty]
    exact ⟨fun f h => (nomatch h), .inr ⟨d, ds, rfl⟩⟩

/-- Two classes of one name. The first one has two fields of one name, a method that is named like
them, and two constructors alike; what stands in the second one is not checked. The statements use
what does not exist. -/
def tangledUnit : SourceUnit :=
  { classes := [
      { node := 0
        name := "C"
        fields := [⟨1, .int, "x", some (.name 2 "y")⟩, ⟨3, .lock, "x", none⟩]
        methods := [⟨4, "x", [⟨5, "p", .void⟩, ⟨6, "p", .named "D"⟩], .int, true,
          .block (.mk 7 [.next 8])⟩]
        constructors := [⟨9, [], .mk 10 []⟩, ⟨11, [], .mk 12 []⟩] },
      { node := 13
        name := "C"
        fields := [⟨14, .int, "z", none⟩]
        methods := [⟨15, "m", [], .void, false, .expression (.name 16 "z")⟩]
        constructors := [] }]
    statements := [
      .forLoop 17 none (.methodCall 18 (.new 19 "C" []) "m" []) (some (.return 20 none))
        (.mk 21 [.expression 22 (.field 23 (.new 24 "C" [.name 25 "z"]) "m")])] }

theorem tangledUnit_faultless : (tangledUnit.nodes.map (·.id)).Nodup ∧
    tangledUnit.check.toBool = false ∧
    ∃ d ds, tangledUnit.check = .error (.rejected (d :: ds)) := by
  have hrejected : tangledUnit.check.toBool = false := by decide +kernel
  refine ⟨by decide +kernel, hrejected, ?_⟩
  rcases (SourceUnit.check_faultless (u := tangledUnit) (by decide +kernel)).2 with ⟨t, ht⟩ | h
  · rw [ht] at hrejected
    cases hrejected
  · exact h

/-! ## Return paths -/

/-- If no `next` is reported as misplaced, the analysis of return paths is exact for the body of
every function, but for a definition that is not taken because there is another one like it. In a
unit that is accepted, no execution of a function with a result reaches the end of its body. -/
theorem SourceUnit.body_returns_iff {u : SourceUnit} (hids : (u.nodes.map (·.id)).Nodup) :
    ∃ s, (Check.unit .bool u).run {} = .ok ((), s) ∧
      (¬ s.Reports .misplacedNext → ∀ f ∈ u.callables, ∀ b, f.body = .block b →
        (b.returns = true ↔ ∀ o, b.Completes o → o = .returned) ∨
        s.tables.functions.lookup f.node.id = none ∧
          (s.Reports .duplicateTypeDefinition ∨ s.Reports .duplicateFunction)) ∧
      (s.diagnostics = #[] → ∀ f ∈ u.callables, ∀ b, f.body = .block b →
        (b.returns = true ↔ ∀ o, b.Completes o → o = .returned) ∧
        (f.result ≠ .void → ∀ o, b.Completes o → o = .returned)) := by
  obtain ⟨_, s, hrun, hv, hplaced⟩ := Check.unit_sat .bool hids
  refine ⟨s, hrun, fun hno f hf b hb => ?_, fun hempty f hf b hb => ?_⟩
  · refine (hplaced hno f hf).imp_left fun hp => ?_
    rw [hb] at hp
    exact Block.returns_iff hp
  · have hno : ∀ kind, ¬ s.Reports kind := by
      rintro kind ⟨d, hd, -⟩
      rw [hempty] at hd
      cases hd
    have hp : f.body.NextPlaced := by
      rcases hplaced (hno _) f hf with hp | ⟨-, hr | hr⟩
      · exact hp
      · exact absurd hr (hno _)
      · exact absurd hr (hno _)
    rw [hb] at hp
    refine ⟨Block.returns_iff hp, fun hvoid => ?_⟩
    obtain ⟨-, -, -, -, globals, -, -, hcode⟩ := hv.quiet.1 hempty
    obtain ⟨-, arguments, result, -, hresult, hbody⟩ := hcode f hf
    rw [hb] at hbody
    refine hbody.2 fun hr => hvoid ?_
    rw [hr] at hresult
    exact TypeExpr.eq_void_of_denotes (fun _ _ => SourceUnit.ne_void_of_type?) hresult

/-- A switch whose first block goes on with the second one. -/
def fallBody : Block :=
  let give : NodeId → Int32 → Block := fun id n =>
    .mk ⟨id, {}⟩ [.return ⟨id + 1, {}⟩ (some (.literal ⟨id + 2, {}⟩ (.int n)))]
  .mk 0 [.switch 1 (.name 2 "n")
    [.mk 3 (.literal 4 (.int 1)) (.mk 5 [.next 6]),
      .mk 7 (.literal 8 (.int 2)) (give 9 1)] (some (give 12 2))]

/-- A function with this body. -/
def fallUnit : SourceUnit :=
  { functions := [{
      node := 15
      name := "fall"
      parameters := [⟨16, "n", .int⟩]
      returnType := .int
      isThread := false
      body := .block fallBody }] }

theorem fallUnit_returns : (fallUnit.nodes.map (·.id)).Nodup ∧ fallBody.returns = true ∧
    ∀ o, fallBody.Completes o → o = .returned := by
  obtain ⟨s, hrun, -, haccepted⟩ := SourceUnit.body_returns_iff (u := fallUnit) (by decide +kernel)
  have hempty : s.diagnostics = #[] := by
    have hrun' : ((Check.unit .bool fallUnit).run {}).map (fun r => r.2.diagnostics.isEmpty) =
        .ok true := by decide +kernel
    rw [hrun] at hrun'
    simpa [Except.map] using hrun'
  obtain ⟨hiff, -⟩ := haccepted hempty _ (List.mem_append_right _ (.head _)) fallBody rfl
  exact ⟨by decide +kernel, by decide +kernel, hiff.1 (by decide +kernel)⟩

/-- Two functions of one name. The second one is refused, so nothing is said about its `next`. -/
def twiceUnit : SourceUnit :=
  let define : NodeId → List Stmt → FunctionDef := fun id ss =>
    { node := ⟨id, {}⟩
      name := "f"
      parameters := []
      returnType := .int
      isThread := false
      body := .block (.mk ⟨id + 1, {}⟩
        (ss ++ [.return ⟨id + 2, {}⟩ (some (.literal ⟨id + 3, {}⟩ (.int 1)))])) }
  { functions := [define 0 [], define 4 [.next 8]] }

theorem twiceUnit_not_returns : ¬ ∀ s, (Check.unit .bool twiceUnit).run {} = .ok ((), s) →
    ¬ s.Reports .misplacedNext → ∀ f ∈ twiceUnit.callables, ∀ b, f.body = .block b →
      (b.returns = true ↔ ∀ o, b.Completes o → o = .returned) := by
  intro hall
  have hkinds : ((Check.unit .bool twiceUnit).run {}).map
      (fun r => r.2.diagnostics.toList.map (·.problem.kind)) = .ok [.duplicateFunction] := by
    decide +kernel
  cases hrun : (Check.unit .bool twiceUnit).run {} with
  | error e =>
    rw [hrun] at hkinds
    cases hkinds
  | ok r =>
    rw [hrun] at hkinds
    have hno : ¬ r.2.Reports .misplacedNext := by
      rintro ⟨d, hd, hkind⟩
      have hmem : .misplacedNext ∈ [DiagnosticKind.duplicateFunction] :=
        Except.ok.inj hkinds ▸ List.mem_map.2 ⟨d, hd, hkind⟩
      cases List.mem_singleton.1 hmem
    have hiff := hall r.2 hrun hno _ (List.mem_append_right _ (.tail _ (.head _))) _ rfl
    cases hiff.1 (by decide +kernel) .next (.mk (.leave .next (by decide)))

end Awl
