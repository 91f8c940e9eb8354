import Mathlib.Data.List.Forall2
import Awl.Proofs.ExactDeclare

/-!
# Collecting functions decides the rules for signatures

The second half of the first pass enters the signatures of all methods, constructors and functions
into the function table. `Check.Collects` is its invariant: it relates the table to the definitions
that are done. `Check.declareFunctions_sat` says that nothing is reported exactly if the rules for
signatures, overloads and the names of methods hold, and what the tables then provide.
-/

namespace Awl

open CheckState

variable {f : Callable} {p : ClassDef × ClassType} {c : ClassType}
  {ms ns : List (ClassType × String)} {sc : Scope} {scope : ScopeId} {signature : Signature}
  {span : Span} {name x : String} {t start : Tables} {ps : List Parameter}
  {fs : List Callable} {free : Bool} {type : Ty}

/-! ## Written types -/

namespace Check

variable {sub : Ty} [sub.StandIn] {s s1 s2 s' : CheckState} {types : String → Option Ty}
  {C : Ty → Prop}

/-- A written type has been resolved, and its meaning tested for a condition. -/
structure Resolves (te : TypeExpr) (C : Ty → Prop) (s : CheckState) (r : Ty)
    (s' : CheckState) : Prop where
  adds : s.Adds s'
  tables : s'.tables = s.tables
  registered : r.Registered s.tables.types
  verdict : s.Verdict (∃ τ, te.denotes s.tables.types.lookup = some τ ∧ C τ) s'
  eq : ∀ τ, te.denotes s.tables.types.lookup = some τ → r = τ

theorem Resolves.test {te : TypeExpr} {D : Ty → Prop} {r : Ty} (h : Resolves te C s r s1)
    (ht : s1.Tests (D r) s') : Resolves te (fun τ => C τ ∧ D τ) s r s' := by
  refine ⟨h.adds.trans ht.adds, ht.tables.trans h.tables, h.registered, ?_, h.eq⟩
  refine (h.verdict.and ht.adds fun _ => ⟨ht.adds, ht.quiet⟩).congr ?_
  constructor
  · rintro ⟨⟨τ, hτ, hC⟩, hD⟩
    obtain rfl := h.eq τ hτ
    exact ⟨r, hτ, hC, hD⟩
  · rintro ⟨τ, hτ, hC, hD⟩
    obtain rfl := h.eq τ hτ
    exact ⟨⟨r, hτ, hC⟩, hD⟩

theorem resolves (te : TypeExpr) :
    Sat (resolveType sub span te) s (Resolves te (fun _ => True) s) := by
  refine (resolveType_sat te).weaken fun r s' ⟨ha, ht, hr, hj⟩ => ⟨ha, ht, hr,
      ⟨ha, fun hq => ?_, fun ⟨τ, hτ, _⟩ => (hj.complete τ hτ).1⟩, fun τ hτ => (hj.complete τ hτ).2⟩
  obtain ⟨τ, -, hτ⟩ := hj.sound hq
  exact ⟨τ, hτ, trivial⟩

theorem parameterType_sat (p : Parameter) :
    Sat (parameterType sub p) s (Resolves p.type (fun τ => τ ≠ .void ∧ τ ≠ .lock) s) := by
  refine .bind (resolves p.type) fun τ s1 h1 => ?_
  refine reportThen_sat fun s2 hv => reportThen_sat fun s3 hl => .pure ?_
  have h2 : Resolves p.type (fun τ => True ∧ τ ≠ .void) s τ s2 :=
    h1.test ⟨hv.adds, hv.tables, by rw [hv.quiet]; simp⟩
  have h3 : Resolves p.type (fun τ => (True ∧ τ ≠ .void) ∧ τ ≠ .lock) s τ s3 :=
    h2.test ⟨hl.adds, hl.tables, by rw [hl.quiet]; simp⟩
  simpa using h3

theorem resultType_sat (te : TypeExpr) :
    Sat (resultType sub name span te) s (Resolves te (fun τ => τ ≠ .lock) s) := by
  refine .bind (resolves te) fun τ s1 h1 => ?_
  refine reportThen_sat fun s2 hl => .pure ?_
  have h2 : Resolves te (fun τ => True ∧ τ ≠ .lock) s τ s2 :=
    h1.test ⟨hl.adds, hl.tables, by rw [hl.quiet]; simp⟩
  simpa using h2

/-- The types of the parameters have been resolved. -/
structure ResolvesAll (ps : List Parameter) (s : CheckState) (τs : List Ty)
    (s' : CheckState) : Prop where
  adds : s.Adds s'
  tables : s'.tables = s.tables
  registered : ∀ τ ∈ τs, τ.Registered s.tables.types
  length : τs.length = ps.length
  verdict : s.Verdict (∀ p ∈ ps, ∃ τ, p.type.denotes s.tables.types.lookup = some τ ∧
    τ ≠ .void ∧ τ ≠ .lock) s'
  eq : ∀ σs, (ps.mapM fun p => p.type.denotes s.tables.types.lookup) = some σs → τs = σs

theorem parameterTypes_sat (ps : List Parameter) :
    Sat (ps.mapM (parameterType sub)) s (ResolvesAll ps s) := by
  refine .mapM (I := fun done τs s' => ResolvesAll done s τs s') (fun done τs p rest s1 _ h => ?_)
    ⟨.refl s, rfl, by simp, rfl, .ofQuiet rfl (by simp), fun σs h => by simpa using h⟩
  refine (parameterType_sat p).weaken fun τ s' hp => ?_
  have hv := hp.verdict
  have heq := hp.eq
  rw [h.tables] at hv heq
  refine ⟨h.adds.trans hp.adds, hp.tables.trans h.tables, ?_,
    by simp [h.length], ?_, fun σs hσs => ?_⟩
  · rw [List.forall_mem_append, List.forall_mem_singleton]
    exact ⟨h.registered, h.tables ▸ hp.registered⟩
  · rw [List.forall_mem_append, List.forall_mem_singleton]
    exact h.verdict.and hp.adds fun _ => hv
  · rw [List.mapM_append] at hσs
    obtain ⟨σs1, h1, hσs⟩ := Option.bind_eq_some_iff.1 hσs
    obtain ⟨σs2, h2, hσs⟩ := Option.bind_eq_some_iff.1 hσs
    obtain ⟨σ, hσ, h2⟩ := Option.bind_eq_some_iff.1 h2
    cases h2
    cases hσs
    rw [h.eq σs1 h1, heq σ hσ]
    rfl

/-- The parameters have types if each of them has one. -/
theorem exists_mapM_denotes (h : ∀ p ∈ ps, ∃ τ, p.type.denotes types = some τ ∧ C τ) : ∃ σs,
    (ps.mapM fun p => p.type.denotes types) = some σs := by
  induction ps with
  | nil => exact ⟨[], rfl⟩
  | cons p ps ih =>
    obtain ⟨τ, hτ, -⟩ := h p (.head _)
    obtain ⟨σs, hσs⟩ := ih fun q hq => h q (.tail _ hq)
    exact ⟨τ :: σs, by rw [List.mapM_cons, hτ, hσs]; rfl⟩

end Check

/-! ## Names of methods -/

namespace ScopeTree

variable {t t1 t' : ScopeTree} {r : TypeRegistry}

/-- All scopes stay, and in the member scopes of classes the names of methods have been bound where
they were free. A method is given by its class and its name. -/
def Reserves (r : TypeRegistry) (methods : List (ClassType × String)) (t t' : ScopeTree) : Prop :=
  ∀ id sc, t.scopes.get? id = some sc → ∃ sc', t'.scopes.get? id = some sc' ∧
    sc'.parent = sc.parent ∧ sc'.kind = sc.kind ∧ ∀ x, ∃ new : Option Binding,
      sc'.bindings.lookup x = (sc.bindings.lookup x).or new ∧
      (∀ b, new = some b → b.type.isFunction = true ∧ b.offset = none) ∧
      (new.isSome = true ↔ ∃ m ∈ methods, r.memberScope? m.1 = some id ∧ m.2 = x)

theorem Reserves.refl (r : TypeRegistry) (t : ScopeTree) : t.Reserves r [] t := fun _ sc h =>
  ⟨sc, h, rfl, rfl, fun _ => ⟨none, by simp, by simp, by simp⟩⟩

theorem Reserves.trans (h : t.Reserves r ms t1) (h' : t1.Reserves r ns t') :
    t.Reserves r (ms ++ ns) t' := by
  intro id sc hsc
  obtain ⟨sc1, hsc1, hp, hk, hb⟩ := h id sc hsc
  obtain ⟨sc', hsc', hp', hk', hb'⟩ := h' id sc1 hsc1
  refine ⟨sc', hsc', hp'.trans hp, hk'.trans hk, fun x => ?_⟩
  obtain ⟨new, hl, hnew, hiff⟩ := hb x
  obtain ⟨new', hl', hnew', hiff'⟩ := hb' x
  refine ⟨new.or new', by rw [hl', hl, Option.or_assoc], fun b hx => ?_, ?_⟩
  · rcases Option.or_eq_some_iff.1 hx with hx | ⟨-, hx⟩
    · exact hnew b hx
    · exact hnew' b hx
  · rw [Option.isSome_or, Bool.or_eq_true, hiff, hiff']
    constructor
    · rintro (⟨m, hm, h⟩ | ⟨m, hm, h⟩)
      · exact ⟨m, List.mem_append_left _ hm, h⟩
      · exact ⟨m, List.mem_append_right _ hm, h⟩
    · rintro ⟨m, hm, h⟩
      exact (List.mem_append.1 hm).imp (fun hm => ⟨m, hm, h⟩) fun hm => ⟨m, hm, h⟩

theorem reserves_one (type : Ty) (hf : type.isFunction = true) (hc : r.memberScope? c = some scope)
    (h : ∀ id sc, t.scopes.get? id = some sc → ∃ sc', t'.scopes.get? id = some sc' ∧
      sc'.parent = sc.parent ∧ sc'.kind = sc.kind ∧ ∀ y, sc'.bindings.lookup y =
        (sc.bindings.lookup y).or (if id = scope ∧
          y = x then some { type, offset := none } else none)) :
    t.Reserves r [(c, x)] t' := by
  intro id sc hsc
  obtain ⟨sc', hsc', hp, hk, hb⟩ := h id sc hsc
  refine ⟨sc', hsc', hp, hk, fun y => ⟨_, hb y, fun b hx => ?_, ?_⟩⟩
  · split at hx
    · cases hx
      exact ⟨hf, rfl⟩
    · cases hx
  · simp only [List.mem_singleton, exists_eq_left, hc, Option.some.injEq]
    split
    · rename_i heq
      exact ⟨fun _ => ⟨heq.1.symm, heq.2.symm⟩, fun _ => rfl⟩
    · rename_i hne
      exact ⟨fun h => by simp at h, fun heq => absurd ⟨heq.1.symm, heq.2.symm⟩ hne⟩

/-- A name that is taken needs no new binding. -/
theorem reserves_taken {b : Binding} (hc : r.memberScope? c = some scope)
    (hsc : t.scopes.get? scope = some sc)
    (hx : sc.bindings.lookup x = some b) : t.Reserves r [(c, x)] t := by
  refine reserves_one (.function [] .void false) rfl hc fun id sc0 hsc0 =>
    ⟨sc0, hsc0, rfl, rfl, fun y => ?_⟩
  split
  · rename_i heq
    obtain ⟨rfl, rfl⟩ := heq
    rw [hsc] at hsc0
    cases hsc0
    rw [hx]
    rfl
  · rw [Option.or_none]

theorem reserveIn_reserves (h : t.reserveIn scope x type = .ok (free, t'))
    (hf : type.isFunction = true) (hc : r.memberScope? c = some scope)
    (hsc : t.scopes.get? scope = some sc)
    (hx : sc.bindings.lookup x = none) : t.Reserves r [(c, x)] t' := by
  refine reserves_one type hf hc fun id sc0 hsc0 => ?_
  have hget : ∀ j, t'.scopes.get? j = if j = scope then
      some { sc with bindings := (x, { type, offset := none }) :: sc.bindings }
      else t.scopes.get? j := by
    rcases reserveIn_ok h with ⟨rfl, rfl⟩ | ⟨-, sc', hsc', -, hget⟩
    · unfold reserveIn at h
      rw [binding?_eq hsc, hx] at h
      obtain ⟨o, ho, h⟩ := except_bind_eq_ok.1 h
      cases ho
      obtain ⟨t1, -, h⟩ := except_bind_eq_ok.1 h
      cases h
    · rw [hsc] at hsc'
      cases hsc'
      exact hget
  rw [hget]
  split
  · rename_i heq
    subst heq
    rw [hsc] at hsc0
    cases hsc0
    refine ⟨_, rfl, rfl, rfl, fun y => ?_⟩
    rw [List.lookup_cons]
    by_cases hy : y = x
    · subst hy
      simp [hx]
    · simp [beq_eq_false_iff_ne.2 hy, hy]
  · rename_i hne
    exact ⟨sc0, hsc0, rfl, rfl, fun y => by simp [hne]⟩

end ScopeTree

theorem Tables.Whole.reserveIn {scopes : ScopeTree} (h : t.Whole)
    (hf : type.isFunction = true) (hr : t.scopes.reserveIn scope x type = .ok (free, scopes)) :
    { t with scopes }.Whole := by
  refine h.grow (ScopeTree.reserveIn_grows hr) (ScopeTree.reserveIn_laid hr hf h.laid) ?_
  rintro j y b ⟨-, -, rfl⟩
  revert hf
  cases type <;> simp [Ty.isFunction, Ty.Known]

/-- No function has a scope yet. -/
def FunctionTable.Fresh (t : FunctionTable) : Prop :=
  ∀ i f, t.functions.get? i = some f → f.scope = none

/-- The class has no field like the method. -/
def Tables.Unfielded (t : Tables) (m : ClassType × String) : Prop :=
  ∀ id sc, t.types.memberScope? m.1 = some id → t.scopes.scopes.get? id = some sc →
    sc.bindings.lookup m.2 = none

namespace Check

variable {s s1 s2 s' : CheckState}

/-- The names of methods have been reserved, and nothing else has been done. -/
structure ReservesMethods (start : Tables) (methods : List (ClassType × String))
    (s s' : CheckState) : Prop where
  adds : s.Adds s'
  registry : s'.tables.types = s.tables.types
  functions : s'.tables.functions = s.tables.functions
  annotations : s'.tables.annotations = s.tables.annotations
  whole : s'.tables.Whole
  reserves : s.tables.scopes.Reserves s.tables.types methods s'.tables.scopes
  locks : s.tables.scopes.LocksGlobal → s'.tables.scopes.LocksGlobal
  verdict : s.Verdict (∀ m ∈ methods, start.Unfielded m) s'

theorem reserveMethod_sat {done : List (ClassType × String)}
    (hplain : ∀ id sc x b, start.scopes.scopes.get? id = some sc →
      sc.bindings.lookup x = some b → b.type.isFunction = false) (hstart : start.Whole)
    (htypes : s.tables.types = start.types) (hw : s.tables.Whole)
    (hr : start.scopes.Reserves start.types done s.tables.scopes)
    (hc : s.tables.types.memberScope? c = some scope) :
    Sat (reserveMethod c scope name signature span) s
      fun _ s' => ReservesMethods start [(c, name)] s s' := by
  obtain ⟨sc0, hsc0, -⟩ := hstart.members c scope (htypes ▸ hc)
  obtain ⟨sc, hsc, -, -, hb⟩ := hr scope sc0 hsc0
  obtain ⟨new, hl, hnew, -⟩ := hb name
  -- The names that are taken from the start are those of fields.
  have hfield : start.Unfielded (c, name) ↔ ∀ b, sc.bindings.lookup name = some b →
      b.type.isFunction = true := by
    constructor
    · intro h b hx
      rw [hl, h scope sc0 (htypes ▸ hc) hsc0] at hx
      exact (hnew b hx).1
    · intro h id sc1 hid hsc1
      have hid' : id = scope := by
        rw [htypes] at hc
        exact Option.some.inj (hid.symm.trans hc)
      subst hid'
      rw [hsc0] at hsc1
      cases hsc1
      cases hx : sc0.bindings.lookup name with
      | none => rfl
      | some b =>
        have htrue := h b (by rw [hl, hx]; rfl)
        rw [hplain _ _ _ _ hsc0 hx] at htrue
        cases htrue
  refine .binding? hsc ?_
  cases hx : sc.bindings.lookup name with
  | some b =>
    refine reportIf_sat.weaken fun _ s' h => ?_
    have hm : s.Marks [] s' := h.marks
    refine ⟨h.adds, by rw [h.tables], by rw [h.tables], by rw [h.tables], hm.whole hw, ?_,
      by rw [h.tables]; exact id, h.adds, ?_⟩
    · rw [h.tables]
      exact ScopeTree.reserves_taken hc hsc hx
    · rw [h.quiet, List.forall_mem_singleton, hfield]
      simp [hx]
  | none =>
    obtain ⟨free, scopes, hres⟩ := ScopeTree.exists_reserveIn hsc name signature.type
    refine .discard ⟨free, _, reserveIn_eq_ok.2 ⟨scopes, hres, rfl⟩, .refl _, rfl, rfl, rfl, ?_,
      ScopeTree.reserveIn_reserves hres rfl hc hsc hx, ScopeTree.reserveIn_locks hres rfl,
      .ofQuiet rfl ?_⟩
    · exact hw.reserveIn rfl hres
    · rw [List.forall_mem_singleton, hfield]
      simp [hx]

/-! ## The function table -/

/-- A function is added, unless there is one that the same calls mean. -/
theorem defineFunction_sat {isThread : Bool} {owner : Option ClassType} {node : Node}
    (hn : s.tables.functions.lookup node.id = none) :
    Sat (defineFunction name signature isThread owner node) s fun _ s' =>
      s'.tables.types = s.tables.types ∧ s'.tables.scopes = s.tables.scopes ∧
      s'.tables.annotations = s.tables.annotations ∧
      (s.tables.functions.Fresh → s'.tables.functions.Fresh) ∧
      s.Verdict (s.tables.functions.heads.find?
        (·.matches name signature.arguments signature.isMethod) = none) s' ∧
      ((s'.tables.functions.heads = s.tables.functions.heads ++
        [({ name, signature, isThread, owner } : Function)] ∧
        s'.tables.functions.lookup node.id = some s.tables.functions.heads.length ∧
        ∀ n, n ≠ node.id → s'.tables.functions.lookup n = s.tables.functions.lookup n) ∨
      ¬ s.Quiet s' ∧ s'.Reports .duplicateFunction ∧
        s'.tables.functions = s.tables.functions) := by
  have hfind := s.tables.functions.resolveCall_heads name signature.arguments signature.isMethod
  refine .tables ?_
  unfold FunctionTable.define
  cases hres : s.tables.functions.resolveCall name signature.arguments signature.isMethod with
  | some i =>
    obtain ⟨f, hf, -⟩ := FunctionTable.resolveCall_eq_some hres
    rw [hres, Option.bind_some, hf] at hfind
    have hsome : ¬ s.tables.functions.heads.find?
        (·.matches name signature.arguments signature.isMethod) = none := by
      intro h
      rw [h] at hfind
      cases hfind
    have ht := Tests.fail (s := s) ⟨.functionRedefined name signature, node.span⟩ hsome
    exact .report ⟨rfl, rfl, rfl, id, ⟨ht.adds, ht.quiet⟩,
      .inr ⟨not_quiet_push s _, reports_push s _, rfl⟩⟩
  | none =>
    rw [hres] at hfind
    have hnone : s.tables.functions.heads.find?
        (·.matches name signature.arguments signature.isMethod) = none :=
      Option.map_eq_none_iff.1 hfind.symm
    let functions : FunctionTable := { s.tables.functions with
      functions := s.tables.functions.functions.push { name, signature, isThread, owner } }
    refine .step rfl ?_
    refine (bindFunction_sat (s := { s with tables := { s.tables with functions } }) hn).weaken
      fun _ s' ⟨hm, hq, ha, hl, hf⟩ => ⟨hm.registry, hm.tree, ha, fun hfresh i g hg => ?_,
        .ofQuiet hq hnone, .inl ⟨?_, ?_, fun n hne => ?_⟩⟩
    · rw [hf, Slots.get?_push] at hg
      split at hg
      · cases hg
        rfl
      · exact hfresh i g hg
    · rw [hm.functions]
      simp [functions, FunctionTable.heads, Slots.toList, Slots.push]
    · rw [hl]
      simp [FunctionTable.heads, Slots.toList, Slots.nextId, Slots.size]
    · exact hm.calls n (by simpa using hne)

end Check

/-- The entry of a function in the table. -/
structure Callable.Declares (types : String → Option Ty) (f : Callable) (h : Function) : Prop where
  name : h.name = f.name
  arguments : f.arguments types = some h.signature.arguments
  result : f.result.denotes types = some h.signature.result
  isMethod : h.signature.isMethod = f.owner.isSome
  /-- No method is started as a thread. -/
  runs : h.signature.isMethod = true → h.isThread = false

section

variable {types : String → Option Ty} {fs : List Callable} {hs : List Function}

theorem Callable.Declares.matches_iff {h : Function} (hd : f.Declares types h) {arguments : List Ty}
    {isMethod : Bool} :
    h.matches name arguments isMethod =
      (f.name == name && f.owner.isSome == isMethod && f.arguments types == some arguments) := by
  rw [Function.matches, hd.name, hd.arguments, hd.isMethod]
  simp

/-- A call means the same in the table as in the rules. -/
theorem find?_matches (h : List.Forall₂ (Callable.Declares types) fs hs) (name : String)
    (arguments : List Ty) (isMethod : Bool) :
    (hs.find? (·.matches name arguments isMethod)).map (·.signature.result) =
      (fs.find? fun f => f.name == name && f.owner.isSome == isMethod &&
        f.arguments types == some arguments).bind (·.result.denotes types) := by
  induction h with
  | nil => rfl
  | cons hd _ ih =>
    rw [List.find?_cons, List.find?_cons, hd.matches_iff]
    split
    · exact hd.result.symm
    · exact ih

theorem find?_matches_eq_none_iff (h : List.Forall₂ (Callable.Declares types) fs hs)
    (ha : f.arguments types = some signature.arguments) (hm : signature.isMethod = f.owner.isSome) :
    hs.find? (·.matches f.name signature.arguments signature.isMethod) = none ↔
      ∀ g ∈ fs, ¬ g.Clashes types f := by
  induction h with
  | nil => simp
  | @cons g h gs hs hd _ ih =>
    rw [List.forall_mem_cons, ← ih, List.find?_cons, hd.matches_iff]
    unfold Callable.Clashes
    split <;> simp_all

end

theorem Tables.Whole.replaceFunctions {t' : Tables} (h : t.Whole) (htypes : t'.types = t.types)
    (hscopes : t'.scopes = t.scopes)
    (hf : ∀ f ∈ t'.functions.heads, (∀ τ ∈ f.signature.arguments, τ.Known t.types) ∧
      f.signature.result.Known t.types) : t'.Whole := by
  obtain ⟨hl, hb, hm, hc, -, -, ha⟩ := h
  refine ⟨?_, ?_, ?_, ?_, ?_, ?_, ?_⟩ <;> simp only [htypes, hscopes] <;> try assumption
  · exact fun f hmem => (hf f hmem).1
  · exact fun f hmem => (hf f hmem).2

/-! ## Signatures -/

/-- The rules for the signatures of functions and the names of methods. -/
structure Tables.Collectable (start : Tables) (types : String → Option Ty) (fs : List Callable)
    (methods : List (ClassType × String)) : Prop where
  signatures : ∀ f ∈ fs, f.SignatureTyped types
  methods : ∀ m ∈ methods, start.Unfielded m
  overloads : fs.Pairwise fun f g => ¬ f.Clashes types g

theorem Tables.collectable_snoc {types : String → Option Ty} :
    start.Collectable types (fs ++ [f]) (ms ++ ns) ↔ start.Collectable types fs ms ∧
      f.SignatureTyped types ∧ (∀ m ∈ ns, start.Unfielded m) ∧ ∀ g ∈ fs, ¬ g.Clashes types f := by
  constructor
  · rintro ⟨hsig, hm, hover⟩
    rw [List.forall_mem_append] at hsig hm
    rw [List.pairwise_append] at hover
    exact ⟨⟨hsig.1, hm.1, hover.1⟩, hsig.2 f (.head _), hm.2, fun g hg =>
      hover.2.2 g hg f (.head _)⟩
  · rintro ⟨⟨hsig, hm, hover⟩, hf, hn, hclash⟩
    refine ⟨?_, List.forall_mem_append.2 ⟨hm, hn⟩, List.pairwise_append.2 ⟨hover, by simp, ?_⟩⟩
    · exact List.forall_mem_append.2 ⟨hsig, List.forall_mem_singleton.2 hf⟩
    · intro g hg h hh
      rw [List.mem_singleton.1 hh]
      exact hclash g hg

namespace Check

variable {sub : Ty} [sub.StandIn] {s s1 s2 s3 s' : CheckState}

/-- The signature of a function has been resolved. -/
structure Signed (f : Callable) (signature : Signature) (s s' : CheckState) : Prop where
  adds : s.Adds s'
  tables : s'.tables = s.tables
  arguments : ∀ τ ∈ signature.arguments, τ.Known s.tables.types
  result : signature.result.Known s.tables.types
  isMethod : signature.isMethod = f.owner.isSome
  verdict : s.Verdict (f.SignatureTyped s.tables.types.lookup) s'
  eq : f.SignatureTyped s.tables.types.lookup →
    f.arguments s.tables.types.lookup = some signature.arguments ∧
      f.result.denotes s.tables.types.lookup = some signature.result

/-- The functions `fs` and the names of `methods` are in the tables. -/
structure Collects (fs : List Callable) (methods : List (ClassType × String))
    (s s' : CheckState) : Prop where
  adds : s.Adds s'
  registry : s'.tables.types = s.tables.types
  annotations : s'.tables.annotations = s.tables.annotations
  whole : s'.tables.Whole
  reserves : s.tables.scopes.Reserves s.tables.types methods s'.tables.scopes
  locks : s.tables.scopes.LocksGlobal → s'.tables.scopes.LocksGlobal
  fresh : s'.tables.functions.Fresh
  calls : ∀ n, n ∉ fs.map (·.node.id) → s'.tables.functions.lookup n = none
  bound : ∀ n i, s'.tables.functions.lookup n = some i → i < s'.tables.functions.heads.length
  full : s'.Reports .duplicateFunction ∨ ∀ f ∈ fs, ∃ i,
    s'.tables.functions.lookup f.node.id = some i
  verdict : s.Verdict (s.tables.Collectable s.tables.types.lookup fs methods) s'
  faithful : s.tables.Collectable s.tables.types.lookup fs methods →
    List.Forall₂ (Callable.Declares s.tables.types.lookup) fs s'.tables.functions.heads ∧
    ∀ j f, fs[j]? = some f → s'.tables.functions.lookup f.node.id = some j

/-- One more function. -/
theorem Collects.define {methods : List (ClassType × String)} (isThread : Bool)
    (owner : Option ClassType) (hruns : signature.isMethod = true → isThread = false)
    (h : Collects fs methods s s1) (hsig : Signed f signature s1 s2)
    (hres : ReservesMethods s.tables ns s2 s3) (hn : f.node.id ∉ fs.map (·.node.id)) :
    Sat (defineFunction f.name signature isThread owner f.node) s3 fun _ s' =>
      Collects (fs ++ [f]) (methods ++ ns) s s' := by
  have hfuns : s3.tables.functions = s1.tables.functions := by rw [hres.functions, hsig.tables]
  have htypes3 : s3.tables.types = s.tables.types := by rw [hres.registry, hsig.tables, h.registry]
  have hsigned := hsig.verdict
  have heq := hsig.eq
  rw [h.registry] at hsigned heq
  refine (defineFunction_sat (by rw [hfuns]; exact h.calls _ hn)).weaken
    fun _ s' ⟨htypes, hscopes, hann, hfresh, hv, hcase⟩ => ?_
  rw [hfuns] at hfresh hv hcase
  have hadds := (h.adds.trans hsig.adds).trans (hres.adds.trans hv.adds)
  have hverdict : s.Verdict
      (s.tables.Collectable s.tables.types.lookup (fs ++ [f]) (methods ++ ns)) s' := by
    refine Verdict.congr (.and h.verdict (hsig.adds.trans (hres.adds.trans hv.adds)) fun hdone =>
      .and hsigned (hres.adds.trans hv.adds) fun hf => .and hres.verdict hv.adds fun _ =>
      hv.congr ?_) Tables.collectable_snoc.symm
    exact find?_matches_eq_none_iff (h.faithful hdone).1 (heq hf).1 hsig.isMethod
  have hreserves : s.tables.scopes.Reserves s.tables.types (methods ++ ns) s'.tables.scopes := by
    have := hres.reserves
    rw [hsig.tables, h.registry] at this
    rw [hscopes]
    exact h.reserves.trans this
  have hlocks : s.tables.scopes.LocksGlobal → s'.tables.scopes.LocksGlobal := fun hl => by
    rw [hscopes]
    exact hres.locks (hsig.tables ▸ h.locks hl)
  rcases hcase with ⟨hheads, hnode, hother⟩ | ⟨hnot, hreports, hsame⟩
  · have hw : s'.tables.Whole := by
      refine hres.whole.replaceFunctions htypes hscopes fun g hg => ?_
      rw [htypes3, ← h.registry]
      rw [hheads, List.mem_append, List.mem_singleton] at hg
      rcases hg with hg | rfl
      · exact ⟨h.whole.arguments g hg, h.whole.results g hg⟩
      · exact ⟨hsig.arguments, hsig.result⟩
    refine ⟨hadds, by rw [htypes, htypes3],
      by rw [hann, hres.annotations, hsig.tables, h.annotations],
      hw, hreserves, hlocks, hfresh h.fresh, fun n hmem => ?_, fun n i hi => ?_, ?_, hverdict,
      fun hall => ?_⟩
    · rw [List.map_append, List.mem_append, List.map_singleton, List.mem_singleton, not_or] at hmem
      rw [hother n hmem.2]
      exact h.calls n hmem.1
    · rw [hheads, List.length_append]
      by_cases hne : n = f.node.id
      · subst hne
        rw [hnode] at hi
        cases hi
        simp
      · rw [hother n hne] at hi
        exact Nat.lt_add_right _ (h.bound n i hi)
    · refine h.full.imp (·.after (hsig.adds.trans (hres.adds.trans hv.adds))) fun hall => ?_
      rw [List.forall_mem_append, List.forall_mem_singleton]
      refine ⟨fun g hg => ?_, _, hnode⟩
      rw [hother _ fun heq => hn (heq ▸ List.mem_map.2 ⟨g, hg, rfl⟩)]
      exact hall g hg
    · obtain ⟨hdone, hf, -⟩ := Tables.collectable_snoc.1 hall
      obtain ⟨hforall, hlookup⟩ := h.faithful hdone
      obtain ⟨harg, hresult⟩ := heq hf
      refine ⟨?_, fun j g hj => ?_⟩
      · rw [hheads]
        exact List.rel_append hforall (.cons ⟨rfl, harg, hresult, hsig.isMethod, hruns⟩ .nil)
      · rw [List.getElem?_append] at hj
        split at hj
        · have hmem : g.node.id ∈ fs.map (·.node.id) :=
            List.mem_map.2 ⟨g, List.mem_of_getElem? hj, rfl⟩
          rw [hother _ fun heq => hn (heq ▸ hmem)]
          exact hlookup j g hj
        · rw [List.getElem?_singleton] at hj
          split at hj
          · cases hj
            rw [hnode, ← hforall.length_eq]
            congr 1
            omega
          · cases hj
  · have hw : s'.tables.Whole := hres.whole.replaceFunctions htypes hscopes fun g hg => by
      rw [htypes3, ← h.registry]
      rw [hsame] at hg
      exact ⟨h.whole.arguments g hg, h.whole.results g hg⟩
    refine ⟨hadds, by rw [htypes, htypes3],
      by rw [hann, hres.annotations, hsig.tables, h.annotations],
      hw, hreserves, hlocks, hfresh h.fresh, fun n hmem => ?_,
      by rw [hsame]; exact h.bound, .inl hreports, hverdict,
      fun hall => ?_⟩
    · rw [List.map_append, List.mem_append, not_or] at hmem
      rw [hsame]
      exact h.calls n hmem.1
    · -- Something has been reported, so the rules do not hold.
      have hq := hverdict.quiet.2 hall
      have hquiet : s3.Quiet s' :=
        ((quiet_trans_iff ((h.adds.trans hsig.adds).trans hres.adds) hv.adds).1 hq).2
      exact absurd hquiet hnot

theorem ResolvesAll.mapM {τs : List Ty} (h : ResolvesAll ps s τs s')
    (hps : ∀ p ∈ ps, ∃ τ, p.type.denotes s.tables.types.lookup = some τ ∧ τ ≠ .void ∧ τ ≠ .lock) :
    (ps.mapM fun p => p.type.denotes s.tables.types.lookup) = some τs := by
  obtain ⟨σs, hσs⟩ := exists_mapM_denotes hps
  rw [hσs, h.eq σs hσs]

section

variable {fs : List Callable} {methods : List (ClassType × String)} {c : ClassType}

theorem ReservesMethods.refl (hw : s.tables.Whole) : ReservesMethods start [] s s :=
  ⟨.refl s, rfl, rfl, rfl, hw, .refl _ _, id, .ofQuiet rfl (by simp)⟩

theorem declareMethod_sat {m : FunctionDef}
    (hplain : ∀ id sc x b, s.tables.scopes.scopes.get? id = some sc →
      sc.bindings.lookup x = some b → b.type.isFunction = false) (hw : s.tables.Whole)
    (h : Collects fs methods s s1) (hc : s1.tables.types.memberScope? c = some scope)
    (hn : m.node.id ∉ fs.map (·.node.id)) :
    Sat (declareMethod sub c scope m) s1 fun _ s' =>
      Collects (fs ++ [m.callable (some c)]) (methods ++ [(c, m.name)]) s s' := by
  unfold declareMethod
  refine reportThen_sat fun s2 ht => ?_
  refine .bind (parameterTypes_sat m.parameters) fun τs s3 hps => ?_
  refine .bind (resultType_sat m.returnType) fun result s4 hres => ?_
  have ht3 : s3.tables = s1.tables := by rw [hps.tables, ht.tables]
  have htables : s4.tables = s1.tables := hres.tables.trans ht3
  have hw1 := h.whole
  have hsig : Signed (m.callable (some c))
      { arguments := .object c :: τs, result, isMethod := true } s1 s4 := by
    refine ⟨ht.adds.trans (hps.adds.trans hres.adds), htables, ?_, ?_, rfl, ?_,
      fun hall => ⟨?_, ?_⟩⟩
    · rw [List.forall_mem_cons]
      refine ⟨⟨scope, hc⟩, fun τ hτ => hw1.known ?_⟩
      exact ht.tables ▸ hps.registered τ hτ
    · have := hres.registered
      rw [ht3] at this
      exact hw1.known this
    · refine Verdict.congr (.and ⟨ht.adds, ht.quiet⟩ (hps.adds.trans hres.adds) fun _ =>
        hps.verdict.and hres.adds fun _ => hres.verdict) ?_
      rw [ht3, ht.tables]
      constructor
      · rintro ⟨hthread, hp, hr⟩
        exact ⟨hp, hr, fun h => absurd h hthread⟩
      · rintro ⟨hp, hr, hthread⟩
        exact ⟨fun h => (nomatch (hthread h).1), hp, hr⟩
    · rw [← ht.tables] at hall ⊢
      exact congrArg (Option.map _) (hps.mapM hall.parameters)
    · obtain ⟨τ, hτ, -⟩ := hall.result
      rw [hres.eq τ (ht3 ▸ hτ)]
      exact hτ
  refine .bind (reserveMethod_sat hplain hw (htables ▸ h.registry) (htables ▸ hw1)
    (by rw [htables]; exact h.reserves) (by rw [htables]; exact hc)) fun _ s5 hr => ?_
  exact h.define false (some c) (fun _ => rfl) hsig hr hn

theorem declareConstructor_sat {k : ConstructorDef} (h : Collects fs methods s s1)
    (hc : ∃ scope, s1.tables.types.memberScope? c = some scope)
    (hn : k.node.id ∉ fs.map (·.node.id)) : Sat (declareConstructor sub c k) s1
      fun _ s' => Collects (fs ++ [k.callable c]) methods s s' := by
  refine .bind (parameterTypes_sat k.parameters) fun τs s2 hps => ?_
  have hw1 := h.whole
  have hsig : Signed (k.callable c)
      { arguments := .object c :: τs, result := .void, isMethod := true } s1 s2 := by
    refine ⟨hps.adds, hps.tables, ?_, trivial, rfl, hps.verdict.congr ?_, fun hall => ⟨?_, rfl⟩⟩
    · rw [List.forall_mem_cons]
      exact ⟨hc, fun τ hτ => hw1.known (hps.registered τ hτ)⟩
    · constructor
      · exact fun hp => ⟨hp, ⟨.void, rfl, by simp⟩, fun h => nomatch h⟩
      · exact fun hall => hall.parameters
    · exact congrArg (Option.map _) (hps.mapM hall.parameters)
  have hdef := h.define false (some c) (fun _ => rfl) hsig
    (.refl (by rw [hps.tables]; exact hw1)) hn
  rwa [List.append_nil] at hdef

theorem declareFunction_sat {f : FunctionDef} (h : Collects fs methods s s1)
    (hn : f.node.id ∉ fs.map (·.node.id)) :
    Sat (declareFunction sub f) s1 fun _ s' => Collects (fs ++ [f.callable none]) methods s s' := by
  refine .bind (parameterTypes_sat f.parameters) fun τs s2 hps => ?_
  refine .bind (resultType_sat f.returnType) fun result s3 hres => ?_
  refine reportThen_sat fun s4 ht => ?_
  have htables : s4.tables = s1.tables := by rw [ht.tables, hres.tables, hps.tables]
  have hw1 := h.whole
  have hresult := hres.verdict
  have heq := hres.eq
  rw [hps.tables] at hresult heq
  have hsig : Signed (f.callable none) { arguments := τs, result, isMethod := false } s1 s4 := by
    refine ⟨hps.adds.trans (hres.adds.trans ht.adds), htables, fun τ hτ =>
      hw1.known (hps.registered τ hτ), ?_, rfl, ?_, fun hall => ⟨?_, ?_⟩⟩
    · have := hres.registered
      rw [hps.tables] at this
      exact hw1.known this
    · refine Verdict.congr (.and hps.verdict (hres.adds.trans ht.adds) fun _ =>
        .and hresult ht.adds fun _ => ⟨ht.adds, ht.quiet⟩) ?_
      have hnil : τs = [] ↔ f.parameters = [] := by
        rw [← List.length_eq_zero_iff, hps.length, List.length_eq_zero_iff]
      constructor
      · rintro ⟨hp, ⟨τ, hτ, hl⟩, hthread⟩
        obtain rfl := heq τ hτ
        refine ⟨hp, ⟨result, hτ, hl⟩, fun hf => ⟨rfl, ?_, ?_⟩⟩
        · have hf' : f.isThread = true := hf
          simp [hf'] at hthread
          exact hnil.1 hthread.1
        · have hf' : f.isThread = true := hf
          simp [hf'] at hthread
          exact hthread.2 ▸ hτ
      · rintro ⟨hp, hr, hthread⟩
        refine ⟨hp, hr, fun hf => ?_⟩
        simp only [Bool.and_eq_true, Bool.or_eq_true, Bool.not_eq_true', List.isEmpty_eq_false_iff,
          bne_iff_ne] at hf
        obtain ⟨-, hnone, hvoid⟩ := hthread hf.1
        rcases hf.2 with hargs | hne
        · exact hargs (hnil.2 hnone)
        · exact hne (heq .void hvoid)
    · rw [Callable.arguments]
      rw [show (f.callable none).parameters = f.parameters from rfl, hps.mapM hall.parameters]
      rfl
    · obtain ⟨τ, hτ, -⟩ := hall.result
      rw [heq τ hτ]
      exact hτ
  have hdef := h.define f.isThread none (by simp) hsig
    (.refl (by rw [htables]; exact hw1)) hn
  rwa [List.append_nil] at hdef

/-- The methods of a class, as their class and their name. -/
def methodNames (p : ClassDef × ClassType) : List (ClassType × String) :=
  p.1.methods.map fun m => (p.2, m.name)

theorem declareMembers_sat
    (hplain : ∀ id sc x b, s.tables.scopes.scopes.get? id = some sc →
      sc.bindings.lookup x = some b → b.type.isFunction = false) (hw : s.tables.Whole)
    (h : Collects fs methods s s1) (hc : s1.tables.types.memberScope? p.2 = some scope)
    (hn : ((fs ++ p.1.callables p.2).map (·.node.id)).Nodup) :
    Sat (do
        p.1.methods.forM (declareMethod sub p.2 scope)
        p.1.constructors.forM (declareConstructor sub p.2)) s1 fun _ s' =>
      Collects (fs ++ p.1.callables p.2) (methods ++ methodNames p) s s' := by
  have hc0 : s.tables.types.memberScope? p.2 = some scope := h.registry ▸ hc
  have hnew : ∀ done a rest, p.1.callables p.2 = done ++ a :: rest →
      a.node.id ∉ (fs ++ done).map (·.node.id) := by
    intro done a rest hl hmem
    rw [hl, ← List.append_assoc, List.map_append, List.nodup_append] at hn
    exact hn.2.2 _ hmem _ (.head _) rfl
  refine .bind (.forM (I := fun done s' => Collects (fs ++ done.map (·.callable (some p.2)))
    (methods ++ done.map fun m => (p.2, m.name)) s s') (fun done m rest s2 hl h2 => ?_)
    (by simpa using h)) fun _ s3 h3 => ?_
  · rw [List.map_append, List.map_append, ← List.append_assoc, ← List.append_assoc]
    refine declareMethod_sat hplain hw h2 (h2.registry ▸ hc0) ?_
    refine hnew _ (m.callable (some p.2)) (rest.map (·.callable (some p.2)) ++
      p.1.constructors.map (·.callable p.2)) ?_
    simp [ClassDef.callables, hl]
  · refine (Sat.forM (I := fun done s' =>
      Collects (fs ++ (p.1.methods.map (·.callable (some p.2)) ++
      done.map (·.callable p.2))) (methods ++ methodNames p) s s') (fun done k rest s2 hl h2 => ?_)
      (by simpa [methodNames] using h3)).weaken fun _ s' h => h
    rw [List.map_append, ← List.append_assoc, ← List.append_assoc]
    refine declareConstructor_sat (by rw [List.append_assoc]; exact h2)
      ⟨scope, h2.registry ▸ hc0⟩ ?_
    rw [List.append_assoc]
    refine hnew _ (k.callable p.2) (rest.map (·.callable p.2)) ?_
    simp [ClassDef.callables, hl]

end

/-- Collecting functions always succeeds and decides the rules for signatures. -/
theorem declareFunctions_sat {u : SourceUnit} {ps : TypedClasses} (hd : TypesDeclared u ps s)
    (hn : ((callablesOf ps u.functions).map (·.node.id)).Nodup) :
    Sat (declareFunctions sub u ps) s fun _ s' =>
      Collects (callablesOf ps u.functions) (ps.flatMap methodNames) s s' := by
  have h0 : Collects [] [] s s := by
    refine ⟨.refl s, rfl, rfl, hd.whole, .refl _ _, id, fun i f hf => ?_, fun n _ => ?_,
      fun n i hi => ?_, .inr (by simp),
      .ofQuiet rfl ⟨by simp, by simp, .nil⟩, fun _ => ?_⟩
    · rw [hd.functions] at hf
      cases hf
    · rw [hd.functions]
      rfl
    · rw [hd.functions] at hi
      cases hi
    · rw [hd.functions]
      exact ⟨.nil, by simp⟩
  have hinit : ∀ fs, fs <+: callablesOf ps u.functions → (fs.map (·.node.id)).Nodup := fun fs h =>
    hn.sublist (h.map _).sublist
  refine .bind (.forM (I := fun done s' => Collects (done.flatMap fun p => p.1.callables p.2)
    (done.flatMap methodNames) s s') (fun done p rest s1 hl h1 => ?_) h0) fun _ s1 h1 => ?_
  · obtain ⟨scope, hc⟩ := hd.member p (by rw [hl]; simp)
    rw [← h1.registry] at hc
    refine .memberScope hc ?_
    rw [List.flatMap_append, List.flatMap_append, List.flatMap_singleton, List.flatMap_singleton]
    refine declareMembers_sat hd.plain hd.whole h1 hc (hinit _ ?_)
    refine ⟨rest.flatMap (fun p => p.1.callables p.2) ++ u.functions.map (·.callable none), ?_⟩
    simp [callablesOf, hl]
  · refine .forM (I := fun done s' => Collects (callablesOf ps done) (ps.flatMap methodNames) s s')
      (fun done f rest s2 hl h2 => ?_) (by simpa [callablesOf] using h1)
    rw [callablesOf, List.map_append, ← List.append_assoc]
    refine declareFunction_sat h2 fun hmem => ?_
    have := hinit (callablesOf ps done ++ [f.callable none]) ⟨rest.map (·.callable none), by
      simp [callablesOf, hl]⟩
    rw [List.map_append, List.nodup_append] at this
    exact this.2.2 _ hmem _ (.head _) rfl

end Check

/-! ## The first pass -/

/-- The rules for everything but code. -/
structure SourceUnit.DeclarationsTyped (u : SourceUnit) : Prop where
  typeNames : (u.namedTypes.map (·.1)).Nodup
  members : ∀ d ∈ u.classes, d.MembersTyped u.type?
  signatures : ∀ f ∈ u.callables, f.SignatureTyped u.type?
  overloads : u.callables.Pairwise fun f g => ¬ f.Clashes u.type? g

/-- The class has a member scope that binds its fields and methods. -/
def Tables.HasMembers (t : Tables) (types : String → Option Ty) (p : ClassDef × ClassType) : Prop :=
  ∃ id sc, t.types.memberScope? p.2 = some id ∧ t.scopes.scopes.get? id = some sc ∧
    sc.parent = some ScopeTree.globalId ∧ sc.Shows (p.1.names types)

namespace Check

variable {s s' : CheckState} {u : SourceUnit} {ps : TypedClasses}

theorem lookup_methods (methods : List FunctionDef) (x : String) :
    (methods.map fun m => (m.name, (none : Option Ty))).lookup x =
      if x ∈ methods.map (·.name) then some none else none := by
  induction methods with
  | nil => rfl
  | cons m methods ih =>
    rw [List.map_cons, List.lookup_cons, ih]
    by_cases hx : x = m.name
    · simp [hx]
    · rw [beq_eq_false_iff_ne.2 hx]
      simp [hx]

/-- The members of a class once its methods are reserved. -/
theorem TypesDeclared.lookup_member (hd : TypesDeclared u ps s)
    (hr : s.tables.scopes.Reserves s.tables.types (ps.flatMap methodNames) s'.tables.scopes)
    (hp : p ∈ ps) {id : ScopeId} (hid : s.tables.types.memberScope? p.2 = some id)
    (hsc : s.tables.scopes.scopes.get? id = some sc) :
    ∃ sc', s'.tables.scopes.scopes.get? id = some sc' ∧ sc'.parent = sc.parent ∧ ∀ x,
      ∃ new : Option Binding, sc'.bindings.lookup x = (sc.bindings.lookup x).or new ∧
        (∀ b, new = some b → b.type.isFunction = true ∧ b.offset = none) ∧
        (new.isSome = true ↔ x ∈ p.1.methods.map (·.name)) := by
  obtain ⟨sc', hsc', hparent, -, hb⟩ := hr id sc hsc
  refine ⟨sc', hsc', hparent, fun x => ?_⟩
  obtain ⟨new, hl, hnew, hiff⟩ := hb x
  refine ⟨new, hl, hnew, hiff.trans ?_⟩
  constructor
  · rintro ⟨m, hm, hmid, rfl⟩
    obtain ⟨q, hq, hm⟩ := List.mem_flatMap.1 hm
    obtain ⟨f, hf, rfl⟩ := List.mem_map.1 hm
    -- Two classes with one member scope are one class.
    have hindex := hd.single _ _ id hmid hid
    obtain ⟨i, hi⟩ := List.mem_iff_getElem?.1 hp
    obtain ⟨j, hj⟩ := List.mem_iff_getElem?.1 hq
    rw [hd.index j q hj, hd.index i p hi] at hindex
    subst hindex
    rw [hi] at hj
    cases hj
    exact List.mem_map.2 ⟨f, hf, rfl⟩
  · intro hx
    obtain ⟨f, hf, rfl⟩ := List.mem_map.1 hx
    exact ⟨(p.2, f.name), List.mem_flatMap.2 ⟨p, hp, List.mem_map.2 ⟨f, hf, rfl⟩⟩, hid, rfl⟩

theorem collectable_iff (hd : TypesDeclared u ps s) (hn : (u.namedTypes.map (·.1)).Nodup)
    (hf : ∀ d ∈ u.classes, Declaration.FieldsTyped u.type? d.fields) :
    s.tables.Collectable u.type? (callablesOf ps u.functions) (ps.flatMap methodNames) ↔
      u.DeclarationsTyped := by
  obtain ⟨hps, -, -, hbound⟩ := hd.faithful hn hf
  have hmethod : ∀ p ∈ ps, ∀ m ∈ p.1.methods,
      s.tables.Unfielded (p.2, m.name) ↔ ∀ x ∈ p.1.fields, m.name ≠ x.name := by
    intro p hp m _
    obtain ⟨id, sc, hid, hsc, hhas⟩ := hbound p hp
    have hiff := hhas.lookup_eq_none_iff m.name
    constructor
    · exact fun h x hx heq => hiff.1 (h id sc hid hsc) (List.mem_map.2 ⟨x, hx, heq.symm⟩)
    · intro h id' sc' hid' hsc'
      obtain rfl := Option.some.inj (hid.symm.trans hid')
      obtain rfl := Option.some.inj (hsc.symm.trans hsc')
      refine hiff.2 fun hmem => ?_
      obtain ⟨x, hx, heq⟩ := List.mem_map.1 hmem
      exact h x hx heq.symm
  have hall : (∀ m ∈ ps.flatMap methodNames, s.tables.Unfielded m) ↔
      ∀ d ∈ u.classes, ∀ m ∈ d.methods, ∀ x ∈ d.fields, m.name ≠ x.name := by
    rw [← forall_mem_classTypes, ← hps]
    constructor
    · intro h p hp m hm
      exact (hmethod p hp m hm).1 (h _ (List.mem_flatMap.2 ⟨p, hp, List.mem_map.2 ⟨m, hm, rfl⟩⟩))
    · intro h q hq
      obtain ⟨p, hp, hq⟩ := List.mem_flatMap.1 hq
      obtain ⟨m, hm, rfl⟩ := List.mem_map.1 hq
      exact (hmethod p hp m hm).2 (h p hp m hm)
  have hcallables : callablesOf ps u.functions = u.callables := by
    rw [hps]
    rfl
  rw [hcallables]
  constructor
  · rintro ⟨hsig, hm, hover⟩
    exact ⟨hn, fun d hd => ⟨(hf d hd).1, (hf d hd).2, hall.1 hm d hd⟩, hsig, hover⟩
  · rintro ⟨-, hm, hsig, hover⟩
    exact ⟨hsig, hall.2 fun d hd => (hm d hd).methods, hover⟩

theorem field?_eq (hps : ps = u.classTypes) (hp : ps[c.index]? = some p) (x : String) :
    u.globals.field? c x =
      (p.1.fields.find? (·.name == x)).bind fun d => d.type.denotes u.type? := by
  subst hps
  simp only [SourceUnit.classTypes, List.getElem?_map, List.getElem?_zipIdx, Option.map_map,
    Option.map_eq_some_iff] at hp
  obtain ⟨d, hd, rfl⟩ := hp
  simp only [SourceUnit.globals, hd]
  rfl

section
variable (hd : TypesDeclared u ps s)
  (hr : s.tables.scopes.Reserves s.tables.types (ps.flatMap methodNames) s'.tables.scopes)
  (htypes : s'.tables.types = s.tables.types) (hn : (u.namedTypes.map (·.1)).Nodup)
  (hf : ∀ d ∈ u.classes, Declaration.FieldsTyped u.type? d.fields)
include hd hr htypes hn hf

/-- The scope of a class binds the names that the rules give to its members. -/
theorem hasMembers (hp : p ∈ ps) : s'.tables.HasMembers u.type? p := by
  obtain ⟨hps, -, -, hbound⟩ := hd.faithful hn hf
  obtain ⟨id, sc, hid, hsc, hhas⟩ := hbound p hp
  obtain ⟨sc', hsc', hparent, hb⟩ := hd.lookup_member hr hp hid hsc
  obtain ⟨sc0, hsc0, -, hp0, -⟩ := hd.whole.members p.2 id hid
  obtain rfl := Option.some.inj (hsc.symm.trans hsc0)
  refine ⟨id, sc', by rw [htypes]; exact hid, hsc', hparent.trans hp0, fun x => ?_⟩
  obtain ⟨new, hl, hnew, hiff⟩ := hb x
  rw [hl, ClassDef.names, List.lookup_append]
  by_cases hx : x ∈ p.1.fields.map (·.name)
  · obtain ⟨d, hdm, rfl⟩ := List.mem_map.1 hx
    obtain ⟨τ, k, hτ, hlookup⟩ := hhas.bound d hdm
    have hnames : (p.1.fields.map (·.name)).Nodup :=
      ((forall_mem_classTypes).2 hf p
        (hps ▸ hp)).1
    have hfield : (p.1.fields.map fun d => (d.name, d.type.denotes u.type?)).lookup d.name =
        some (d.type.denotes u.type?) :=
      lookup_of_mem_nodup (p := (d.name, d.type.denotes u.type?))
        (by simpa [Function.comp_def] using hnames) (List.mem_map.2 ⟨d, hdm, rfl⟩)
    have hplain := hd.plain id sc d.name _ hsc hlookup
    rw [hfield, hlookup, hτ]
    simp [Ty.asVariable, hplain]
  · have hfield : (p.1.fields.map fun d => (d.name, d.type.denotes u.type?)).lookup x = none := by
      rw [List.lookup_eq_none_iff]
      rintro q hq
      obtain ⟨d, hd, rfl⟩ := List.mem_map.1 hq
      exact bne_iff_ne.2 fun h => hx (List.mem_map.2 ⟨d, hd, h.symm⟩)
    rw [hfield, (hhas.lookup_eq_none_iff x).2 hx, lookup_methods]
    split
    · rename_i hm
      obtain ⟨b, rfl⟩ := Option.isSome_iff_exists.1 (hiff.2 hm)
      simp [Ty.asVariable, (hnew b rfl).1]
    · rename_i hm
      have hnone : new = none := by
        rw [← Option.not_isSome_iff_eq_none, hiff]
        exact hm
      rw [hnone]
      rfl

/-- After the first pass, the tables provide what the rules say that the definitions provide. -/
theorem models
    (hheads : List.Forall₂ (Callable.Declares u.type?) u.callables s'.tables.functions.heads) :
    s'.tables.Models u.globals := by
  obtain ⟨hps, hlookup, -, hbound⟩ := hd.faithful hn hf
  refine ⟨by rw [htypes]; exact hlookup, fun c id sc' x hid hsc' _ => ?_,
    fun name arguments isMethod => (find?_matches hheads name arguments isMethod).symm⟩
  rw [htypes] at hid
  obtain ⟨p, hp⟩ : ∃ p, ps[c.index]? = some p := ⟨_, List.getElem?_eq_getElem (hd.only c id hid)⟩
  have hmem := List.mem_of_getElem? hp
  obtain ⟨id', sc, hid', hsc, hhas⟩ := hbound p hmem
  obtain rfl : id = id' := by
    rw [TypeRegistry.memberScope?, hd.index _ p hp] at hid'
    exact Option.some.inj (hid.symm.trans hid')
  obtain ⟨sc'', hsc'', -, hb⟩ := hd.lookup_member hr hmem hid' hsc
  obtain rfl := Option.some.inj (hsc'.symm.trans hsc'')
  obtain ⟨new, hl, hnew, -⟩ := hb x
  rw [field?_eq hps hp, hl]
  cases hfind : p.1.fields.find? (·.name == x) with
  | some d =>
    obtain ⟨τ, k, hτ, hlook⟩ := hhas.bound d (List.mem_of_find?_eq_some hfind)
    have hname : d.name = x := by simpa using List.find?_some hfind
    rw [hname] at hlook
    rw [hlook]
    simp [hτ]
  | none =>
    have hnot : x ∉ p.1.fields.map (·.name) := by
      intro hx
      obtain ⟨d, hdm, rfl⟩ := List.mem_map.1 hx
      simpa using List.find?_eq_none.1 hfind d hdm
    rw [(hhas.lookup_eq_none_iff x).2 hnot]
    cases hb' : new with
    | none => rfl
    | some b => simp [(hnew b hb').2]

end

/-- The first pass is done. -/
structure Declared (u : SourceUnit) (ps : TypedClasses) (s : CheckState) : Prop where
  whole : s.tables.Whole
  touches : ({} : Tables).Touches ((ps.flatMap fun p => p.1.fields.map (·.node.id)) ++
    (callablesOf ps u.functions).map (·.node.id)) s.tables
  global : s.tables.scopes.Chain ScopeTree.globalId [[]]
  sublist : (ps.map (·.1)).Sublist u.classes
  member : ∀ p ∈ ps, ∃ id, s.tables.types.memberScope? p.2 = some id
  fresh : s.tables.functions.Fresh
  calls : ∀ n, n ∉ (callablesOf ps u.functions).map (·.node.id) → s.tables.functions.lookup n = none
  bound : ∀ n i, s.tables.functions.lookup n = some i → i < s.tables.functions.heads.length
  full : (s.Reports .duplicateTypeDefinition ∨ ps.map (·.1) = u.classes) ∧
    (s.Reports .duplicateFunction ∨ ∀ f ∈ callablesOf ps u.functions,
      ∃ i, s.tables.functions.lookup f.node.id = some i)
  verdict : ({} : CheckState).Verdict u.DeclarationsTyped s
  classes : u.DeclarationsTyped → ps = u.classTypes
  locks : u.DeclarationsTyped → s.tables.scopes.LocksGlobal
  models : u.DeclarationsTyped → s.tables.Models u.globals
  members : u.DeclarationsTyped → ∀ p ∈ u.classTypes, s.tables.HasMembers u.type? p
  heads : u.DeclarationsTyped →
    List.Forall₂ (Callable.Declares u.type?) u.callables s.tables.functions.heads
  entries : u.DeclarationsTyped → ∀ j f, u.callables[j]? = some f →
    s.tables.functions.lookup f.node.id = some j

theorem declare_sat {sub : Ty} [sub.StandIn] (u : SourceUnit)
    (hfields : ((u.classes.flatMap (·.fields)).map (·.node.id)).Nodup)
    (hcallables : ∀ ps : TypedClasses, (ps.map (·.1)).Sublist u.classes →
      ((callablesOf ps u.functions).map (·.node.id)).Nodup) :
    Sat (do
        let ps ← declareTypes sub u
        declareFunctions sub u ps
        return ps) {} fun ps s => Declared u ps s := by
  refine .bind (declareTypes_sat u hfields) fun ps s1 hd => ?_
  refine .bind (declareFunctions_sat hd (hcallables ps hd.sublist)) fun _ s h => .pure ?_
  have hfields : u.DeclarationsTyped → ∀ d ∈ u.classes, Declaration.FieldsTyped u.type? d.fields :=
    fun hu d hd => ⟨(hu.members d hd).fieldNames, (hu.members d hd).fields⟩
  have hfaithful : u.DeclarationsTyped → ps = u.classTypes ∧
      List.Forall₂ (Callable.Declares u.type?) u.callables s.tables.functions.heads ∧
      ∀ j f, u.callables[j]? = some f → s.tables.functions.lookup f.node.id = some j := by
    intro hu
    obtain ⟨hps, htypes, -⟩ := hd.faithful hu.typeNames (hfields hu)
    have hall := (collectable_iff hd hu.typeNames (hfields hu)).2 hu
    rw [htypes] at hall ⊢
    subst hps
    exact ⟨rfl, h.faithful hall⟩
  refine ⟨h.whole, ⟨fun n hn => ?_, fun n hn => ?_, fun n hn => ?_⟩, ?_, hd.sublist, ?_, h.fresh,
    h.calls,
    h.bound, ⟨hd.full.imp_left (·.after h.adds), h.full⟩, ?_, fun hu => (hfaithful hu).1, fun hu =>
    h.locks (hd.faithful hu.typeNames (hfields hu)).2.2.1, fun hu => ?_, fun hu p hp => ?_,
    fun hu => (hfaithful hu).2.1,
    fun hu => (hfaithful hu).2.2⟩
  · rw [List.mem_append, not_or] at hn
    rw [h.annotations, hd.touches.types n hn.1]
  · rw [List.mem_append, not_or] at hn
    rw [h.annotations, hd.touches.scopes n hn.1]
  · rw [List.mem_append, not_or] at hn
    rw [h.calls n hn.2]
    rfl
  · -- No class has the global scope as its member scope.
    obtain ⟨g, hg, hparent, hbindings⟩ := hd.global
    obtain ⟨g', hg', hparent', -, hb⟩ := h.reserves _ g hg
    refine .root hg' (hparent'.trans hparent) fun x => ?_
    obtain ⟨new, hl, -, hiff⟩ := hb x
    have hnone : new = none := by
      rw [← Option.not_isSome_iff_eq_none, hiff]
      rintro ⟨m, -, hm, -⟩
      obtain ⟨sc, hsc, -, hp, -⟩ := hd.whole.members m.1 _ hm
      rw [hg] at hsc
      cases hsc
      exact nomatch hparent.symm.trans hp
    rw [hl, hbindings, hnone]
    rfl
  · rw [h.registry]
    exact hd.member
  · refine Verdict.congr (.and (D := u.DeclarationsTyped) hd.verdict h.adds fun ⟨hn, hf⟩ =>
      h.verdict.congr ?_) ?_
    · rw [← (hd.faithful hn hf).2.1]
      exact collectable_iff hd hn hf
    exact ⟨And.right, fun hu => ⟨⟨hu.typeNames, hfields hu⟩, hu⟩⟩
  · exact Check.models hd h.reserves h.registry hu.typeNames (hfields hu) (hfaithful hu).2.1
  · exact hasMembers hd h.reserves h.registry hu.typeNames (hfields hu) ((hfaithful hu).1 ▸ hp)

end Check

end Awl
