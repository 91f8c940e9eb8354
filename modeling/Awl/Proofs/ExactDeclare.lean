import Mathlib.Data.List.Flatten
import Awl.Proofs.CheckUnit
import Awl.Proofs.ExactStmt

/-!
# Declaring types and functions decides the rules for them

The first pass of the checker registers the types of a unit, lays out the fields of its classes and
collects the signatures of its functions. `Check.declareTypes_sat` and `Check.declareFunctions_sat`
say that it always succeeds, that it reports nothing exactly if the rules for type names, fields and
signatures hold, and that the tables then provide what the rules say that the definitions provide.
-/

namespace Awl

open CheckState

variable {c : ClassType} {field : Declaration} {ps : TypedClasses} {fields : List Declaration}
  {types : String → Option Ty} {t : Tables} {β α : Type} {u : SourceUnit} {x : String} {sc : Scope}

/-! ## Registered types -/

theorem map_zipIdx_fst (f : α → β) (l : List α) : (l.zipIdx.map fun p => f p.1) = l.map f := by
  rw [show (fun p : α × Nat => f p.1) = f ∘ Prod.fst from rfl, ← List.map_map, List.zipIdx_map_fst]

theorem SourceUnit.namedTypes_names (u : SourceUnit) :
    u.namedTypes.map (·.1) = u.enums.map (·.name) ++ u.classes.map (·.name) := by
  simp only [namedTypes, enumTypes, classTypes, List.map_append, List.map_map, Function.comp_def,
    map_zipIdx_fst (fun d : EnumDef => d.name), map_zipIdx_fst (fun d : ClassDef => d.name)]

/-- The classes `ps` are registered, in this order, and none has a member scope yet. -/
structure TypeRegistry.Sorted (r : TypeRegistry) (ps : TypedClasses) : Prop where
  classes : r.classes.reverse = ps.map fun p => (p.1.name, p.2)
  index : ∀ (i : Nat) p, ps[i]? = some p → p.2.index = i
  unset : r.memberScopes.toList = ps.map fun _ => none
  names : (ps.map (·.1.name)).Nodup
  apart : ∀ x e, r.enum? x = some e → r.class? x = none

namespace Check

/-- The types of a unit are registered, and nothing else has been done. -/
structure TypesRegistered (u : SourceUnit) (ps : TypedClasses) (s0 s : CheckState) : Prop where
  scopes : s.tables.scopes = s0.tables.scopes
  functions : s.tables.functions = s0.tables.functions
  annotations : s.tables.annotations = s0.tables.annotations
  sorted : s.tables.types.Sorted ps
  sublist : (ps.map (·.1)).Sublist u.classes
  full : s.Reports .duplicateTypeDefinition ∨ ps.map (·.1) = u.classes
  defined : ∀ x, s.tables.types.isDefined x = true ↔ x ∈ u.namedTypes.map (·.1)
  verdict : s0.Verdict (u.namedTypes.map (·.1)).Nodup s
  /-- If no name is taken twice, all types are registered under their numbers. -/
  faithful : (u.namedTypes.map (·.1)).Nodup →
    s.tables.types.enums.reverse = u.enumTypes.map (fun e => (e.name, e)) ∧
    s.tables.types.enumCount = u.enums.length ∧ ps = u.classTypes

section

variable {s0 s : CheckState} {es : List EnumDef} {cs : List ClassDef} {u' : SourceUnit}

theorem nodup_snoc {l : List α} {a : α} : (l ++ [a]).Nodup ↔ l.Nodup ∧ a ∉ l := by
  rw [List.nodup_append]
  exact ⟨fun ⟨h, _, h'⟩ => ⟨h, fun ha => h' a ha a (.head _) rfl⟩, fun ⟨h, h'⟩ =>
    ⟨h, by simp, fun b hb c hc hbc => h' (List.mem_singleton.1 hc ▸ hbc ▸ hb)⟩⟩

theorem TypesRegistered.nodup_iff (h : TypesRegistered u ps s0 s)
    (hnames : u'.namedTypes.map (·.1) = u.namedTypes.map (·.1) ++ [x]) :
    (u.namedTypes.map (·.1)).Nodup ∧ ¬ s.tables.types.isDefined x = true ↔
      (u'.namedTypes.map (·.1)).Nodup := by
  rw [hnames, nodup_snoc, h.defined]

/-- A type of a name that is taken is reported. -/
theorem TypesRegistered.redefined (h : TypesRegistered u ps s0 s)
    (hnames : u'.namedTypes.map (·.1) = u.namedTypes.map (·.1) ++ [x])
    (hclasses : u.classes.Sublist u'.classes)
    (hd : s.tables.types.isDefined x = true) (span : Span) : TypesRegistered u' ps s0
      { s with diagnostics := s.diagnostics.push ⟨.typeRedefined ⟨x⟩, span⟩ } := by
  have htest : s.Tests (¬ s.tables.types.isDefined x = true) _ :=
    .fail ⟨.typeRedefined ⟨x⟩, span⟩ fun h => h hd
  refine ⟨h.scopes, h.functions, h.annotations, h.sorted, h.sublist.trans hclasses,
    .inl (reports_push s _), fun y =>
    ?_, (h.verdict.and htest.adds fun _ => ⟨htest.adds, htest.quiet⟩).congr (h.nodup_iff hnames),
    fun hn => absurd hd ((h.nodup_iff hnames).2 hn).2⟩
  rw [hnames, List.mem_append, List.mem_singleton, h.defined]
  exact ⟨.inl, fun hy => hy.elim id fun hy => hy ▸ (h.defined x).1 hd⟩

theorem declareEnum_sat (d : EnumDef) (h : TypesRegistered { enums := es } [] s0 s) :
    Sat (declareEnum d) s fun _ s' => TypesRegistered { enums := es ++ [d] } [] s0 s' := by
  have hnames : (({ enums := es ++ [d] } : SourceUnit).namedTypes.map (·.1)) =
      ({ enums := es } : SourceUnit).namedTypes.map (·.1) ++ [d.name] := by
    simp [SourceUnit.namedTypes_names]
  have hiff := h.nodup_iff hnames
  refine .tables ?_
  cases hd : s.tables.types.isDefined d.name with
  | true =>
    simp only [TypeRegistry.defineEnum, hd]
    exact .report (h.redefined hnames (.refl _) hd _)
  | false =>
    simp only [TypeRegistry.defineEnum, hd]
    refine ⟨(), _, rfl, h.scopes, h.functions, h.annotations, ⟨h.sorted.classes, h.sorted.index,
      h.sorted.unset, h.sorted.names, fun x e _ => ?_⟩, h.sublist, .inr rfl, fun x => ?_,
      Verdict.congr (.and h.verdict (Quiet.adds rfl) fun _ => .ofQuiet rfl (by simp [hd])) hiff,
      fun hn => ?_⟩
    · have hnil : s.tables.types.classes = [] := by simpa using h.sorted.classes
      simp [TypeRegistry.class?, hnil]
    · rw [hnames, List.mem_append, ← h.defined]
      simp only [TypeRegistry.isDefined, TypeRegistry.enum?, TypeRegistry.class?, List.lookup_cons]
      by_cases hx : x = d.name
      · simp [hx]
      · simp [beq_eq_false_iff_ne.2 hx, hx]
    · obtain ⟨henums, hcount, -⟩ := h.faithful (hiff.2 hn).1
      refine ⟨?_, by simp [hcount], rfl⟩
      simp [henums, hcount, SourceUnit.enumTypes, List.zipIdx_append]

theorem declareClass_sat (d : ClassDef)
    (h : TypesRegistered { enums := es, classes := cs } ps s0 s) :
    Sat (declareClass d) s fun o s' =>
      TypesRegistered { enums := es, classes := cs ++ [d] } (ps ++ o.toList) s0 s' := by
  have hnames : (({ enums := es, classes := cs ++ [d] } : SourceUnit).namedTypes.map (·.1)) =
      ({ enums := es, classes := cs } : SourceUnit).namedTypes.map (·.1) ++ [d.name] := by
    simp [SourceUnit.namedTypes_names]
  have hiff := h.nodup_iff hnames
  refine .tables ?_
  cases hd : s.tables.types.isDefined d.name with
  | true =>
    simp only [TypeRegistry.defineClass, hd]
    refine .step rfl (.pure ?_)
    simpa using h.redefined hnames (List.sublist_append_left cs [d]) hd d.node.span
  | false =>
    simp only [TypeRegistry.defineClass, hd]
    have hsize : s.tables.types.memberScopes.nextId = ps.length := by
      have := congrArg List.length h.sorted.unset
      simpa [Slots.toList, Slots.nextId, Slots.size] using this
    have hfree : s.tables.types.enum? d.name = none ∧ s.tables.types.class? d.name = none := by
      simpa [TypeRegistry.isDefined] using hd
    have hnew : d.name ∉ ps.map (·.1.name) := by
      intro hmem
      obtain ⟨p, hp, hname⟩ := List.mem_map.1 hmem
      have hin : (p.1.name, p.2) ∈ s.tables.types.classes := by
        rw [← List.mem_reverse, h.sorted.classes]
        exact List.mem_map.2 ⟨p, hp, rfl⟩
      have := List.lookup_eq_none_iff.1 hfree.2 _ hin
      simp [hname] at this
    refine ⟨_, _, rfl, h.scopes, h.functions, h.annotations, ⟨?_, fun i p hp => ?_, ?_, ?_,
      fun x e hx => ?_⟩, by simpa using h.sublist.append (List.Sublist.refl [d]),
      h.full.imp_right fun hfull => by simpa using hfull, fun x => ?_, Verdict.congr
      (.and h.verdict (Quiet.adds rfl) fun _ => .ofQuiet rfl (by simp [hd])) hiff, fun hn => ?_⟩
    · simp [h.sorted.classes]
    · rw [Option.toList_some, List.getElem?_append] at hp
      split at hp
      · exact h.sorted.index i p hp
      · rw [List.getElem?_singleton] at hp
        split at hp
        · cases hp
          show s.tables.types.memberScopes.nextId = i
          omega
        · cases hp
    · have hunset := h.sorted.unset
      simp only [Slots.toList] at hunset
      simp [Slots.toList, Slots.push, hunset]
    · rw [Option.toList_some, List.map_append, List.map_singleton, nodup_snoc]
      exact ⟨h.sorted.names, hnew⟩
    · have hne : x ≠ d.name := by
        rintro rfl
        cases hfree.1.symm.trans hx
      rw [TypeRegistry.class?, List.lookup_cons, beq_eq_false_iff_ne.2 hne]
      exact h.sorted.apart x e hx
    · rw [hnames, List.mem_append, ← h.defined]
      simp only [TypeRegistry.isDefined, TypeRegistry.enum?, TypeRegistry.class?, List.lookup_cons]
      by_cases hx : x = d.name
      · simp [hx]
      · simp [beq_eq_false_iff_ne.2 hx, hx]
    · obtain ⟨henums, hcount, hps⟩ := h.faithful (hiff.2 hn).1
      refine ⟨henums, hcount, ?_⟩
      rw [hsize, hps]
      simp [SourceUnit.classTypes, List.zipIdx_append]

theorem registerTypes_sat (u : SourceUnit) (hr : s.tables.types = {}) :
    Sat (do
        u.enums.forM declareEnum
        let classes ← u.classes.mapM declareClass
        return classes.filterMap id) s fun ps s' =>
      TypesRegistered { u with functions := [], statements := [] } ps s s' := by
  have h0 : TypesRegistered { enums := [] } [] s s := by
    refine ⟨rfl, rfl, rfl, ?_, .slnil, .inr rfl, fun x => ?_, .ofQuiet rfl ?_, fun _ => ?_⟩
    · rw [hr]
      exact ⟨rfl, fun i p h => by simp at h, rfl, by simp, fun _ _ h => nomatch h⟩
    · simp [hr, TypeRegistry.isDefined, TypeRegistry.enum?, TypeRegistry.class?,
        SourceUnit.namedTypes_names]
    · simp [SourceUnit.namedTypes_names]
    · simp [hr, SourceUnit.enumTypes, SourceUnit.classTypes]
  refine .bind (.forM (I := fun es s' => TypesRegistered { enums := es } [] s s')
    (fun es d _ s' _ h => declareEnum_sat d h) h0) fun _ s1 h1 => ?_
  refine .bind (.mapM (I := fun cs os s' => TypesRegistered { enums := u.enums, classes := cs }
    (os.filterMap id) s s') (fun cs os d _ s' _ h => ?_) h1) fun os s2 h2 => .pure h2
  refine (declareClass_sat d h).weaken fun o s1 h1 => ?_
  cases o <;> simpa using h1

end

end Check

theorem lookup_reverse {l : List (String × α)} (h : (l.map (·.1)).Nodup) (x : String) :
    l.reverse.lookup x = l.lookup x := by
  have hr : (l.reverse.map (·.1)).Nodup := by
    rw [List.map_reverse]
    exact List.nodup_reverse.2 h
  cases hx : l.lookup x with
  | none =>
    rw [List.lookup_eq_none_iff] at hx ⊢
    exact fun p hp => hx p (List.mem_reverse.1 hp)
  | some a =>
    obtain ⟨l1, l2, rfl, -⟩ := List.lookup_eq_some_iff.1 hx
    exact lookup_of_mem_nodup (p := (x, a)) hr (by simp)

theorem lookup_map_snd {α : Type} (f : α → β) (x : String) : ∀ l : List (String × α),
    (l.map fun p => (p.1, f p.2)).lookup x = (l.lookup x).map f
  | [] => rfl
  | p :: l => by
    rw [List.map_cons, List.lookup_cons, List.lookup_cons, lookup_map_snd f x l]
    cases x == p.1 <;> rfl

/-- The registry provides the types of the unit. -/
theorem Check.TypesRegistered.lookup {s0 s : CheckState} (h : TypesRegistered u ps s0 s)
    (hn : (u.namedTypes.map (·.1)).Nodup) : u.type? = s.tables.types.lookup := by
  funext x
  obtain ⟨henums, -, hps⟩ := h.faithful hn
  have hclasses := h.sorted.classes
  rw [hps] at hclasses
  rw [SourceUnit.namedTypes, List.map_append, List.nodup_append] at hn
  have henum : s.tables.types.enum? x =
      (u.enumTypes.map fun e : EnumType => (e.name, e)).lookup x := by
    rw [TypeRegistry.enum?, ← List.reverse_reverse s.tables.types.enums, henums]
    exact lookup_reverse (by simpa [Function.comp_def] using hn.1) x
  have hclass : s.tables.types.class? x =
      (u.classTypes.map fun p : ClassDef × ClassType => (p.1.name, p.2)).lookup x := by
    rw [TypeRegistry.class?, ← List.reverse_reverse s.tables.types.classes, hclasses]
    exact lookup_reverse (by simpa [Function.comp_def] using hn.2.1) x
  have hmap : u.namedTypes = (u.enumTypes.map fun e => (e.name, e)).map
      (fun p => (p.1, Ty.enumeration p.2)) ++ (u.classTypes.map fun p => (p.1.name, p.2)).map
      (fun p => (p.1, Ty.object p.2)) := by
    simp [SourceUnit.namedTypes, Function.comp_def]
  rw [SourceUnit.type?, hmap, List.lookup_append, lookup_map_snd, lookup_map_snd, ← henum, ← hclass,
    TypeRegistry.lookup]
  cases s.tables.types.enum? x <;> rfl

/-- What a name means does not depend on member scopes. -/
theorem TypeRegistry.lookup_congr {r r' : TypeRegistry} (henums : r'.enums = r.enums)
    (hclasses : r'.classes = r.classes) : r'.lookup = r.lookup := by
  funext x
  rw [lookup, lookup, enum?, enum?, class?, class?, henums, hclasses]

/-! ## Fields -/

/-- The tables while members are declared. Not all classes need to have a member scope yet. -/
structure Tables.Shaped (t : Tables) : Prop where
  laid : t.scopes.Laid
  bindings : ∀ id sc x b, t.scopes.scopes.get? id = some sc → sc.bindings.lookup x = some b →
    b.type.Registered t.types
  members : ∀ c id, t.types.memberScope? c = some id →
    ∃ sc, t.scopes.scopes.get? id = some sc ∧ sc.kind = .members ∧
    sc.parent = some ScopeTree.globalId ∧ sc.owner = id
  /-- No two classes have the same member scope. -/
  single : ∀ c c' id, t.types.memberScope? c = some id → t.types.memberScope? c' = some id →
    c.index = c'.index

/-- The rules for fields. -/
def Declaration.FieldsTyped (types : String → Option Ty) (fields : List Declaration) : Prop :=
  (fields.map (·.name)).Nodup ∧ ∀ x ∈ fields, ∃ τ, x.type.denotes types = some τ ∧
    τ ≠ .void ∧ τ ≠ .lock

theorem Declaration.fieldsTyped_snoc : Declaration.FieldsTyped types (fields ++ [field]) ↔
      Declaration.FieldsTyped types fields ∧
        (∃ τ, field.type.denotes types = some τ ∧ τ ≠ .void ∧ τ ≠ .lock) ∧
        field.name ∉ fields.map (·.name) := by
  unfold Declaration.FieldsTyped
  rw [List.map_append, List.map_singleton, Check.nodup_snoc, List.forall_mem_append,
    List.forall_mem_singleton]
  constructor
  · rintro ⟨⟨hn, hx⟩, hall, hf⟩
    exact ⟨⟨hn, hall⟩, hf, hx⟩
  · rintro ⟨⟨hn, hall⟩, hf, hx⟩
    exact ⟨⟨hn, hx⟩, hall, hf⟩

/-- A scope binds these fields and nothing else. -/
structure Scope.HasFields (types : String → Option Ty) (sc : Scope)
    (fields : List Declaration) : Prop where
  bound : ∀ x ∈ fields, ∃ τ k, x.type.denotes types = some τ ∧
    sc.bindings.lookup x.name = some { type := τ, offset := some k }
  only : ∀ x b, sc.bindings.lookup x = some b → x ∈ fields.map (·.name)

theorem Scope.HasFields.lookup_eq_none_iff (h : sc.HasFields types fields) (x : String) :
    sc.bindings.lookup x = none ↔ x ∉ fields.map (·.name) := by
  constructor
  · intro hx hmem
    obtain ⟨f, hf, rfl⟩ := List.mem_map.1 hmem
    obtain ⟨τ, k, -, hb⟩ := h.bound f hf
    exact nomatch hx.symm.trans hb
  · intro hmem
    cases hx : sc.bindings.lookup x with
    | none => rfl
    | some b => exact absurd (h.only x b hx) hmem

theorem Scope.HasFields.snoc {sc' : Scope} {τ : Ty} {k : Nat} (h : sc.HasFields types fields)
    (hname : field.name ∉ fields.map (·.name)) (hτ : field.type.denotes types = some τ)
    (hb : sc'.bindings = (field.name, { type := τ, offset := some k }) :: sc.bindings) :
    sc'.HasFields types (fields ++ [field]) := by
  refine ⟨fun x hx => ?_, fun x b hx => ?_⟩
  · rw [hb, List.lookup_cons]
    rcases List.mem_append.1 hx with hx | hx
    · have hne : x.name ≠ field.name := fun heq => hname (List.mem_map.2 ⟨x, hx, heq⟩)
      rw [beq_eq_false_iff_ne.2 hne]
      exact h.bound x hx
    · obtain rfl := List.mem_singleton.1 hx
      exact ⟨τ, k, hτ, by simp⟩
  · rw [hb, List.lookup_cons] at hx
    rw [List.map_append, List.mem_append]
    split at hx
    · rename_i heq
      exact .inr (by simpa using heq)
    · exact .inl (h.only x b hx)

theorem Tables.Shaped.declareIn {t' : Tables} {scope : ScopeId} {type : Ty} {free : Bool}
    (h : t.Shaped) (htypes : t'.types = t.types)
    (hd : t.scopes.declareIn scope x type = .ok (free, t'.scopes))
    (hk : type.Registered t.types) : t'.Shaped := by
  have hg := ScopeTree.declareIn_grows hd
  refine ⟨ScopeTree.declareIn_laid hd h.laid, ?_, fun c j hj => ?_, by rw [htypes]; exact h.single⟩
  · rw [htypes]
    exact hg.bindings (Q := fun _ b => b.type.Registered t.types)
      (fun _ _ _ _ _ hb => hb.2.2.1 ▸ hk) h.bindings
  · rw [htypes] at hj
    obtain ⟨r, hr, hkind, hp, ho⟩ := h.members c j hj
    obtain ⟨r', hr', hle⟩ := hg.le j r hr
    exact ⟨r', hr', hle.kind.trans hkind, hle.parent.trans hp, hle.owner.trans ho⟩

theorem Ty.Registered.congr {r r' : TypeRegistry} (h : r'.classes = r.classes) :
    ∀ {type : Ty}, type.Registered r → type.Registered r'
  | .object _, ⟨x, hx⟩ => ⟨x, by rw [TypeRegistry.class?, h]; exact hx⟩
  | .array element, hr => @congr r r' h element hr
  | .int, _ | .bool, _ | .char, _ | .void, _ | .lock, _ | .enumeration _, _ => trivial
  | .function .., hr => hr.elim

/-- A class gets a member scope. -/
theorem TypeRegistry.exists_setMemberScope {r : TypeRegistry} (id : ScopeId)
    (h : r.memberScopes.get? c.index = some none) :
    ∃ r', r.setMemberScope c id = .ok r' ∧ r'.enums = r.enums ∧ r'.classes = r.classes ∧ ∀ i,
      r'.memberScopes.get? i = if i = c.index then some (some id) else r.memberScopes.get? i := by
  obtain ⟨scopes, hr⟩ := Slots.replace_eq_ok (Slots.lt_of_get? h)
  refine ⟨{ r with memberScopes := scopes }, ?_, rfl, rfl, (Slots.replace_ok hr).2.2⟩
  unfold setMemberScope
  rw [Slots.fetch_eq_ok_iff.2 h]
  exact except_bind_eq_ok.2 ⟨none, rfl, except_bind_eq_ok.2 ⟨scopes, hr, rfl⟩⟩

/-- The tables with a new member scope. -/
theorem Tables.Shaped.openMembers {scopes : ScopeTree} {types : TypeRegistry} {id : ScopeId}
    (h : t.Shaped) (ho : t.scopes.openChild ScopeTree.globalId .members = .ok (id, scopes))
    (hclasses : types.classes = t.types.classes)
    (hget : ∀ i, types.memberScopes.get? i = if i = c.index then some
      (some id) else t.types.memberScopes.get? i) :
    { t with scopes, types }.Shaped := by
  obtain ⟨rfl, owner, hs, -, ⟨-, rfl⟩ | ⟨hk, -⟩⟩ := ScopeTree.openChild_ok ho
  swap
  · cases hk
  have hmember : ∀ c', types.memberScope? c' = if c'.index = c.index then some t.scopes.scopes.size
      else t.types.memberScope? c' := by
    intro c'
    unfold TypeRegistry.memberScope?
    rw [hget]
    split <;> rfl
  have hold : ∀ c' j, t.types.memberScope? c' = some j → j ≠ t.scopes.scopes.size := by
    rintro c' j hj rfl
    obtain ⟨sc, hsc, -⟩ := h.members c' _ hj
    exact Nat.lt_irrefl _ (Slots.lt_of_get? hsc)
  obtain ⟨g, hg, -⟩ := h.laid.global
  refine ⟨ScopeTree.openChild_laid ho (Slots.lt_of_get? hg) h.laid,
    (ScopeTree.openChild_grows ho).bindings
    (Q := fun _ b => b.type.Registered types) (fun _ _ _ _ _ hb => hb.elim) fun j r x b hj hx =>
    (h.bindings j r x b hj hx).congr hclasses, fun c' j hj => ?_, fun c' c'' j hj hj' => ?_⟩
  · rw [hmember] at hj
    split at hj
    · cases hj
      exact ⟨{ parent := some ScopeTree.globalId, kind := .members, owner := t.scopes.scopes.size },
        by rw [hs, Slots.get?_push]; exact if_pos rfl, rfl, rfl, rfl⟩
    · obtain ⟨r, hr, hk⟩ := h.members c' j hj
      exact ⟨r, by rw [hs]; exact Slots.get?_push_of_some hr, hk⟩
  · rw [hmember] at hj hj'
    split at hj <;> split at hj'
    · rename_i h1 h2
      exact h1.trans h2.symm
    · cases hj
      exact absurd rfl (hold c'' _ hj')
    · cases hj'
      exact absurd rfl (hold c' _ hj)
    · exact h.single c' c'' j hj hj'

/-- The tables while no class has a member scope. -/
theorem Tables.Shaped.ofUnset (hs : t.scopes = ScopeTree.new)
    (hm : ∀ c, t.types.memberScope? c = none) : t.Shaped := by
  refine ⟨hs ▸ ScopeTree.new_laid, fun id sc x b h hx => ?_, fun c id h => ?_,
    fun c c' id h _ => ?_⟩
  · rw [hs] at h
    obtain ⟨-, rfl⟩ := ScopeTree.new_get? h
    cases hx
  · cases (hm c).symm.trans h
  · cases (hm c).symm.trans h

theorem TypeRegistry.Sorted.get? {r : TypeRegistry} (h : r.Sorted ps) (i : Nat) :
    r.memberScopes.get? i = ps[i]?.map fun _ => none := by
  rw [← List.getElem?_map, ← h.unset]
  simp [Slots.toList, Slots.get?]

/-- Every class has a member scope. -/
theorem Tables.Shaped.whole (h : t.Shaped) (hf : t.functions = {})
    (hc : ∀ x c, t.types.class? x = some c → (Ty.object c).Known t.types)
    (ha : ∀ x e, t.types.enum? x = some e → t.types.class? x = none) : t.Whole := by
  have hheads : t.functions.heads = [] := by
    rw [hf]
    rfl
  exact ⟨h.laid, fun id sc x b hsc hx => (h.bindings id sc x b hsc hx).known hc, h.members,
    hc, by simp [hheads], by simp [hheads], ha⟩

namespace Check

variable {sub : Ty} [sub.StandIn] {s s' : CheckState} {scope : ScopeId} {sc : Scope}

/-- A field is laid out. -/
theorem declareField_sat (hs : s.tables.Shaped)
    (hsc : s.tables.scopes.scopes.get? scope = some sc) (hf : s.tables.Free [field.node.id]) :
    Sat (declareField sub c scope field) s fun _ s' => s'.tables.Shaped ∧
      s.tables.Touches [field.node.id] s'.tables ∧ s.Adds s' ∧
      s'.tables.types = s.tables.types ∧ s'.tables.functions = s.tables.functions ∧
      s.tables.scopes.Keeps (some scope) s'.tables.scopes ∧
      s.Verdict ((∃ τ, field.type.denotes s.tables.types.lookup = some τ ∧ τ ≠ .void ∧ τ ≠ .lock) ∧
        sc.bindings.lookup field.name = none) s' ∧
      (∀ τ, field.type.denotes s.tables.types.lookup = some τ → τ ≠ .lock →
        s.tables.scopes.LocksGlobal →
        s'.tables.scopes.LocksGlobal) ∧
      ∀ τ, field.type.denotes s.tables.types.lookup = some τ →
        sc.bindings.lookup field.name = none →
        ∃ sc' k, s'.tables.scopes.scopes.get? scope = some sc' ∧
          sc'.bindings = (field.name, { type := τ, offset := some k }) :: sc.bindings := by
  refine .bind (resolveType_sat field.type) fun type s1 ⟨ha1, ht1, hreg, hden⟩ => ?_
  refine reportThen_sat fun s2 ht => ?_
  have ht2 : s2.tables = s.tables := ht.tables.trans ht1
  have hsc2 : s2.tables.scopes.scopes.get? scope = some sc := by rwa [ht2]
  refine (bindName_sat (ht2 ▸ hs.laid) hsc2 (ht2 ▸ hf)).weaken
    fun _ s' ⟨htouch, hv, htypes, hfuns, free, hd⟩ => ?_
  rw [ht2] at htouch htypes hfuns hd
  refine ⟨hs.declareIn htypes hd hreg, htouch, (ha1.trans ht.adds).trans hv.adds, htypes, hfuns,
    ScopeTree.declareIn_keeps hd, ?_, fun τ hτ hlock => ?_, fun τ hτ hx => ?_⟩
  · have hfirst : s.Verdict (∃ τ, field.type.denotes s.tables.types.lookup = some τ ∧ τ ≠ .void ∧
        τ ≠ .lock) s2 := by
      refine ⟨ha1.trans ht.adds, ?_⟩
      rw [quiet_trans_iff ha1 ht.adds, ht.quiet]
      constructor
      · rintro ⟨hq, hno⟩
        obtain ⟨τ, rfl, hτ⟩ := hden.sound hq
        exact ⟨type, hτ, by simpa using hno⟩
      · rintro ⟨τ, hτ, hno⟩
        obtain ⟨hq, rfl⟩ := hden.complete τ hτ
        exact ⟨hq, by simpa using hno⟩
    exact hfirst.and hv.adds fun _ => hv
  all_goals obtain ⟨-, rfl⟩ := hden.complete τ hτ
  · exact ScopeTree.declareIn_locks hd fun h => absurd h hlock
  · obtain ⟨sc', k, hsc', -, -, hb⟩ := (ScopeTree.declareIn_new hd hsc).2 hx
    exact ⟨sc', k, hsc', hb⟩

/-- The fields of a class are laid out in its member scope. -/
structure LaysOut (scope : ScopeId) (fields : List Declaration) (s s' : CheckState) : Prop where
  shaped : s'.tables.Shaped
  touches : s.tables.Touches (fields.map (·.node.id)) s'.tables
  adds : s.Adds s'
  registry : s'.tables.types = s.tables.types
  functions : s'.tables.functions = s.tables.functions
  keeps : s.tables.scopes.Keeps (some scope) s'.tables.scopes
  verdict : s.Verdict (Declaration.FieldsTyped s.tables.types.lookup fields) s'
  locks : Declaration.FieldsTyped s.tables.types.lookup fields → s.tables.scopes.LocksGlobal →
    s'.tables.scopes.LocksGlobal
  bound : Declaration.FieldsTyped s.tables.types.lookup fields →
    ∃ sc, s'.tables.scopes.scopes.get? scope = some sc ∧ sc.HasFields s.tables.types.lookup fields

theorem layOut_sat (hs : s.tables.Shaped) (hsc : s.tables.scopes.scopes.get? scope = some sc)
    (hnew : sc.bindings = []) (hf : s.tables.Free (fields.map (·.node.id))) :
    Sat (fields.forM (declareField sub c scope)) s fun _ s' =>
    LaysOut scope fields s s' := by
  refine .forM (I := fun done s' => LaysOut scope done s s') (fun done field rest s1 hl h => ?_)
    ⟨hs, .refl _ _, .refl s, rfl, rfl, .refl _ _, .ofQuiet rfl (by simp [Declaration.FieldsTyped]),
      fun _ h => h, fun _ => ⟨sc, hsc, ⟨by simp, fun x b hx => by rw [hnew] at hx; cases hx⟩⟩⟩
  obtain ⟨sc1, hsc1, -⟩ := h.keeps scope sc hsc
  have hfree : s1.tables.Free [field.node.id] := by
    rw [hl, List.map_append] at hf
    exact (hf.touches h.touches).sub (by simp)
  refine (declareField_sat h.shaped hsc1 hfree).weaken
    fun _ s' ⟨hs', ht, ha, hr, hfun, hk, hv, hlock, hstep⟩ => ?_
  rw [h.registry] at hv hlock hstep
  have hfreeName : Declaration.FieldsTyped s.tables.types.lookup done →
      sc1.HasFields s.tables.types.lookup done := by
    intro hdone
    obtain ⟨sc', hsc', hhas⟩ := h.bound hdone
    rw [hsc1] at hsc'
    cases hsc'
    exact hhas
  refine ⟨hs', ?_, h.adds.trans ha, hr.trans h.registry, hfun.trans h.functions, h.keeps.trans hk,
    ?_, fun hall hl => ?_, fun hall => ?_⟩
  · rw [List.map_append]
    exact (h.touches.mono (List.subset_append_left ..)).trans
      (ht.mono (List.subset_append_right ..))
  · refine (h.verdict.and ha fun hdone => hv.congr ?_).congr Declaration.fieldsTyped_snoc.symm
    rw [(hfreeName hdone).lookup_eq_none_iff]
  · obtain ⟨hdone, ⟨τ, hτ, -, hno⟩, -⟩ := Declaration.fieldsTyped_snoc.1 hall
    exact hlock τ hτ hno (h.locks hdone hl)
  · obtain ⟨hdone, ⟨τ, hτ, -⟩, hname⟩ := Declaration.fieldsTyped_snoc.1 hall
    have hhas := hfreeName hdone
    obtain ⟨sc', k, hsc', hb⟩ := hstep τ hτ ((hhas.lookup_eq_none_iff _).2 hname)
    exact ⟨sc', hsc', hhas.snoc hname hτ hb⟩

/-- A class gets its member scope with its fields. -/
structure LaysOutClass (d : ClassDef) (c : ClassType) (s s' : CheckState) : Prop where
  shaped : s'.tables.Shaped
  touches : s.tables.Touches (d.fields.map (·.node.id)) s'.tables
  adds : s.Adds s'
  enums : s'.tables.types.enums = s.tables.types.enums
  classes : s'.tables.types.classes = s.tables.types.classes
  functions : s'.tables.functions = s.tables.functions
  keeps : s.tables.scopes.Keeps none s'.tables.scopes
  others : ∀ i, i ≠ c.index → s'.tables.types.memberScopes.get? i =
    s.tables.types.memberScopes.get? i
  member : ∃ id, s'.tables.types.memberScope? c = some id
  verdict : s.Verdict (Declaration.FieldsTyped s.tables.types.lookup d.fields) s'
  locks : Declaration.FieldsTyped s.tables.types.lookup d.fields → s.tables.scopes.LocksGlobal →
    s'.tables.scopes.LocksGlobal
  bound : Declaration.FieldsTyped s.tables.types.lookup d.fields →
    ∃ id sc, s'.tables.types.memberScope? c = some id ∧
      s'.tables.scopes.scopes.get? id = some sc ∧ sc.HasFields s.tables.types.lookup d.fields

theorem declareFields_sat {d : ClassDef} (hs : s.tables.Shaped)
    (hc : s.tables.types.memberScopes.get? c.index = some none)
    (hf : s.tables.Free (d.fields.map (·.node.id))) :
    Sat (declareFields sub d c) s fun _ s' => LaysOutClass d c s s' := by
  obtain ⟨g, hg, -⟩ := hs.laid.global
  obtain ⟨id, scopes, ho⟩ := ScopeTree.exists_openChild hg
    (show ScopeKind.members ≠ .global by simp)
  obtain ⟨r, hr, henums, hclasses, hget⟩ := TypeRegistry.exists_setMemberScope id hc
  have hs1 := hs.openMembers ho hclasses hget
  have hmember : r.memberScope? c = some id := by simp [TypeRegistry.memberScope?, hget]
  obtain ⟨hid, owner, hpush, -, -⟩ := ScopeTree.openChild_ok ho
  have hsc : scopes.scopes.get? id =
      some { parent := some ScopeTree.globalId, kind := .members, owner } := by
    rw [hpush, Slots.get?_push, hid]
    exact if_pos rfl
  refine .step (openChild_eq_ok.2 ⟨scopes, ho, rfl⟩) (.tables (.lift hr (.step rfl ?_)))
  refine (layOut_sat (s := { s with tables := { s.tables with scopes, types := r } }) hs1 hsc rfl
    ⟨hf.nodup, hf.types, hf.scopes, hf.calls⟩).weaken fun _ s' h => ?_
  have hv := h.verdict
  have hlocks := h.locks
  have hbound := h.bound
  rw [TypeRegistry.lookup_congr henums hclasses] at hv hlocks hbound
  refine ⟨h.shaped, ⟨h.touches.types, h.touches.scopes, h.touches.calls⟩, h.adds, ?_, ?_,
    h.functions,
    (ScopeTree.openChild_keeps ho).fresh ?_ h.keeps, fun i hi => ?_, ⟨id, ?_⟩,
    ⟨h.adds, hv.quiet⟩, fun hall hl => hlocks hall (ScopeTree.openChild_locks ho hl),
    fun hall => ?_⟩
  · rw [h.registry]
    exact henums
  · rw [h.registry]
    exact hclasses
  · exact (Slots.get?_eq_none_iff _ _).2 (Nat.le_of_eq hid.symm)
  · rw [h.registry]
    exact (hget i).trans (if_neg hi)
  · rw [h.registry]
    exact hmember
  · obtain ⟨sc, hsc', hhas⟩ := hbound hall
    exact ⟨id, sc, by rw [h.registry]; exact hmember, hsc', hhas⟩

/-- All classes get their member scopes with their fields. -/
structure LaysOutClasses (ps : TypedClasses) (s s' : CheckState) : Prop where
  shaped : s'.tables.Shaped
  touches : s.tables.Touches (ps.flatMap fun p => p.1.fields.map (·.node.id)) s'.tables
  adds : s.Adds s'
  enums : s'.tables.types.enums = s.tables.types.enums
  classes : s'.tables.types.classes = s.tables.types.classes
  functions : s'.tables.functions = s.tables.functions
  keeps : s.tables.scopes.Keeps none s'.tables.scopes
  others : ∀ i, ps.length ≤ i → s'.tables.types.memberScopes.get? i =
    s.tables.types.memberScopes.get? i
  member : ∀ p ∈ ps, ∃ id, s'.tables.types.memberScope? p.2 = some id
  verdict : s.Verdict (∀ p ∈ ps, Declaration.FieldsTyped s.tables.types.lookup p.1.fields) s'
  locks : (∀ p ∈ ps, Declaration.FieldsTyped s.tables.types.lookup p.1.fields) →
    s.tables.scopes.LocksGlobal → s'.tables.scopes.LocksGlobal
  bound : (∀ p ∈ ps, Declaration.FieldsTyped s.tables.types.lookup p.1.fields) → ∀ p ∈ ps,
    ∃ id sc, s'.tables.types.memberScope? p.2 = some id ∧
      s'.tables.scopes.scopes.get? id = some sc ∧ sc.HasFields s.tables.types.lookup p.1.fields

theorem layOutClasses_sat (hs : s.tables.Shaped)
    (hindex : ∀ (i : Nat) p, ps[i]? = some p → p.2.index = i)
    (hunset : ∀ p ∈ ps, s.tables.types.memberScopes.get? p.2.index = some none)
    (hf : s.tables.Free (ps.flatMap fun p => p.1.fields.map (·.node.id))) :
    Sat (ps.forM fun (d, c) => declareFields sub d c) s fun _ s' => LaysOutClasses ps s s' := by
  refine .forM (I := fun done s' => LaysOutClasses done s s') (fun done p rest s1 hl h => ?_)
    ⟨hs, .refl _ _, .refl s, rfl, rfl, rfl, .refl _ _, fun _ _ => rfl,
      by simp, .ofQuiet rfl (by simp), fun _ h => h, by simp⟩
  have hp : p.2.index = done.length := hindex _ p (by rw [hl]; simp)
  have hother : ∀ q ∈ done, q.2.index ≠ p.2.index := by
    intro q hq
    obtain ⟨j, hj, rfl⟩ := List.mem_iff_getElem.1 hq
    have := hindex j _ (by rw [hl, List.getElem?_append_left hj, List.getElem?_eq_getElem hj])
    omega
  have hfree : s1.tables.Free (p.1.fields.map (·.node.id)) := by
    rw [hl, List.flatMap_append] at hf
    exact (hf.touches h.touches).left
  have hfirst : s1.tables.types.memberScopes.get? p.2.index = some none := by
    rw [h.others _ (Nat.le_of_eq hp.symm)]
    exact hunset p (by rw [hl]; simp)
  refine (declareFields_sat h.shaped hfirst hfree).weaken fun _ s' hstep => ?_
  have hv := hstep.verdict
  have hlocks := hstep.locks
  have hbound := hstep.bound
  rw [TypeRegistry.lookup_congr h.enums h.classes] at hv hlocks hbound
  have hkeep : ∀ q ∈ done, s'.tables.types.memberScope? q.2 = s1.tables.types.memberScope? q.2 := by
    intro q hq
    rw [TypeRegistry.memberScope?, TypeRegistry.memberScope?, hstep.others _ (hother q hq)]
  refine ⟨hstep.shaped, ?_, h.adds.trans hstep.adds, hstep.enums.trans h.enums,
    hstep.classes.trans h.classes, hstep.functions.trans h.functions, h.keeps.trans hstep.keeps,
    fun i hi => ?_, ?_, ?_, fun hall hl => ?_, fun hall => ?_⟩
  · rw [List.flatMap_append, List.flatMap_singleton]
    exact (h.touches.mono (List.subset_append_left ..)).trans
      (hstep.touches.mono (List.subset_append_right ..))
  · rw [List.length_append, List.length_singleton] at hi
    rw [hstep.others i (by omega), h.others i (by omega)]
  · rw [List.forall_mem_append, List.forall_mem_singleton]
    exact ⟨fun q hq => hkeep q hq ▸ h.member q hq, hstep.member⟩
  · rw [List.forall_mem_append, List.forall_mem_singleton]
    exact h.verdict.and hstep.adds fun _ => hv
  · rw [List.forall_mem_append, List.forall_mem_singleton] at hall
    exact hlocks hall.2 (h.locks hall.1 hl)
  · rw [List.forall_mem_append, List.forall_mem_singleton] at hall ⊢
    refine ⟨fun q hq => ?_, hbound hall.2⟩
    obtain ⟨id, sc, hid, hsc, hhas⟩ := h.bound hall.1 q hq
    obtain ⟨sc', hsc', -, -, hb⟩ := hstep.keeps id sc hsc
    refine ⟨id, sc', hkeep q hq ▸ hid, hsc', ⟨?_, ?_⟩⟩ <;> rw [hb (by simp)]
    · exact hhas.bound
    · exact hhas.only

/-- The types of a unit and the fields of its classes are declared, and nothing else has been
done. -/
structure TypesDeclared (u : SourceUnit) (ps : TypedClasses) (s : CheckState) : Prop where
  whole : s.tables.Whole
  functions : s.tables.functions = {}
  touches : ({} : Tables).Touches (ps.flatMap fun p => p.1.fields.map (·.node.id)) s.tables
  global : ∃ g, s.tables.scopes.scopes.get? ScopeTree.globalId = some g ∧ g.parent = none ∧
    g.bindings = []
  plain : ∀ id sc x b, s.tables.scopes.scopes.get? id = some sc →
    sc.bindings.lookup x = some b → b.type.isFunction = false
  single : ∀ c c' id, s.tables.types.memberScope? c = some id →
    s.tables.types.memberScope? c' = some id → c.index = c'.index
  sublist : (ps.map (·.1)).Sublist u.classes
  full : s.Reports .duplicateTypeDefinition ∨ ps.map (·.1) = u.classes
  index : ∀ (i : Nat) p, ps[i]? = some p → p.2.index = i
  member : ∀ p ∈ ps, ∃ id, s.tables.types.memberScope? p.2 = some id
  only : ∀ c id, s.tables.types.memberScope? c = some id → c.index < ps.length
  verdict : ({} : CheckState).Verdict ((u.namedTypes.map (·.1)).Nodup ∧
    ∀ d ∈ u.classes, Declaration.FieldsTyped u.type? d.fields) s
  faithful : (u.namedTypes.map (·.1)).Nodup →
    (∀ d ∈ u.classes, Declaration.FieldsTyped u.type? d.fields) →
    ps = u.classTypes ∧ u.type? = s.tables.types.lookup ∧ s.tables.scopes.LocksGlobal ∧
    ∀ p ∈ ps, ∃ id sc, s.tables.types.memberScope? p.2 = some id ∧
      s.tables.scopes.scopes.get? id = some sc ∧ sc.HasFields u.type? p.1.fields

theorem map_fst_classTypes (u : SourceUnit) : u.classTypes.map (·.1) = u.classes := by
  simp [SourceUnit.classTypes, Function.comp_def]

theorem forall_mem_classTypes {P : ClassDef → Prop} : (∀ p ∈ u.classTypes, P p.1) ↔
    ∀ d ∈ u.classes, P d := by
  rw [← map_fst_classTypes u]
  simp

theorem declareTypes_sat (u : SourceUnit)
    (hids : ((u.classes.flatMap (·.fields)).map (·.node.id)).Nodup) :
    Sat (declareTypes sub u) {} fun ps s => TypesDeclared u ps s := by
  have hsplit : declareTypes sub u = (do
      let ps ← (do
        u.enums.forM declareEnum
        let classes ← u.classes.mapM declareClass
        return classes.filterMap id)
      ps.forM fun (d, c) => declareFields sub d c
      return ps) := by
    simp only [declareTypes, bind_assoc, pure_bind]
  rw [hsplit]
  refine .bind (registerTypes_sat u rfl) fun ps s1 h1 => ?_
  have hs1 : s1.tables.Shaped := by
    refine Tables.Shaped.ofUnset h1.scopes fun c => ?_
    rw [TypeRegistry.memberScope?, h1.sorted.get?]
    cases ps[c.index]? <;> rfl
  have hunset : ∀ p ∈ ps, s1.tables.types.memberScopes.get? p.2.index = some none := by
    intro p hp
    obtain ⟨i, hi⟩ := List.mem_iff_getElem?.1 hp
    rw [h1.sorted.index i p hi, h1.sorted.get?, hi]
    rfl
  have hfree : s1.tables.Free (ps.flatMap fun p => p.1.fields.map (·.node.id)) := by
    have hsub' : (ps.flatMap fun p => p.1.fields.map (·.node.id)).Sublist
        ((u.classes.flatMap (·.fields)).map (·.node.id)) := by
      have := (h1.sublist.flatMap (·.fields)).map (·.node.id)
      rwa [List.flatMap_map, List.map_flatMap] at this
    refine ⟨hids.sublist hsub', ?_, ?_, ?_⟩ <;> intro n _
    · rw [h1.annotations]
      rfl
    · rw [h1.annotations]
      rfl
    · rw [h1.functions]
      rfl
  refine .bind (layOutClasses_sat hs1 h1.sorted.index hunset hfree) fun _ s2 h2 => .pure ?_
  have hmember : ∀ x c, s2.tables.types.class? x = some c →
      (Ty.object c).Known s2.tables.types := by
    intro x c hx
    rw [TypeRegistry.class?, h2.classes, ← List.reverse_reverse s1.tables.types.classes,
      h1.sorted.classes] at hx
    obtain ⟨l1, l2, hl, -⟩ := List.lookup_eq_some_iff.1 hx
    have hin : (x, c) ∈ ps.map fun p => (p.1.name, p.2) := by
      rw [← List.mem_reverse, hl]
      simp
    obtain ⟨p, hp, heq⟩ := List.mem_map.1 hin
    cases heq
    exact h2.member p hp
  have hps : (u.namedTypes.map (·.1)).Nodup → ps = u.classTypes := fun hn => (h1.faithful hn).2.2
  refine ⟨h2.shaped.whole ?_ hmember ?_, ?_, ?_, ?_, fun id sc x b hsc hx => ?_, h2.shaped.single,
    h1.sublist, h1.full.imp_left (·.after h2.adds), h1.sorted.index, h2.member, fun c id hc => ?_,
    ?_, fun hn hall => ?_⟩
  · rw [h2.functions, h1.functions]
  · simp only [TypeRegistry.class?, TypeRegistry.enum?, h2.classes, h2.enums]
    exact h1.sorted.apart
  · rw [h2.functions, h1.functions]
  · have := h2.touches
    refine ⟨fun n hn => ?_, fun n hn => ?_, fun n hn => ?_⟩
    · rw [this.types n hn, h1.annotations]
    · rw [this.scopes n hn, h1.annotations]
    · rw [this.calls n hn, h1.functions]
  · obtain ⟨g, hg, hp, -, hb⟩ := h2.keeps ScopeTree.globalId
      { parent := none, kind := .global, owner := ScopeTree.globalId } (by rw [h1.scopes]; rfl)
    exact ⟨g, hg, hp, hb (by simp)⟩
  · exact (h2.shaped.bindings id sc x b hsc hx).isFunction
  · rw [TypeRegistry.memberScope?] at hc
    rcases Nat.lt_or_ge c.index ps.length with h | h
    · exact h
    · rw [h2.others _ h, h1.sorted.get?, List.getElem?_eq_none h] at hc
      cases hc
  · refine h1.verdict.and h2.adds fun hn => h2.verdict.congr ?_
    rw [hps hn, ← show u.type? = _ from h1.lookup hn]
    exact forall_mem_classTypes (P := fun d => Declaration.FieldsTyped u.type? d.fields)
  · have htypes : u.type? = s1.tables.types.lookup := h1.lookup hn
    have hfields : ∀ p ∈ ps, Declaration.FieldsTyped s1.tables.types.lookup p.1.fields := by
      rw [hps hn, ← htypes]
      exact (forall_mem_classTypes).2 hall
    refine ⟨hps hn, htypes.trans (TypeRegistry.lookup_congr h2.enums h2.classes).symm,
      h2.locks hfields (h1.scopes ▸ ScopeTree.new_locks), ?_⟩
    rw [htypes]
    exact h2.bound hfields

end Check

end Awl
