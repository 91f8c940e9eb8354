import Mathlib.Data.List.Pairwise
import Mathlib.Logic.Equiv.Basic
import Awl.Proofs.ExactUnit
import Awl.Proofs.Renaming

/-!
# The order of definitions

A unit may list its enumerations, classes and functions in any order, and a class its members. The
numbers of types and functions depend on the order; what the rules demand does not.
`SourceUnit.Permutes u u'` says that `u'` has the definitions of `u` in another order. Then its
definitions provide the same under other numbers of types (`SourceUnit.Reorders`), and so it is well
typed if `u` is.
-/

namespace Awl

variable {g f : Callable} {d d' : ClassDef} {types types' : String → Option Ty} {β α : Type}
  {ρ : TypeRenaming} {l' l : List α}

/-- The same class with its members in another order. -/
structure ClassDef.Permutes (d d' : ClassDef) : Prop where
  node : d'.node = d.node
  name : d'.name = d.name
  fields : d.fields.Perm d'.fields
  methods : d.methods.Perm d'.methods
  constructors : d.constructors.Perm d'.constructors

theorem ClassDef.Permutes.symm (h : d.Permutes d') : d'.Permutes d :=
  ⟨h.node.symm, h.name.symm, h.fields.symm, h.methods.symm, h.constructors.symm⟩

/-- The same definitions in another order, before the same statements. -/
structure SourceUnit.Permutes (u u' : SourceUnit) : Prop where
  enums : u.enums.Perm u'.enums
  classes : ∃ cs, List.Forall₂ ClassDef.Permutes u.classes cs ∧ cs.Perm u'.classes
  functions : u.functions.Perm u'.functions
  statements : u'.statements = u.statements

/-! ## Lists in another order -/

theorem lookup_perm {l l' : List (String × α)} (h : l.Perm l') (hn : (l.map (·.1)).Nodup)
    (x : String) :
    l'.lookup x = l.lookup x := by
  have hn' : (l'.map (·.1)).Nodup := (h.map _).nodup_iff.1 hn
  cases hx : l.lookup x with
  | none =>
    rw [List.lookup_eq_none_iff] at hx ⊢
    exact fun p hp => hx p (h.mem_iff.2 hp)
  | some a =>
    obtain ⟨l1, l2, rfl, -⟩ := List.lookup_eq_some_iff.1 hx
    exact lookup_of_mem_nodup (p := (x, a)) hn' (h.mem_iff.1 (by simp))

theorem find?_perm {name : α → String} (h : l.Perm l') (hn : (l.map name).Nodup) {x : String}
    {a : α} (ha : l.find? (name · == x) = some a) : l'.find? (name · == x) = some a := by
  have hmem := List.mem_of_find?_eq_some ha
  have hname : (name a == x) = true := List.find?_some (p := (name · == x)) ha
  cases hb : l'.find? (name · == x) with
  | none => exact absurd hname (by simpa using List.find?_eq_none.1 hb a (h.mem_iff.1 hmem))
  | some b =>
    have hb' : (name b == x) = true := List.find?_some (p := (name · == x)) hb
    rw [List.inj_on_of_nodup_map hn (h.mem_iff.2 (List.mem_of_find?_eq_some hb)) hmem
      ((beq_iff_eq.1 hb').trans (beq_iff_eq.1 hname).symm)]

theorem zipIdx_cons_eq (a : α) (l : List α) :
    (a :: l).zipIdx = (a, 0) :: l.zipIdx.map fun p => (p.1, p.2 + 1) := by
  rw [List.zipIdx_cons, List.zipIdx_succ]

/-- The positions that the elements of a list get in another order. -/
theorem exists_positions (h : l.Perm l') : ∃ π : Nat → Nat,
      Function.Injective π ∧ (l.zipIdx.map fun p => (p.1, π p.2)).Perm l'.zipIdx := by
  induction h with
  | nil => exact ⟨id, Function.injective_id, by simp⟩
  | @cons a l l' _ ih =>
    obtain ⟨π, hπ, hl⟩ := ih
    refine ⟨fun i => if i = 0 then 0 else π (i - 1) + 1, fun i j hij => ?_, ?_⟩
    · by_cases hi : i = 0 <;> by_cases hj : j = 0 <;> simp only [hi, hj, if_true, if_false] at hij ⊢
      · omega
      · omega
      · have := hπ (Nat.succ.inj hij)
        omega
    · have hl' := (hl.map fun p => (p.1, p.2 + 1)).cons (a, 0)
      simpa only [zipIdx_cons_eq, List.map_cons, List.map_map, Function.comp_def, Nat.succ_ne_zero,
        ↓reduceIte, Nat.add_sub_cancel] using hl'
  | swap a b l =>
    refine ⟨Equiv.swap 0 1, (Equiv.swap 0 1).injective, ?_⟩
    simp only [zipIdx_cons_eq, List.map_cons, List.map_map]
    exact .swap _ _ _
  | trans _ _ ih ih' =>
    obtain ⟨π, hπ, hl⟩ := ih
    obtain ⟨π', hπ', hl'⟩ := ih'
    refine ⟨π' ∘ π, hπ'.comp hπ, .trans ?_ hl'⟩
    simpa only [List.map_map, Function.comp_def] using hl.map fun p => (p.1, π' p.2)

theorem forall₂_zipIdx {R : α → β → Prop} {l' : List β} (h : List.Forall₂ R l l') :
    List.Forall₂ (fun p q => R p.1 q.1 ∧ q.2 = p.2) l.zipIdx l'.zipIdx := by
  induction h with
  | nil => exact .nil
  | cons hab _ ih =>
    rw [zipIdx_cons_eq, zipIdx_cons_eq]
    refine .cons ⟨hab, rfl⟩ (List.rel_map (fun p q hpq => ⟨hpq.1, ?_⟩) ih)
    rw [hpq.2]

theorem flatMap_perm_of_forall2 {γ : Type} {R : α → β → Prop} {f : α → List γ} {g : β → List γ}
    {l' : List β} (h : List.Forall₂ R l l') (hfg : ∀ a b, R a b → (f a).Perm (g b)) :
    (l.flatMap f).Perm (l'.flatMap g) := by
  induction h with
  | nil => exact .refl _
  | cons hab _ ih =>
    exact (hfg _ _ hab).append ih

/-- The elements of a list correspond to those of another one, at the positions that `π` gives. -/
def Repositions {α : Type} (R : α → α → Prop) (π : Nat → Nat) (l l' : List α) : Prop :=
  ∃ mid, List.Forall₂ R l mid ∧ (mid.zipIdx.map fun p => (p.1, π p.2)).Perm l'.zipIdx

section
variable {α γ : Type} {R : α → α → Prop} {π : Nat → Nat} {l l' : List α} {i : Nat}

theorem Repositions.flatMap (h : Repositions R π l l') {f g : α → Nat → List γ}
    (hfg : ∀ a b i, R a b → (f a i).Perm (g b (π i))) :
    (l.zipIdx.flatMap fun p => f p.1 p.2).Perm (l'.zipIdx.flatMap fun p => g p.1 p.2) := by
  obtain ⟨mid, hl, hmid⟩ := h
  have hleft : (l.zipIdx.flatMap fun p => f p.1 p.2).Perm
      (mid.zipIdx.flatMap fun p => g p.1 (π p.2)) := by
    refine flatMap_perm_of_forall2 (forall₂_zipIdx hl) fun p q hpq => ?_
    rw [hpq.2]
    exact hfg p.1 q.1 p.2 hpq.1
  have hright := hmid.flatMap_right fun p => g p.1 p.2
  rw [List.flatMap_map] at hright
  exact hleft.trans hright

theorem Repositions.map (h : Repositions R π l l') {f g : α → Nat → γ}
    (hfg : ∀ a b i, R a b → f a i = g b (π i)) :
    (l.zipIdx.map fun p => f p.1 p.2).Perm (l'.zipIdx.map fun p => g p.1 p.2) := by
  rw [List.map_eq_flatMap, List.map_eq_flatMap]
  exact h.flatMap (f := fun a i => [f a i]) (g := fun b i => [g b i])
    fun a b i hab => by rw [hfg a b i hab]

theorem Repositions.getElem? (h : Repositions R π l l') {a : α} (ha : l[i]? = some a) :
    ∃ b, l'[π i]? = some b ∧ R a b := by
  obtain ⟨mid, hl, hmid⟩ := h
  obtain ⟨b, hb, hab⟩ : ∃ b, mid[i]? = some b ∧ R a b := by
    obtain ⟨hi, rfl⟩ := List.getElem?_eq_some_iff.1 ha
    obtain ⟨hlen, hget⟩ := List.forall₂_iff_get.1 hl
    exact ⟨mid.get ⟨i, hlen ▸ hi⟩, List.getElem?_eq_getElem _, hget i hi (hlen ▸ hi)⟩
  refine ⟨b, ?_, hab⟩
  have hmem : (b, π i) ∈ l'.zipIdx :=
    hmid.mem_iff.1 (List.mem_map.2 ⟨(b, i), List.mem_zipIdx_iff_getElem?.2 hb, rfl⟩)
  exact List.mem_zipIdx_iff_getElem?.1 hmem

theorem Repositions.getElem?_eq_none (h : Repositions R π l l') (hπ : Function.Injective π)
    (hi : l[i]? = none) : l'[π i]? = none := by
  obtain ⟨mid, hl, hmid⟩ := h
  cases hb : l'[π i]? with
  | none => rfl
  | some b =>
    have hmem : (b, π i) ∈ l'.zipIdx := List.mem_zipIdx_iff_getElem?.2 hb
    obtain ⟨p, hp, heq⟩ := List.mem_map.1 (hmid.mem_iff.2 hmem)
    simp only [Prod.mk.injEq] at heq
    have hlt := (List.getElem?_eq_some_iff.1 (List.mem_zipIdx_iff_getElem?.1 hp)).1
    rw [hπ heq.2, ← hl.length_eq] at hlt
    exact absurd hlt (Nat.not_lt.2 (List.getElem?_eq_none_iff.1 hi))

theorem Repositions.exists_of_mem (h : Repositions R π l l') {b : α} (hb : b ∈ l') :
    ∃ a ∈ l, R a b := by
  obtain ⟨mid, hl, hmid⟩ := h
  obtain ⟨j, hj⟩ := List.mem_iff_getElem?.1 hb
  have hj : (b, j) ∈ l'.zipIdx := List.mem_zipIdx_iff_getElem?.2 hj
  obtain ⟨p, hp, heq⟩ := List.mem_map.1 (hmid.mem_iff.2 hj)
  have hmem : b ∈ mid := by
    have := List.mem_of_getElem? (List.mem_zipIdx_iff_getElem?.1 hp)
    simp only [Prod.mk.injEq] at heq
    rwa [heq.1] at this
  clear hmid hp hj
  induction hl with
  | nil => simp at hmem
  | @cons a b' _ _ hab _ ih =>
    rcases List.mem_cons.1 hmem with rfl | hmem
    · exact ⟨a, .head _, hab⟩
    · obtain ⟨a', ha', hR⟩ := ih hmem
      exact ⟨a', .tail _ ha', hR⟩

end

/-! ## What a reordered unit provides -/

/-- A function whose class has another number. -/
def Callable.rename (ρ : TypeRenaming) (f : Callable) : Callable :=
  { f with owner := f.owner.map ρ.classType }

theorem Callable.parameterNames_rename (f : Callable) :
    (f.rename ρ).parameterNames = f.parameterNames := by
  unfold Callable.parameterNames Callable.rename
  cases f.owner <;> rfl

/-- A unit with the definitions of another one under other numbers of types. -/
structure SourceUnit.Reorders (ρ : TypeRenaming) (u u' : SourceUnit) : Prop where
  types : (u.namedTypes.map fun p => (p.1, ρ.type p.2)).Perm u'.namedTypes
  classes : Repositions ClassDef.Permutes ρ.classes u.classes u'.classes
  callables : (u.callables.map (·.rename ρ)).Perm u'.callables
  statements : u'.statements = u.statements

theorem ClassDef.Permutes.callables (h : d.Permutes d') (c : ClassType) :
    (d.callables c).Perm (d'.callables c) :=
  (h.methods.map _).append (h.constructors.map _)

theorem SourceUnit.Permutes.reorders {u u' : SourceUnit} (h : u.Permutes u') :
    ∃ ρ, u.Reorders ρ u' := by
  obtain ⟨cs, hcs, hclasses⟩ := h.classes
  obtain ⟨πe, hπe, henums⟩ := exists_positions h.enums
  obtain ⟨πc, hπc, hpositions⟩ := exists_positions hclasses
  let ρ : TypeRenaming := ⟨πe, πc, hπe, hπc⟩
  have henums : Repositions Eq πe u.enums u'.enums :=
    ⟨u.enums, List.forall₂_same.2 fun _ _ => rfl, henums⟩
  have hclasses : Repositions ClassDef.Permutes πc u.classes u'.classes := ⟨cs, hcs, hpositions⟩
  refine ⟨ρ, ⟨?types, hclasses, ?callables, h.statements⟩⟩
  case types =>
    have henum := henums.map (f := fun d i => (d.name, ρ.type (.enumeration ⟨i, d.name, d.values⟩)))
      (g := fun d i => (d.name, .enumeration ⟨i, d.name, d.values⟩))
      fun d d' i hd => by subst hd; rfl
    have hclass := hclasses.map (f := fun d i => (d.name, ρ.type (.object ⟨i, d.name⟩)))
      (g := fun d i => (d.name, .object ⟨i, d.name⟩)) fun d d' i hd => by rw [hd.name]; rfl
    simp only [namedTypes, enumTypes, classTypes, List.map_append, List.map_map]
    exact henum.append hclass
  case callables =>
    have hmembers := hclasses.flatMap (f := fun d i => (d.callables ⟨i, d.name⟩).map (·.rename ρ))
      (g := fun d i => d.callables ⟨i, d.name⟩) fun d d' i hd => by
        have hnamed : (d.callables ⟨i, d.name⟩).map (·.rename ρ) = d.callables ⟨πc i, d.name⟩ := by
          simp only [ClassDef.callables, List.map_append, List.map_map]
          rfl
        rw [hnamed, hd.name]
        exact hd.callables _
    simp only [callables, classTypes, List.map_append, List.map_flatMap, List.flatMap_map]
    refine hmembers.append ?_
    rw [List.map_map]
    exact h.functions.map _

theorem mapM_denotes (h : ∀ x, types' x = (types x).map ρ.type) (ps : List Parameter) :
    (ps.mapM fun p : Parameter => p.type.denotes types') =
      (ps.mapM fun p : Parameter => p.type.denotes types).map (List.map ρ.type) := by
  induction ps with
  | nil => rfl
  | cons p ps ih =>
    rw [List.mapM_cons, List.mapM_cons, ih, ρ.denotes h]
    cases p.type.denotes types with
    | none => rfl
    | some τ => cases ps.mapM fun p : Parameter => p.type.denotes types <;> rfl

theorem Callable.arguments_rename (h : ∀ x, types' x = (types x).map ρ.type) (f : Callable) :
    (f.rename ρ).arguments types' = (f.arguments types).map (List.map ρ.type) := by
  simp only [Callable.arguments, Callable.rename, mapM_denotes h]
  cases f.parameters.mapM fun p : Parameter => p.type.denotes types with
  | none => rfl
  | some τs => cases f.owner <;> simp [TypeRenaming.type]

theorem Callable.Clashes.symm (h : f.Clashes types g) : g.Clashes types f :=
  ⟨h.1.symm, h.2.1.symm, h.2.2.symm⟩

/-- Of functions that do not clash, a call means at most one. -/
theorem Callable.eq_of_clashes {fs : List Callable} (h : fs.Pairwise fun f g => ¬ f.Clashes types g)
    (hf : f ∈ fs) (hg : g ∈ fs) (hfg : f.Clashes types g) : f = g := by
  by_contra hne
  have : Std.Symm fun f g : Callable => ¬ f.Clashes types g := ⟨fun _ _ hn hc => hn hc.symm⟩
  exact h.forall hf hg hne hfg

namespace SourceUnit.Reorders

variable {ρ : TypeRenaming} {u u' : SourceUnit}

theorem type? (h : u.Reorders ρ u') (hn : (u.namedTypes.map (·.1)).Nodup) (x : String) :
    u'.type? x = (u.type? x).map ρ.type := by
  rw [SourceUnit.type?, lookup_perm h.types (by rwa [List.map_map]), lookup_map_snd]
  rfl

theorem overloads (h : u.Reorders ρ u') (hu : u.WellTyped) :
    u'.callables.Pairwise fun f g => ¬ f.Clashes u'.type? g := by
  refine (h.callables.pairwise_iff fun hn hc => hn hc.symm).1
    (List.pairwise_map.2 (hu.overloads.imp ?_))
  intro f g hfg hc
  refine hfg ⟨hc.1, by simpa [Callable.rename] using hc.2.1, ?_⟩
  have harguments := hc.2.2
  rw [Callable.arguments_rename (h.type? hu.typeNames),
    Callable.arguments_rename (h.type? hu.typeNames)] at harguments
  exact Option.map_injective (List.map_injective_iff.2 ρ.type_injective) harguments

theorem provides (h : u.Reorders ρ u') (hu : u.WellTyped) : ρ.Provides u.globals u'.globals where
  type? := h.type? hu.typeNames
  field? {c x τ} hx := by
    have htypes := h.type? hu.typeNames
    simp only [SourceUnit.globals, Option.bind_eq_bind, Option.bind_eq_some_iff] at hx ⊢
    obtain ⟨d, hd, field, hfield, hτ⟩ := hx
    obtain ⟨d', hd', hperm⟩ := h.classes.getElem? hd
    refine ⟨d', hd', field, ?_, by rw [ρ.denotes htypes, hτ]; rfl⟩
    exact find?_perm hperm.fields (hu.members d (List.mem_of_getElem? hd)).fieldNames hfield
  result? {x τs m τ} hx := by
    have htypes := h.type? hu.typeNames
    simp only [SourceUnit.globals, Option.bind_eq_bind, Option.bind_eq_some_iff] at hx ⊢
    obtain ⟨f, hf, hτ⟩ := hx
    have hmem := List.mem_of_find?_eq_some hf
    have hmatch := List.find?_some hf
    simp only [Bool.and_eq_true, beq_iff_eq] at hmatch
    have hrename : f.rename ρ ∈ u'.callables := h.callables.mem_iff.1 (List.mem_map_of_mem hmem)
    have harguments : (f.rename ρ).arguments u'.type? = some (τs.map ρ.type) := by
      rw [Callable.arguments_rename htypes, hmatch.2]
      rfl
    have howner : (f.rename ρ).owner.isSome = m := by simpa [Callable.rename] using hmatch.1.2
    -- Some function is found, and no other one has the same calls.
    cases hg : u'.callables.find? fun g =>
        g.name == x && g.owner.isSome == m && g.arguments u'.type? == some (τs.map ρ.type) with
    | none =>
      have := List.find?_eq_none.1 hg _ hrename
      simp [harguments, howner, show (f.rename ρ).name = x from hmatch.1.1] at this
    | some g =>
      have hgmatch := List.find?_some hg
      simp only [Bool.and_eq_true, beq_iff_eq] at hgmatch
      have heq : g = f.rename ρ := Callable.eq_of_clashes (h.overloads hu)
        (List.mem_of_find?_eq_some hg) hrename
        ⟨hgmatch.1.1.trans hmatch.1.1.symm, hgmatch.1.2.trans howner.symm,
          hgmatch.2.trans harguments.symm⟩
      refine ⟨g, rfl, ?_⟩
      rw [heq, ρ.denotes htypes, show (f.rename ρ).result = f.result from rfl, hτ]
      rfl

/-- The members of a reordered class are the same names. -/
theorem members (htypes : ∀ x, types' x = (types x).map ρ.type) (hd : d.Permutes d')
    (hmembers : d.MembersTyped types) : ρ.Names (d.names types) (d'.names types') := by
  intro x
  have hfields : (d'.fields.map fun f => (f.name, f.type.denotes types')).lookup x =
      ((d.fields.map fun f => (f.name, f.type.denotes types)).lookup x).map
      (Option.map ρ.type) := by
    have hn : ((d.fields.map fun f => (f.name, f.type.denotes types')).map (·.1)).Nodup := by
      rw [List.map_map]
      exact hmembers.fieldNames
    rw [lookup_perm (hd.fields.map _) hn, ← lookup_map_snd, List.map_map]
    simp only [Function.comp_def, ρ.denotes htypes]
  have hmethods : x ∈ d'.methods.map (·.name) ↔ x ∈ d.methods.map (·.name) :=
    (hd.methods.map _).mem_iff.symm
  simp only [ClassDef.names, List.lookup_append, hfields, Check.lookup_methods, hmethods]
  cases (d.fields.map fun f => (f.name, f.type.denotes types)).lookup x with
  | some b => rfl
  | none => by_cases hx : x ∈ d.methods.map (·.name) <;> simp [hx]

theorem parameters (names : List String) (τs : List Ty) :
    ρ.Names (names.zip (τs.map some)) (names.zip ((τs.map ρ.type).map some)) := by
  induction names generalizing τs with
  | nil => exact .nil
  | cons x names ih =>
    cases τs with
    | nil => exact .nil
    | cons τ τs => exact (ih τs).cons x τ

theorem scopesOf (h : u.Reorders ρ u') (hu : u.WellTyped) {globals globals' : Names}
    (hg : ρ.Names globals globals') (f : Callable) (τs : List Ty) :
    ρ.Scopes (u.scopesOf globals f τs) (u'.scopesOf globals' (f.rename ρ) (τs.map ρ.type)) := by
  unfold SourceUnit.scopesOf
  rw [f.parameterNames_rename]
  refine .cons (parameters _ τs) (List.rel_append ?_ (.cons hg .nil))
  cases howner : f.owner with
  | none => simp [Callable.rename, howner]
  | some c =>
    simp only [Callable.rename, howner, Option.map_some, Option.bind_some]
    cases hd : u.classes[c.index]? with
    | none =>
      rw [TypeRenaming.classType, h.classes.getElem?_eq_none ρ.classes_injective hd]
      exact .nil
    | some d =>
      obtain ⟨d', hd', hperm⟩ := h.classes.getElem? hd
      rw [TypeRenaming.classType, hd']
      exact .cons (members (h.type? hu.typeNames) hperm (hu.members d (List.mem_of_getElem? hd)))
        .nil

theorem signature (h : u.Reorders ρ u') (hu : u.WellTyped) (hf : f.SignatureTyped u.type?) :
    (f.rename ρ).SignatureTyped u'.type? where
  parameters p hp := by
    obtain ⟨τ, hτ, hvoid, hlock⟩ := hf.parameters p hp
    exact ⟨ρ.type τ, by rw [ρ.denotes (h.type? hu.typeNames), hτ]; rfl, mt ρ.type_eq_void.1 hvoid,
      mt ρ.type_eq_lock.1 hlock⟩
  result := by
    obtain ⟨τ, hτ, hlock⟩ := hf.result
    exact ⟨ρ.type τ, by rw [ρ.denotes (h.type? hu.typeNames)]; simp [Callable.rename, hτ],
      mt ρ.type_eq_lock.1 hlock⟩
  thread hthread := by
    obtain ⟨howner, hparameters, hresult⟩ := hf.thread hthread
    refine ⟨by simp [Callable.rename, howner], hparameters, ?_⟩
    rw [ρ.denotes (h.type? hu.typeNames)]
    simp [Callable.rename, hresult, TypeRenaming.type]

theorem code (h : u.Reorders ρ u') (hu : u.WellTyped) {globals globals' : Names}
    (hg : ρ.Names globals globals')
    (hf : f.CodeTyped u globals) : (f.rename ρ).CodeTyped u' globals' := by
  obtain ⟨hnames, τs, τ, hτs, hτ, hbody⟩ := hf
  have htypes := h.type? hu.typeNames
  refine ⟨?_, τs.map ρ.type, ρ.type τ, ?_, ?_,
    TypeRenaming.body (h.provides hu) (h.scopesOf hu hg f τs) hbody⟩
  · rwa [f.parameterNames_rename]
  · rw [Callable.arguments_rename htypes, hτs]
    rfl
  · rw [ρ.denotes htypes, show (f.rename ρ).result = f.result from rfl, hτ]
    rfl

theorem wellTyped (h : u.Reorders ρ u') (hu : u.WellTyped) : u'.WellTyped where
  typeNames := by
    have hperm := h.types.map (·.1)
    rw [List.map_map] at hperm
    exact hperm.nodup_iff.1 hu.typeNames
  members d' hd' := by
    obtain ⟨d, hd, hperm⟩ := h.classes.exists_of_mem hd'
    have hmembers := hu.members d hd
    refine ⟨(hperm.fields.map _).nodup_iff.1 hmembers.fieldNames, fun x hx => ?_,
      fun m hm x hx => ?_⟩
    · obtain ⟨τ, hτ, hvoid, hlock⟩ := hmembers.fields x (hperm.fields.mem_iff.2 hx)
      exact ⟨ρ.type τ, by rw [ρ.denotes (h.type? hu.typeNames), hτ]; rfl, mt ρ.type_eq_void.1 hvoid,
        mt ρ.type_eq_lock.1 hlock⟩
    · exact hmembers.methods m (hperm.methods.mem_iff.2 hm) x (hperm.fields.mem_iff.2 hx)
  signatures f' hf' := by
    obtain ⟨f, hf, rfl⟩ := List.mem_map.1 (h.callables.mem_iff.2 hf')
    exact h.signature hu (hu.signatures f hf)
  overloads := h.overloads hu
  code := by
    obtain ⟨globals, hstatements, hinit, hcode⟩ := hu.code
    obtain ⟨after, hss, hafter⟩ := TypeRenaming.wellTypedAll (h.provides hu)
      (.cons .nil .nil) hstatements
    cases hafter with
    | @cons _ globals' _ _ hg hrest =>
      cases hrest
      refine ⟨globals', h.statements ▸ hss, fun d' hd' x hx e he => ?_, fun f' hf' => ?_⟩
      · obtain ⟨d, hd, hperm⟩ := h.classes.exists_of_mem hd'
        obtain ⟨τ, hτ, hte⟩ := hinit d hd x (hperm.fields.mem_iff.2 hx) e he
        exact ⟨ρ.type τ, by rw [ρ.denotes (h.type? hu.typeNames), hτ]; rfl,
          TypeRenaming.hasType (h.provides hu) (.cons hg .nil) hte⟩
      · obtain ⟨f, hf, rfl⟩ := List.mem_map.1 (h.callables.mem_iff.2 hf')
        exact h.code hu hg (hcode f hf)

end SourceUnit.Reorders

/-! ## Acceptance -/

namespace SourceUnit.Permutes

variable {u u' : SourceUnit}

theorem nodes (h : u.Permutes u') : u.nodes.Perm u'.nodes := by
  obtain ⟨cs, hcs, hclasses⟩ := h.classes
  have hmembers : ∀ d d' : ClassDef, d.Permutes d' → d.nodes.Perm d'.nodes := fun d d' hd =>
    ((hd.fields.flatMap_right _).append (hd.methods.flatMap_right _)).append
    (hd.constructors.flatMap_right _)
  have hcs : (u.classes.flatMap ClassDef.nodes).Perm (u'.classes.flatMap ClassDef.nodes) :=
    (flatMap_perm_of_forall2 hcs hmembers).trans (hclasses.flatMap_right _)
  unfold SourceUnit.nodes
  rw [h.statements]
  exact (hcs.append (h.functions.flatMap_right _)).append_right _

theorem symm (h : u.Permutes u') : u'.Permutes u := by
  have hcomp : Relation.Comp (List.Forall₂ ClassDef.Permutes) List.Perm u.classes u'.classes :=
    h.classes
  rw [List.forall₂_comp_perm_eq_perm_comp_forall₂] at hcomp
  obtain ⟨cs, hperm, hcs⟩ := hcomp
  exact {
    enums := h.enums.symm
    classes := ⟨cs, hcs.flip.imp fun _ _ hd => hd.symm, hperm.symm⟩
    functions := h.functions.symm
    statements := h.statements.symm }

end SourceUnit.Permutes

/-- Whether a unit is accepted does not depend on the order of its definitions. -/
theorem SourceUnit.check_permuted {u u' : SourceUnit} (h : u.Permutes u')
    (hids : (u.nodes.map (·.id)).Nodup) :
    (∃ t, u.check = .ok t) ↔ ∃ t', u'.check = .ok t' := by
  have hids' : (u'.nodes.map (·.id)).Nodup := (h.nodes.map _).nodup_iff.1 hids
  rw [(check_eq_ok_iff hids).1, (check_eq_ok_iff hids').1]
  constructor
  · intro hu
    obtain ⟨ρ, hρ⟩ := h.reorders
    exact hρ.wellTyped hu
  · intro hu
    obtain ⟨ρ, hρ⟩ := h.symm.reorders
    exact hρ.wellTyped hu

/-- A card and its deck, which refer to each other. The flag is whether the definitions are listed
backwards. -/
def deckUnit (backwards : Bool) : SourceUnit :=
  let order {α : Type} (l : List α) : List α := if backwards then l.reverse else l
  let suit : EnumDef := ⟨0, "Suit", ["hearts", "spades"]⟩
  let rank : EnumDef := ⟨1, "Rank", ["low", "high"]⟩
  let card : ClassDef := {
    node := 2
    name := "Card"
    fields := order [⟨3, .named "Deck", "deck", none⟩,
      ⟨4, .named "Rank", "rank", some (.enumValue 5 "Rank" "high")⟩]
    methods := order [
      ⟨6, "beats", [⟨7, "other", .named "Card"⟩], .bool, false, .expression (.binary 8 .notEquals
        (.name 9 "rank") (.field 10 (.name 11 "other") "rank"))⟩,
      ⟨12, "isTop", [], .bool, false, .expression (.binary 13 .equals (.methodCall 14
        (.name 15 "deck") "first" []) (.name 16 "this"))⟩]
    constructors := order [⟨17, [], .mk 18 []⟩, ⟨19, [⟨20, "d", .named "Deck"⟩],
      .mk 21 [.assignment 22 (.name 23 "deck") (.name 24 "d")]⟩] }
  let deck : ClassDef := {
    node := 25
    name := "Deck"
    fields := [⟨26, .named "Card", "top", none⟩]
    methods := [⟨27, "first", [], .named "Card", false, .expression (.name 28 "top")⟩]
    constructors := [] }
  let make : FunctionDef := ⟨29, "make", [], .named "Card", false,
    .expression (.call 30 "make" [.new 31 "Deck" []])⟩
  let makeFor : FunctionDef := ⟨32, "make", [⟨33, "d", .named "Deck"⟩], .named "Card", false,
    .expression (.new 34 "Card" [.name 35 "d"])⟩
  { enums := order [suit, rank]
    classes := order [card, deck]
    functions := order [make, makeFor]
    statements := [.declaration 36 ⟨37, .bool, "won", some (.methodCall 38
      (.call 39 "make" []) "beats" [.call 40 "make" []])⟩] }

theorem deckUnit_permuted : (deckUnit false).Permutes (deckUnit true) ∧
    ((deckUnit false).nodes.map (·.id)).Nodup ∧
    (∃ t, (deckUnit false).check = .ok t) ∧ ∃ t', (deckUnit true).check = .ok t' := by
  have hperm : (deckUnit false).Permutes (deckUnit true) := by
    refine ⟨.swap _ _ _, ⟨(deckUnit true).classes.reverse, ?_, .swap _ _ _⟩, .swap _ _ _, rfl⟩
    exact .cons ⟨rfl, rfl, .swap _ _ _, .swap _ _ _, .swap _ _ _⟩
      (.cons ⟨rfl, rfl, .refl _, .refl _, .refl _⟩ .nil)
  have hids : ((deckUnit false).nodes.map (·.id)).Nodup := by decide +kernel
  have haccepted : ∃ t, (deckUnit false).check = .ok t := by
    have h : (deckUnit false).check.toBool = true := by decide +kernel
    cases hc : (deckUnit false).check with
    | ok t => exact ⟨t, rfl⟩
    | error e => rw [hc] at h; cases h
  exact ⟨hperm, hids, haccepted, (SourceUnit.check_permuted hperm hids).1 haccepted⟩

end Awl
