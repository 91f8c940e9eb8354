import Mathlib.Data.List.Forall2
import Awl.Proofs.Rules

/-!
# Typing under other numbers of types

Enumerations and classes are told apart by their numbers. The typing rules never look at a number as
such: if the definitions of one unit provide what those of another one do, up to other numbers, then
all code that is well typed for the first is well typed for the second. Scopes are compared by what
they say about names, not by the order of their entries.
-/

namespace Awl

/-- Other numbers for enumerations and classes. -/
structure TypeRenaming where
  enums : Nat → Nat
  classes : Nat → Nat
  enums_injective : Function.Injective enums
  classes_injective : Function.Injective classes

namespace TypeRenaming

variable (ρ : TypeRenaming) {τ : Ty}

def enumType (e : EnumType) : EnumType := { e with index := ρ.enums e.index }

def classType (c : ClassType) : ClassType := { c with index := ρ.classes c.index }

def type : Ty → Ty
  | .array τ => .array (type τ)
  | .enumeration e => .enumeration (ρ.enumType e)
  | .object c => .object (ρ.classType c)
  | τ => τ

theorem enumType_injective : Function.Injective ρ.enumType := by
  intro e e' h
  obtain ⟨i, x, vs⟩ := e
  simp only [enumType, EnumType.mk.injEq] at h
  obtain ⟨hi, rfl, rfl⟩ := h
  rw [ρ.enums_injective hi]

theorem classType_injective : Function.Injective ρ.classType := by
  intro c c' h
  obtain ⟨i, x⟩ := c
  simp only [classType, ClassType.mk.injEq] at h
  obtain ⟨hi, rfl⟩ := h
  rw [ρ.classes_injective hi]

theorem eq_of_type : ∀ {σ τ : Ty}, ρ.type σ = ρ.type τ → σ = τ
  | .int, τ, h | .bool, τ, h | .char, τ, h | .void, τ, h | .lock, τ, h => by
    cases τ <;> simp_all [type]
  | .function _ _ _, τ, h => by cases τ <;> simp_all [type]
  | .array σ, τ, h => by
    cases τ <;> simp only [type, reduceCtorEq, Ty.array.injEq] at h
    rw [eq_of_type h]
  | .enumeration e, τ, h => by
    cases τ <;> simp only [type, reduceCtorEq, Ty.enumeration.injEq] at h
    rw [ρ.enumType_injective h]
  | .object c, τ, h => by
    cases τ <;> simp only [type, reduceCtorEq, Ty.object.injEq] at h
    rw [ρ.classType_injective h]

theorem type_injective : Function.Injective ρ.type := fun _ _ h => ρ.eq_of_type h

theorem type_eq_void : ρ.type τ = .void ↔ τ = .void :=
  ⟨fun h => ρ.eq_of_type (τ := .void) h, fun h => by rw [h]; rfl⟩

theorem type_eq_lock : ρ.type τ = .lock ↔ τ = .lock :=
  ⟨fun h => ρ.eq_of_type (τ := .lock) h, fun h => by rw [h]; rfl⟩

theorem denotes {types types' : String → Option Ty} (h : ∀ x, types' x = (types x).map ρ.type) :
    ∀ t : TypeExpr, t.denotes types' = (t.denotes types).map ρ.type
  | .int | .bool | .char | .void | .lock => rfl
  | .array t => by
    simp only [TypeExpr.denotes, denotes h t]
    cases t.denotes types <;> rfl
  | .named x => h x

/-! ## What is renamed -/

/-- The same names with renamed types. -/
def Names (names names' : Awl.Names) : Prop :=
  ∀ x, names'.lookup x = (names.lookup x).map (Option.map ρ.type)

abbrev Scopes : List Awl.Names → List Awl.Names → Prop := List.Forall₂ ρ.Names

/-- Definitions that provide at least the same, with renamed types. -/
structure Provides (Γ Γ' : Globals) : Prop where
  type? : ∀ x, Γ'.type? x = (Γ.type? x).map ρ.type
  field? : ∀ {c x τ}, Γ.field? c x = some τ → Γ'.field? (ρ.classType c) x = some (ρ.type τ)
  result? : ∀ {f τs m τ}, Γ.result? f τs m = some τ →
    Γ'.result? f (τs.map ρ.type) m = some (ρ.type τ)

section
variable {ρ} {names names' : Awl.Names} {scopes scopes' : List Awl.Names}

theorem Names.nil : ρ.Names [] [] := fun _ => rfl

theorem Names.cons (h : ρ.Names names names') (x : String) (τ : Ty) :
    ρ.Names ((x, some τ) :: names) ((x, some (ρ.type τ)) :: names') := by
  intro y
  rw [List.lookup_cons, List.lookup_cons, h y]
  cases y == x <;> rfl

theorem Scopes.find (h : ρ.Scopes scopes scopes') {x : String}
    (hx : Names.find scopes x = some (some τ)) : Names.find scopes' x = some (some (ρ.type τ)) := by
  induction h with
  | nil => simp [Names.find] at hx
  | @cons names names' _ _ hnames _ ih =>
    simp only [Names.find, List.findSome?_cons, hnames x] at hx ⊢
    cases hl : names.lookup x with
    | none =>
      rw [hl] at hx
      exact ih hx
    | some b =>
      rw [hl] at hx
      cases hx
      rfl

theorem takes {rule : OperandRule} {σ1 σ2 : Ty} (h : rule.Takes σ1 σ2 τ) :
    rule.Takes (ρ.type σ1) (ρ.type σ2) (ρ.type τ) := by
  cases h with
  | arithmetic => exact .arithmetic
  | orderInt => exact .orderInt
  | orderChar => exact .orderChar
  | equality => exact .equality
  | logical => exact .logical

/-! ## Code -/

variable {Γ Γ' : Globals}

/-- The rules for expressions hold under other numbers of types. -/
theorem hasType (hΓ : ρ.Provides Γ Γ') (hs : ρ.Scopes scopes scopes') {e : Expr}
    (h : e.HasType Γ scopes τ) : e.HasType Γ' scopes' (ρ.type τ) := by
  refine @Expr.HasType.rec Γ scopes (fun e τ _ => e.HasType Γ' scopes' (ρ.type τ))
    (fun es τs _ => Expr.HaveTypes Γ' scopes' es (τs.map ρ.type)) .int .bool .char .string ?name
    ?enumValue
    ?arrayLiteral ?newArray ?index ?field ?call ?methodCall ?new ?not ?negate ?binary
    .nil ?cons e τ h
  case name =>
    intro n x τ hx
    exact .name (hs.find hx)
  case enumValue =>
    intro n x member e hx hmember
    exact .enumValue (by rw [hΓ.type?, hx]; rfl) hmember
  case arrayLiteral =>
    intro n es τ hne _ ih
    exact .arrayLiteral hne ih
  case newArray =>
    intro n t e τ ht _ ih
    exact .newArray (by rw [ρ.denotes hΓ.type?, ht]; rfl) ih
  case index =>
    intro n a i τ _ _ iha ihi
    exact .index iha ihi
  case field =>
    intro n o c x τ _ hx ih
    exact .field ih (hΓ.field? hx)
  case call =>
    intro n f es τs τ _ hf ih
    exact .call ih (hΓ.result? hf)
  case methodCall =>
    intro n r c m es τs τ _ _ hm ihr ihes
    exact .methodCall ihr ihes (hΓ.result? hm)
  case new =>
    intro n x c es τs hx _ hk ih
    refine .new (by rw [hΓ.type?, hx]; rfl) ih (hk.imp_right fun hk => ?_)
    obtain ⟨τ, hτ⟩ := Option.isSome_iff_exists.1 hk
    have := hΓ.result? hτ
    rw [List.map_cons] at this
    rw [show Ty.object (ρ.classType c) = ρ.type (.object c) from rfl, this]
    rfl
  case not =>
    intro n e _ ih
    exact .not ih
  case negate =>
    intro n e _ ih
    exact .negate ih
  case binary =>
    intro n op l r σ1 σ2 τ _ _ hop ihl ihr
    exact .binary ihl ihr (takes hop)
  case cons =>
    intro e es τ τs _ _ ihe ihes
    exact .cons ihe ihes

theorem target (hΓ : ρ.Provides Γ Γ') (hs : ρ.Scopes scopes scopes') {t : Target}
    (h : t.HasType Γ scopes τ) : t.HasType Γ' scopes' (ρ.type τ) := by
  cases h with
  | name hx => exact .name (hs.find hx)
  | index ha hi => exact .index (hasType hΓ hs ha) (hasType hΓ hs hi)
  | field ho hx => exact .field (hasType hΓ hs ho) (hΓ.field? hx)

variable {result : Option Ty}

/-- The rules for statements hold under other numbers of types, and the scopes after them
correspond. -/
theorem wellTypedAll (hΓ : ρ.Provides Γ Γ') (hs : ρ.Scopes scopes scopes') {next : Bool}
    {ss : List Stmt}
    {after : List Awl.Names} (h : Stmt.WellTypedAll Γ result next scopes ss after) :
    ∃ after', Stmt.WellTypedAll Γ' (result.map ρ.type) next scopes' ss after' ∧
      ρ.Scopes after after' := by
  -- One claim per syntax class: the scopes before are given, those after are found.
  refine @Stmt.WellTypedAll.rec Γ result
    (fun next S s T _ => ∀ S', ρ.Scopes S S' →
      ∃ T', Stmt.WellTyped Γ' (result.map ρ.type) next S' s T' ∧ ρ.Scopes T T')
    (fun next S s T _ => ∀ S', ρ.Scopes S S' →
      ∃ T', Stmt.WellTypedOption Γ' (result.map ρ.type) next S' s T' ∧ ρ.Scopes T T')
    (fun next S ss T _ => ∀ S', ρ.Scopes S S' →
      ∃ T', Stmt.WellTypedAll Γ' (result.map ρ.type) next S' ss T' ∧ ρ.Scopes T T')
    (fun next S b _ => ∀ S', ρ.Scopes S S' → Block.WellTyped Γ' (result.map ρ.type) next S' b)
    (fun next S b _ => ∀ S', ρ.Scopes S S' → Block.WellTypedOption Γ' (result.map ρ.type) next S' b)
    (fun fallback S τ cases _ => ∀ S', ρ.Scopes S S' →
      Case.WellTypedAll Γ' (result.map ρ.type) fallback S' (ρ.type τ) cases)
    ?declaration ?assignment ?ifElse ?whileLoop ?doLoop ?forLoop ?block ?switch ?next ?returnNone
    ?returnSome
    ?expression ?acquire ?release ?none ?some ?nil ?cons ?mk ?noBlock ?someBlock ?noCase
    ?case next scopes ss after h scopes' hs
  case declaration =>
    intro next names outer n d τ hτ hvoid hlock hinit hfree S' hS
    cases hS with
    | @cons _ names' _ outer' hnames houter =>
      have hS : ρ.Scopes (names :: outer) (names' :: outer') := .cons hnames houter
      refine ⟨_, .declaration (τ := ρ.type τ) (by rw [ρ.denotes hΓ.type?, hτ]; rfl)
        (mt ρ.type_eq_void.1 hvoid)
        (fun h => ?_) (fun e he => hasType hΓ hS (hinit e he)) (by rw [hnames, hfree]; rfl),
        .cons (hnames.cons d.name τ) houter⟩
      rw [hlock (ρ.type_eq_lock.1 h)] at houter
      exact List.forall₂_nil_left_iff.1 houter
  case assignment =>
    intro next S n t e τ ht he S' hS
    exact ⟨S', .assignment (target hΓ hS ht) (hasType hΓ hS he), hS⟩
  case ifElse =>
    intro next S n e b b' he _ _ ihb ihb' S' hS
    exact ⟨S', .ifElse (hasType hΓ hS he) (ihb S' hS) (ihb' S' hS), hS⟩
  case whileLoop =>
    intro next S n e b he _ ihb S' hS
    exact ⟨S', .whileLoop (hasType hΓ hS he) (ihb S' hS), hS⟩
  case doLoop =>
    intro next S n e b _ he ihb S' hS
    exact ⟨S', .doLoop (ihb S' hS) (hasType hΓ hS he), hS⟩
  case forLoop =>
    intro next S inner inner' n i s e b _ he _ _ ihi ihs ihb S' hS
    obtain ⟨T, hi, hT⟩ := ihi ([] :: S') (.cons .nil hS)
    obtain ⟨T', hs, hT'⟩ := ihs T hT
    exact ⟨S', .forLoop hi (hasType hΓ hT he) hs (ihb T' hT'), hS⟩
  case block =>
    intro next S n b _ ihb S' hS
    exact ⟨S', .block (ihb S' hS), hS⟩
  case switch =>
    intro next S n e τ cases b he _ _ ihc ihb S' hS
    exact ⟨S', .switch (hasType hΓ hS he) (ihc S' hS) (ihb S' hS), hS⟩
  case next =>
    intro S n S' hS
    exact ⟨S', .next, hS⟩
  case returnNone =>
    intro next S n hr S' hS
    exact ⟨S', .returnNone (by rw [hr]; rfl), hS⟩
  case returnSome =>
    intro next S n e τ hr hvoid he S' hS
    exact ⟨S', .returnSome (τ := ρ.type τ) (by rw [hr]; rfl) (mt ρ.type_eq_void.1 hvoid)
      (hasType hΓ hS he), hS⟩
  case expression =>
    intro next S n e τ he S' hS
    exact ⟨S', .expression (hasType hΓ hS he), hS⟩
  case acquire =>
    intro next S n e he hplace S' hS
    exact ⟨S', .acquire (hasType hΓ hS he) hplace, hS⟩
  case release =>
    intro next S n e he hplace S' hS
    exact ⟨S', .release (hasType hΓ hS he) hplace, hS⟩
  case none =>
    intro next S S' hS
    exact ⟨S', .none, hS⟩
  case some =>
    intro next S T s _ ih S' hS
    obtain ⟨T', hs, hT⟩ := ih S' hS
    exact ⟨T', .some hs, hT⟩
  case nil =>
    intro next S S' hS
    exact ⟨S', .nil, hS⟩
  case cons =>
    intro next S S1 T s ss _ _ ihs ihss S' hS
    obtain ⟨S1', hs, hS1⟩ := ihs S' hS
    obtain ⟨T', hss, hT⟩ := ihss S1' hS1
    exact ⟨T', .cons hs hss, hT⟩
  case mk =>
    intro next S inner n ss _ ih S' hS
    obtain ⟨T', hss, -⟩ := ih ([] :: S') (.cons .nil hS)
    exact .mk hss
  case noBlock =>
    intro next S S' hS
    exact .none
  case someBlock =>
    intro next S b _ ih S' hS
    exact .some (ih S' hS)
  case noCase =>
    intro fallback S τ S' hS
    exact .nil
  case case =>
    intro fallback S τ n v b cases hv _ _ ihb ihc S' hS
    exact .cons (hasType hΓ hS hv) (ihb S' hS) (ihc S' hS)

theorem body (hΓ : ρ.Provides Γ Γ') (hs : ρ.Scopes scopes scopes') {b : FunctionBody}
    (h : b.WellTyped Γ τ scopes) : b.WellTyped Γ' (ρ.type τ) scopes' := by
  cases b with
  | block b =>
    obtain ⟨⟨after, hss⟩, hreturns⟩ := h
    obtain ⟨after', hss', -⟩ := wellTypedAll hΓ hs hss
    exact ⟨⟨after', hss'⟩, fun hvoid => hreturns (mt ρ.type_eq_void.2 hvoid)⟩
  | expression e => exact hasType hΓ hs h

end

end TypeRenaming

end Awl
