import Awl.Proofs.CheckExpr
import Awl.Proofs.Judging

/-!
# Checking expressions decides the rules for expressions

In tables without loose ends, `Check.expr` succeeds on every expression whose nodes have no entries
yet, and its result is the judgment of the rules: nothing is reported if and only if the expression
has a type, and then the result is that type (`Check.expr_sat`).
-/

namespace Awl

variable {arguments : List Typed} {member x : String} {type : Ty} {β : Type} {c : ClassType}
  {e : EnumType}

/-! ## Types of the registry -/

/-- A type of a variable, where every class that the type speaks of is registered. -/
def Ty.Registered (r : TypeRegistry) : Ty → Prop
  | .object c => ∃ x, r.class? x = some c
  | .array element => element.Registered r
  | .function .. => False
  | _ => True

theorem Ty.Registered.isFunction {r : TypeRegistry} {type : Ty} (h : type.Registered r) :
    type.isFunction = false := by
  cases type with
  | function => exact h.elim
  | _ => rfl

theorem Ty.Registered.known {r : TypeRegistry}
    (hc : ∀ x c, r.class? x = some c → (Ty.object c).Known r) :
    ∀ {type : Ty}, type.Registered r → type.Known r
  | .object _, ⟨x, hx⟩ => hc x _ hx
  | .array element, hr => @known _ hc element hr
  | .int, _ | .bool, _ | .char, _ | .void, _ | .lock, _ | .enumeration _, _ => trivial
  | .function .., hr => hr.elim

theorem Tables.Whole.known {t : Tables} (h : t.Whole) (hr : type.Registered t.types) :
    type.Known t.types := hr.known h.classes

/-- A type that may stand in for one that cannot be determined. -/
class Ty.StandIn (sub : Ty) : Prop where
  registered : ∀ r, sub.Registered r

instance : Ty.bool.StandIn := ⟨fun _ => trivial⟩

theorem Tables.Whole.standIn {t : Tables} {sub : Ty} [sub.StandIn] (h : t.Whole) :
    (Typed.error sub).type.Known t.types :=
  h.known (Ty.StandIn.registered _ : sub.Registered _)

theorem TypeRegistry.lookup_registered {r : TypeRegistry} (h : r.lookup x = some type) :
    type.Registered r := by
  unfold lookup at h
  split at h
  · cases h
    trivial
  · obtain ⟨c, hc, rfl⟩ := Option.map_eq_some_iff.1 h
    exact ⟨x, hc⟩

namespace TypeRegistry

variable {r : TypeRegistry} {x : String}

theorem lookup_eq_enumeration_iff : r.lookup x = some (.enumeration e) ↔ r.enum? x = some e := by
  unfold lookup
  cases r.enum? x <;> simp

theorem lookup_eq_object_iff (h : ∀ e, r.enum? x = some e → r.class? x = none) :
    r.lookup x = some (.object c) ↔ r.class? x = some c := by
  unfold lookup
  cases he : r.enum? x with
  | none => simp
  | some e => simp [h e he]

end TypeRegistry

theorem EnumType.ordinal_eq_zero_iff : e.ordinal member = 0 ↔ member ∉ e.values := by
  unfold ordinal
  cases h : e.values.findIdx? (· == member) with
  | none =>
    simp only [List.findIdx?_eq_none_iff, beq_eq_false_iff_ne] at h
    simpa using fun hmem => h member hmem rfl
  | some i =>
    obtain ⟨hlt, hi, -⟩ := List.findIdx?_eq_some_iff_getElem.1 h
    have hmem : member ∈ e.values := by
      rw [← beq_iff_eq.1 hi]
      exact List.getElem_mem hlt
    simp [hmem]

namespace Check

open CheckState

/-! ## Judgments in a scope -/

/-- A judgment in terms of what the rules read, where the tables and the scope provide it. -/
def Ruled {α ρ : Type} (mk : α → ρ) (scope : ScopeId) (P : Globals → List Names → α → Prop) (r : ρ)
    (s s' : CheckState) : Prop :=
  ∀ Γ scopes, s.tables.Models Γ → s.tables.scopes.Chain scope scopes → Judged mk (P Γ scopes) r s s'

section
variable {α β ρ ρ' : Type} {mk : α → ρ} {mk' : β → ρ'} {scope : ScopeId}
  {P P' : Globals → List Names → α → Prop} {r : ρ} {r' : ρ'} {s s1 s' : CheckState}
  {ns : List NodeId}

theorem Ruled.bind {Q : α → Globals → List Names → β → Prop} (h : Ruled mk scope P r s s1)
    (hm : s.Marks ns s1) (ha : s1.Adds s') (h' : ∀ a, r = mk a → Ruled mk' scope (Q a) r' s1 s') :
    Ruled mk' scope (fun Γ scopes b => ∃ a, P Γ scopes a ∧ Q a Γ scopes b) r' s s' :=
      fun Γ scopes hΓ hc =>
  (h Γ scopes hΓ hc).bind hm.adds ha fun a hr => h' a hr Γ scopes (hm.models hΓ) (by rwa [hm.tree])

theorem Ruled.congr (h : Ruled mk scope P r s s')
    (hp : ∀ Γ scopes a, P Γ scopes a ↔ P' Γ scopes a) :
    Ruled mk scope P' r s s' := fun Γ scopes hΓ hc => (h Γ scopes hΓ hc).congr (hp Γ scopes)

theorem Ruled.pure {a : α} (h : r = mk a) : Ruled mk scope (fun _ _ b => b = a) r s s :=
    fun _ _ _ _ =>
  .accept (.refl s) h rfl fun _ hb => hb

theorem Ruled.quiet (h : Ruled mk scope P r s s1) (hq : s1.Quiet s') : Ruled mk scope P r s s' :=
  fun Γ scopes hΓ hc => (h Γ scopes hΓ hc).quiet hq

end

/-! ## Entries -/

variable {s s1 s' : CheckState} {n : NodeId} {ns : List NodeId} {Q : β → CheckState → Prop}
  {scope : ScopeId}

theorem recordType_sat (h : s.tables.annotations.type? n = none) :
    Sat (recordType n type) s fun _ s' => s.Marks [n] s' ∧ s.Quiet s' ∧
      s'.tables.annotations.scopes = s.tables.annotations.scopes ∧
      s'.tables.functions = s.tables.functions := by
  refine .tables ?_
  have hc : s.tables.annotations.types.contains n = false := by
    rw [Std.TreeMap.contains_eq_isSome_getElem?, show s.tables.annotations.types[n]? = none from h]
    rfl
  simp only [hc]
  refine ⟨(), _, rfl, ⟨⟨fun m hm => ?_, fun _ _ => rfl, fun _ _ => rfl⟩, .refl s, rfl, rfl, rfl⟩,
    rfl,
    rfl, rfl⟩
  rw [List.mem_singleton] at hm
  exact (Annotations.type?_insert ..).trans (if_neg hm)

theorem recordScope_sat {id : ScopeId} (h : s.tables.annotations.scope? n = none) :
    Sat (recordScope n id) s fun _ s' => s.Marks [n] s' ∧ s.Quiet s' ∧
      s'.tables.annotations.types = s.tables.annotations.types ∧
      s'.tables.functions = s.tables.functions := by
  refine .tables ?_
  have hc : s.tables.annotations.scopes.contains n = false := by
    rw [Std.TreeMap.contains_eq_isSome_getElem?, show s.tables.annotations.scopes[n]? = none from h]
    rfl
  simp only [hc]
  refine ⟨(), _, rfl, ⟨⟨fun _ _ => rfl, fun m hm => ?_, fun _ _ => rfl⟩, .refl s, rfl, rfl, rfl⟩,
    rfl,
    rfl, rfl⟩
  rw [List.mem_singleton] at hm
  exact (Annotations.scope?_insert ..).trans (if_neg hm)

theorem bindFunction_sat {f : FunctionId} (h : s.tables.functions.lookup n = none) :
    Sat (bindFunction n f) s fun _ s' => s.Marks [n] s' ∧ s.Quiet s' ∧
      s'.tables.annotations = s.tables.annotations ∧ s'.tables.functions.lookup n = some f ∧
      s'.tables.functions.functions = s.tables.functions.functions := by
  refine .tables ?_
  have hc : s.tables.functions.bindings.contains n = false := by
    rw [Std.TreeMap.contains_eq_isSome_getElem?, show s.tables.functions.bindings[n]? = none from h]
    rfl
  simp only [FunctionTable.bind, hc]
  refine ⟨(), _, rfl, ⟨⟨fun _ _ => rfl, fun _ _ => rfl, fun m hm => ?_⟩, .refl s, rfl, rfl, rfl⟩,
    rfl,
    rfl, (FunctionTable.lookup_insert ..).trans (if_pos rfl), rfl⟩
  rw [List.mem_singleton] at hm
  exact (FunctionTable.lookup_insert ..).trans (if_neg hm)

/-! ## Lookups -/

theorem Sat.binding? {sc : Scope} {f : Option Binding → Check β}
    (hsc : s.tables.scopes.scopes.get? scope = some sc) (h : Sat (f (sc.bindings.lookup x)) s Q) :
    Sat (Check.binding? scope x >>= f) s Q :=
  .step (binding?_eq_ok.2 ⟨ScopeTree.binding?_eq hsc x, rfl⟩) h

theorem Sat.memberScope {id : ScopeId} {f : ScopeId → Check β}
    (hc : s.tables.types.memberScope? c = some id) (h : Sat (f id) s Q) :
    Sat (Check.memberScope c >>= f) s Q :=
  .step (memberScope_eq_ok.2 ⟨hc, rfl⟩) h

/-! ## The rules -/

/-- A rule has been applied at a node, to operands that may be erroneous: if they are sound, with
the types `a`, the result is the judgment of the rule `P a`. The entry that the rule makes, if any,
is not the type of the node. -/
structure Applies {α : Type} (scope : ScopeId) (n : NodeId) (operands : α → Prop)
    (P : α → Globals → List Names → Ty → Prop) (s : CheckState) (r : Typed)
    (s' : CheckState) : Prop where
  marks : s.Marks [n] s'
  untyped : s'.tables.annotations.types = s.tables.annotations.types
  known : r.type.Known s.tables.types
  ruled : ∀ a, operands a → Ruled Typed.sound scope (P a) r s s'

variable {ρ σ sub : Ty} {scope : ScopeId} {sc : Scope} {ctx : Context} {node : Node}
  {span : Span} {α : Type} {operands : α → Prop} {P : α → Globals → List Names → Ty → Prop}
  {r : Typed} {rule : OperandRule} {p : Problem}

/-- A rule that reports, where the rule does not hold. -/
theorem report_applies (hk : r.type.Known s.tables.types)
    (hn : ∀ a, operands a → ∀ Γ scopes, s.tables.Models Γ → s.tables.scopes.Chain scope scopes →
      ∀ τ, ¬ P a Γ scopes τ) :
    Sat (do report p span; return r) s (Applies scope n operands P s) := .step rfl <| .pure
  ⟨.report s _, rfl, hk, fun a ha Γ scopes hΓ hc => .reject (not_quiet_push s _)
    (hn a ha Γ scopes hΓ hc)⟩

/-- A rule that makes no entry and reports nothing. -/
theorem pure_applies (hk : r.type.Known s.tables.types)
    (hr : ∀ a, operands a → Ruled Typed.sound scope (P a) r s s) :
    Sat (pure r) s (Applies scope n operands P s) := .pure ⟨.refl s, rfl, hk, hr⟩

/-- A condition `C` of a rule that is reported apart from the rest of the rule. -/
theorem reportIf_applies {c : Prop} [Decidable c] {k : Check Typed} {C : α → Prop}
    (hc : ∀ a, operands a → (c ↔ ¬ C a))
    (hk : ∀ s1, s1.tables = s.tables → Sat k s1 (Applies scope n operands P s1)) :
    Sat (if c then (do report p span; k) else k) s
      (Applies scope n operands (fun a Γ scopes τ => P a Γ scopes τ ∧ C a) s) := by
  split
  · rename_i h
    refine .step rfl ((hk { s with diagnostics := s.diagnostics.push ⟨p, span⟩ } rfl).weaken
      fun r s' ⟨hm, hu, hk, _⟩ => ?_)
    have hrep : s.Marks [n] _ := .report s { problem := p, span }
    refine ⟨hrep.trans hm, hu, hk, fun a ha Γ scopes _ _ => .reject (fun hq => ?_) fun τ hτ =>
      (hc a ha).1 h hτ.2⟩
    exact not_quiet_push s _ ((quiet_trans_iff hrep.adds hm.adds).1 hq).1
  · rename_i h
    refine (hk s rfl).weaken fun r s' ⟨hm, hu, hk, hr⟩ => ⟨hm, hu, hk, fun a ha => ?_⟩
    have hC : C a := Classical.byContradiction fun hn => h ((hc a ha).2 hn)
    exact (hr a ha).congr fun Γ scopes τ => by simp [hC]

theorem newArrayType_sat {element : Ty} {length : Typed} (hk : element.Known s.tables.types) :
    Sat (newArrayType span element length) s (Applies scope n (fun σ : Ty => length = .sound σ)
      (fun σ _ _ τ => τ = .array element ∧ σ = .int) s) :=
  reportIf_applies (fun σ hσ => by simp [hσ, Typed.sound]) fun s1 hs1 => pure_applies
    (by rw [hs1]; exact hk) fun σ _ Γ scopes _ _ => .accept (.refl s1) rfl rfl fun _ h => h

theorem unaryType_sat {op : UnaryOp} {operand : Typed} :
    Sat (unaryType span op operand) s (Applies scope n (fun σ : Ty => operand = .sound σ)
      (fun σ _ _ τ => σ = op.type ∧ τ = op.type) s) := by
  have hk : op.type.Known s.tables.types := by cases op <;> trivial
  rw [unaryType]
  split
  · rename_i he
    refine pure_applies hk fun σ hσ => ?_
    rw [hσ] at he
    cases he
  split
  · rename_i hne
    refine report_applies hk fun σ hσ _ _ _ _ τ h => ?_
    rw [hσ] at hne
    simp [Typed.sound, h.1] at hne
  · rename_i heq
    refine pure_applies hk fun σ hσ _ _ _ _ => .accept (.refl s) rfl ⟨?_, rfl⟩ fun _ h => h.2
    rw [hσ] at heq
    simpa [Typed.sound] using heq

theorem OperandRule.accepts_iff : rule.accepts σ ρ = true ↔ rule.Takes σ ρ rule.result := by
  cases rule with
  | arithmetic =>
    simp only [OperandRule.accepts, Bool.and_eq_true, beq_iff_eq]
    exact ⟨fun ⟨h, h'⟩ => by subst h h'; exact .arithmetic, fun h => by cases h; exact ⟨rfl, rfl⟩⟩
  | ordering =>
    simp only [OperandRule.accepts, OperandRule.result, Bool.and_eq_true, Bool.or_eq_true,
      beq_iff_eq]
    constructor
    · rintro ⟨rfl, rfl | rfl⟩
      · exact .orderInt
      · exact .orderChar
    · intro h
      cases h with
      | orderInt => exact ⟨rfl, .inl rfl⟩
      | orderChar => exact ⟨rfl, .inr rfl⟩
  | equality =>
    simp only [OperandRule.accepts, beq_iff_eq]
    exact ⟨fun h => by subst h; exact .equality, fun h => by cases h; rfl⟩
  | logical =>
    simp only [OperandRule.accepts, Bool.and_eq_true, beq_iff_eq]
    exact ⟨fun ⟨h, h'⟩ => by subst h h'; exact .logical, fun h => by cases h; exact ⟨rfl, rfl⟩⟩

theorem OperandRule.Takes.result_eq {τ : Ty} (h : rule.Takes σ ρ τ) : τ = rule.result := by
  cases h <;> rfl

theorem binaryType_sat {op : BinaryOp} {left right : Typed} : Sat (binaryType span op left right) s
      (Applies scope n (fun a : Ty × Ty => left = .sound a.1 ∧ right = .sound a.2)
      (fun a _ _ τ => op.rule.Takes a.1 a.2 τ) s) := by
  have hk : op.rule.result.Known s.tables.types := by cases op.rule <;> trivial
  rw [binaryType]
  split
  · rename_i he
    refine pure_applies hk fun a ha => ?_
    rw [ha.1, ha.2] at he
    cases he
  split
  · rename_i hno
    refine report_applies hk fun a ha _ _ _ _ τ h => ?_
    have hτ := OperandRule.Takes.result_eq h
    subst hτ
    rw [ha.1, ha.2] at hno
    simp [Typed.sound, OperandRule.accepts_iff.2 h] at hno
  · rename_i hyes
    refine pure_applies hk fun a ha _ _ _ _ => .accept (.refl s) rfl ?_ fun _ h =>
      OperandRule.Takes.result_eq h
    rw [ha.1, ha.2] at hyes
    exact OperandRule.accepts_iff.1 (by simpa [Typed.sound] using hyes)

section
variable [sub.StandIn]

theorem variableType_sat {asMethod unbound : Problem} (hw : s.tables.Whole)
    (hsc : s.tables.scopes.scopes.get? ctx.scope = some sc) (hf : s.tables.Free [node.id]) :
    Sat (variableType sub ctx node x asMethod unbound) s
      (Applies ctx.scope node.id (fun _ : Unit => True)
      (fun _ _ scopes τ => Names.find scopes x = some (some τ)) s) := by
  obtain ⟨F, hF⟩ := ScopeTree.exists_chain hw.laid _ sc hsc
  obtain ⟨found, hfound, -⟩ := hF.resolveFrom hw.laid x
  have hfind : ∀ scopes, s.tables.scopes.Chain ctx.scope scopes →
      found.map (·.1.asVariable) = Names.find scopes x := by
    intro scopes hc
    obtain ⟨r, hr, hmap⟩ := hc.resolveFrom hw.laid x
    rw [hfound] at hr
    cases hr
    exact hmap
  refine .step (resolveFrom_eq_ok.2 ⟨hfound, rfl⟩) ?_
  cases found with
  | none =>
    refine report_applies (hw.standIn) fun _ _ Γ scopes _ hc τ hτ => ?_
    rw [← hfind scopes hc] at hτ
    cases hτ
  | some found =>
    obtain ⟨type, id⟩ := found
    cases hfun : type.isFunction with
    | true =>
      simp only [hfun]
      refine report_applies (hw.standIn) fun _ _ Γ scopes _ hc τ hτ => ?_
      rw [← hfind scopes hc] at hτ
      simp [Ty.asVariable, hfun] at hτ
    | false =>
      simp only [hfun]
      refine .bind (recordScope_sat (hf.scopes _ (.head _))) fun _ s' ⟨hm, hq, ht, _⟩ => .pure ?_
      obtain ⟨sc', b, hsc', hb, rfl⟩ := ScopeTree.exists_of_resolveWithin hfound
      refine ⟨hm, ht, hw.bindings _ _ _ _ hsc' hb, fun _ _ Γ scopes _ hc => ?_⟩
      have hx : Names.find scopes x = some (some b.type) := by
        rw [← hfind scopes hc]
        simp [Ty.asVariable, hfun]
      exact .accept hq rfl hx fun τ hτ => by simpa [hx] using hτ.symm

theorem enumValueType_sat (hw : s.tables.Whole) :
    Sat (enumValueType sub span x member) s (Applies scope n (fun _ : Unit => True)
      (fun _ Γ _ τ => ∃ e, Γ.type? x = some (.enumeration e) ∧ member ∈ e.values ∧
        τ = .enumeration e) s) := by
  refine .tables ?_
  cases he : s.tables.types.enum? x with
  | none =>
    refine report_applies (hw.standIn) fun _ _ Γ _ hΓ _ τ ⟨e, hx, _⟩ => ?_
    rw [hΓ.types, TypeRegistry.lookup_eq_enumeration_iff, he] at hx
    cases hx
  | some e =>
    dsimp only
    split
    · rename_i hz
      refine report_applies trivial fun _ _ Γ _ hΓ _ τ ⟨e', hx, hmem, _⟩ => ?_
      rw [hΓ.types, TypeRegistry.lookup_eq_enumeration_iff, he] at hx
      cases hx
      exact EnumType.ordinal_eq_zero_iff.1 (by simpa using hz) hmem
    · rename_i hz
      refine pure_applies trivial fun _ _ Γ _ hΓ _ => ?_
      have hx : Γ.type? x = some (.enumeration e) := by
        rw [hΓ.types, TypeRegistry.lookup_eq_enumeration_iff, he]
      have hmem : member ∈ e.values := Classical.byContradiction fun hn =>
        hz (by simpa using EnumType.ordinal_eq_zero_iff.2 hn)
      refine .accept (.refl s) rfl ⟨e, hx, hmem, rfl⟩ fun τ ⟨e', hx', _, hτ⟩ => ?_
      rw [hx] at hx'
      cases hx'
      exact hτ

theorem elementType_sat {array index : Typed} (hw : s.tables.Whole)
    (hk : array.type.Known s.tables.types) :
    Sat (elementType sub span array index) s (Applies scope n
      (fun a : Ty × Ty => array = .sound a.1 ∧ index = .sound a.2)
      (fun a _ _ τ => a.1 = .array τ ∧ a.2 = .int) s) := by
  refine reportIf_applies (fun a ha => by simp [ha.2, Typed.sound]) fun s1 hs1 => ?_
  have hw1 : s1.tables.Whole := hs1 ▸ hw
  split
  · rename_i he
    refine pure_applies (hw1.standIn) fun a ha => ?_
    rw [ha.1] at he
    cases he
  cases hel : array.type.element? with
  | some element =>
    obtain ⟨type, erroneous⟩ := array
    cases type with
    | array element' =>
      cases hel
      refine pure_applies (hs1 ▸ hk) fun a ha _ _ _ _ => ?_
      have ha1 : a.1 = .array element := (congrArg Typed.type ha.1).symm
      exact .accept (.refl s1) rfl ha1 fun τ hτ => (Ty.array.inj (ha1.symm.trans hτ)).symm
    | _ => cases hel
  | none =>
    refine report_applies (hw1.standIn) fun a ha _ _ _ _ τ hτ => ?_
    rw [ha.1, hτ] at hel
    cases hel

theorem fieldType_sat {object : Typed} (hw : s.tables.Whole)
    (hk : object.type.Known s.tables.types) :
    Sat (fieldType sub span object x) s (Applies scope n (fun σ : Ty => object = .sound σ)
      (fun σ Γ _ τ => ∃ c, σ = .object c ∧ Γ.field? c x = some τ) s) := by
  rw [fieldType]
  split
  · rename_i he
    refine pure_applies (hw.standIn) fun σ hσ => ?_
    rw [hσ] at he
    cases he
  cases hc : object.type.class? with
  | none =>
    refine report_applies (hw.standIn) fun σ hσ Γ _ _ _ τ h => ?_
    obtain ⟨c, hc', -⟩ := h
    rw [hσ, hc'] at hc
    cases hc
  | some c =>
    obtain hobj := Ty.class?_eq_some.1 hc
    rw [hobj] at hk
    obtain ⟨id, hid⟩ := hk
    obtain ⟨sc, hsc, hkind, -⟩ := hw.members c id hid
    refine .memberScope hid (.binding? hsc ?_)
    have hfield : ∀ Γ, s.tables.Models Γ → Γ.field? c x =
        (sc.bindings.lookup x).bind fun b => b.offset.map fun _ => b.type := fun Γ hΓ =>
      hΓ.fields c id sc x hid hsc hkind
    split
    · rename_i type k hb
      refine pure_applies (hw.bindings _ _ _ _ hsc hb) fun σ hσ Γ scopes hΓ _ => ?_
      have hx := hfield Γ hΓ
      rw [hb] at hx
      refine .accept (.refl s) rfl ⟨c, by rw [hσ] at hobj; exact hobj, hx⟩
        fun τ h => ?_
      obtain ⟨c', hc', hx'⟩ := h
      rw [hσ] at hobj
      obtain rfl : c = c' := Ty.object.inj (hobj.symm.trans hc')
      exact Option.some.inj (hx'.symm.trans hx)
    · rename_i hno
      refine report_applies (hw.standIn) fun σ hσ Γ _ hΓ _ τ h => ?_
      obtain ⟨c', hc', hx'⟩ := h
      rw [hσ] at hobj
      obtain rfl : c = c' := Ty.object.inj (hobj.symm.trans hc')
      rw [hfield Γ hΓ] at hx'
      cases hb : sc.bindings.lookup x with
      | none =>
        rw [hb] at hx'
        cases hx'
      | some b =>
        obtain ⟨type, offset⟩ := b
        cases offset with
        | none =>
          rw [hb] at hx'
          cases hx'
        | some k => exact hno type k hb

theorem callType_sat {name : String} {isMethod : Bool} (hw : s.tables.Whole)
    (hf : s.tables.Free [node.id]) :
    Sat (callType sub node name arguments isMethod) s (Applies scope node.id
      (fun τs : List Ty => arguments = τs.map .sound)
      (fun τs Γ _ τ => Γ.result? name τs isMethod = some τ) s) := by
  refine .tables ?_
  have htypes : ∀ τs : List Ty, arguments = τs.map .sound → arguments.map (·.type) = τs := by
    rintro τs rfl
    simp [Typed.sound, Function.comp_def]
  have hsound : ∀ τs : List Ty, arguments = τs.map .sound →
      (arguments.any (·.erroneous)) = false := by
    rintro τs rfl
    simp [Typed.sound]
  cases hcall : s.tables.functions.resolveCall name (arguments.map (·.type)) isMethod with
  | some i =>
    obtain ⟨f, hfi, -⟩ := FunctionTable.resolveCall_eq_some hcall
    simp only [hcall]
    refine .bind (bindFunction_sat (hf.calls _ (.head _))) fun _ s' ⟨hm, hq, ha, _⟩ => ?_
    refine .lift (Slots.fetch_eq_ok_iff.2 hfi)
      (.pure ⟨hm, by rw [ha], (hw.results _ (Tables.head_mem hfi) :),
      fun τs hτs Γ scopes hΓ _ => ?_⟩)
    have hres : Γ.result? name τs isMethod = some f.signature.result := by
      rw [hΓ.resolveCall, ← htypes τs hτs, hcall]
      simp [hfi]
    rw [hsound τs hτs]
    exact .accept hq rfl hres fun τ hτ => by simpa [hres] using hτ.symm
  | none =>
    have hres : ∀ τs : List Ty, arguments = τs.map .sound → ∀ Γ, s.tables.Models Γ →
        Γ.result? name τs isMethod = none := fun τs hτs Γ hΓ => by
      rw [hΓ.resolveCall, ← htypes τs hτs, hcall]
      rfl
    simp only [hcall]
    split
    · rename_i he
      refine pure_applies (hw.standIn) fun τs hτs => ?_
      rw [hsound τs hτs] at he
      cases he
    · split
      · exact report_applies (hw.standIn) fun τs hτs Γ _ hΓ _ τ hτ => by
          rw [hres τs hτs Γ hΓ] at hτ
          cases hτ
      · exact report_applies (hw.standIn) fun τs hτs Γ _ hΓ _ τ hτ => by
          rw [hres τs hτs Γ hΓ] at hτ
          cases hτ

theorem methodCallType_sat {receiver : Typed} {method : String} (hw : s.tables.Whole)
    (hf : s.tables.Free [node.id]) :
    Sat (methodCallType sub node receiver method arguments) s (Applies scope node.id
      (fun a : Ty × List Ty => receiver = .sound a.1 ∧ arguments = a.2.map .sound)
      (fun a Γ _ τ => ∃ c, a.1 = .object c ∧
        Γ.result? method (.object c :: a.2) true = some τ) s) := by
  rw [methodCallType]
  split
  · rename_i he
    refine pure_applies (hw.standIn) fun a ha => ?_
    rw [ha.1] at he
    cases he
  split
  · rename_i hno
    refine report_applies (hw.standIn) fun a ha _ _ _ _ τ h => ?_
    obtain ⟨c, hc, -⟩ := h
    rw [ha.1, hc] at hno
    cases hno
  · rename_i hyes
    refine Sat.weaken (Q := Applies scope node.id (fun τs : List Ty =>
      receiver :: arguments = τs.map .sound)
      (fun τs Γ _ τ => Γ.result? method τs true = some τ) s) (callType_sat hw hf) fun r s' h =>
      ⟨h.marks, h.untyped, h.known, fun a ha => ?_⟩
    have hclass : ∃ c, a.1 = .object c := by
      rw [ha.1] at hyes
      cases hc : a.1.class? with
      | some c => exact ⟨c, Ty.class?_eq_some.1 hc⟩
      | none => simp [Typed.sound, hc] at hyes
    obtain ⟨c, hc⟩ := hclass
    refine (h.ruled (.object c :: a.2) (by rw [ha.1, ha.2, hc]; rfl)).congr fun Γ _ τ => ?_
    refine ⟨fun h => ⟨c, hc, h⟩, ?_⟩
    rintro ⟨c', hc', h⟩
    obtain rfl : c = c' := Ty.object.inj (hc.symm.trans hc')
    exact h

theorem newType_sat (hw : s.tables.Whole) (hf : s.tables.Free [node.id]) :
    Sat (newType sub node x arguments) s (Applies scope node.id
      (fun τs : List Ty => arguments = τs.map .sound)
      (fun τs Γ _ τ => ∃ c, Γ.type? x = some (.object c) ∧ τ = .object c ∧
        (τs = [] ∨ (Γ.result? constructorName (.object c :: τs) true).isSome)) s) := by
  have htypes : ∀ τs : List Ty, arguments = τs.map .sound → arguments.map (·.type) = τs := by
    rintro τs rfl
    simp [Typed.sound, Function.comp_def]
  refine .tables ?_
  have hclass : ∀ Γ, s.tables.Models Γ → ∀ c, Γ.type? x = some (.object c) ↔
      s.tables.types.class? x = some c := fun Γ hΓ c => by
    rw [hΓ.types, TypeRegistry.lookup_eq_object_iff (hw.apart x)]
  cases hc : s.tables.types.class? x with
  | none =>
    refine report_applies (hw.standIn) fun τs _ Γ _ hΓ _ τ ⟨c, hx, _⟩ => ?_
    rw [hclass Γ hΓ, hc] at hx
    cases hx
  | some c =>
    have hsame : ∀ Γ, s.tables.Models Γ → ∀ c', Γ.type? x = some (.object c') ↔ c' = c :=
      fun Γ hΓ c' => by rw [hclass Γ hΓ, hc, Option.some.injEq, eq_comm]
    dsimp only
    cases hcall : s.tables.functions.resolveCall constructorName
        (.object c :: arguments.map (·.type)) true with
    | some i =>
      obtain ⟨f, hfi, -⟩ := FunctionTable.resolveCall_eq_some hcall
      refine .bind (bindFunction_sat (hf.calls _ (.head _))) fun _ s' ⟨hm, hq, ha, _⟩ =>
        .pure ⟨hm, by rw [ha], hw.classes x c hc, fun τs hτs Γ scopes hΓ _ => ?_⟩
      have hres : (Γ.result? constructorName (.object c :: τs) true).isSome := by
        rw [hΓ.resolveCall, ← htypes τs hτs, hcall]
        simp [hfi]
      refine .accept hq rfl ⟨c, (hsame Γ hΓ c).2 rfl, rfl, .inr hres⟩ fun τ ⟨c', hx', hτ, _⟩ => ?_
      rw [hτ, (hsame Γ hΓ c').1 hx']
    | none =>
      refine (reportIf_applies (P := fun _ _ _ τ => τ = .object c)
        (C := fun τs : List Ty => τs = [])
        (fun τs hτs => ?_) fun s1 hs1 => ?_).weaken fun r s' ⟨hm, hu, hk, hr⟩ =>
          ⟨hm, hu, hk, fun τs hτs Γ scopes hΓ hch => (hr τs hτs Γ scopes hΓ hch).congr fun τ => ?_⟩
      · subst hτs
        simp [Typed.sound]
      · exact pure_applies (by rw [hs1]; exact hw.classes x c hc) fun _ _ _ _ _ _ =>
          .accept (.refl s1) rfl rfl fun _ h => h
      · have hres : Γ.result? constructorName (.object c :: τs) true = none := by
          rw [hΓ.resolveCall, ← htypes τs hτs, hcall]
          rfl
        constructor
        · exact fun ⟨hτ, hnil⟩ => ⟨c, (hsame Γ hΓ c).2 rfl, hτ, .inl hnil⟩
        · rintro ⟨c', hx', hτ, hor⟩
          obtain rfl := (hsame Γ hΓ c').1 hx'
          refine ⟨hτ, hor.resolve_right fun h => ?_⟩
          rw [hres] at h
          cases h

/-- A type expression is resolved by the named types of the registry. -/
theorem resolveType_sat (te : TypeExpr) :
    Sat (resolveType sub span te) s fun r s' => s.Adds s' ∧ s'.tables = s.tables ∧
      r.Registered s.tables.types ∧
      Judged id (fun τ => te.denotes s.tables.types.lookup = some τ) r s s' := by
  induction te with
  | array element ih =>
    refine .bind ih fun r s' ⟨ha, ht, hr, hj⟩ => .pure ⟨ha, ht, hr, ?_, ?_⟩
    · intro hq
      obtain ⟨σ, rfl, hσ⟩ := hj.sound hq
      exact ⟨.array r, rfl, by simpa [TypeExpr.denotes] using hσ⟩
    · intro τ hτ
      obtain ⟨σ, hσ, rfl⟩ := Option.map_eq_some_iff.1 hτ
      obtain ⟨hq, rfl⟩ := hj.complete σ hσ
      exact ⟨hq, rfl⟩
  | named x =>
    refine .tables ?_
    cases hx : s.tables.types.lookup x with
    | some type =>
      exact .pure ⟨.refl s, rfl, TypeRegistry.lookup_registered hx,
          .accept (.refl s) rfl hx fun τ hτ => by
        simpa [TypeExpr.denotes, hx] using hτ.symm⟩
    | none =>
      refine .step rfl (.pure ?_)
      exact ⟨⟨[⟨.unknownType x, span⟩], by simp⟩, rfl, Ty.StandIn.registered _,
          .reject (not_quiet_push s _) fun τ hτ => by
        simp [TypeExpr.denotes, hx] at hτ⟩
  | _ =>
    exact .pure ⟨.refl s, rfl, trivial, .accept (.refl s) rfl rfl fun τ hτ => by
      simpa [TypeExpr.denotes] using hτ.symm⟩

end

/-! ## Expressions -/

/-- Something with a type has been checked, and its nodes have got their entries: the result is the
judgment of the rule `P`. -/
structure Decides (scope : ScopeId) (ns : List NodeId) (P : Globals → List Names → Ty → Prop)
    (s : CheckState) (r : Typed) (s' : CheckState) : Prop where
  marks : s.Marks ns s'
  known : r.type.Known s.tables.types
  ruled : Ruled Typed.sound scope P r s s'

/-- The type of a node is recorded after its rule `m` has been applied to the operands, which the
nodes `ns` belong to. -/
theorem rule_decides {s2 : CheckState} {m : Check Typed} {P' : Globals → List Names → Ty → Prop}
    (hf : s.tables.Free (n :: ns)) (h2 : s.Marks ns s2)
    (hm : Sat m s2 (Applies scope n operands P s2))
    (hr : ∀ r s3, Applies scope n operands P s2 r s3 → Ruled Typed.sound scope P' r s s3) :
    Sat (do let r ← m; recordType n r.type; return r) s2 (Decides scope (n :: ns) P' s) := by
  refine .bind hm fun r s3 ha => ?_
  have htype : s3.tables.annotations.type? n = none := by
    rw [Annotations.type?, ha.untyped]
    exact (hf.head h2.toTouches).types n (.head _)
  refine .bind (recordType_sat htype) fun _ s' h => ?_
  obtain ⟨hrec, hq, -⟩ := h
  refine .pure ⟨?_, ?_, (hr r s3 ha).quiet hq⟩
  · have hn : [n] ⊆ n :: ns := by simp
    exact (h2.mono (List.subset_cons_self n ns)).trans ((ha.marks.mono hn).trans (hrec.mono hn))
  · rw [← h2.registry]
    exact ha.known

mutual

/-- Checking an expression decides whether it has a type. -/
theorem expr_sat [sub.StandIn] : ∀ (e : Expr) {s : CheckState}, s.tables.Whole →
    s.tables.scopes.scopes.get? ctx.scope = some sc → s.tables.Free (e.nodes.map (·.id)) →
    Sat (expr sub ctx e) s (Decides ctx.scope (e.nodes.map (·.id))
      (fun Γ scopes τ => e.HasType Γ scopes τ) s)
  | .literal n l, s, _, _, hf => by
    have hk : l.type.Known s.tables.types := by cases l <;> trivial
    have hrule : ∀ Γ scopes τ, τ = l.type ↔ Expr.HasType Γ scopes (.literal n l) τ := by
      intro Γ scopes τ
      constructor
      · rintro rfl
        cases l <;> constructor
      · intro h
        cases h <;> rfl
    have happ : Sat (pure (.sound l.type)) s (Applies ctx.scope n.id (fun _ : Unit => True)
        (fun _ _ _ τ => τ = l.type) s) := pure_applies hk fun _ _ => .pure rfl
    exact rule_decides hf (.refl s) happ fun r s' ha => (ha.ruled () trivial).congr hrule
  | .name n x, s, hw, hsc, hf => by
    refine rule_decides hf (.refl s) (variableType_sat hw hsc hf) fun r s' ha =>
      (ha.ruled () trivial).congr fun Γ scopes τ => ?_
    exact ⟨.name, fun h => by cases h; assumption⟩
  | .enumValue n x member, s, hw, _, hf => by
    refine rule_decides hf (.refl s) (enumValueType_sat hw) fun r s' ha =>
      (ha.ruled () trivial).congr fun Γ scopes τ => ?_
    constructor
    · rintro ⟨e, hx, hmem, rfl⟩
      exact .enumValue hx hmem
    · intro h
      cases h with | enumValue hx hmem => exact ⟨_, hx, hmem, rfl⟩
  | .arrayLiteral n [], s, hw, _, hf => by
    have hk : (Ty.array sub).Known s.tables.types := (hw.standIn : (Typed.error sub).type.Known _)
    have happ : Sat (do report .emptyArray n.span; pure (.error (.array sub))) s
        (Applies ctx.scope n.id (fun _ : Unit => True) (fun _ _ _ _ => False) s) :=
      report_applies hk fun _ _ _ _ _ _ _ h => h
    refine rule_decides hf (.refl s) happ fun r s' ha =>
      (ha.ruled () trivial).congr fun Γ scopes τ => ?_
    exact ⟨False.elim, fun h => by cases h with | arrayLiteral hne _ => exact hne rfl⟩
  | .arrayLiteral n (e :: es), s, hw, hsc, hf => by
    simp only [Expr.nodes, Expr.nodesAll, List.map_cons, List.map_append] at hf ⊢
    refine .bind (expr_sat e hw hsc hf.tail.left) fun first s1 he =>
      .bind (elements_sat es (he.marks.whole hw) (by rwa [he.marks.tree])
        (hf.tail.touches he.marks.toTouches)) fun erroneous s2 ⟨hm, hes⟩ => ?_
    have h2 := he.marks.append hm
    have hk : (Ty.array first.type).Known s2.tables.types := by
      rw [h2.registry]
      exact he.known
    have happ : Sat (pure { type := .array first.type, erroneous }) s2 (Applies ctx.scope n.id
        (fun σ : Ty => first = .sound σ ∧ erroneous = false) (fun σ _ _ τ => τ = .array σ) s2) :=
      pure_applies hk fun σ hσ => .pure (by rw [hσ.1, hσ.2]; rfl)
    refine rule_decides hf h2 happ fun r s3 ha => ?_
    have hrest : ∀ σ, first = .sound σ → Ruled (fun _ : Unit => false) ctx.scope
        (fun Γ scopes _ => ∀ e ∈ es, e.HasType Γ scopes σ) erroneous s1 s2 := by
      rintro σ rfl
      exact hes rfl
    refine (he.ruled.bind he.marks (hm.adds.trans ha.marks.adds) fun σ hσ =>
      (hrest σ hσ).bind hm ha.marks.adds fun _ hb => ha.ruled σ ⟨hσ, hb⟩).congr fun Γ scopes τ => ?_
    constructor
    · rintro ⟨σ, hσ, _, hall, rfl⟩
      exact .arrayLiteral (by simp) (List.forall_mem_cons.2 ⟨hσ, hall⟩)
    · intro h
      cases h with
      | arrayLiteral _ hall =>
        obtain ⟨hfirst, hall⟩ := List.forall_mem_cons.1 hall
        exact ⟨_, hfirst, (), hall, rfl⟩
  | .newArray n t l, s, hw, hsc, hf => by
    refine .bind (resolveType_sat t) fun element s1 ⟨hadd, ht, hreg, hj⟩ => ?_
    have hres : s.Marks [] s1 := .ofTables hadd ht
    refine .bind (expr_sat l (hres.whole hw) (by rwa [hres.tree]) (ht ▸ hf.tail))
      fun length s2 hl => ?_
    have h2 := hres.append hl.marks
    have hk : element.Known s2.tables.types := by
      rw [h2.registry]
      exact hw.known hreg
    refine rule_decides hf h2 (newArrayType_sat hk) fun r s3 ha => ?_
    have hruled : Ruled id ctx.scope (fun Γ _ τ => t.denotes Γ.type? = some τ) element s s1 :=
      fun Γ _ hΓ _ => by simpa only [hΓ.types] using hj
    refine (hruled.bind hres (hl.marks.adds.trans ha.marks.adds)
      (Q := fun σ Γ scopes τ => ∃ ρ, l.HasType Γ scopes ρ ∧ τ = .array σ ∧ ρ = .int) fun σ hσ =>
      ?_).congr fun Γ scopes τ => ?_
    · obtain rfl : element = σ := hσ
      exact hl.ruled.bind hl.marks ha.marks.adds ha.ruled
    · constructor
      · rintro ⟨σ, hσ, ρ, hρ, rfl, rfl⟩
        exact .newArray hσ hρ
      · intro h
        cases h with | newArray h h' => exact ⟨_, h, _, h', rfl, rfl⟩
  | .index n a i, s, hw, hsc, hf => by
    simp only [Expr.nodes, List.map_append] at hf ⊢
    refine .bind (expr_sat a hw hsc hf.tail.left) fun array s1 harr =>
      .bind (expr_sat i (harr.marks.whole hw) (by rwa [harr.marks.tree])
        (hf.tail.touches harr.marks.toTouches)) fun index s2 hi => ?_
    have h2 := harr.marks.append hi.marks
    refine rule_decides hf h2 (elementType_sat (h2.whole hw)
      (by rw [h2.registry]; exact harr.known)) fun r s3 ha => ?_
    refine (harr.ruled.bind harr.marks (hi.marks.adds.trans ha.marks.adds) fun σ hσ =>
      hi.ruled.bind hi.marks ha.marks.adds fun ρ hρ => ha.ruled (σ, ρ) ⟨hσ, hρ⟩).congr
      fun Γ scopes τ => ?_
    constructor
    · rintro ⟨σ, hσ, ρ, hρ, rfl, rfl⟩
      exact .index hσ hρ
    · intro h
      cases h with | index h1 h2 => exact ⟨_, h1, _, h2, rfl, rfl⟩
  | .field n o x, s, hw, hsc, hf => by
    refine .bind (expr_sat o hw hsc hf.tail) fun object s1 ho => ?_
    refine rule_decides hf ho.marks (fieldType_sat (ho.marks.whole hw)
      (by rw [ho.marks.registry]; exact ho.known)) fun r s2 ha => ?_
    refine (ho.ruled.bind ho.marks ha.marks.adds ha.ruled).congr fun Γ scopes τ => ?_
    constructor
    · rintro ⟨σ, hσ, c, rfl, hx⟩
      exact .field hσ hx
    · intro h
      cases h with | field h hx => exact ⟨_, h, _, rfl, hx⟩
  | .call n f es, s, hw, hsc, hf => by
    refine .bind (exprs_sat es hw hsc hf.tail) fun arguments s1 ⟨hm, hes⟩ => ?_
    refine rule_decides hf hm (callType_sat (hm.whole hw) (hf.head hm.toTouches)) fun r s2 ha => ?_
    refine (hes.bind hm ha.marks.adds ha.ruled).congr fun Γ scopes τ => ?_
    constructor
    · rintro ⟨τs, hτs, hres⟩
      exact .call hτs hres
    · intro h
      cases h with | call h hres => exact ⟨_, h, hres⟩
  | .methodCall n e m es, s, hw, hsc, hf => by
    simp only [Expr.nodes, List.map_append] at hf ⊢
    refine .bind (expr_sat e hw hsc hf.tail.left) fun receiver s1 he =>
      .bind (exprs_sat es (he.marks.whole hw) (by rwa [he.marks.tree])
        (hf.tail.touches he.marks.toTouches)) fun arguments s2 ⟨hm, hes⟩ => ?_
    have h2 := he.marks.append hm
    refine rule_decides hf h2 (methodCallType_sat (h2.whole hw) (hf.head h2.toTouches))
      fun r s3 ha => ?_
    refine (he.ruled.bind he.marks (hm.adds.trans ha.marks.adds) fun σ hσ =>
      hes.bind hm ha.marks.adds fun τs hτs => ha.ruled (σ, τs) ⟨hσ, hτs⟩).congr fun Γ scopes τ => ?_
    constructor
    · rintro ⟨σ, hσ, τs, hτs, c, rfl, hres⟩
      exact .methodCall hσ hτs hres
    · intro h
      cases h with | methodCall h h' hres => exact ⟨_, h, _, h', _, rfl, hres⟩
  | .new n x es, s, hw, hsc, hf => by
    refine .bind (exprs_sat es hw hsc hf.tail) fun arguments s1 ⟨hm, hes⟩ => ?_
    refine rule_decides hf hm (newType_sat (hm.whole hw) (hf.head hm.toTouches)) fun r s2 ha => ?_
    refine (hes.bind hm ha.marks.adds ha.ruled).congr fun Γ scopes τ => ?_
    constructor
    · rintro ⟨τs, hτs, c, hx, rfl, hor⟩
      exact .new hx hτs (hor.imp_left fun h => by cases hτs <;> simp_all)
    · intro h
      cases h with | new hx h hor =>
        exact ⟨_, h, _, hx, rfl, hor.imp_left fun h' => by cases h <;> simp_all⟩
  | .unary n op e, s, hw, hsc, hf => by
    refine .bind (expr_sat e hw hsc hf.tail) fun operand s1 he => ?_
    refine rule_decides hf he.marks unaryType_sat fun r s2 ha => ?_
    refine (he.ruled.bind he.marks ha.marks.adds ha.ruled).congr fun Γ scopes τ => ?_
    constructor
    · rintro ⟨σ, hσ, rfl, rfl⟩
      cases op with
      | not => exact .not hσ
      | negate => exact .negate hσ
    · intro h
      cases h with
      | not h => exact ⟨_, h, rfl, rfl⟩
      | negate h => exact ⟨_, h, rfl, rfl⟩
  | .binary n op l r, s, hw, hsc, hf => by
    simp only [Expr.nodes, List.map_append] at hf ⊢
    refine .bind (expr_sat l hw hsc hf.tail.left) fun left s1 hl =>
      .bind (expr_sat r (hl.marks.whole hw) (by rwa [hl.marks.tree])
        (hf.tail.touches hl.marks.toTouches)) fun right s2 hr => ?_
    refine rule_decides hf (hl.marks.append hr.marks) binaryType_sat fun typed s3 ha => ?_
    refine (hl.ruled.bind hl.marks (hr.marks.adds.trans ha.marks.adds) fun σ hσ =>
      hr.ruled.bind hr.marks ha.marks.adds fun ρ hρ => ha.ruled (σ, ρ) ⟨hσ, hρ⟩).congr
      fun Γ scopes τ => ?_
    constructor
    · rintro ⟨σ, hσ, ρ, hρ, h⟩
      exact .binary hσ hρ h
    · intro h
      cases h with | binary h1 h2 h => exact ⟨_, h1, _, h2, h⟩

theorem exprs_sat [sub.StandIn] : ∀ (es : List Expr) {s : CheckState},
    s.tables.Whole →
    s.tables.scopes.scopes.get? ctx.scope = some sc →
    s.tables.Free ((Expr.nodesAll es).map (·.id)) →
    Sat (exprs sub ctx es) s fun rs s' => s.Marks ((Expr.nodesAll es).map (·.id)) s' ∧ Ruled
      (List.map Typed.sound) ctx.scope (fun Γ scopes τs => Expr.HaveTypes Γ scopes es τs) rs s s'
  | [], s, _, _, _ => by
    refine .pure ⟨.refl s, fun Γ scopes _ _ => .accept (.refl s) rfl .nil fun τs h => ?_⟩
    cases h
    rfl
  | e :: es, s, hw, hsc, hf => by
    simp only [Expr.nodesAll, List.map_append] at hf ⊢
    refine .bind (expr_sat e hw hsc hf.left) fun r s1 he =>
      .bind (exprs_sat es (he.marks.whole hw) (by rwa [he.marks.tree])
        (hf.touches he.marks.toTouches)) fun rs s2 ⟨hm, hes⟩ => .pure ⟨he.marks.append hm, ?_⟩
    refine (he.ruled.bind he.marks hm.adds fun τ hτ =>
      hes.bind hm (.refl _) fun τs hτs => .pure (a := τ :: τs) (by rw [hτ, hτs]; rfl)).congr
      fun Γ scopes τs => ?_
    constructor
    · rintro ⟨τ, hτ, τs, hτs, rfl⟩
      exact .cons hτ hτs
    · intro h
      cases h with | cons h h' => exact ⟨_, h, _, h', rfl⟩

/-- The elements after the first one are judged by its type, unless an error has been found. -/
theorem elements_sat [sub.StandIn] : ∀ (es : List Expr) {s : CheckState}
    {first : Ty} {erroneous : Bool}, s.tables.Whole →
    s.tables.scopes.scopes.get? ctx.scope = some sc →
    s.tables.Free ((Expr.nodesAll es).map (·.id)) →
    Sat (elements sub ctx first erroneous es) s fun r s' =>
      s.Marks ((Expr.nodesAll es).map (·.id)) s' ∧ (erroneous = false →
        Ruled (fun _ : Unit => false) ctx.scope
          (fun Γ scopes _ => ∀ e ∈ es, e.HasType Γ scopes first) r s s')
  | [], s, first, erroneous, _, _, _ =>
    .pure ⟨.refl s, fun he => (Ruled.pure (a := ()) he).congr fun _ _ _ => by simp⟩
  | e :: es, s, first, erroneous, hw, hsc, hf => by
    rw [elements]
    simp only [Expr.nodesAll, List.map_append] at hf ⊢
    refine .bind (expr_sat e hw hsc hf.left) fun value s1 he => ?_
    have hw1 := he.marks.whole hw
    have hsc1 : s1.tables.scopes.scopes.get? ctx.scope = some sc := by rwa [he.marks.tree]
    have hf1 := hf.touches he.marks.toTouches
    -- The rest of the elements matters only if this one has the type of the first one.
    have hrule : ∀ r s', s1.Marks ((Expr.nodesAll es).map (·.id)) s' →
        (∀ σ, value = .sound σ → Ruled (fun _ : Unit => false) ctx.scope
          (fun Γ scopes _ => σ = first ∧ ∀ e ∈ es, e.HasType Γ scopes first) r s1 s') →
        Ruled (fun _ : Unit => false) ctx.scope
          (fun Γ scopes _ => ∀ e' ∈ e :: es, e'.HasType Γ scopes first) r s s' := by
      intro r s' hm hr
      refine (he.ruled.bind he.marks hm.adds hr).congr fun Γ scopes _ => ?_
      rw [List.forall_mem_cons]
      exact ⟨fun ⟨σ, hσ, h, hes⟩ => ⟨h ▸ hσ, hes⟩, fun ⟨h, hes⟩ => ⟨_, h, rfl, hes⟩⟩
    split
    · rename_i hne
      have hrep : s1.Marks ((Expr.nodesAll es).map (·.id)) _ :=
        .report s1 ⟨.elementType value.type first, e.span⟩
      refine .step rfl ((elements_sat es (hrep.whole hw1) hsc1 hf1).weaken fun r s' ⟨hm, _⟩ =>
        ⟨he.marks.append (hrep.trans hm), fun herr => ?_⟩)
      refine hrule r s' (hrep.trans hm) fun σ hσ Γ scopes _ _ =>
        .reject (fun hq => ?_) fun _ h => ?_
      · exact not_quiet_push s1 _ ((quiet_trans_iff hrep.adds hm.adds).1 hq).1
      · rw [hσ] at hne
        simp [Typed.sound, h.1] at hne
    · rename_i heq
      refine (elements_sat es hw1 hsc1 hf1).weaken fun r s' ⟨hm, hes⟩ =>
        ⟨he.marks.append hm, fun herr => hrule r s' hm fun σ hσ => ?_⟩
      have hfirst : σ = first := by
        rw [hσ] at heq
        simpa [herr, Typed.sound] using heq
      exact (hes (by rw [herr, hσ]; rfl)).congr fun _ _ _ => by simp [hfirst]

end

end Check

end Awl
