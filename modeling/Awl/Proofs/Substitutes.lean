import Awl.Proofs.NumberingCheck

/-!
# Substitutes for types that cannot be determined

The checker goes on after an error with a substitute type. It marks an answer that is a substitute,
and reports nothing about what depends on it. So it does not matter which type it is: the check with
another one reports the same (`SourceUnit.reportsWith_agree`).

The substitute for the name of an unknown type is not marked. After the report of such a name the
reports may differ, and a mistake may be reported a second time (`unknownDeclaration_parts`).
-/

namespace Awl

/-! ## A unit beside itself -/

/-- Whether a node defines a function. -/
def NodeKind.isHead : NodeKind → Bool
  | .function | .constructor => true
  | _ => false

/-- The entries that satisfy `N` are of nodes that belong together with themselves. -/
class NodePairs.Reflects (R : NodePairs) (N : NodeEntry → Prop) : Prop where
  code : ∀ {k : NodeEntry} {n : Node}, N k → k.id = n.id → k.kind.isHead = false → R.code n n
  head : ∀ {k : NodeEntry} {n : Node}, N k → k.id = n.id → k.kind.isHead = true → R.head n n
  mark : ∀ {n : Node}, R.mark n n

section
variable {R : NodePairs} {N : NodeEntry → Prop} [hrel : R.Reflects N]

omit hrel in
mutual

theorem Expr.like_self [hrel : R.Reflects N] : ∀ e : Expr, (∀ k ∈ e.nodes, N k) → e.Like R e
  | .literal .., h | .name .., h | .enumValue .., h => ⟨_, rfl, hrel.code (h _ (.head _)) rfl rfl⟩
  | .arrayLiteral _ es, h | .call _ _ es, h | .new _ _ es, h =>
    ⟨_, es, rfl, hrel.code (h _ (.head _)) rfl rfl,
      Expr.likeAll_self es (List.forall_mem_cons.1 h).2⟩
  | .newArray _ _ e, h | .field _ e _, h | .unary _ _ e, h =>
    ⟨_, e, rfl, hrel.code (h _ (.head _)) rfl rfl, Expr.like_self e (List.forall_mem_cons.1 h).2⟩
  | .index _ a b, h | .binary _ _ a b, h =>
    have hab := List.forall_mem_append.1 (List.forall_mem_cons.1 h).2
    ⟨_, a, b, rfl, hrel.code (h _ (.head _)) rfl rfl, Expr.like_self a hab.1,
      Expr.like_self b hab.2⟩
  | .methodCall _ r _ es, h =>
    have hres := List.forall_mem_append.1 (List.forall_mem_cons.1 h).2
    ⟨_, r, es, rfl, hrel.code (h _ (.head _)) rfl rfl, Expr.like_self r hres.1,
      Expr.likeAll_self es hres.2⟩

theorem Expr.likeAll_self [hrel : R.Reflects N] : ∀ es : List Expr, (∀ k ∈ Expr.nodesAll es, N k) →
    Expr.LikeAll R es es
  | [], _ => rfl
  | e :: es, h =>
    have hes := List.forall_mem_append.1 h
    ⟨e, es, rfl, Expr.like_self e hes.1, Expr.likeAll_self es hes.2⟩

end

theorem Expr.likeOption_self : ∀ e : Option Expr, (∀ k ∈ Expr.nodesOption e, N k) →
    Expr.LikeOption R e e
  | none, _ => .none
  | some e, h => .some (e.like_self h)

theorem Declaration.like_self (d : Declaration) (h : ∀ k ∈ d.nodes, N k) : d.Like R d :=
  ⟨hrel.code (h _ (.head _)) rfl rfl, rfl, rfl, Expr.likeOption_self _ (List.forall_mem_cons.1 h).2⟩

theorem Target.like_self : ∀ t : Target, (∀ k ∈ t.nodes, N k) → t.Like R t
  | .name .., h => ⟨_, rfl, hrel.code (h _ (.head _)) rfl rfl⟩
  | .index _ a i, h =>
    have hai := List.forall_mem_append.1 (List.forall_mem_cons.1 h).2
    ⟨_, a, i, rfl, hrel.code (h _ (.head _)) rfl rfl, a.like_self hai.1, i.like_self hai.2⟩
  | .field _ o _, h =>
    ⟨_, o, rfl, hrel.code (h _ (.head _)) rfl rfl, o.like_self (List.forall_mem_cons.1 h).2⟩

omit hrel in
mutual

theorem Stmt.like_self [hrel : R.Reflects N] : ∀ s : Stmt, (∀ k ∈ s.nodes, N k) → s.Like R s
  | .declaration _ d, h => ⟨_, d, rfl, d.like_self h⟩
  | .assignment _ t v, h =>
    have htv := List.forall_mem_append.1 h
    ⟨_, t, v, rfl, hrel.mark, t.like_self htv.1, v.like_self htv.2⟩
  | .ifElse _ c b f, h => by
    simp only [Stmt.nodes, List.forall_mem_append] at h
    exact ⟨_, c, b, f, rfl, c.like_self h.1.1, Block.like_self b h.1.2, Block.likeOption_self f h.2⟩
  | .whileLoop _ c b, h =>
    have hcb := List.forall_mem_append.1 h
    ⟨_, c, b, rfl, c.like_self hcb.1, Block.like_self b hcb.2⟩
  | .doLoop _ b c, h =>
    have hbc := List.forall_mem_append.1 h
    ⟨_, b, c, rfl, Block.like_self b hbc.1, c.like_self hbc.2⟩
  | .forLoop _ i c s b, h => by
    simp only [Stmt.nodes, List.forall_mem_append] at h
    obtain ⟨⟨⟨hi, hc⟩, hs⟩, hb⟩ := h
    exact ⟨_, i, c, s, b, rfl, Stmt.likeOption_self i hi, c.like_self hc, Stmt.likeOption_self s hs,
      Block.like_self b hb⟩
  | .block _ b, h => ⟨_, b, rfl, Block.like_self b h⟩
  | .switch _ d cases f, h => by
    simp only [Stmt.nodes, List.forall_mem_append] at h
    exact ⟨_, d, cases, f, rfl, d.like_self h.1.1, Case.likeAll_self cases h.1.2,
      Block.likeOption_self f h.2⟩
  | .next _, _ => ⟨_, rfl, hrel.mark⟩
  | .return _ v, h => ⟨_, v, rfl, hrel.mark, Expr.likeOption_self v h⟩
  | .expression _ e, h | .acquire _ e, h | .release _ e, h => ⟨_, e, rfl, e.like_self h⟩

theorem Stmt.likeOption_self [hrel : R.Reflects N] :
    ∀ s : Option Stmt, (∀ k ∈ Stmt.nodesOption s, N k) → Stmt.LikeOption R s s
  | none, _ => rfl
  | some s, h => ⟨s, rfl, Stmt.like_self s h⟩

theorem Stmt.likeAll_self [hrel : R.Reflects N] : ∀ ss : List Stmt, (∀ k ∈ Stmt.nodesAll ss, N k) →
    Stmt.LikeAll R ss ss
  | [], _ => rfl
  | s :: ss, h =>
    have hss := List.forall_mem_append.1 h
    ⟨s, ss, rfl, Stmt.like_self s hss.1, Stmt.likeAll_self ss hss.2⟩

theorem Block.like_self [hrel : R.Reflects N] : ∀ b : Block, (∀ k ∈ b.nodes, N k) → b.Like R b
  | .mk _ ss, h => ⟨_, ss, rfl, Stmt.likeAll_self ss h⟩

theorem Block.likeOption_self [hrel : R.Reflects N] :
    ∀ b : Option Block, (∀ k ∈ Block.nodesOption b, N k) → Block.LikeOption R b b
  | none, _ => rfl
  | some b, h => ⟨b, rfl, Block.like_self b h⟩

theorem Case.likeAll_self [hrel : R.Reflects N] :
    ∀ cases : List Case, (∀ k ∈ Case.nodesAll cases, N k) → Case.LikeAll R cases cases
  | [], _ => rfl
  | .mk _ v b :: cases, h => by
    simp only [Case.nodesAll, List.forall_mem_append] at h
    exact ⟨_, v, b, cases, rfl, hrel.mark, v.like_self h.1.1, Block.like_self b h.1.2,
      Case.likeAll_self cases h.2⟩

end

theorem Parameter.likeAll_self {ps : List Parameter} (h : ∀ k ∈ ps.map Parameter.entry, N k) :
    List.Forall₂ (Parameter.Like R) ps ps :=
  List.forall₂_same.2 fun _ hp => ⟨hrel.code (h _ (List.mem_map_of_mem hp)) rfl rfl, rfl, rfl⟩

theorem FunctionDef.like_self (f : FunctionDef) (h : ∀ k ∈ f.nodes, N k) : f.Like R f := by
  simp only [FunctionDef.nodes, List.forall_mem_append, List.cons_append, List.forall_mem_cons] at h
  have hbody : f.body.Like R f.body := by
    cases hb : f.body with
    | block b => exact .block (b.like_self fun k hk => h.2.2 k (by rwa [hb]))
    | expression e => exact .expression (e.like_self fun k hk => h.2.2 k (by rwa [hb]))
  exact ⟨hrel.head h.1 rfl rfl, rfl, Parameter.likeAll_self h.2.1, rfl, rfl, hbody⟩

theorem ConstructorDef.like_self (f : ConstructorDef) (h : ∀ k ∈ f.nodes, N k) : f.Like R f := by
  simp only [ConstructorDef.nodes, List.forall_mem_append, List.cons_append,
    List.forall_mem_cons] at h
  exact ⟨hrel.head h.1 rfl rfl, Parameter.likeAll_self h.2.1, f.body.like_self h.2.2⟩

theorem SourceUnit.like_self (u : SourceUnit) (h : ∀ k ∈ u.nodes, N k) : u.Like R u := by
  simp only [SourceUnit.nodes, List.forall_mem_append] at h
  obtain ⟨⟨hclasses, hfunctions⟩, hstatements⟩ := h
  have hflat : ∀ {α : Type} {g : α → List NodeEntry} {P : α → α → Prop} {l : List α},
    (∀ k ∈ l.flatMap g, N k) →
      (∀ a, (∀ k ∈ g a, N k) → P a a) → List.Forall₂ P l l := fun h hP =>
    List.forall₂_same.2 fun a ha => hP a fun k hk => h k (List.mem_flatMap.2 ⟨a, ha, hk⟩)
  refine ⟨List.forall₂_same.2 fun _ _ => ⟨hrel.mark, rfl, rfl⟩, hflat hclasses fun c hc => ?_,
    hflat hfunctions FunctionDef.like_self, Stmt.likeAll_self _ hstatements⟩
  simp only [ClassDef.nodes, List.forall_mem_append] at hc
  exact ⟨hrel.mark, rfl, hflat hc.1.1 Declaration.like_self, hflat hc.1.2 FunctionDef.like_self,
    hflat hc.2 ConstructorDef.like_self⟩

end

/-! ## The check with another substitute -/

/-- Two checks of one unit with different substitutes. Its inner nodes are those that define no
function. -/
def SourceUnit.loosely (u : SourceUnit) : Sides where
  toRenumbering := .same
  loose := True
  inner k := ∃ n ∈ u.nodes, n.id = k ∧ n.kind.isHead = false
  same _ := rfl

variable {u : SourceUnit}

theorem SourceUnit.reflects (hids : (u.nodes.map (·.id)).Nodup) :
    u.loosely.nodes.Reflects (· ∈ u.nodes) where
  code {k n} hk hid hkind := ⟨rfl, fun _ => ⟨rfl, k, hk, hid, hkind⟩⟩
  head {k n} hk hid hkind := by
    refine ⟨rfl, fun _ => ⟨rfl, fun ⟨k', hk', hid', hkind'⟩ => ?_⟩⟩
    rw [List.inj_on_of_nodup_map hids hk hk' (hid.trans hid'.symm), hkind'] at hkind
    cases hkind
  mark _ := rfl

/-- What is reported about a unit, unless its check fails. -/
def SourceUnit.reportsWith (sub : Ty) (u : SourceUnit) : Option (List Diagnostic) :=
  match u.checkWith sub with
  | .ok _ => some []
  | .error (.rejected ds) => some ds
  | .error (.fault _) => none

theorem SourceUnit.exists_reportsWith {σ : Ty} (hids : (u.nodes.map (·.id)).Nodup)
    (hσ : σ ∈ [.int, .bool, .char]) :
    ∃ s, Check.unit σ u {} = .ok ((), s) ∧ u.reportsWith σ = some s.diagnostics.toList := by
  have : σ.StandIn := by
    simp only [List.mem_cons, List.not_mem_nil, or_false] at hσ
    rcases hσ with rfl | rfl | rfl <;> exact ⟨fun _ => trivial⟩
  obtain ⟨_, s, hs, -⟩ := Check.unit_sat σ hids
  refine ⟨s, hs, ?_⟩
  rw [reportsWith, checkWith, show (Check.unit σ u).run {} = .ok ((), s) from hs]
  by_cases h : s.diagnostics = #[] <;> simp [h]

/-- The check with another substitute never fails, and it reports the same. The reports may differ
only after one that both have, of the name of an unknown type. -/
theorem SourceUnit.reportsWith_agree {u : SourceUnit} {σ σ' : Ty}
    (hids : (u.nodes.map (·.id)).Nodup)
    (hσ : σ ∈ [.int, .bool, .char]) (hσ' : σ' ∈ [.int, .bool, .char]) :
    ∃ ds ds', u.reportsWith σ = some ds ∧ u.reportsWith σ' = some ds' ∧
      (ds = ds' ∨ Sides.Parts ds ds') := by
  obtain ⟨s, hs, hds⟩ := exists_reportsWith hids hσ
  obtain ⟨s', hs', hds'⟩ := exists_reportsWith hids hσ'
  have hself : u.Like u.loosely.nodes u := by
    have := reflects hids
    exact u.like_self fun _ hk => hk
  refine ⟨_, _, hds, hds', ?_⟩
  rcases (Sides.unit_pair (fun h => absurd trivial h) hself).both .new hs hs' with ⟨-, h⟩ | ⟨-, h⟩
  · exact .inl (congrArg Array.toList (h.reports trivial).symm)
  · exact .inr h

/-- A declaration whose initializer uses an undeclared name: `int x = y + 1`. -/
def undeclaredSum : SourceUnit :=
  { statements := [.declaration 0 ⟨1, .int, "x",
      some (.binary 2 .add (.name 3 "y") (.literal 4 (.int 1)))⟩] }

theorem undeclaredSum_agrees :
    (undeclaredSum.reportsWith .bool).map (·.map (·.kind)) = some [.undeclared] ∧
    ∃ ds ds', undeclaredSum.reportsWith .int = some ds ∧
      undeclaredSum.reportsWith .bool = some ds' ∧
      (ds = ds' ∨ Sides.Parts ds ds') :=
  ⟨by decide +kernel, SourceUnit.reportsWith_agree (by decide) (by decide) (by decide)⟩

/-- A declaration whose type has an unknown name: `T x = 1`. -/
def unknownDeclaration : SourceUnit :=
  { statements := [.declaration 0 ⟨1, .named "T", "x", some (.literal 2 (.int 1))⟩] }

/-- The initializer is reported again through the type that stands in for the unknown one. -/
theorem unknownDeclaration_parts :
    (unknownDeclaration.reportsWith .int).map (·.map (·.kind)) = some [.unknownType] ∧
      (unknownDeclaration.reportsWith .bool).map (·.map (·.kind)) =
      some [.unknownType, .typeMismatch] :=
  ⟨by decide +kernel, by decide +kernel⟩

end Awl
