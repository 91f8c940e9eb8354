import Awl.Proofs.ExactUnit
import Awl.Proofs.SideBySide

/-!
# Checking units that differ in their nodes

Of two units that differ in their nodes only, both are accepted, with the same types, scopes and
functions and with the same results at related nodes, or both are rejected, with reports that differ
in their places only.
-/

namespace Awl

variable {u u' : SourceUnit} {α : Type}

namespace Renumbering

variable (ρ : Renumbering)

/-- Nodes belong together by their numbers. -/
def pairs : NodePairs where
  code n n' := ρ.rel n.id n'.id
  head n n' := ρ.rel n.id n'.id
  mark _ _ := True

instance : ρ.pairs.Follows ρ.rel := ⟨id, id, trivial⟩

/-- Two checks that part nowhere. -/
def exact : Sides := { ρ with loose := False, inner := fun _ => True, same := False.elim }

instance : ρ.exact.nodes.Follows ρ.rel :=
  ⟨fun h => ⟨h, False.elim⟩, fun h => ⟨h, False.elim⟩, fun h => h.elim⟩

/-- The same entries at related nodes. -/
def Maps {α : Type} (m m' : NodeMap α) : Prop := ∀ ⦃n n'⦄, ρ.rel n n' → m'[n']? = m[n]?

structure TablesLike (t t' : Tables) : Prop where
  types : t'.types = t.types
  scopes : t'.scopes = t.scopes
  functions : t'.functions.functions = t.functions.functions
  bindings : ρ.Maps t.functions.bindings t'.functions.bindings
  nodeTypes : ρ.Maps t.annotations.types t'.annotations.types
  nodeScopes : ρ.Maps t.annotations.scopes t'.annotations.scopes

/-- No number changes. -/
def same : Renumbering := ⟨Eq, fun _ _ _ h h' => h.trans h'.symm, fun _ _ _ h h' => h.symm.trans h'⟩

theorem TablesLike.refl (t : Tables) : same.TablesLike t t :=
  ⟨rfl, rfl, rfl, fun _ _ h => h ▸ rfl, fun _ _ h => h ▸ rfl, fun _ _ h => h ▸ rfl⟩

variable {ρ}

theorem tablesLike_of_alike {s s' : CheckState} (h : ρ.exact.Alike s s') :
    ρ.TablesLike s.tables s'.tables where
  types := h.types
  scopes := h.scopes
  functions := h.functions
  bindings _ _ hn := h.lookup hn False.elim
  nodeTypes _ _ hn := (h.recorded id hn).1
  nodeScopes _ _ hn := (h.recorded id hn).2

/-- Units that differ in their nodes are both accepted, with the same results at related nodes, or
both rejected, with the same problems in the same order. -/
theorem check_like (h : u.Like ρ.exact.nodes u') (hids : (u.nodes.map (·.id)).Nodup)
    (hids' : (u'.nodes.map (·.id)).Nodup) :
    (∃ t t', u.check = .ok t ∧ u'.check = .ok t' ∧ ρ.TablesLike t t') ∨
    ∃ ds ds', u.check = .error (.rejected ds) ∧ u'.check = .error (.rejected ds') ∧
      ds'.map (·.problem) = ds.map (·.problem) := by
  obtain ⟨_, s, hs, -⟩ := Check.unit_sat .bool hids
  obtain ⟨_, s', hs', -⟩ := Check.unit_sat .bool hids'
  obtain ⟨-, hlike⟩ | ⟨hl, -⟩ := (Sides.unit_pair (fun _ => rfl) h).both .new hs hs'
  · have hempty : s'.diagnostics.isEmpty = s.diagnostics.isEmpty := by
      have hlen := congrArg List.length hlike.problems
      simp only [List.length_map, Array.length_toList] at hlen
      simp only [Array.isEmpty, hlen]
    unfold SourceUnit.check SourceUnit.checkWith
    simp only [StateT.run, hs, hs', hempty]
    cases s.diagnostics.isEmpty with
    | true => exact .inl ⟨_, _, rfl, rfl, tablesLike_of_alike hlike⟩
    | false => exact .inr ⟨_, _, rfl, rfl, hlike.problems⟩
  · exact hl.elim

end Renumbering

/-! ## Units that are equal without their nodes -/

theorem eq_of_getElem?_nodup {l : List α} (h : l.Nodup) {i j : Nat} {a : α} (hi : l[i]? = some a)
    (hj : l[j]? = some a) : i = j :=
  (List.getElem?_inj (List.getElem?_eq_some_iff.1 hi).1 h).1 (hi.trans hj.symm)

/-- Numbers at the same place of two lists. -/
def Abreast (l l' : List NodeId) (n n' : NodeId) : Prop :=
  ∃ i : Nat, l[i]? = some n ∧ l'[i]? = some n'

theorem Abreast.unique {l l' : List NodeId} (h : l.Nodup) (h' : l'.Nodup) :
    Relator.BiUnique (Abreast l l') := by
  constructor
  · intro a b c ⟨i, ha, hc⟩ ⟨j, hb, hc'⟩
    obtain rfl := eq_of_getElem?_nodup h' hc hc'
    exact Option.some.inj (ha.symm.trans hb)
  · intro a b c ⟨i, ha, hb⟩ ⟨j, ha', hc⟩
    obtain rfl := eq_of_getElem?_nodup h ha ha'
    exact Option.some.inj (hb.symm.trans hc)

theorem SourceUnit.Like.refl (u : SourceUnit) : u.Like Renumbering.same.pairs u :=
  (SourceUnit.aligned (r := Renumbering.same.rel) rfl).holds (List.forall₂_same.2 fun _ _ => rfl)

theorem SourceUnit.like_abreast {R : NodePairs}
    [R.Follows (Abreast (u.nodes.map (·.id)) (u'.nodes.map (·.id)))]
    (h : u.bare = u'.bare) : u.Like R u' := by
  have haligned : Aligned (Abreast (u.nodes.map (·.id)) (u'.nodes.map (·.id))) u.nodes u'.nodes
    (u.Like R u') :=
    SourceUnit.aligned h
  refine haligned.holds (List.forall₂_iff_get.2 ⟨haligned.length, fun i hi hi' => ⟨i, ?_, ?_⟩⟩)
  · simp [hi]
  · simp [hi']

end Awl
