import Awl.Proofs.Relocation

/-!
# Code of units that differ in their nodes

The generator asks the tables about the nodes it meets and has no other use for their numbers, so
units that differ in their nodes only, with tables that have the same results at related nodes, have
the same code. Together with the side by side runs of the checker this says that the numbers of
nodes and their places in the source have no part in a compilation.
-/

namespace Awl

open Machine

/-! ## Memories of one size -/

theorem Machine.Operand.Moves.eq {m : Nat} {o o' : Operand} (h : o.Moves m m o') : o' = o := by
  cases h with
  | address h =>
    cases h with
    | direct h => rw [Nat.add_right_cancel h]
    | indirect r => rfl
  | same h => rfl

namespace Code

variable {o : Options}

theorem Options.Moves.eq {i i' : Instruction} (h : o.Moves o i i') : i' = i := by
  obtain ⟨opcode, operands, comment⟩ := i
  obtain ⟨opcode', operands', comment'⟩ := i'
  have hos : operands' = operands := by
    have hall := h.operands.imp fun _ _ ho => ho.eq.symm
    exact (List.forall₂_eq_eq_eq ▸ hall).symm
  have hcomment : comment' = comment := by
    cases hc : o.comments with
    | true => exact h.comment hc hc
    | false => exact (h.bare' hc).trans (h.bare hc).symm
  rw [show opcode' = opcode from h.opcode, hos, hcomment]

theorem Options.MovesAll.eq {p p' : Program} (h : o.MovesAll o p p') : p' = p := by
  have hcode : p'.instructions = p.instructions := by
    refine congrArg Slots.mk (Array.ext_getElem? fun k => ?_)
    show p'.instructions.get? k = p.instructions.get? k
    cases hk : p.instructions.get? k with
    | some i =>
      obtain ⟨i', hi', hmoves⟩ := h.code k i hk
      rw [hi', hmoves.eq]
    | none =>
      cases hk' : p'.instructions.get? k with
      | none => rfl
      | some i' =>
        obtain ⟨i, hi⟩ := Slots.exists_of_lt (h.size ▸ Slots.lt_of_get? hk')
        exact nomatch hk.symm.trans hi
  have hlabels := h.labels
  have hcores := h.cores
  cases p
  cases p'
  simp only at hcode hlabels hcores
  rw [hcode, hlabels, hcores]

/-- Accepted units that differ in their nodes only, with the same results at related nodes, have the
same code. -/
theorem generate_like {ρ : Renumbering} {t t' : Tables} {u u' : SourceUnit} (hu : u.Sound t)
    (hu' : u'.Sound t') (ht : ρ.TablesLike t t') (h : u.Like ρ.pairs u') (options : Options) :
    generate u' t' options = generate u t options := by
  have hthreads : t'.functions.threads = t.functions.threads := by
    simp only [FunctionTable.threads, FunctionTable.entries, ht.functions]
  cases hglobals : t.scopes.frameSize ScopeTree.globalId with
  | error f =>
    rw [generate_eq, generate_eq, ht.scopes, hglobals]
    rfl
  | ok globals =>
    by_cases hfits : StaticLayout.required t.functions.threads.length globals ≤ options.sharedMemory
    · obtain ⟨he, he'⟩ | ⟨p, p', hp, hp', hmoves⟩ :=
        generate_abreast hu hu' ht h hglobals hfits hfits
      · rw [he, he']
      · rw [hp, hp', hmoves.eq]
    · rw [generate_eq, generate_eq, ht.scopes, hglobals, hthreads]
      show (StaticLayout.place _ _ _ >>= _) = (StaticLayout.place _ _ _ >>= _)
      rw [StaticLayout.place, if_pos (Nat.not_le.1 hfits)]
      rfl

/-! ## Compilations -/

theorem same_but_places {ds ds' : List Diagnostic} (h : ds'.map (·.problem) = ds.map (·.problem)) :
    List.Forall₂ (fun d d' : Diagnostic => d' = { d with span := d'.span }) ds ds' := by
  have hall : List.Forall₂ (fun d d' : Diagnostic => d.problem = d'.problem) ds ds' := by
    have hmap : List.Forall₂ Eq (ds.map (·.problem)) (ds'.map (·.problem)) := by
      rw [h, List.forall₂_eq_eq_eq]
    rwa [List.forall₂_map_left_iff, List.forall₂_map_right_iff] at hmap
  refine hall.imp fun d d' hd => ?_
  rw [hd]

/-- The numbers of nodes and their places in the source have no part in a compilation. Of two units
that are equal without their nodes, whose nodes have distinct numbers in each of them, either both
are accepted, and then generation ends in the same way for both with any options, or both are
rejected, with diagnostics that differ in their places only. -/
theorem generate_of_bare {u u' : SourceUnit} (h : u.bare = u'.bare)
    (hids : (u.nodes.map (·.id)).Nodup) (hids' : (u'.nodes.map (·.id)).Nodup) :
    (∃ t t', u.check = .ok t ∧ u'.check = .ok t' ∧
      ∀ options, generate u' t' options = generate u t options) ∨
    ∃ ds ds', u.check = .error (.rejected ds) ∧ u'.check = .error (.rejected ds') ∧
      List.Forall₂ (fun d d' : Diagnostic => d' = { d with span := d'.span }) ds ds' := by
  obtain ⟨ρ, hρ⟩ : ∃ ρ : Renumbering, ρ.rel = Abreast (u.nodes.map (·.id)) (u'.nodes.map (·.id)) :=
    ⟨⟨_, Abreast.unique hids hids'⟩, rfl⟩
  have hlike : ∀ {R : NodePairs}, R.Follows ρ.rel → u.Like R u' := by
    rw [hρ]
    exact fun _ => SourceUnit.like_abreast h
  obtain ⟨t, t', ht, ht', htables⟩ | ⟨ds, ds', hd, hd', hproblems⟩ :=
    Renumbering.check_like (ρ := ρ) (hlike inferInstance) hids hids'
  · refine .inl ⟨t, t', ht, ht', generate_like ?_ ?_ htables (hlike inferInstance)⟩
    · exact SourceUnit.check_sound ht hids
    · exact SourceUnit.check_sound ht' hids'
  · exact .inr ⟨ds, ds', hd, hd', same_but_places hproblems⟩

/-- A gauge with an initialized field, a method, and a thread that reads it. The nodes are given. -/
def gaugeUnit (node : Nat → Node) : SourceUnit where
  classes := [{
    node := node 0
    name := "Gauge"
    fields := [⟨node 1, .int, "level", some (.literal (node 2) (.int 3))⟩]
    methods := [⟨node 3, "above", [⟨node 4, "mark", .int⟩], .bool, false, .expression
      (.binary (node 5) .greaterThan (.name (node 6) "level") (.name (node 7) "mark"))⟩]
    constructors := [] }]
  functions := [⟨node 8, "watch", [], .void, true, .block (.mk (node 9) [ .declaration (node 10)
      ⟨node 11, .bool, "high", some (.methodCall (node 12) (.name (node 13) "gauge") "above"
      [.literal (node 14) (.int 2)])⟩])⟩]
  statements := [
    .declaration (node 15) ⟨node 16, .named "Gauge", "gauge", some (.new (node 17) "Gauge" [])⟩,
    .expression (node 18) (.call (node 19) "watch" [])]

/-- The gauge with its nodes numbered from 0 on. -/
def gaugeUp : SourceUnit := gaugeUnit fun k => ⟨k, {}⟩

/-- The gauge with its nodes numbered from 50 down, and placed elsewhere. -/
def gaugeDown : SourceUnit := gaugeUnit fun k => ⟨50 - k, ⟨.ofNat k, 8⟩⟩

theorem gaugeUnit_renumbered : gaugeUp.bare = gaugeDown.bare ∧ (gaugeUp.nodes.map (·.id)).Nodup ∧
    (gaugeDown.nodes.map (·.id)).Nodup ∧ ∃ t t', gaugeUp.check = .ok t ∧ gaugeDown.check = .ok t' ∧
      ∀ options, generate gaugeDown t' options = generate gaugeUp t options := by
  have hbare : gaugeUp.bare = gaugeDown.bare := rfl
  have hids : (gaugeUp.nodes.map (·.id)).Nodup := by decide +kernel
  have hids' : (gaugeDown.nodes.map (·.id)).Nodup := by decide +kernel
  refine ⟨hbare, hids, hids', ?_⟩
  obtain h | ⟨ds, -, hd, -⟩ := generate_of_bare hbare hids hids'
  · exact h
  · have haccepted : gaugeUp.check.toBool = true := by decide +kernel
    rw [hd] at haccepted
    simp [Except.toBool] at haccepted

end Code

end Awl
