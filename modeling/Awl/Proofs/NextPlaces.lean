import Awl.Proofs.CheckStmt
import Awl.Proofs.Judging

/-!
# Reports of misplaced `next`

Whatever else is reported, a run of the checker over statements that adds no report of a misplaced
`next` has seen every `next` in a block of a switch that another one follows (`Check.stmts_places`).
-/

namespace Awl

/-- The rule for the places of `next` in the body of a function. -/
def FunctionBody.NextPlaced : FunctionBody → Prop
  | .block b => b.NextPlaced false
  | .expression _ => True

namespace CheckState

/-- How many reports there are of a misplaced `next`. -/
def misplaced (s : CheckState) : Nat :=
  s.diagnostics.toList.countP (·.problem.kind == .misplacedNext)

variable {s s1 s' : CheckState} {C D : Prop}

theorem Adds.misplaced_le (h : s.Adds s') : s.misplaced ≤ s'.misplaced :=
  List.Sublist.countP_le h.sublist

/-- A condition holds unless a misplaced `next` has been reported between two states. -/
structure Places (C : Prop) (s s' : CheckState) : Prop where
  adds : s.Adds s'
  placed : s'.misplaced ≤ s.misplaced → C

namespace Places

theorem seq (h : s.Places C s1) (h' : s1.Places D s') : s.Places (C ∧ D) s' := by
  have hle := h.adds.misplaced_le
  have hle' := h'.adds.misplaced_le
  exact ⟨h.adds.trans h'.adds, fun hm => ⟨h.placed (by omega), h'.placed (by omega)⟩⟩

theorem imp (h : s.Places C s') (hcd : C → D) : s.Places D s' :=
  ⟨h.adds, fun hm => hcd (h.placed hm)⟩

/-- A run without statements. -/
theorem ofAdds (h : s.Adds s') : s.Places True s' := ⟨h, fun _ => trivial⟩

theorem after (h : s1.Places C s') (ha : s.Adds s1) : s.Places C s' :=
  ((ofAdds ha).seq h).imp And.right

theorem before (h : s.Places C s1) (ha : s1.Adds s') : s.Places C s' :=
  (h.seq (ofAdds ha)).imp And.left

theorem of_quiet (h : s.Places C s') (hq : s.Quiet s') : C :=
  h.placed (Nat.le_of_eq (congrArg (fun ds => Array.toList ds |>.countP _) hq))

theorem of_not_reports (h : s.Places C s') (hno : ¬ s'.Reports .misplacedNext) : C := by
  have hzero : s'.misplaced = 0 := List.countP_eq_zero.2 fun d hd hk => hno ⟨d, hd, beq_iff_eq.1 hk⟩
  exact h.placed (by omega)

end Places

end CheckState

namespace Check

open CheckState

variable {sub : Ty}

mutual

theorem stmt_places : ∀ (st : Stmt) {ctx : Context} {s s' : CheckState} {u : Unit},
    stmt sub ctx st s = .ok (u, s') → s.Places (st.NextPlaced (ctx.position == .followed)) s'
  | .next n, ctx, s, s', u, h => by
    rw [Stmt.NextPlaced]
    simp only [stmt] at h
    split at h
    · cases h
      refine ⟨⟨_, Array.toList_push.symm⟩, fun hle => ?_⟩
      rw [misplaced, Array.toList_push, List.countP_append] at hle
      exact absurd hle (Nat.not_succ_le_self _)
    · rename_i hpos
      cases h
      exact (Places.ofAdds (.refl s)).imp fun _ => by simpa using hpos
  | .block _ b, ctx, s, s', u, h => block_places b h
  | .ifElse _ c b e, ctx, s, s', u, h => by
    simp only [stmt, bind_eq_ok] at h
    obtain ⟨_, s1, hc, _, s2, hb, he⟩ := h
    exact ((block_places b hb).after (condition_settles hc).works.adds).seq
      (optionalBlock_places e he)
  | .whileLoop _ c b, ctx, s, s', u, h => by
    simp only [stmt, bind_eq_ok] at h
    obtain ⟨_, s1, hc, hb⟩ := h
    exact (block_places b hb).after (condition_settles hc).works.adds
  | .doLoop _ b c, ctx, s, s', u, h => by
    simp only [stmt, bind_eq_ok] at h
    obtain ⟨_, s1, hb, hc⟩ := h
    exact (block_places b hb).before (condition_settles hc).works.adds
  | .forLoop _ i c st b, ctx, s, s', u, h => by
    simp only [stmt, bind_eq_ok] at h
    obtain ⟨id, s1, ho, _, s2, hi, _, s3, hc, _, s4, hst, hb⟩ := h
    obtain ⟨_, -, rfl⟩ := openChild_eq_ok.1 ho
    have hi' := (optionalStmt_places i hi).before (condition_settles hc).works.adds
    exact (hi'.seq ((optionalStmt_places st hst).seq (block_places b hb))).after (.refl s)
  | .switch _ d cs f, ctx, s, s', u, h => by
    simp only [stmt, bind_eq_ok] at h
    obtain ⟨r, s1, hd, _, s2, hcs, hf⟩ := h
    exact ((switchCases_places cs hcs).after (expr_settles hd).works.adds).seq
      (optionalBlock_places f hf)
  | .declaration .., _, _, _, _, h | .assignment .., _, _, _, _, h | .return .., _, _, _, _, h
  | .expression .., _, _, _, _, h | .acquire .., _, _, _, _, h | .release .., _, _, _, _, h =>
    (Places.ofAdds (stmt_settles _ h).works.adds).imp
      fun _ => by rw [Stmt.NextPlaced]; all_goals simp

theorem optionalStmt_places {ctx : Context} {s s' : CheckState} {u : Unit} : ∀ (st : Option Stmt),
    optionalStmt sub ctx st s = .ok (u, s') →
    s.Places (Stmt.NextPlacedOption (ctx.position == .followed) st) s'
  | none, h => by
    cases h
    exact (Places.ofAdds (.refl _)).imp fun _ => by rw [Stmt.NextPlacedOption]; trivial
  | some st, h => stmt_places st h

theorem stmts_places {ctx : Context} {s s' : CheckState} {u : Unit} : ∀ (ss : List Stmt),
    stmts sub ctx ss s = .ok (u, s') →
    s.Places (Stmt.NextPlacedAll (ctx.position == .followed) ss) s'
  | [], h => by
    cases h
    exact (Places.ofAdds (.refl _)).imp fun _ => by rw [Stmt.NextPlacedAll]; trivial
  | st :: ss, h => by
    simp only [stmts, bind_eq_ok] at h
    obtain ⟨_, s1, hst, hss⟩ := h
    exact (stmt_places st hst).seq (stmts_places ss hss)

theorem block_places {ctx : Context} {s s' : CheckState} {u : Unit} : ∀ (b : Block),
    block sub ctx b s = .ok (u, s') → s.Places (b.NextPlaced (ctx.position == .followed)) s'
  | .mk _ ss, h => by
    simp only [block, bind_eq_ok] at h
    obtain ⟨id, s1, ho, hss⟩ := h
    obtain ⟨_, -, rfl⟩ := openChild_eq_ok.1 ho
    exact (stmts_places ss hss).after (.refl s)

theorem optionalBlock_places {ctx : Context} {s s' : CheckState} {u : Unit} : ∀ (b : Option Block),
    optionalBlock sub ctx b s = .ok (u, s') →
    s.Places (Block.NextPlacedOption (ctx.position == .followed) b) s'
  | none, h => by
    cases h
    exact (Places.ofAdds (.refl _)).imp fun _ => by rw [Block.NextPlacedOption]; trivial
  | some b, h => block_places b h

theorem switchCases_places {ctx : Context} {r : Typed} {fallback : Bool} {s s' : CheckState}
    {u : Unit} : ∀ (cs : List Case), switchCases sub ctx r fallback cs s = .ok (u, s') →
    s.Places (Case.NextPlacedAll fallback cs) s'
  | [], h => by
    cases h
    exact (Places.ofAdds (.refl _)).imp fun _ => by rw [Case.NextPlacedAll]; trivial
  | .mk n v b :: cs, h => by
    simp only [switchCases] at h
    rw [bind_eq_ok] at h
    obtain ⟨value, s1, hv, h⟩ := h
    obtain ⟨s2, hr, -, -, h⟩ := reportIf_bind h
    simp only [bind_eq_ok] at h
    obtain ⟨_, s3, hb, hcs⟩ := h
    refine (((block_places b hb).imp fun hb' => ?_).after
      ((expr_settles hv).works.adds.trans hr.adds)).seq (switchCases_places cs hcs)
    cases hflag : !cs.isEmpty || fallback <;> rw [hflag] at hb' <;> exact hb'

end

end Check

end Awl
