import Awl.Proofs.Machine
import Awl.Proofs.PlacedStmt

/-!
# Straight-line code

Instructions other than jumps and branches are executed one after the other (`Reach.straight`), so
that it is enough to compute their joint effect on a core (`execAll`). Expressions are evaluated by
such code: it writes to registers that are free and leaves the rest of the core alone (`Kept`).
-/

namespace Awl

namespace Machine

variable {P : Program} {c c' : Core} {m m' : Memory} {i : Nat}

theorem fetch?_of_has {opcode : OpCode} {operands : List Operand} (h : P.Has i opcode operands)
    (hpc : c.pc = i) :
    step P c m = exec P opcode operands c m := by
  obtain ⟨comment, h⟩ := h
  have hfetch : P.fetch? c.pc = some { opcode, operands, comment } := by
    rw [hpc]
    exact h
  rw [step, hfetch]
  rfl

/-- The effect of instructions that are executed one after the other. -/
def execAll (P : Program) : List Ins → Core → Memory → Option (Core × Memory)
  | [], c, m => some (c, m)
  | x :: code, c, m => (exec P x.1 x.2 c m).bind fun s => execAll P code s.1 s.2

/-- An instruction that is followed by the next one. -/
def Ins.Plain (x : Ins) : Prop := x.1 ≠ .branch ∧ x.1 ≠ .jump

instance (x : Ins) : Decidable x.Plain := inferInstanceAs (Decidable (_ ∧ _))

theorem exec_pc {x : Ins} (hx : x.Plain) (h : exec P x.1 x.2 c m = some (c', m')) :
    c'.pc = c.pc + 1 := by
  unfold exec at h
  split at h
  case h_1 | h_2 | h_3 | h_11 =>
    obtain ⟨v, -, hv⟩ := Option.map_eq_some_iff.1 h
    cases hv
    rfl
  case h_4 | h_5 | h_8 | h_9 | h_10 | h_12 | h_14 =>
    cases h
    rfl
  case h_6 hop _ => exact absurd hop hx.1
  case h_7 hop _ => exact absurd hop hx.2
  case h_13 =>
    split at h <;> cases h <;> rfl
  case h_15 => cases h

theorem Reach.straight {Q : Core → Memory → Prop} {code : List Ins} (h : P.HasAll i code)
    (hplain : ∀ x ∈ code, x.Plain) (hpc : c.pc = i) (he : execAll P code c m = some (c', m'))
    (k : c'.pc = ((i + code.length : Nat) : Int) → Reach P Q c' m') : Reach P Q c m := by
  induction code generalizing i c m with
  | nil =>
    cases he
    exact k hpc
  | cons x code ih =>
    obtain ⟨⟨c1, m1⟩, hx, he⟩ := Option.bind_eq_some_iff.1 he
    have hpc1 : c1.pc = ((i + 1 : Nat) : Int) := by
      rw [exec_pc (hplain x (.head _)) hx, hpc, Int.natCast_succ]
    refine .next ((fetch?_of_has h.1 hpc).trans hx) (ih h.2 (fun y hy => hplain y (.tail _ hy)) hpc1
      he fun hpc' => k ?_)
    rw [hpc', List.length_cons, Nat.add_right_comm, Nat.add_assoc]

end Machine

end Awl
