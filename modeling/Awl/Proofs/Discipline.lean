import Awl.Proofs.Routines

/-!
# Register discipline

The code of an expression takes one register more than it gives back, and the code of a statement
gives back what it takes. `Emit.Turns env m used used'` says this of an action: started with the
registers `used` in use, it ends with `used'` in use or fails, and never because it gives back a
register that is not in use. Nothing is assumed about the tables, so all this holds of units that
the checker never saw as well.

Main result: `registers_disciplined`.
-/

namespace Awl

theorem except_bind_eq_error {ε α β : Type} {x : Except ε α} {f : α → Except ε β} {e : ε} :
    (x >>= f) = .error e ↔ x = .error e ∨ ∃ a, x = .ok a ∧ f a = .error e := by
  cases x with
  | ok a => exact ⟨fun h => .inr ⟨a, rfl, h⟩, by rintro (h | ⟨_, h, hf⟩) <;> cases h; exact hf⟩
  | error e' => exact ⟨fun h => .inl (by cases h; rfl), by rintro (h | ⟨_, h, _⟩) <;> cases h; rfl⟩

namespace Code

open Machine

/-- Where errors of the tables are no matter, nothing has to be known about the tables. -/
theorem allowed_unrelated (p : Prop) : Allowed Unrelated p := .inr fun _ h => h

instance : Emit.Exhausts Unrelated := ⟨nofun⟩

namespace Emit

variable {α β : Type} {env : Env} {used : List Register}

/-- Started with the registers `used` in use, the action ends with `used'` in use. It may fail, but
not by giving back a register that is not in use. -/
def Turns (env : Env) (m : Emit α) (used : List Register) (used' : α → List Register) : Prop :=
  ∀ s, s.Uses used → Sat Unrelated m env s fun a s' => s'.Uses (used' a)

theorem Turns.ofTakes {m : Emit α} {bound : List LabelId} {hi : Nat} {used1 : α → List Register}
    (h : Takes Unrelated env bound 0 used m hi used1) : Turns env m used used1 := fun s hs =>
  (h s hs (allowed_unrelated _) (Nat.zero_le _) (allowed_unrelated _)).weaken
    fun _ _ h' => h'.1.uses

end Emit

/-! ## Units -/

/-- The code of a unit up to one of its routines. -/
def codeBefore (u : SourceUnit) (env : Env) (before : List Routine) : Emit Unit := do
  Emit.dispatch 0 env.threads
  Emit.mainCode u.statements
  before.forM Routine.code

theorem codeBefore_turns (u : SourceUnit) (env : Env) (before : List Routine) :
    Emit.Turns env (codeBefore u env before) [] fun _ => [] :=
  .ofTakes (unit_takes (allowed_unrelated _))

theorem generate_unrelated {u : SourceUnit} {t : Tables} {options : Options} {e : CodeError}
    (h : generate u t options = .error e) : Unrelated e := by
  rw [generate_eq] at h
  rcases except_bind_eq_error.1 h with h | ⟨globals, -, h⟩
  · exact orFault_unrelated h
  rcases except_bind_eq_error.1 h with h | ⟨layout, -, h⟩
  · simp only [StaticLayout.place] at h
    split at h <;> cases h
    exact nofun
  rcases except_bind_eq_error.1 h with h | ⟨p, -, h⟩
  · have hsat := codeBefore_turns u (startEnv u t options layout)
      ((startEnv u t options layout).routines u) _ (startState_uses u t)
    rw [Emit.unit_eq] at h
    unfold Emit.Sat codeBefore at hsat
    rw [h] at hsat
    exact hsat
  · cases h

/-- **Registers are taken and given back in pairs**: the code of an expression takes exactly the
register of its value, and the code of a statement or a block leaves the registers in use as they
are. So every routine starts with all registers free, and no unit fails because a register is given
back twice. -/
theorem registers_disciplined :
    (∀ (env : Env) (s : EmitState), s.registers.WF →
      (∀ context e r s', Emit.expr context e env s = .ok (r, s') →
        s'.registers.inUse = s.registers.inUse ++ [r] ∧ s'.registers.WF) ∧
      (∀ context st s', Emit.stmt context st env s = .ok ((), s') →
        s'.registers.inUse = s.registers.inUse ∧ s'.registers.WF) ∧
      (∀ context b first s', Emit.block context b env s = .ok (first, s') →
        s'.registers.inUse = s.registers.inUse ∧ s'.registers.WF)) ∧
    (∀ (u : SourceUnit) (t : Tables) (options : Options) (layout : StaticLayout)
      (before after : List Routine) (r : Routine) (s : EmitState),
      (startEnv u t options layout).routines u = before ++ r :: after →
      codeBefore u (startEnv u t options layout) before (startEnv u t options layout)
        (startState u t) =
        .ok ((), s) → s.registers.inUse = [] ∧ s.registers.free.Perm generalPurpose) ∧
    ∀ (u : SourceUnit) (t : Tables) (options : Options) (r : Register),
      generate u t options ≠ .error (.doubleFree r) := by
  refine ⟨fun env s hs => ⟨fun context e r s' h => ?_, fun context st s' h => ?_,
    fun context b first s' h => ?_⟩, fun u t options layout before after r s _ h => ?_,
    fun u t options r h => generate_unrelated h r rfl⟩
  · have h' := (Emit.Turns.ofTakes (Emit.expr_fresh e (allowed_unrelated _)).takes s
      ⟨hs, rfl⟩).of_ok h
    exact ⟨h'.inUse, h'.wf⟩
  · have h' := (Emit.Turns.ofTakes (Emit.stmt_steady context st (allowed_unrelated _)).takes s
      ⟨hs, rfl⟩).of_ok h
    exact ⟨h'.inUse, h'.wf⟩
  · have h' := (Emit.Turns.ofTakes (Emit.block_blocks context b (allowed_unrelated _)).takes s
      ⟨hs, rfl⟩).of_ok h
    exact ⟨h'.inUse, h'.wf⟩
  · have h' := (codeBefore_turns u _ before _ (startState_uses u t)).of_ok h
    have hperm : (s.registers.free ++ s.registers.inUse).Perm generalPurpose := h'.wf
    rw [h'.inUse, List.append_nil] at hperm
    exact ⟨h'.inUse, hperm⟩

/-- A run that is known to answer `a`. -/
theorem ok_of_answer {α : Type} {x : Except CodeError (α × EmitState)} {a : α}
    (h : x.toOption.map Prod.fst = some a) : ∃ s', x = .ok (a, s') := by
  rcases x with e | ⟨a', s'⟩
  · cases h
  · cases h
    exact ⟨s', rfl⟩

/-- `1 + 2`, and a loop without end around it. -/
def sumExpr : Expr := .binary 0 .add (.literal 1 (.int 1)) (.literal 2 (.int 2))

def sumLoop : Stmt := .whileLoop 3 (.literal 4 (.bool true)) (.mk 5 [.expression 6 sumExpr])

/-- The sum is in the second register that is free, and the loop leaves all registers free. The
allocator of a unit without code starts with all of them free. -/
theorem registers_disciplined_sumLoop :
    let env := startEnv {} {} {} ⟨254, 0, 0⟩
    let s := startState {} {}
    (∃ s', Emit.expr {} sumExpr env s = .ok (.b, s') ∧ s'.registers.inUse = [.b] ∧
      s'.registers.WF) ∧
    (∃ s', Emit.stmt {} sumLoop env s = .ok ((), s') ∧ s'.registers.inUse = [] ∧ s'.registers.WF) ∧
    (∃ s', Emit.block {} (.mk 7 [sumLoop]) env s = .ok (0, s') ∧ s'.registers.inUse = [] ∧
      s'.registers.WF) ∧
    (∃ s', codeBefore {} env [] env s = .ok ((), s') ∧ s'.registers.inUse = [] ∧
      s'.registers.free.Perm generalPurpose) ∧
    generate {} {} {} ≠ .error (.doubleFree .a) := by
  intro env s
  obtain ⟨hcode, hroutines, hunit⟩ := registers_disciplined
  obtain ⟨hexpr, hstmt, hblock⟩ := hcode env s (startState_uses {} {}).wf
  obtain ⟨s₁, h₁⟩ : ∃ s', Emit.expr {} sumExpr env s = .ok (.b, s') :=
    ok_of_answer (by decide +kernel)
  obtain ⟨s₂, h₂⟩ : ∃ s', Emit.stmt {} sumLoop env s = .ok ((), s') :=
    ok_of_answer (by decide +kernel)
  obtain ⟨s₃, h₃⟩ : ∃ s', Emit.block {} (.mk 7 [sumLoop]) env s = .ok (0, s') :=
    ok_of_answer (by decide +kernel)
  obtain ⟨s₄, h₄⟩ : ∃ s', codeBefore {} env [] env s = .ok ((), s') :=
    ok_of_answer (by decide +kernel)
  have hall : (startEnv {} {} {} ⟨254, 0, 0⟩).routines {} = [] ++ .allocator :: [] := rfl
  exact ⟨⟨s₁, h₁, hexpr {} sumExpr _ _ h₁⟩, ⟨s₂, h₂, hstmt {} sumLoop _ h₂⟩,
    ⟨s₃, h₃, hblock {} _ _ _ h₃⟩, ⟨s₄, h₄, hroutines {} {} {} _ [] [] .allocator _ hall h₄⟩,
    hunit {} {} {} .a⟩

end Code

end Awl
