import Awl.Proofs.EmitExpr

/-!
# What the code of statements needs

The code of a statement leaves the registers in use as they are (`Emit.Steady`). The labels that it
adds are bound once each, and the labels that exist are left alone. It fails only if no register is
left, provided that the tables know everything about the statement (`Stmt.Ready`).
-/

namespace Awl.Code

open Machine

variable {ctx : Context} {s : EmitState} {used : List Register} {lo : Nat}

/-- The state after one more label for each name. -/
def EmitState.addLabels (s : EmitState) (names : List String) : EmitState :=
  names.foldl EmitState.addLabel s

namespace EmitState

theorem addLabels_labels (s : EmitState) (names : List String) :
    (s.addLabels names).labels = s.labels + names.length := by
  induction names generalizing s with
  | nil => rfl
  | cons name names ih =>
    rw [List.length_cons, Nat.add_comm names.length, ← Nat.add_assoc, ← s.addLabel_labels name]
    exact ih _

theorem addLabels_registers (s : EmitState) (names : List String) :
    (s.addLabels names).registers = s.registers := by
  induction names generalizing s with
  | nil => rfl
  | cons name names ih => exact ih _

end EmitState

namespace Emit

/-- The action emits the code of a block and answers with its first position. -/
def Blocks (E : CodeError → Prop) (env : Env) (m : Emit InstructionId) : Prop :=
  ∀ s used, s.Uses used → Allowed E (env.Fits s) → Sat E m env s fun first s' =>
    first = s.here ∧ s.EmitsSome s.labels used s'

variable {E : CodeError → Prop} {env : Env} {m : Emit InstructionId} {c value : Expr}

theorem Blocks.takes (h : Blocks E env m) :
    Takes E env [] lo used m (lo + 1) fun _ => used := .ofEmitsSome fun s hs hfit =>
  (h s used hs hfit).weaken fun _ _ h => h.2

theorem Blocks.steady (h : Blocks E env m) :
    Steady E env (discard m) := .of fun _ _ => .discard (.le h.takes (by omega))

/-! ## Simple statements -/

variable [Exhausts E]

theorem jumpBack_takes (result : Option Register) :
    Takes E env [] lo used (jumpBack result) (lo + 1) fun _ => used := by
  refine .seq (.allocate .of) fun r => ?_
  -- The return address is fetched in the same way with and without a result.
  have htail : ∀ lo, Takes E env [] lo (used ++ [r]) (do
      constant 1 r
      compute .sub .arp r r
      load (.indirect r) r
      jump (.indirect r)
      release r) (lo + 1) fun _ => used := fun lo => .le (.step rfl <|
    .step rfl <| .step rfl <| .step rfl <|
      .release) (by omega)
  cases result with
  | none => exact htail lo
  | some value =>
    exact .le (.step rfl <| .step rfl <|
      .step rfl <| htail _) (by omega)

theorem returnStatement_takes (ctx : Context) {value : Option Expr}
    (hv : Allowed E (Expr.ReadyOption env.tables ctx.function value)) :
    Takes E env [] lo used (returnStatement ctx value) (lo + 1) fun _ => used := by
  cases value with
  | none => exact jumpBack_takes none
  | some e =>
    exact .le (.seq (expr_fresh e hv).takes fun r => .seq (jumpBack_takes (some r)) fun _ =>
      .release) (by omega)

theorem declaration_steady {d : Declaration}
    (hd : Allowed E (Expr.ReadyOption env.tables ctx.function d.initializer ∧
      env.tables.HasName ctx.function d.node.id d.name)) :
    Steady E env (declaration ctx d) := by
  refine .of fun lo used => .mark fun first _ => ?_
  have hname := hd.imp (·.2)
  cases hi : d.initializer with
  | none =>
    exact .le (.seq (namePlace_takes hname .of) fun p => .seq (storeLast_takes .zero p) fun _ =>
      .comment (by omega)) (by omega)
  | some e =>
    rw [hi] at hd
    exact .le (.seq (expr_fresh e (hd.imp (·.1))).takes fun value =>
      .seq (namePlace_takes hname .of) fun p =>
      .seq (storeLast_takes value p) fun _ => .seq .release fun _ => .comment (by omega)) (by omega)

theorem assignment_steady {target : Awl.Target}
    (ht : Allowed E (target.Ready env.tables ctx.function))
    (hv : Allowed E (value.Ready env.tables ctx.function)) :
    Steady E env (assignment ctx target value) := by
  refine .of fun lo used => .mark fun first hfirst => .seq (targetPlace_takes ht) fun p =>
    .seq (expr_fresh value hv).takes fun r => .seq (storePlace_takes r p (Nat.le_refl 1)) fun _ =>
    .seq .release fun _ => ?_
  cases target with
  | name n x => exact .le (.comment (by omega)) (by omega)
  | _ => exact .le (.pure () rfl) (by omega)

theorem acquire_steady (a : Address) : Steady E env (acquire a) :=
    .of fun _ _ => .label fun _ => .label fun _ =>
  .perm (.swap ..) <| .le (.seq (.allocate .of) fun r => .here fun _ => .step rfl <| .binds <|
    .step rfl <| .step rfl <| .step rfl <| .anchored .release) (by omega)

theorem withLock_steady {lock : Expr} {f : Address → Emit Unit}
    (hl : Allowed E (lock.LockReady env.tables ctx.function)) (hf : ∀ a, Steady E env (f a)) :
    Steady E env (withLock ctx lock f) := by
  refine .of fun lo used => .seqRun (exprPlace_takes hl) fun p s s' hrun => ?_
  cases p with
  | frame k =>
    rcases exprPlace_address hl hrun with ⟨a, ha⟩ | hall
    · cases ha
    · exact fun _ _ _ _ _ => .bind (Sat.throw (Q := fun _ _ => False) (hall _ nofun)) nofun
  | global k =>
    rw [Place.held, List.append_nil]
    exact .pure_bind (Address.direct k) (.seq (hf _).takes fun _ => .pure () rfl)
  | shared r => exact .pure_bind (Address.indirect r) (.seq (hf _).takes fun _ => .release)

/-! ## Blocks and loops -/

omit [Exhausts E] in
theorem nonempty_blocks {code : Emit Unit} (hc : Steady E env code) :
    Blocks E env (nonempty code) := by
  intro s used hs hfit
  refine .run here_run (.bind (hc s used hs hfit) fun _ s1 h1 => .run here_run ?_)
  split
  · exact .emit rfl ⟨rfl, h1.emitSome ..⟩
  · rename_i hne
    refine ⟨rfl, h1, Nat.lt_of_le_of_ne h1.grows.here fun h => hne ?_⟩
    exact beq_iff_eq.2 h.symm

theorem branchUnless_steady (l : LabelId) (hc : Allowed E (c.Ready env.tables ctx.function)) :
    Steady E env (branchUnless ctx c l) := .of fun _ _ => .le (.seq (expr_fresh c hc).takes fun _ =>
  .step rfl <| .step rfl <| .release) (by omega)

theorem loop_steady {body step : Emit Unit} (hc : Allowed E (c.Ready env.tables ctx.function))
    (hbody : Steady E env body) (hstep : Steady E env step) : Steady E env (loop ctx c body step) :=
      .of fun _ _ =>
  .label fun _ => .label fun _ => .perm (.swap ..) <| .here fun _ =>
    .le (.seq (expr_fresh c hc).takes fun _ =>
    .binds <| .step rfl <| .step rfl <| .seq .release fun _ =>
    .seq hbody.takes fun _ => .seq hstep.takes fun _ => .step rfl <| .anchor) (by omega)

/-! ## Switches -/

omit [Exhausts E] in
theorem Takes.labels {α : Type} {bound : List LabelId} {hi : Nat} {after : α → List Register}
    {name : String} : ∀ (n : Nat) {f : List LabelId → Emit α},
      (∀ ls, ls.length = n → Takes E env (ls ++ bound) lo used (f ls) hi after) →
    Takes E env bound lo used (createLabels name n >>= f) hi after
  | 0, _, h => h [] rfl
  | n + 1, f, h => by
    simp only [createLabels, bind_assoc]
    exact .label fun l => .labels n fun ls hls =>
      .perm List.perm_middle (h (l :: ls) (by rw [List.length_cons, hls]))

/-- The labels of a switch, those of the test and of the body of each block together. -/
def switchLabels (labels : List (LabelId × LabelId)) : List LabelId :=
  labels.flatMap fun p => [p.1, p.2]

omit [Exhausts E] in
theorem switchLabels_perm : ∀ (tests bodies : List LabelId), tests.length = bodies.length →
    (bodies ++ tests).Perm (switchLabels (tests.zip bodies))
  | [], [], _ => .nil
  | t :: ts, b :: bs, h => by
    have ih := switchLabels_perm ts bs (Nat.succ.inj h)
    exact ((List.perm_middle.cons b).trans (.swap t b _)).trans ((ih.cons b).cons t)

/-- A block of a switch binds the labels of its test and of its body. -/
theorem switchCase_takes {discriminant : Register} {test bodyLabel miss done : LabelId}
    {body : Emit InstructionId} (hv : Allowed E (value.Ready env.tables ctx.function))
    (hbody : Blocks E env body) :
    Takes E env [test, bodyLabel] lo used
      (switchCase ctx discriminant value test bodyLabel miss done body) lo fun _ => used :=
      .here fun _ =>
  .le (.seq (expr_fresh value hv).takes fun _ => .binds <| .step rfl <|
    .step rfl <| .seq .release fun _ => .seq hbody.takes fun _ =>
    .binds (.emit rfl)) (by omega)

/-! ## All statements -/

/-- An expression whose value is not needed. -/
theorem expression_steady (ctx : Context) {e : Expr}
    (he : Allowed E (e.Ready env.tables ctx.function)) : Steady E env (do release (← expr ctx e)) :=
      .of fun _ _ => .le (.seq (expr_fresh e he).takes fun _ =>
  .release) (by omega)

mutual

theorem stmt_steady {E : CodeError → Prop} {env : Env} [Exhausts E] (ctx : Context) : ∀ (st : Stmt),
    Allowed E (st.Ready env.tables ctx.function ctx.next.isSome) → Steady E env (stmt ctx st)
  | .declaration _ d, h => declaration_steady h
  | .assignment _ target value, h => assignment_steady (h.imp (·.1)) (h.imp (·.2))
  | .ifElse _ c thenBlock none, h =>
    .of fun _ _ => .label fun done =>
      .le (.seq (branchUnless_steady done (h.imp (·.1))).takes fun _ =>
      .seq (block_blocks ctx thenBlock (h.imp (·.2.1))).steady.takes fun _ => .anchor) (by omega)
  | .ifElse _ c thenBlock (some elseBlock), h =>
    .of fun _ _ => .label fun _ => .le (.seq (expr_fresh c (h.imp (·.1))).takes fun _ =>
      .label fun _ => .step rfl <| .seq .release fun _ =>
      .seq (block_blocks ctx elseBlock (h.imp (·.2.2))).steady.takes fun _ => .step rfl <|
      .seq (block_blocks ctx thenBlock (h.imp (·.2.1))).takes fun _ => .binds .anchor) (by omega)
  | .whileLoop _ c body, h =>
    loop_steady (h.imp (·.1)) (block_blocks ctx body (h.imp (·.2))).steady
      (.of fun _ _ => .pure () rfl)
  | .doLoop _ body c, h =>
    .of fun _ _ => .label fun _ => .le (.seq (block_blocks ctx body (h.imp (·.1))).takes
      fun _ => .binds <| .seq (expr_fresh c (h.imp (·.2))).takes fun _ => .step rfl <|
      .release) (by omega)
  | .forLoop _ initializer c step body, h =>
    .of fun _ _ => .seq (optionalStmt_steady ctx initializer (h.imp (·.1))).takes fun _ =>
      (loop_steady (h.imp (·.2.1)) (block_blocks ctx body (h.imp (·.2.2.2))).steady
        (optionalStmt_steady ctx step (h.imp (·.2.2.1)))).takes
  | .block _ b, h => (block_blocks ctx b h).steady
  | .switch _ d cases fallback, h => by
    rw [stmt]
    refine .of fun lo used => .label fun done => .labels cases.length fun tests htests =>
      .labels cases.length fun bodies hbodies => ?_
    have hperm := switchLabels_perm tests bodies (htests.trans hbodies.symm)
    have hlength : (tests.zip bodies).length = cases.length := by
      rw [List.length_zip, htests, hbodies, Nat.min_self]
    cases fallback with
    | none =>
      refine .perm (.trans (.of_eq (List.append_assoc ..).symm) (hperm.append_right [done])) ?_
      exact .le (.seq (expr_fresh d (h.imp (·.1))).takes fun discriminant =>
        .bind (switchCases_takes discriminant done none cases _ (h.imp fun h => ⟨h.2.1, hlength⟩))
        fun _ => .anchored .release) (by omega)
    | some b =>
      refine .label fun l => .perm (.trans (.cons l (.trans (.of_eq (List.append_assoc ..).symm)
        (hperm.append_right [done]))) List.perm_middle.symm) ?_
      exact .le (.seq (expr_fresh d (h.imp (·.1))).takes fun discriminant => .bind
        (switchCases_takes discriminant done (some l) cases _ (h.imp fun h => ⟨h.2.1, hlength⟩))
        fun _ => .seq (block_blocks (ctx.withNext none) b (h.imp (·.2.2))).takes fun _ =>
        .binds (.anchored .release)) (by omega)
  | .next _, h => by
    simp only [stmt] at h ⊢
    refine .of fun lo used => ?_
    cases hn : ctx.next with
    | some l => exact .le (.emit rfl) (by omega)
    | none =>
      rcases h with h | hall
      · rw [hn] at h
        cases h
      · exact .throw (hall _ nofun)
  | .return _ value, h => .of fun _ _ => .le (returnStatement_takes _ h) (by omega)
  | .expression _ e, h => expression_steady _ h
  | .acquire _ lock, h => withLock_steady h acquire_steady
  | .release _ lock, h => withLock_steady h fun a => .of fun _ _ => .le (.emit rfl) (by omega)

theorem optionalStmt_steady {E : CodeError → Prop} {env : Env} [Exhausts E] (ctx : Context) :
    ∀ (st : Option Stmt), Allowed E (Stmt.ReadyOption env.tables ctx.function ctx.next.isSome st) →
    Steady E env (optionalStmt ctx st)
  | none, _ => .of fun _ _ => .pure () rfl
  | some st, h => stmt_steady ctx st h

theorem stmts_steady {E : CodeError → Prop} {env : Env} [Exhausts E] (ctx : Context) :
    ∀ (ss : List Stmt), Allowed E (Stmt.ReadyAll env.tables ctx.function ctx.next.isSome ss) →
    Steady E env (stmts ctx ss)
  | [], _ => .of fun _ _ => .pure () rfl
  | st :: ss, h =>
    .of fun _ _ => .seq (stmt_steady ctx st (h.imp (·.1))).takes fun _ =>
      (stmts_steady ctx ss (h.imp (·.2))).takes

theorem block_blocks {E : CodeError → Prop} {env : Env} [Exhausts E] (ctx : Context) :
    ∀ (b : Block),
    Allowed E (b.Ready env.tables ctx.function ctx.next.isSome) → Blocks E env (block ctx b)
  | .mk _ statements, h => nonempty_blocks (stmts_steady ctx statements h)

/-- The blocks of a switch bind their labels. -/
theorem switchCases_takes {E : CodeError → Prop} {env : Env} [Exhausts E]
    {ctx : Context} {lo : Nat} {used : List Register} (discriminant : Register) (done : LabelId)
    (fallback : Option LabelId) : ∀ (cases : List Case) (labels : List (LabelId × LabelId)),
    Allowed E (Case.ReadyAll env.tables ctx.function fallback.isSome cases ∧
      labels.length = cases.length) → Takes E env (switchLabels labels) lo used
    (switchCases ctx discriminant done fallback cases labels) lo fun _ => used
  | [], labels, _ => .pure () rfl
  | .mk _ value body :: cases, [], _ => .pure () rfl
  | .mk _ value body :: cases, (test, bodyLabel) :: labels, h => by
    have hnext : Allowed E (body.Ready env.tables ctx.function
        ((labels.head?.map (·.2)).or fallback).isSome) := by
      refine h.imp fun h => ?_
      have hflag : ((labels.head?.map (·.2)).or fallback).isSome =
          (!cases.isEmpty || fallback.isSome) := by
        cases labels <;> cases cases <;> simp_all
      rw [hflag]
      exact h.1.2.1
    have hbody := block_blocks (ctx.withNext ((labels.head?.map (·.2)).or fallback)) body hnext
    exact (switchCase_takes (h.imp (·.1.1)) hbody).bind fun _ => switchCases_takes discriminant done
      fallback cases labels (h.imp fun h => ⟨h.1.2.2, Nat.succ.inj h.2⟩)

end

end Emit

end Awl.Code
