import Awl.Proofs.EmitUnit

/-!
# The exact demand for registers

`Emit.expr_takes` says that the code of an expression is generated if as many registers are free as
the expression needs (`Expr.need`). With fewer, some action on the way finds none: a list of more
registers than there are is never in use, so an action that would leave one does not end
(`Takes.overdraw`). Together they decide, for every expression of an accepted unit, whether its code
is generated (`SourceUnit.expr_exhausts_iff`).
-/

namespace Awl

open Machine Code

namespace Code.Emit

/-- There are fewer than `n` registers besides these. -/
abbrev Short (used : List Register) (n : Nat) : Prop := generalPurpose.length < used.length + n

variable {α β : Type} {E : CodeError → Prop} {env : Env} {bound : List LabelId} {lo hi mid n : Nat}
  {used : List Register} {m : Emit α} {f : α → Emit β} {after : α → List Register}

theorem Short.take {r : Register} (h : Short used (n + 1)) : Short (used ++ [r]) n := by
  rw [Short, List.length_append, List.length_singleton]
  omega

/-! ## Actions that do not end -/

namespace Takes

/-- No action starts with more registers than there are. -/
theorem full (h : Short used 0) : Takes E env bound lo used m hi after := fun s hs _ _ _ => by
  have hlen := hs.wf.length_eq
  rw [List.length_append, hs.inUse] at hlen
  omega

/-- An action that does not end, and then another one. -/
theorem stuck {after : β → List Register} (h : ∀ after, Takes E env [] lo used m lo after) :
    Takes E env bound lo used (m >>= f) hi after :=
      .seq (h fun _ => generalPurpose ++ [.zero]) fun _ =>
  .full (Nat.lt_succ_self _)

/-- An action that would take too many registers does not end. -/
theorem overdraw {after' : α → List Register} (hm : Takes E env bound lo used m mid after')
    (h : ∀ a, Short (after' a) 0) : Takes E env bound lo used m hi after := fun s hs hfit hlo hl =>
  (hm s hs hfit hlo hl).weaken fun a s' h' => by
    have hlen := h'.1.uses.wf.length_eq
    have := h a
    rw [List.length_append, h'.1.uses.inUse] at hlen
    omega

end Takes

variable {ctx : Context} {pushArguments : Emit Unit} {node : NodeId} {x : String}
  {object block value : Register} {arguments i k : Nat} [Exhausts E] {g : FunctionId}

theorem constantRegister_overdraws {v : Int} {after : Register → List Register} (h : Short used 1) :
    Takes E env [] lo used (constantRegister v) hi after :=
      .overdraw (constantRegister_takes v .of) fun _ =>
  h.take

theorem fieldPlace_overdraws {after : Place → List Register} (hk : k ≠ 0) (h : Short used 2) :
    Takes E env [] lo (used ++ [object]) (fieldPlace object k) hi after := by
  unfold fieldPlace
  rw [if_pos hk]
  exact .stuck fun _ => constantRegister_overdraws h.take

theorem namePlace_overdraws {after : Place → List Register}
    (hx : Allowed E (env.tables.HasName ctx.function node x))
    (hneed : env.nameNeed node x ≠ 1) (h : Short used (env.nameNeed node x)) :
    Takes E env [] lo used (namePlace ctx node x) lo after := by
  refine namePlace_cases hx .of (fun h1 => absurd h1 hneed) fun k hk object lo => ?_
  have hk0 : k ≠ 0 := fun h0 => hneed (hk.trans (if_pos h0))
  exact fieldPlace_overdraws hk0 (by rwa [hk, if_neg hk0] at h)

theorem writeElement_overdraws {after : Unit → List Register} (h : Short used 1) :
    Takes E env [] lo used (writeElement block i value) hi after :=
  .stuck fun _ => constantRegister_overdraws h

theorem string_overdraws {after : Register → List Register} (str : String)
    (h : Short used (if str = "" then 2 else 3)) :
    Takes E env [] lo used (string str) hi after := by
  refine .seq (constantRegister_takes _ .of) fun size => .mark fun first _ =>
    .seq (alloc_takes size .of)
    fun block => .seq (.comment (by omega)) fun _ => ?_
  split at h
  · exact .seq (writeChars_takes block _ 0 fun _ => .of) fun _ => .stuck fun _ =>
      writeElement_overdraws h.take
  · rename_i hne
    obtain ⟨c, cs, hcs⟩ := List.exists_cons_of_ne_nil (mt String.toList_eq_nil_iff.1 hne)
    rw [hcs]
    exact .stuck fun _ => .seq (constantRegister_takes _ .of) fun r => .stuck fun _ =>
      writeElement_overdraws h.take.take

theorem callFunction_overdraws {after : Register → List Register} (hf : Allowed E (∃ fn,
      env.tables.function? g = some fn ∧ fn.signature.arguments.length = arguments))
    (hargs : ∀ lo after, Takes E env [] lo used pushArguments lo after) :
    Takes E env [] lo used (callFunction g arguments pushArguments) hi after :=
  .overdraw (callFunction_takes .of hf fun lo => hargs lo fun _ => generalPurpose) fun _ =>
    Short.take (Nat.lt_succ_self _)

theorem runInitializer_overdraws {after : Unit → List Register}
    (hx : (env.initializers.lookup x).isSome)
    (h : Short used 1) : Takes E env [] lo used (runInitializer x object) hi after := by
  refine .read ?_
  obtain ⟨entry, hentry⟩ := Option.isSome_iff_exists.1 hx
  rw [hentry]
  exact .stuck fun _ => .overdraw (call_takes .of (.of (Nat.le_refl 1))
    (.le (.emit rfl) (by omega))) fun _ => h.take

/-- The arguments of the constructor do not get their registers, or its result does not. -/
theorem runConstructor_overdraws {after : Unit → List Register}
    (hnew : Allowed E (env.tables.HasConstructor node arguments))
    (hg : env.tables.functions.lookup node = some g)
    (hargs : (∀ lo after, Takes E env [] lo used pushArguments lo after) ∨
      Short used 1 ∧ ∀ lo, Takes E env [] lo used pushArguments lo fun _ => used) :
    Takes E env [] lo used (runConstructor node arguments pushArguments object) hi after := by
  have hcallee : Allowed E (∃ fn, env.tables.function? g = some fn ∧
      fn.signature.arguments.length = arguments + 1) := hnew.imp fun h => by
    rcases h.2 with ⟨hnone, -⟩ | hcallee
    · rw [hg] at hnone
      cases hnone
    · exact hcallee.callee hg
  refine .read ?_
  rw [hg]
  refine .stuck fun _ => ?_
  rcases hargs with hargs | ⟨h, hargs⟩
  · exact callFunction_overdraws hcallee fun lo _ => .stuck (hargs lo)
  · exact .overdraw (callFunction_takes .of hcallee fun lo => .le (.seq (hargs lo) fun _ =>
      .emit rfl) (by omega)) fun _ => h.take

/-- Every expression needs a register. -/
theorem expr_full (e : Expr) {after : Register → List Register}
    (hready : Allowed E (e.Ready env.tables ctx.function))
    (h : Short used 1) : Takes E env [] lo used (expr ctx e) hi after :=
  .overdraw (expr_takes e hready .of) fun _ => h.take

mutual

/-- With fewer free registers than it needs, there is no code for an expression. -/
theorem expr_overdraws {used : List Register} {lo hi : Nat} {after : Register → List Register} :
    ∀ (e : Expr),
    Allowed E (e.Ready env.tables ctx.function) → Short used (e.need env) →
    Takes E env [] lo used (expr ctx e) hi after
  | .literal n (.string str), _, hr => string_overdraws str hr
  | .literal n (.int _), h, hr | .literal n (.bool _), h, hr | .literal n (.char _), h, hr
  | .enumValue n _ _, h, hr | .arrayLiteral n [], h, hr =>
    expr_full _ h (by simpa only [Expr.need] using hr)
  | .name n x, h, hr => by
    by_cases hneed : env.nameNeed n.id x = 1
    · exact expr_full _ h (hneed ▸ hr)
    · exact .mark fun first _ => .stuck fun _ => namePlace_overdraws h hneed hr
  | .arrayLiteral n (e :: es), h, hr => by
    simp only [Expr.need] at h hr ⊢
    exact .seq (constantRegister_takes _ .of) fun size => .seq (alloc_takes size .of) fun block =>
      .stuck fun _ => elements_overdraws (e :: es) h block 0 (List.cons_ne_nil _ _) (.take (by
        rw [Expr.needAll]
        omega))
  | .newArray n t length, h, hr => .stuck fun _ => expr_overdraws length h hr
  | .index n a i, h, hr => by
    simp only [Expr.need] at h hr ⊢
    by_cases ha : Short used (a.need env)
    · exact .stuck fun _ => expr_overdraws a (h.imp (·.1)) ha
    · exact .seq (expr_takes a (h.imp (·.1)) .of) fun array => .stuck fun _ =>
        expr_overdraws i (h.imp (·.2)) (.take (by omega))
  | .field n o x, h, hr => by
    simp only [Expr.need] at h hr ⊢
    refine .seqRun (fieldOffset_takes (h.imp (·.1))) fun k s s' hk => ?_
    by_cases ho : Short used (o.need env)
    · exact .stuck fun _ => expr_overdraws o (h.imp (·.2)) ho
    · have hk0 : env.fieldOffset? o.id x ≠ some 0 := fun h0 => ho (by rwa [if_pos h0] at hr)
      rw [if_neg hk0] at hr
      exact .seq (expr_takes o (h.imp (·.2)) .of) fun object => .stuck fun _ => fieldPlace_overdraws
        (fun h0 => hk0 (h0 ▸ fieldOffset?_of_run hk)) (by omega)
  | .call n name es, h, hr => by
    by_cases hfull : Short used 1
    · exact expr_full _ h hfull
    rw [Expr.need] at hr
    have hlaunch : ¬env.launches n.id = true := fun hlaunch => hfull (by rwa [if_pos hlaunch] at hr)
    rw [if_neg hlaunch] at hr
    intro s hs hfit hlo hl
    refine .read (.expect (h.imp (·.1.node_bound)) fun f hf => ?_)
    have hcallee := h.imp (·.1.callee hf)
    refine .query (hcallee.imp (.imp fun _ h => Slots.fetch_eq_ok_iff.2 h.1)) fun fn hfn => ?_
    have hthread : ¬fn.isThread = true := by
      simpa [Env.launches, hf, Slots.fetch_eq_ok_iff.1 hfn] using hlaunch
    rw [if_neg hthread]
    exact callFunction_overdraws hcallee (fun _ _ => pushAll_overdraws es (h.imp (·.2)) (by omega))
      s hs hfit hlo hl
  | .methodCall n r name es, h, hr => by
    by_cases hfull : Short used 1
    · exact expr_full _ h hfull
    simp only [Expr.need] at h hr ⊢
    refine .read (.expect (h.imp (·.1.node_bound)) fun f hf =>
      callFunction_overdraws (h.imp (·.1.callee hf))
      fun _ _ => ?_)
    by_cases hes : Short used (Expr.needAll env es)
    · exact .stuck fun _ => pushAll_overdraws es (h.imp (·.2.2)) hes
    · exact .seq (pushAll_takes es (h.imp (·.2.2)) .of) fun _ => .stuck fun _ =>
        expr_overdraws r (h.imp (·.2.1)) (by omega)
  | .new n x es, h, hr => by
    by_cases hfull : Short used 1
    · exact expr_full _ h hfull
    simp only [Expr.need] at h hr ⊢
    refine newObject_takes (h.imp (·.1)) .of fun object => ?_
    cases hk : env.tables.functions.lookup n.id with
    | some g =>
      rw [hk, if_pos (Option.isSome_some)] at hr
      refine .seq (runInitializer_takes x object fun _ => .of) fun _ => .stuck fun _ =>
        runConstructor_overdraws (h.imp (·.2.1)) hk ?_
      by_cases hes : Short used (Expr.needAll env es + 1)
      · exact .inl fun _ _ => pushAll_overdraws es (h.imp (·.2.2)) hes.take
      · exact .inr ⟨.take (by omega), fun _ => pushAll_takes es (h.imp (·.2.2)) .of⟩
    | none =>
      rw [hk, if_neg (by simp)] at hr
      split at hr
      · rename_i hi
        exact .stuck fun _ => runInitializer_overdraws hi hr.take
      · exact absurd hr hfull
  | .unary n op e, h, hr => .stuck fun _ => expr_overdraws e h hr
  | .binary n op l r, h, hr => by
    simp only [Expr.need] at h hr ⊢
    by_cases hl : Short used (l.need env)
    · exact .stuck fun _ => expr_overdraws l (h.imp (·.1)) hl
    · exact .seq (expr_takes l (h.imp (·.1)) .of) fun left => .stuck fun _ =>
        expr_overdraws r (h.imp (·.2)) (.take (by omega))

theorem elements_overdraws {used : List Register} {lo hi : Nat} {after : Unit → List Register} :
    ∀ (es : List Expr),
    Allowed E (Expr.ReadyAll env.tables ctx.function es) → ∀ (block : Register) (i : Nat), es ≠ [] →
    Short used (max 2 (Expr.needAll env es)) →
    Takes E env [] lo used (elements ctx block i es) hi after
  | [], _, _, _, hne, _ => absurd rfl hne
  | e :: es, h, block, i, _, hr => by
    simp only [Expr.needAll] at h hr ⊢
    by_cases he : Short used (e.need env)
    · exact .stuck fun _ => expr_overdraws e (h.imp (·.1)) he
    refine .seq (expr_takes e (h.imp (·.1)) .of) fun r => ?_
    by_cases h2 : Short used 2
    · exact .stuck fun _ => writeElement_overdraws h2.take
    have hne : es ≠ [] := by
      rintro rfl
      rw [Expr.needAll] at hr
      omega
    exact .seq (writeElement_takes block i r .of) fun _ => .seq .release fun _ =>
      elements_overdraws es (h.imp (·.2)) block (i + 1) hne (by omega)

theorem pushAll_overdraws {used : List Register} {lo hi : Nat} {after : Unit → List Register} :
    ∀ (es : List Expr),
    Allowed E (Expr.ReadyAll env.tables ctx.function es) → Short used (Expr.needAll env es) →
    Takes E env [] lo used (pushAll ctx es) hi after
  | [], _, hr => .full hr
  | e :: es, h, hr => by
    simp only [Expr.needAll] at h hr ⊢
    by_cases hes : Short used (Expr.needAll env es)
    · exact .stuck fun _ => pushAll_overdraws es (h.imp (·.2)) hes
    · exact .seq (pushAll_takes es (h.imp (·.2)) .of) fun _ => .stuck fun _ =>
        expr_overdraws e (h.imp (·.1)) (by omega)

end

end Code.Emit

/-! ## The expressions of a unit -/

/-- The expressions right inside an expression. -/
def Expr.operands : Expr → List Expr
  | .literal .. | .name .. | .enumValue .. => []
  | .arrayLiteral _ es | .call _ _ es | .new _ _ es => es
  | .newArray _ _ e | .field _ e _ | .unary _ _ e => [e]
  | .index _ l r | .binary _ _ l r => [l, r]
  | .methodCall _ r _ es => r :: es

def Target.operands : Target → List Expr
  | .name .. => []
  | .index _ a i => [a, i]
  | .field _ o _ => [o]

/-- The expressions right inside a statement. -/
def Stmt.operands : Stmt → List Expr
  | .declaration _ d => d.initializer.toList
  | .assignment _ target value => target.operands ++ [value]
  | .ifElse _ e _ _ | .whileLoop _ e _ | .doLoop _ _ e | .forLoop _ _ e _ _ | .expression _ e
      | .acquire _ e
  | .release _ e => [e]
  | .block .. | .next _ => []
  | .switch _ e cases _ => e :: cases.map fun | .mk _ value _ => value
  | .return _ value => value.toList

/-- The statements right inside a statement. -/
def Stmt.parts : Stmt → List Stmt
  | .ifElse _ _ b b' => b.statements ++ b'.toList.flatMap Block.statements
  | .whileLoop _ _ b | .doLoop _ b _ | .block _ b => b.statements
  | .forLoop _ initializer _ step b => initializer.toList ++ step.toList ++ b.statements
  | .switch _ _ cases fallback =>
    (cases.flatMap fun | .mk _ _ b => b.statements) ++ fallback.toList.flatMap Block.statements
  | _ => []

/-- A statement of the main code or of a body, with the frame of its routine. -/
inductive SourceUnit.Runs (u : SourceUnit) (t : Tables) : Option ScopeId → Stmt → Prop
  | main {s : Stmt} : s ∈ u.statements → u.Runs t none s
  | body {i : Nat} {d : Definition} {f : Function} {b : Block} {s : Stmt} : u.definitions[i]? =
      some d →
      t.function? i = some f → d.body = .block b → s ∈ b.statements → u.Runs t f.scope s
  | part {frame : Option ScopeId} {s s' : Stmt} : u.Runs t frame s → s' ∈ s.parts →
      u.Runs t frame s'

/-- An expression of a unit, with the frame of its routine. Fields are initialized outside of all
frames. -/
inductive SourceUnit.Evaluates (u : SourceUnit) (t : Tables) : Option ScopeId → Expr → Prop
  | statement {frame : Option ScopeId} {s : Stmt} {e : Expr} : u.Runs t frame s → e ∈ s.operands →
      u.Evaluates t frame e
  | body {i : Nat} {d : Definition} {f : Function} {e : Expr} : u.definitions[i]? = some d →
      t.function? i = some f → d.body = .expression e → u.Evaluates t f.scope e
  | field {c : ClassDef} {d : Declaration} {e : Expr} : c ∈ u.classes → d ∈ c.fields →
      d.initializer = some e →
      u.Evaluates t none e
  | operand {frame : Option ScopeId} {e e' : Expr} : u.Evaluates t frame e → e' ∈ e.operands →
      u.Evaluates t frame e'

section
variable {u : SourceUnit} {t : Tables} {frame : Option ScopeId} {e e' : Expr} {s s' : Stmt}
  {next : Bool} {b : Block}

theorem Expr.ReadyAll.mem {es : List Expr} (h : Expr.ReadyAll t frame es) (he : e ∈ es) :
    e.Ready t frame := by
  induction he with
  | head => exact h.1
  | tail _ _ ih => exact ih h.2

theorem Stmt.ReadyAll.mem {ss : List Stmt} (h : Stmt.ReadyAll t frame next ss) (hs : s ∈ ss) :
    s.Ready t frame next := by
  induction hs with
  | head => exact h.1
  | tail _ _ ih => exact ih h.2

theorem Case.ReadyAll.mem {fallback : Bool} {cs : List Case} {n : Node} (hc : Case.mk n e b ∈ cs)
    (h : Case.ReadyAll t frame fallback cs) : e.Ready t frame ∧ ∃ next, b.Ready t frame next := by
  induction hc with
  | head => exact ⟨h.1, _, h.2.1⟩
  | tail c _ ih =>
    cases c
    exact ih h.2.2

theorem Block.Ready.mem (h : b.Ready t frame next) (hs : s ∈ b.statements) :
    s.Ready t frame next := by
  cases b
  exact Stmt.ReadyAll.mem h hs

theorem Expr.Ready.operand (h : e.Ready t frame) (he : e' ∈ e.operands) : e'.Ready t frame := by
  cases e <;> simp only [Expr.operands, List.mem_cons, List.not_mem_nil, or_false] at h he
  case arrayLiteral => exact h.mem he
  case newArray | unary => exact he ▸ h
  case index | binary =>
    rcases he with rfl | rfl
    · exact h.1
    · exact h.2
  case field => exact he ▸ h.2
  case call => exact h.2.mem he
  case methodCall =>
    rcases he with rfl | he
    · exact h.2.1
    · exact h.2.2.mem he
  case new => exact h.2.2.mem he

theorem Expr.LockReady.ready (h : e.LockReady t frame) : e.Ready t frame := by
  cases e with
  | name n x =>
    obtain ⟨id, sc, k, hp, hk⟩ := h
    exact ⟨id, sc, k, hp, by simp [ScopeTree.Reaches, hk]⟩
  | index | field => exact h
  | _ => exact h.elim

theorem Expr.ReadyOption.mem {o : Option Expr} (h : Expr.ReadyOption t frame o)
    (he : e ∈ o.toList) :
    e.Ready t frame := by
  cases Option.mem_toList.1 he
  exact h

theorem Stmt.Ready.operand (h : s.Ready t frame next) (he : e ∈ s.operands) : e.Ready t frame := by
  cases s <;> simp only [Stmt.Ready, Stmt.operands, List.mem_cons, List.mem_append, List.mem_map,
    List.not_mem_nil, or_false] at h he
  case declaration => exact h.1.mem he
  case assignment n target value =>
    rcases he with he | rfl
    · cases target with
      | name => cases he
      | index => exact Expr.Ready.operand (e := .index n _ _) h.1 he
      | field => exact Expr.Ready.operand (e := .field n _ _) h.1 he
    · exact h.2
  case ifElse | whileLoop => exact he ▸ h.1
  case doLoop => exact he ▸ h.2
  case forLoop => exact he ▸ h.2.1
  case switch =>
    rcases he with rfl | ⟨⟨_, _, _⟩, hc, rfl⟩
    · exact h.1
    · exact (Case.ReadyAll.mem hc h.2.1).1
  case «return» => exact h.mem he
  case expression => exact he ▸ h
  case acquire | release => exact he ▸ h.ready

theorem Block.ReadyOption.mem {o : Option Block} (h : Block.ReadyOption t frame next o)
    (hs : s ∈ o.toList.flatMap Block.statements) : s.Ready t frame next := by
  cases o with
  | none => cases hs
  | some b => exact Block.Ready.mem h (by simpa using hs)

theorem Stmt.ReadyOption.mem {o : Option Stmt} (h : Stmt.ReadyOption t frame next o)
    (hs : s ∈ o.toList) :
    s.Ready t frame next := by
  cases Option.mem_toList.1 hs
  exact h

theorem Stmt.Ready.part (h : s.Ready t frame next) (hs : s' ∈ s.parts) :
    ∃ next, s'.Ready t frame next := by
  cases s <;> simp only [Stmt.parts, List.mem_append, List.not_mem_nil] at h hs
  case ifElse =>
    rcases hs with hs | hs
    · exact ⟨_, h.2.1.mem hs⟩
    · exact ⟨_, h.2.2.mem hs⟩
  case whileLoop => exact ⟨_, h.2.mem hs⟩
  case doLoop => exact ⟨_, h.1.mem hs⟩
  case block => exact ⟨_, h.mem hs⟩
  case forLoop =>
    rcases hs with (hs | hs) | hs
    · exact ⟨_, h.1.mem hs⟩
    · exact ⟨_, h.2.2.1.mem hs⟩
    · exact ⟨_, h.2.2.2.mem hs⟩
  case switch =>
    rcases hs with hs | hs
    · obtain ⟨⟨_, _, b⟩, hc, hs⟩ := List.mem_flatMap.1 hs
      obtain ⟨next, hb⟩ := (Case.ReadyAll.mem hc h.2.1).2
      exact ⟨next, hb.mem hs⟩
    · exact ⟨_, h.2.2.mem hs⟩

theorem SourceUnit.Sound.body_ready (hu : u.Sound t) {i : Nat} {d : Definition} {f : Function}
    (hd : u.definitions[i]? = some d) (hf : t.function? i = some f) : d.body.Ready t f.scope := by
  obtain ⟨f', frame, -, -, hf', hframe, -, -, -, hready⟩ := (hu.definitions i d hd).ready
  obtain rfl := Option.mem_unique hf' hf
  rwa [hframe]

theorem SourceUnit.Runs.ready (hu : u.Sound t) (h : u.Runs t frame s) :
    ∃ next, s.Ready t frame next := by
  induction h with
  | main hs => exact ⟨_, hu.main.mem hs⟩
  | body hd hf hb hs =>
    have hready := hu.body_ready hd hf
    rw [hb] at hready
    exact ⟨_, Stmt.ReadyAll.mem hready hs⟩
  | part _ hs ih =>
    obtain ⟨next, hready⟩ := ih
    exact hready.part hs

theorem SourceUnit.Evaluates.ready (hu : u.Sound t) (h : u.Evaluates t frame e) :
    e.Ready t frame := by
  induction h with
  | statement hs he =>
    obtain ⟨next, hready⟩ := hs.ready hu
    exact hready.operand he
  | body hd hf hb =>
    have hready := hu.body_ready hd hf
    rwa [hb] at hready
  | field hc hd he =>
    obtain ⟨_, _, -, -, hfields⟩ := hu.classes _ hc
    have hready := hfields _ hd
    rwa [he] at hready
  | operand _ he ih => exact ih.operand he

/-! ## The demand of an expression -/

/-- **The exact demand for registers**: in every state of the generator, the code of an expression
of an accepted unit fails for lack of registers exactly if there are not as many as the expression
needs besides those in use, and otherwise it does not fail at all. Which registers are in use makes
no difference. -/
theorem SourceUnit.expr_exhausts_iff (h : u.check = .ok t) (hids : (u.nodes.map (·.id)).Nodup)
    (options : Options)
    (layout : StaticLayout) {ctx : Code.Context} (he : u.Evaluates t ctx.function e) {s : EmitState}
    (hwf : s.registers.WF) (hlabels : (startState u t).labels ≤ s.labels) :
    (Emit.expr ctx e (startEnv u t options layout) s = .error .registersExhausted ↔
      5 < s.registers.inUse.length + e.need (startEnv u t options layout)) ∧
    (s.registers.inUse.length + e.need (startEnv u t options layout) ≤ 5 →
      ∃ r s', Emit.expr ctx e (startEnv u t options layout) s = .ok (r, s')) := by
  have hu := SourceUnit.check_sound h hids
  have hready := he.ready hu
  have hstart := startEnv_fits hu options layout
  have hfit : (startEnv u t options layout).Fits s := { hstart with
    entry := fun id f hf => by
      obtain ⟨l, hl, hlt⟩ := hstart.entry id f hf
      exact ⟨l, hl, Nat.lt_of_lt_of_le hlt hlabels⟩ }
  have hok : s.registers.inUse.length + e.need (startEnv u t options layout) ≤ 5 →
      ∃ r s', Emit.expr ctx e (startEnv u t options layout) s = .ok (r, s') := by
    intro hle
    have hrun := (Emit.expr_takes (E := fun _ => False) e (.of hready) fun hlt =>
      Nat.not_lt.2 hle hlt).emits
      ⟨hwf, rfl⟩ (.of hfit)
    unfold Emit.Sat at hrun
    split at hrun
    · exact ⟨_, _, ‹_›⟩
    · exact hrun.elim
  refine ⟨⟨fun herror => ?_, fun hlt => ?_⟩, hok⟩
  · by_contra hle
    obtain ⟨r, s', hrun⟩ := hok (Nat.not_lt.1 hle)
    rw [herror] at hrun
    cases hrun
  · have htakes : Emit.Takes (· = .registersExhausted) (startEnv u t options layout)
      [] 0 s.registers.inUse
        (Emit.expr ctx e) 0 fun _ => [.zero, .zero] :=
      Emit.expr_overdraws (E := (· = .registersExhausted)) e (.of hready) hlt
    have hrun := htakes.emits ⟨hwf, rfl⟩ (.of hfit)
    unfold Emit.Sat at hrun
    split at hrun
    · cases hrun.uses.nodup with
      | cons hne _ => exact absurd rfl (hne _ (.head _))
    · rename_i herror
      rw [herror, hrun]

end

/-- The first value in the main code of the unit. -/
def newCounter : Expr := .new 24 "Counter" []

/-- The generator at the start, with `k` registers in use. -/
def crowded (t : Tables) (k : Nat) : EmitState :=
  { startState counterUnit t with
    registers := { free := generalPurpose.drop k, inUse := generalPurpose.take k } }

/-- A new object with initial values of its fields needs two registers: there is no code for it with
four of the five in use, but there is with three of them. -/
theorem counterUnit_exhausts : ∃ t, counterUnit.check = .ok t ∧
    let run := fun k => Emit.expr {} newCounter (startEnv counterUnit t {} ⟨0, 0, 2⟩) (crowded t k)
    run 4 = .error .registersExhausted ∧ ∃ r s', run 3 = .ok (r, s') := by
  obtain ⟨t, ht⟩ := counterUnit_accepted
  have he : counterUnit.Evaluates t (Code.Context.function {}) newCounter :=
    .statement (.main (.head _)) (.head _)
  have hneed : newCounter.need (startEnv counterUnit t {} ⟨0, 0, 2⟩) = 2 := by
    have h : counterUnit.check.toOption.map
        (fun t => newCounter.need (startEnv counterUnit t {} ⟨0, 0, 2⟩)) = some 2 := by
      decide +kernel
    rw [ht] at h
    exact Option.some.inj h
  have hwf : ∀ k, (crowded t k).registers.WF := fun k =>
    List.perm_append_comm.trans (.of_eq (List.take_append_drop k generalPurpose))
  have hall := fun k => SourceUnit.expr_exhausts_iff ht counterUnit_nodup {} ⟨0, 0, 2⟩ he (hwf k)
    (Nat.le_refl _)
  rw [hneed] at hall
  exact ⟨t, ht, (hall 4).1.2 (show 5 < 4 + 2 by decide), (hall 3).2 (show 3 + 2 ≤ 5 by decide)⟩

end Awl
