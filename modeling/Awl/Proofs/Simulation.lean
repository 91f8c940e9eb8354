import Awl.Proofs.Evaluation

/-!
# Statements do what they mean

Whenever the execution of a statement that neither calls nor allocates ends, so does its code: with
the store of the execution in the frame and in the shared memory, and at the place that the outcome
leads to (`reach_of_exec`). There is one lemma for each rule of the semantics.
-/

namespace Awl

open Machine Code

variable {ctx : Context} {c : Core} {d : Int} {used : List Register} {l : Location} {m : Memory}
  {first last : Nat} {s : Option Stmt} {x : Register}

/-! ## How code ends -/

/-- An address outside the slots of the frame. -/
def Scene.Foreign (scene : Scene) (c : Core) (a : Int) : Prop :=
  ∀ k id x, scene.Slot k id x → a ≠ c.value .arp + (k + 1)

/-- Where a core that was at `c` is after an outcome: behind the code, at the block that `next` goes
on with, or at the return address, with the result in its place. -/
def Outcome.Leads (P : Program) (ctx : Code.Context) (last : Nat) (c c' : Core) : Outcome → Prop
  | .normal => c'.pc = last
  | .next => ∃ l t, ctx.next = some l ∧ P.target? l = some t ∧ c'.pc = t
  | .returned result => c'.pc = c.memory (c.value .arp - 1) ∧
    ∀ v, result = some v → c'.memory (c.value .arp - 2) = v

namespace Code

/-- Code that was entered with `c` has ended with an outcome and a store. -/
structure Ends (P : Program) (scene : Scene) (ctx : Context) (used : List Register) (last : Nat)
    (c : Core) (σ : Store) (o : Outcome) (c' : Core) (m' : Memory) : Prop where
  holds : scene.Holds σ c' m'
  leads : o.Leads P ctx last c c'
  replies : c'.replies = []
  sp : c'.value .sp = c.value .sp
  arp : c'.value .arp = c.value .arp
  registers : ∀ r ∈ used, c'.value r = c.value r
  memory : ∀ a, scene.Foreign c a → (∀ v, o = .returned (some v) → a ≠ c.value .arp - 2) →
    c'.memory a = c.memory a

section
variable {P : Program} {scene : Scene} {ctx : Context} {used used' : List Register}
  {i last last' : Nat} {c c1 c2 : Core} {m m1 m2 : Memory} {σ σ1 σ' : Store} {o : Outcome}

theorem Calm.ends (h : Calm used last c m c1 m1) (hσ : scene.Holds σ c m) :
    Ends P scene ctx used last c σ .normal c1 m1 where
  holds := h.holds hσ
  leads := h.stands.pc
  replies := h.stands.replies
  sp := h.sp
  arp := h.arp
  registers := h.registers
  memory a _ _ := by rw [h.memory]

namespace Ends

theorem stands (h : Ends P scene ctx used last c σ .normal c1 m1) : Stands last c1 :=
  ⟨h.leads, h.replies⟩

/-- The end of the second of two parts. -/
theorem after (h : Ends P scene ctx used i c σ1 .normal c1 m1)
    (h' : Ends P scene ctx used' last c1 σ' o c2 m2) (hsub : ∀ r ∈ used, r ∈ used') :
    Ends P scene ctx used last c σ' o c2 m2 where
  holds := h'.holds
  leads := by
    have hback : c1.memory (c.value .arp - 1) = c.memory (c.value .arp - 1) :=
      h.memory _ (fun k _ _ _ => by omega) (by simp)
    cases o with
    | normal => exact h'.leads
    | next => exact h'.leads
    | returned result =>
      obtain ⟨hpc, hresult⟩ := h'.leads
      rw [h.arp] at hpc hresult
      exact ⟨hpc.trans hback, hresult⟩
  replies := h'.replies
  sp := h'.sp.trans h.sp
  arp := h'.arp.trans h.arp
  registers r hr := (h'.registers r (hsub r hr)).trans (h.registers r hr)
  memory a ha ho := by
    rw [h'.memory a (fun k id x hk => h.arp ▸ ha k id x hk) (fun v hv => h.arp ▸ ho v hv),
      h.memory a ha (by simp)]

theorem calm (h : Ends P scene ctx used i c σ .normal c1 m1) (h' : Calm used last c1 m1 c2 m2) :
    Ends P scene ctx used last c σ .normal c2 m2 := h.after (h'.ends h.holds) fun _ h => h

/-- Only a normal outcome leads behind the code. -/
theorem elsewhere (h : Ends P scene ctx used last c σ o c1 m1) (ho : o ≠ .normal) :
    Ends P scene ctx used last' c σ o c1 m1 where
  __ := h
  leads := by
    cases o with
    | normal => exact absurd rfl ho
    | next => exact h.leads
    | returned => exact h.leads

/-- Only `next` depends on the context. -/
theorem inContext {context' : Context} (h : Ends P scene context' used last c σ o c1 m1)
    (ho : o = .next → context'.next = none) : Ends P scene ctx used last c σ o c1 m1 where
  __ := h
  leads := by
    cases o with
    | normal => exact h.leads
    | next =>
      obtain ⟨l, _, hl, _⟩ := h.leads
      rw [ho rfl] at hl
      cases hl
    | returned => exact h.leads

/-- A core that has come to the block that `next` goes on with. -/
theorem arrive (context' : Context) (h : Ends P scene ctx used last c σ .next c1 m1) :
    ∃ l t, ctx.next = some l ∧ P.target? l = some t ∧
      Ends P scene context' used t c σ .normal c1 m1 := by
  obtain ⟨l, t, hl, ht, hpc⟩ := h.leads
  exact ⟨l, t, hl, ht, h.holds, hpc, h.replies, h.sp, h.arp, h.registers, fun a ha _ =>
    h.memory a ha (by simp)⟩

/-- After a normal outcome the core goes on to another position. -/
theorem land (h : Ends P scene ctx used i c σ o c1 m1)
    (k : Stands i c1 → Reach P (fun c2 m2 => Calm used last c1 m1 c2 m2) c1 m1) :
    Reach P (fun c2 m2 => Ends P scene ctx used last c σ o c2 m2) c1 m1 := by
  cases o with
  | normal => exact (k h.stands).mono fun c2 m2 h2 => h.calm h2
  | next => exact .here (h.elsewhere (by simp))
  | returned => exact .here (h.elsewhere (by simp))

end Ends

end

/-! ## Tests and stores -/

section
variable {P : Program} {scene : Scene} {ctx : Context} {used : List Register} {i t : Nat} {c : Core}
  {m : Memory} {σ : Store} {r : Register} {v : Int}

section
variable (hused : ∀ r ∈ used, r ∈ generalPurpose)
include hused

/-- A comparison whose result is branched on. -/
theorem reach_test {op : Operator} {l : LabelId} {p : Prop} [Decidable p]
    (h : P.HasAll i [.compute op x r r, .branch r l]) (hc : Stands i c) (hr : Free used r)
    (hp : op.apply (c.value x) (c.value r) = some (truth p)) (ht : P.target? l = some t) :
    Reach P (fun c' m' => Calm used (if p then t else i + 2) c m c' m') c m := by
  refine (reach_compute hused ⟨h.1, trivial⟩ hc hr hp).bind fun c1 m1 h1 => ?_
  refine (reach_branch hused h.2 h1.1.stands ht).mono fun c2 m2 h2 => ?_
  have hplace : (if c1.value r = 0 then i + 1 + 1 else t) = if p then t else i + 2 := by
    rw [h1.2]
    by_cases hp : p <;> simp [truth]
  rw [hplace] at h2
  exact h1.1.trans h2 fun _ h => h

variable (ctx)

/-- A register is written to a place. -/
theorem reach_store (hscene : scene.Formed) {value : Register} {p : Place}
    (h : P.HasAll i (p.storeCode value r))
    (hc : Stands i c) (hvalue : value = .zero ∨ value ∈ used) (hr : ∀ k, p = .frame k → Free used r)
    (hσ : scene.Holds σ c m) (hp : p.Is scene c l) :
    Reach P (fun c' m' => Ends P scene ctx used (i + (p.storeCode value r).length) c
      (σ.write l (c.value value)) .normal c' m') c m := by
  -- A word of the shared memory is written without any other change.
  have hshared : ∀ {a : Address} {b : Int}, P.HasAll i [.write value a] → b = c.address a →
      Reach P (fun c' m' => Ends P scene ctx used (i + 1) c
        (σ.write (.word b) (c.value value)) .normal c' m') c m := by
    intro a b h hb
    have hnext : Calm used (i + 1) c m c.next m :=
      Calm.move hused hc.replies rfl rfl rfl (by rw [Core.next_pc, hc.pc]; rfl)
    refine .next (fetch?_of_has h.1 hc.pc)
      (.here ⟨?_, hnext.stands.pc, hnext.stands.replies, hnext.sp, hnext.arp,
      hnext.registers, fun _ _ _ => rfl⟩)
    rw [hb]
    exact (hnext.holds hσ).writeWord _ _
  match p, l, hp with
  | .global a, .word b, hp => exact hshared h hp
  | .shared x, .word b, hp => exact hshared h hp
  | .frame k, .local id x, hp =>
    refine (reach_address hused .add ⟨h.1, h.2.1, trivial⟩ hc (hr k rfl) rfl).bind
      fun c1 m1 h1 => ?_
    have hv : c1.value value = c.value value := by
      rcases hvalue with rfl | hvalue
      · rfl
      · exact h1.1.registers value hvalue
    have hnext : Calm used (i + 3) c1 m1 c1.next m1 :=
      Calm.move hused h1.1.stands.replies rfl rfl rfl (by rw [Core.next_pc, h1.1.stands.pc]; rfl)
    have hcalm := h1.1.trans hnext fun _ h => h
    refine .next (fetch?_of_has h.2.2.1 h1.1.stands.pc) (.here ?_)
    rw [hv, Core.address, h1.2]
    refine ⟨?_, hcalm.stands.pc, hcalm.stands.replies, ?_, ?_, fun r hr => ?_, fun a ha _ => ?_⟩
    · rw [← hcalm.arp]
      exact (hcalm.holds hσ).writeSlot hscene hp _
    · rw [Core.value_store, hcalm.sp]
    · rw [Core.value_store, hcalm.arp]
    · rw [Core.value_store, hcalm.registers r hr]
    · rw [Core.store_memory, Memory.write_of_ne _ _ (ha k id x hp), hcalm.memory]

/-- The return address is fetched and jumped to. -/
theorem reach_back (h : P.HasAll i (returnCode r none)) (hc : Stands i c) (hr : Free used r)
    (hσ : scene.Holds σ c m) :
    Reach P (fun c' m' => Ends P scene ctx used t c σ (.returned none) c' m') c m := by
  refine (reach_address hused .sub ⟨h.1, h.2.1, trivial⟩ hc hr rfl).bind fun c1 m1 h1 => ?_
  refine (reach_set hused h.2.2.1 h1.1.stands hr rfl).bind fun c2 m2 h2 => ?_
  have hcalm := h1.1.trans h2.1 fun _ h => h
  have hback : c2.value r = c.memory (c.value .arp - 1) := by
    rw [h2.2, Core.address, h1.2, h1.1.memory]
  have hvalue : ∀ x, x ≠ .pc → (c2.goto (c2.value r)).value x = c2.value x :=
    fun x hx => Core.value_goto _ _ hx
  refine .next (fetch?_of_has h.2.2.2.1 h2.1.stands.pc)
    (.here ⟨?_, ⟨hback, by simp⟩, hcalm.stands.replies, ?_, ?_,
    fun x hx => ?_, fun _ _ _ => by rw [Core.goto_memory, hcalm.memory]⟩)
  · exact (hcalm.holds hσ).congr rfl rfl (hvalue .arp (by decide))
  · rw [hvalue .sp (by decide), hcalm.sp]
  · rw [hvalue .arp (by decide), hcalm.arp]
  · rw [hvalue x (ne_of_general (hused x hx)).2.2.1, hcalm.registers x hx]

/-- The result is stored before the return address is fetched. -/
theorem reach_result (h : P.HasAll i (returnCode r (some x))) (hc : Stands i c) (hr : Free used r)
    (hx : x ∈ used) (hv : c.value x = v) (hσ : scene.Holds σ c m) :
    Reach P (fun c' m' => Ends P scene ctx used t c σ (.returned (some v)) c' m') c m := by
  refine (reach_address hused .sub ⟨h.1, h.2.1, trivial⟩ hc hr rfl).bind fun c1 m1 h1 => ?_
  have hnext : Calm used (i + 3) c1 m1 c1.next m1 :=
    Calm.move hused h1.1.stands.replies rfl rfl rfl (by rw [Core.next_pc, h1.1.stands.pc]; rfl)
  have hcalm := h1.1.trans hnext fun _ h => h
  refine .next (fetch?_of_has h.2.2.1 h1.1.stands.pc) ?_
  rw [h1.1.registers x hx, hv, Core.address, h1.2]
  generalize hz : c1.next.store (c.value .arp - 2) v = z
  have hvalue : ∀ x, z.value x = c1.next.value x := fun _ => by rw [← hz, Core.value_store]
  have hmemory : ∀ a, a ≠ c.value .arp - 2 → z.memory a = c.memory a := fun a ha => by
    rw [← hz, Core.store_memory, Memory.write_of_ne _ _ ha, hcalm.memory]
  have harp : z.value .arp = c.value .arp := (hvalue _).trans hcalm.arp
  have hzσ : scene.Holds σ z m1 := by
    refine ⟨(hcalm.holds hσ).shared, fun k id y hk => ?_⟩
    rw [harp, hmemory _ (by omega)]
    exact hσ.locals k id y hk
  have hstands : Stands (i + 3) z := hz ▸ ⟨hcalm.stands.pc, hcalm.stands.replies⟩
  refine (reach_back (t := t) ctx hused h.2.2.2 hstands hr hzσ).mono fun c2 m2 h2 => ?_
  obtain ⟨hpc, -⟩ := h2.leads
  have hforeign : ∀ a, scene.Foreign c a → c2.memory a = z.memory a := fun a ha =>
    h2.memory a (fun k id y hk => harp ▸ ha k id y hk) (by simp)
  refine ⟨h2.holds, ⟨?_, ?_⟩, h2.replies, ?_, h2.arp.trans harp, fun y hy => ?_, fun a ha ho => ?_⟩
  · rw [hpc, harp, hmemory _ (by omega)]
  · rintro w ⟨⟩
    rw [hforeign _ (fun k id y _ => by omega), ← hz, Core.store_memory, Memory.write_same]
  · rw [h2.sp, hvalue, hcalm.sp]
  · rw [h2.registers y hy, hvalue, hcalm.registers y hy]
  · rw [hforeign a ha, hmemory a (ho v rfl)]

end

end

/-! ## Parts of a routine -/

/-- The code of the cases of a switch and of what follows them, for the discriminant in `x`. -/
structure CasesAt (env : Env) (P : Program) (ctx : Context) (used : List Register) (x : Register)
    (cases : List Case) (fallback : Option Block) (done : LabelId)
      (labels : List (LabelId × LabelId))
    (l : Option LabelId) (first last : Nat) : Prop where
  length : labels.length = cases.length
  parts : ∃ j, Emit.Placed env P (Emit.switchCases ctx x done l cases labels) used first () j ∧
    Emit.FallbackAt env P ctx used j fallback l last
  done : P.target? done = some last

end Code

/-- The tables say everything about a part that its code needs. -/
def Part.Ready (t : Tables) (frame : Option ScopeId) (next : Bool) : Part → Prop
  | .stmt s => s.Ready t frame next
  | .optional s => Stmt.ReadyOption t frame next s
  | .stmts ss => Stmt.ReadyAll t frame next ss
  | .block b => b.Ready t frame next
  | .loop e b s => e.Ready t frame ∧ b.Ready t frame next ∧ Stmt.ReadyOption t frame next s
  | .tests _ cases f | .bodies cases f =>
    Case.ReadyAll t frame f.isSome cases ∧ Block.ReadyOption t frame false f

/-- The code of a part lies between two positions. The discriminant of a switch is in a register of
the core. -/
def Part.At (env : Env) (P : Program) (ctx : Code.Context) (used : List Register) (c : Core)
    (first last : Nat) : Part → Prop
  | .stmt s => Emit.Placed env P (Emit.stmt ctx s) used first () last
  | .optional s => Emit.Placed env P (Emit.optionalStmt ctx s) used first () last
  | .stmts ss => Emit.Placed env P (Emit.stmts ctx ss) used first () last
  | .block b => Emit.Placed env P (Emit.block ctx b) used first first last
  | .loop e b s => Emit.Placed env P (Emit.loopCode ctx e b s) used first () last
  | .tests d cases f =>
    ∃ x done labels l, CasesAt env P ctx used x cases f done labels l first last ∧ x ∈ used ∧
      c.value x = d
  | .bodies cases f =>
    ∃ x done labels l test label, CasesAt env P ctx used x cases f done labels l test last ∧
      (labels.head?.map (·.2)).or l = some label ∧ P.target? label = some first

namespace Code

/-- The registers in use may be, and the label that `next` goes on with is bound. -/
structure Context.Sits (P : Program) (frame : Option ScopeId) (used : List Register)
    (ctx : Context) : Prop where
  function : ctx.function = frame
  general : ∀ r ∈ used, r ∈ generalPurpose
  next : ∀ l, ctx.next = some l → ∃ t, P.target? l = some t

variable {frame : Option ScopeId} {P : Program}

theorem Context.Sits.take (h : ctx.Sits P frame used) (hx : Free used x) :
    ctx.Sits P frame (used ++ [x]) where
  function := h.function
  general := by simpa [or_imp, forall_and] using ⟨h.general, hx.general⟩
  next := h.next

theorem Context.Sits.withNext_none (h : ctx.Sits P frame used) :
    (ctx.withNext none).Sits P frame used :=
  ⟨h.function, h.general, by simp [Context.withNext]⟩

/-- A routine of a program. -/
structure Setting where
  env : Env
  P : Program
  frame : Option ScopeId
  formed : (env.scene frame).Formed

namespace Setting

abbrev scene (S : Setting) : Scene := S.env.scene S.frame

/-- A core is at a position, with a store in its frame and in the shared memory. -/
structure Enters (S : Setting) (ctx : Context) (used : List Register) (first : Nat) (σ : Store)
    (c : Core) (m : Memory) : Prop extends ctx.Sits S.P S.frame used where
  stands : Stands first c
  holds : S.scene.Holds σ c m

/-- The code of a part does what its execution from one store to another does. -/
def Simulates (S : Setting) (part : Part) (σ σ' : Store) (o : Outcome) : Prop :=
  ∀ (next : Bool) {ctx : Context} {used : List Register} {first last : Nat} {c : Core} {m : Memory},
    S.Enters ctx used first σ c m → part.Ready S.env.tables S.frame next →
    part.At S.env S.P ctx used c first last →
    Reach S.P (fun c' m' => Ends S.P S.scene ctx used last c σ' o c' m') c m

end Setting

namespace CasesAt

variable {env : Env} {P : Program} {ctx : Context} {used : List Register} {x : Register}
  {cases : List Case} {fallback : Option Block} {done : LabelId} {labels : List (LabelId × LabelId)}
  {l : Option LabelId} {first last : Nat} {n : Node} {e : Expr} {b : Block}

theorem cons (h : CasesAt env P ctx used x (.mk n e b :: cases) fallback done labels l first last) :
    ∃ test bodyLabel labels' i, labels = (test, bodyLabel) :: labels' ∧
      Emit.CaseAt env P ctx used x e b ((labels'.head?.map (·.2)).or l) test bodyLabel
        (((labels'.head?.map (·.1)).or l).getD done) done first i ∧
      CasesAt env P ctx used x cases fallback done labels' l i last := by
  obtain ⟨hlength, ⟨j, hcases, hfallback⟩, hdone⟩ := h
  match labels, hlength with
  | (test, bodyLabel) :: labels', hlength =>
    obtain ⟨i, hcase, hrest⟩ := hcases.switchCases_cons
    exact ⟨test, bodyLabel, labels', i, rfl, hcase, Nat.succ.inj hlength,
      ⟨j, hrest, hfallback⟩, hdone⟩

/-- The code that follows the cases. -/
theorem nil (h : CasesAt env P ctx used x [] fallback done labels l first last) :
    labels = [] ∧ Emit.FallbackAt env P ctx used first fallback l last := by
  obtain ⟨hlength, ⟨j, hcases, hfallback⟩, hdone⟩ := h
  obtain rfl := hcases.switchCases_nil
  exact ⟨List.length_eq_zero_iff.1 hlength, hfallback⟩

/-- A failed test leads to the cases that follow. -/
theorem entry (h : CasesAt env P ctx used x cases fallback done labels l first last) :
    P.target? (((labels.head?.map (·.1)).or l).getD done) = some first := by
  cases cases with
  | nil =>
    obtain ⟨rfl, hfallback⟩ := h.nil
    cases hfallback with
    | none => exact h.done
    | some hl _ => exact hl
  | cons case cases =>
    obtain ⟨n, e, b⟩ := case
    obtain ⟨test, bodyLabel, labels', i, rfl, ⟨r, _, _, _, _, htest, _⟩, -⟩ := h.cons
    exact htest

/-- The bodies that `next` goes on with have their labels. -/
theorem bound (h : CasesAt env P ctx used x cases fallback done labels l first last)
    (label : LabelId)
    (hlabel : (labels.head?.map (·.2)).or l = some label) : ∃ t, P.target? label = some t := by
  cases cases with
  | nil =>
    obtain ⟨rfl, hfallback⟩ := h.nil
    cases hfallback with
    | none => cases hlabel
    | some hl _ =>
      cases hlabel
      exact ⟨first, hl⟩
  | cons case cases =>
    obtain ⟨n, e, b⟩ := case
    obtain ⟨test, bodyLabel, labels', i, rfl, ⟨r, j, _, _, _, _, _, _, hbody, _⟩, -⟩ := h.cons
    cases hlabel
    exact ⟨j + 2, hbody⟩

end CasesAt

namespace Setting

variable {S : Setting} {σ σ1 σ2 σ' : Store} {o : Outcome} {n : Node} {e : Expr} {b b' : Block}
  {v : Int} {part : Part} {i j t : Nat} {c1 : Core} {m1 : Memory} {r : Register} {label : LabelId}
  {ss : List Stmt}

theorem Enters.after (h : S.Enters ctx used first σ c m)
    (h1 : Ends S.P S.scene ctx used i c σ1 .normal c1 m1) :
    S.Enters ctx used i σ1 c1 m1 where
  __ := h
  stands := h1.stands
  holds := h1.holds

/-! ### Conditions -/

namespace Enters

variable (h : S.Enters ctx used first σ c m) (hready : e.Ready S.env.tables S.frame)
  (hp : Emit.Placed S.env S.P (Emit.expr ctx e) used first r i) (he : e.value S.scene σ = some v)
include h hready hp he

theorem computes : Reach S.P (fun c' m' => Calm used i c m c' m' ∧ c'.value r = v) c m := by
  obtain ⟨env, P, frame, hscene⟩ := S
  obtain rfl : ctx.function = frame := h.function
  exact Emit.computes hscene e hp hready he h.stands h.holds

/-- The branch is taken if the value of the condition is not zero. -/
theorem branches (htest : S.P.HasAll i [.branch r label]) (ht : S.P.target? label = some t) :
    Reach S.P (fun c' m' => Calm used (if v = 0 then i + 1 else t) c m c' m') c m := by
  refine (h.computes hready hp he).bind fun c1 m1 h1 => ?_
  refine (reach_branch h.general htest h1.1.stands ht).mono fun c2 m2 h2 => ?_
  rw [h1.2] at h2
  exact h1.1.trans h2 fun _ h => h

/-- The branch is taken if the condition does not hold. -/
theorem branchesUnless (hr : Free used r)
    (htest : S.P.HasAll i [.compute .equal .zero r r, .branch r label])
    (ht : S.P.target? label = some t) :
    Reach S.P (fun c' m' => Calm used (if 0 = v then t else i + 2) c m c' m') c m := by
  refine (h.computes hready hp he).bind fun c1 m1 h1 => ?_
  exact (reach_test h.general htest h1.1.stands hr (by rw [h1.2]; rfl) ht).mono fun c2 m2 h2 =>
    h1.1.trans h2 fun _ h => h

/-- The branch is taken if the value of a case is another one than `d`. -/
theorem branchesUnequal (hr : Free used r)
    (htest : S.P.HasAll i [.compute .notEqual x r r, .branch r label])
    (ht : S.P.target? label = some t) (hx : x ∈ used) (hd : c.value x = d) :
    Reach S.P (fun c' m' => Calm used (if d ≠ v then t else i + 2) c m c' m') c m := by
  refine (h.computes hready hp he).bind fun c1 m1 h1 => ?_
  have hd1 : c1.value x = d := (h1.1.registers x hx).trans hd
  exact (reach_test h.general htest h1.1.stands hr (by rw [h1.2, hd1]; rfl) ht).mono fun c2 m2 h2 =>
    h1.1.trans h2 fun _ h => h

end Enters

namespace Simulates

/-- The code of a part after other code that has ended normally. -/
theorem after {q : Bool} (hpart : S.Simulates part σ1 σ' o) (h : S.Enters ctx used first σ c m)
    (hready : part.Ready S.env.tables S.frame q)
    (h1 : Ends S.P S.scene ctx used i c σ1 .normal c1 m1)
    (hat : part.At S.env S.P ctx used c1 i last) :
    Reach S.P (fun c' m' => Ends S.P S.scene ctx used last c σ' o c' m') c1 m1 :=
  (hpart q (h.after h1) hready hat).mono fun _ _ h2 => h1.after h2 fun _ h => h

/-! ### Simple statements -/

theorem declareNone {d : Declaration} (hd : d.initializer = none)
    (hl : S.scene.locate σ d.node.id d.name = some l) :
    S.Simulates (.stmt (.declaration n d)) σ (σ.write l 0) .normal := by
  intro next ctx used first last c m h hready hat
  obtain ⟨env, P, frame, hscene⟩ := S
  obtain rfl : ctx.function = frame := h.function
  obtain ⟨id, k, kind, p, code, r, hname, hr, hcode, rfl⟩ := hat.declareNone hd
  obtain ⟨hcode, hstore⟩ := Program.HasAll.append.1 hcode
  refine (hname.reach hscene hready.2 h.general hl hcode h.stands h.holds).bind fun c1 m1 h1 => ?_
  refine (reach_store ctx h.general hscene hstore h1.1.stands (.inl rfl) hr
    (h1.1.holds h.holds) h1.2).mono fun c2 m2 h2 => ?_
  rw [List.length_append, ← Nat.add_assoc]
  exact (h1.1.ends h.holds).after h2 fun _ h => h

theorem declareSome {d : Declaration} (hd : d.initializer = some e)
    (he : e.value S.scene σ = some v) (hl : S.scene.locate σ d.node.id d.name = some l) :
    S.Simulates (.stmt (.declaration n d)) σ (σ.write l v) .normal := by
  intro next ctx used first last c m h hready hat
  obtain ⟨env, P, frame, hscene⟩ := S
  obtain rfl : ctx.function = frame := h.function
  obtain ⟨x, i, id, k, kind, p, code, r, hp, hx, hname, hr, hcode, rfl⟩ := hat.declareSome hd
  obtain ⟨hcode, hstore⟩ := Program.HasAll.append.1 hcode
  have hused' := (h.toSits.take hx).general
  have hinit : e.Ready env.tables ctx.function := by
    have := hready.1
    rwa [hd] at this
  refine (h.computes hinit hp he).bind fun c1 m1 h1 => ?_
  refine (hname.reach hscene hready.2 hused' hl hcode h1.1.stands (h1.1.holds h.holds)).bind
    fun c2 m2 h2 => ?_
  have hv : c2.value x = v := (h2.1.registers x (by simp)).trans h1.2
  have hcalm := h1.1.trans h2.1 (by simp +contextual)
  refine (reach_store ctx hused' hscene hstore h2.1.stands (.inr (by simp)) hr
    (hcalm.holds h.holds) h2.2).mono
    fun c3 m3 h3 => ?_
  rw [List.length_append, ← Nat.add_assoc, ← hv]
  exact (hcalm.ends h.holds).after h3 (by simp +contextual)

theorem assign {target : Awl.Target} (hl : target.location S.scene σ = some l)
    (he : e.value S.scene σ = some v) :
    S.Simulates (.stmt (.assignment n target e)) σ (σ.write l v) .normal := by
  intro next ctx used first last c m h hready hat
  obtain ⟨env, P, frame, hscene⟩ := S
  obtain rfl : ctx.function = frame := h.function
  obtain ⟨p, i, x, j, r, hp, he', hx, hr, hcode, rfl⟩ := hat.assignment
  have hused' := (h.toSits.take (hx.mono (List.subset_append_left ..))).general
  refine (Emit.locates hscene target hp hready.1 hl h.stands h.holds).bind fun c1 m1 h1 => ?_
  refine (Emit.computes hscene e he' hready.2 he h1.1.stands (h1.1.holds h.holds)).bind
    fun c2 m2 h2 => ?_
  have hcalm := h1.1.trans h2.1 (by simp +contextual)
  have hplace := h1.2.calm h2.1 (by simp +contextual)
  refine (reach_store ctx hused' hscene hcode h2.1.stands (.inr (by simp)) hr
    (hcalm.holds h.holds) hplace).mono
    fun c3 m3 h3 => ?_
  rw [← h2.2]
  exact (hcalm.ends h.holds).after h3 (by simp +contextual)

theorem expression (he : e.value S.scene σ = some v) :
    S.Simulates (.stmt (.expression n e)) σ σ .normal := by
  intro next ctx used first last c m h hready hat
  obtain ⟨r, hp⟩ := hat.expression
  exact (h.computes hready hp he).mono fun c1 m1 h1 => h1.1.ends h.holds

theorem returnSome (he : e.value S.scene σ = some v) :
    S.Simulates (.stmt (.return n (some e))) σ σ (.returned (some v)) := by
  intro next ctx used first last c m h hready hat
  obtain ⟨x, i, r, hp, hx, hr, hcode, rfl⟩ := hat.returnSome
  have hused' := (h.toSits.take hx).general
  refine (h.computes hready hp he).bind fun c1 m1 h1 => ?_
  exact (reach_result ctx hused' hcode h1.1.stands hr (by simp) h1.2 (h1.1.holds h.holds)).mono
    fun c2 m2 h2 => (h1.1.ends h.holds).after h2 (by simp +contextual)

theorem returnNone : S.Simulates (.stmt (.return n none)) σ σ (.returned none) := by
  intro next ctx used first last c m h _ hat
  obtain ⟨r, hr, hcode, rfl⟩ := hat.returnNone
  exact reach_back ctx h.general hcode h.stands hr h.holds

theorem next : S.Simulates (.stmt (.next n)) σ σ .next := by
  intro next ctx used first last c m h _ hat
  obtain ⟨l, hl, hcode, rfl⟩ := hat.next
  obtain ⟨t, ht⟩ := h.next l hl
  refine (reach_jump h.general hcode h.stands ht).mono fun c1 m1 h1 => ?_
  exact ⟨h1.holds h.holds, ⟨l, t, hl, ht, h1.stands.pc⟩, h1.stands.replies, h1.sp, h1.arp,
    h1.registers, fun a _ _ => by rw [h1.memory]⟩

/-! ### Sequences -/

theorem optionalNone : S.Simulates (.optional none) σ σ .normal := by
  intro next ctx used first last c m h _ hat
  obtain rfl := hat.optional_none
  exact .here ((Calm.refl h.stands).ends h.holds)

theorem optionalSome {s : Stmt} (hs : S.Simulates (.stmt s) σ σ' o) :
    S.Simulates (.optional (some s)) σ σ' o := by
  intro next ctx used first last c m h hready hat
  exact hs next h hready hat.optional_some

theorem nil : S.Simulates (.stmts []) σ σ .normal := by
  intro next ctx used first last c m h _ hat
  obtain rfl := hat.stmts_nil
  exact .here ((Calm.refl h.stands).ends h.holds)

theorem cons {s : Stmt} (hs : S.Simulates (.stmt s) σ σ1 .normal)
    (hss : S.Simulates (.stmts ss) σ1 σ' o) : S.Simulates (.stmts (s :: ss)) σ σ' o := by
  intro next ctx used first last c m h hready hat
  obtain ⟨i, hp, hrest⟩ := hat.stmts_cons
  exact (hs next h hready.1 hp).bind fun c1 m1 h1 => hss.after h hready.2 h1 hrest

theorem consLeave {s : Stmt} (hs : S.Simulates (.stmt s) σ σ' o) (ho : o ≠ .normal) :
    S.Simulates (.stmts (s :: ss)) σ σ' o := by
  intro next ctx used first last c m h hready hat
  obtain ⟨i, hp, -⟩ := hat.stmts_cons
  exact (hs next h hready.1 hp).mono fun c1 m1 h1 => h1.elsewhere ho

theorem block (hss : S.Simulates (.stmts b.statements) σ σ' o) : S.Simulates (.block b) σ σ' o := by
  intro next ctx used first last c m h hready hat
  obtain ⟨-, i, hp, hend⟩ := hat.block
  have hready' : Stmt.ReadyAll S.env.tables S.frame next b.statements := by
    cases b
    exact hready
  refine (hss next h hready' hp).bind fun c1 m1 h1 => ?_
  rcases hend with ⟨rfl, -⟩ | ⟨rfl, hnop, rfl⟩
  · exact .here h1
  · exact h1.land fun hc => reach_nop h.general hnop hc

theorem blockStmt (hb : S.Simulates (.block b) σ σ' o) :
    S.Simulates (.stmt (.block n b)) σ σ' o := by
  intro next ctx used first last c m h hready hat
  exact hb next h hready hat.blockStmt

/-! ### Branches and loops -/

theorem ifTrue {b' : Option Block} (he : e.value S.scene σ = some v) (hv : v ≠ 0)
    (hb : S.Simulates (.block b) σ σ' o) : S.Simulates (.stmt (.ifElse n e b b')) σ σ' o := by
  intro next ctx used first last c m h hready hat
  cases b' with
  | none =>
    obtain ⟨r, i, done, j, hp, hr, htest, hblock, hdone, hnop, rfl⟩ := hat.ifThen
    refine (h.branchesUnless hready.1 hp he hr htest hdone).bind fun c1 m1 h1 => ?_
    rw [if_neg hv.symm] at h1
    refine (hb.after h hready.2.1 (h1.ends h.holds) hblock).bind fun c2 m2 h2 => ?_
    exact h2.land fun hc => reach_nop h.general hnop hc
  | some b' =>
    obtain ⟨r, i, thenLabel, done, j, k, hp, hr, htest, -, -, hblock, hthen, hdone, hnop, rfl⟩ :=
      hat.ifElse
    refine (h.branches hready.1 hp he htest hthen).bind fun c1 m1 h1 => ?_
    rw [if_neg hv] at h1
    refine (hb.after h hready.2.1 (h1.ends h.holds) hblock).bind fun c2 m2 h2 => ?_
    exact h2.land fun hc => reach_nop h.general hnop hc

theorem ifFalse (he : e.value S.scene σ = some 0) (hb : S.Simulates (.block b') σ σ' o) :
    S.Simulates (.stmt (.ifElse n e b (some b'))) σ σ' o := by
  intro next ctx used first last c m h hready hat
  obtain ⟨r, i, thenLabel, done, j, k, hp, hr, htest, hblock, hjump, -, hthen, hdone, hnop, rfl⟩ :=
    hat.ifElse
  refine (h.branches hready.1 hp he htest hthen).bind fun c1 m1 h1 => ?_
  refine (hb.after h hready.2.2 (h1.ends h.holds) hblock).bind fun c2 m2 h2 => ?_
  refine h2.land fun hc => (reach_jump h.general hjump hc hdone).bind fun c3 m3 h3 => ?_
  exact (reach_nop h.general hnop h3.stands).mono fun c4 m4 h4 => h3.trans h4 fun _ h => h

theorem ifSkip (he : e.value S.scene σ = some 0) :
    S.Simulates (.stmt (.ifElse n e b none)) σ σ .normal := by
  intro next ctx used first last c m h hready hat
  obtain ⟨r, i, done, j, hp, hr, htest, -, hdone, hnop, rfl⟩ := hat.ifThen
  refine (h.branchesUnless hready.1 hp he hr htest hdone).bind fun c1 m1 h1 => ?_
  exact (reach_nop h.general hnop h1.stands).mono fun c2 m2 h2 => (h1.ends h.holds).calm h2

theorem loopDone (he : e.value S.scene σ = some 0) : S.Simulates (.loop e b s) σ σ .normal := by
  intro next ctx used first last c m h hready hat
  obtain ⟨r, i, test, done, j, k, hp, hr, -, htest, -, -, hend, hdone, rfl⟩ := hat.loopBlock
  refine (h.branchesUnless hready.1 hp he hr htest hdone).bind fun c1 m1 h1 => ?_
  exact (reach_nop h.general hend.2 h1.stands).mono fun c2 m2 h2 => (h1.ends h.holds).calm h2

/-- A loop whose condition holds runs its body. -/
theorem loop_enter {next : Bool} (h : S.Enters ctx used first σ c m)
    (hready : (Part.loop e b s).Ready S.env.tables S.frame next)
    (hat : Emit.Placed S.env S.P (Emit.loopCode ctx e b s) used first () last)
    (he : e.value S.scene σ = some v) (hv : v ≠ 0) (hb : S.Simulates (.block b) σ σ1 o) :
    ∃ j k test,
      Emit.Placed S.env S.P (Emit.optionalStmt ctx s) used j () k ∧
      S.P.HasAll k [.jump (.label test)] ∧ S.P.target? test = some first ∧
      Reach S.P (fun c' m' => Ends S.P S.scene ctx used j c σ1 o c' m') c m := by
  obtain ⟨r, i, test, done, j, k, hp, hr, hstart, htest, hblock, hstep, hend, hdone, rfl⟩ :=
    hat.loopBlock
  refine ⟨j, k, test, hstep, ⟨hend.1, trivial⟩, hstart, ?_⟩
  refine (h.branchesUnless hready.1 hp he hr htest hdone).bind fun c1 m1 h1 => ?_
  rw [if_neg hv.symm] at h1
  exact hb.after h hready.2.1 (h1.ends h.holds) hblock

theorem loopPass (he : e.value S.scene σ = some v) (hv : v ≠ 0)
    (hb : S.Simulates (.block b) σ σ1 .normal) (hs : S.Simulates (.optional s) σ1 σ2 .normal)
    (hloop : S.Simulates (.loop e b s) σ2 σ' o) : S.Simulates (.loop e b s) σ σ' o := by
  intro next ctx used first last c m h hready hat
  obtain ⟨j, k, test, hstep, hjump, hstart, hreach⟩ := loop_enter h hready hat he hv hb
  refine hreach.bind fun c1 m1 h1 => ?_
  refine (hs.after h hready.2.2 h1 hstep).bind fun c2 m2 h2 => ?_
  refine (reach_jump h.general hjump h2.stands hstart).bind fun c3 m3 h3 => ?_
  exact hloop.after h hready (h2.calm h3) hat

theorem loopLeave (he : e.value S.scene σ = some v) (hv : v ≠ 0)
    (hb : S.Simulates (.block b) σ σ' o) (ho : o ≠ .normal) : S.Simulates (.loop e b s) σ σ' o := by
  intro next ctx used first last c m h hready hat
  obtain ⟨j, k, test, -, -, -, hreach⟩ := loop_enter h hready hat he hv hb
  exact hreach.mono fun c1 m1 h1 => h1.elsewhere ho

theorem loopLeaveStep (he : e.value S.scene σ = some v) (hv : v ≠ 0)
    (hb : S.Simulates (.block b) σ σ1 .normal) (hs : S.Simulates (.optional s) σ1 σ' o)
    (ho : o ≠ .normal) : S.Simulates (.loop e b s) σ σ' o := by
  intro next ctx used first last c m h hready hat
  obtain ⟨j, k, test, hstep, -, -, hreach⟩ := loop_enter h hready hat he hv hb
  refine hreach.bind fun c1 m1 h1 => ?_
  exact (hs.after h hready.2.2 h1 hstep).mono fun c2 m2 h2 => h2.elsewhere ho

theorem doAgain (hb : S.Simulates (.block b) σ σ1 .normal) (he : e.value S.scene σ1 = some v)
    (hv : v ≠ 0) (hloop : S.Simulates (.stmt (.doLoop n b e)) σ1 σ' o) :
    S.Simulates (.stmt (.doLoop n b e)) σ σ' o := by
  intro next ctx used first last c m h hready hat
  obtain ⟨i, start, r, j, hblock, hstart, hp, hr, hbranch, rfl⟩ := hat.doLoop
  refine (hb next h hready.1 hblock).bind fun c1 m1 h1 => ?_
  refine ((h.after h1).branches hready.2 hp he hbranch hstart).bind fun c2 m2 h2 => ?_
  rw [if_neg hv] at h2
  exact hloop.after h hready (h1.calm h2) hat

theorem doDone (hb : S.Simulates (.block b) σ σ' .normal) (he : e.value S.scene σ' = some 0) :
    S.Simulates (.stmt (.doLoop n b e)) σ σ' .normal := by
  intro next ctx used first last c m h hready hat
  obtain ⟨i, start, r, j, hblock, hstart, hp, hr, hbranch, rfl⟩ := hat.doLoop
  refine (hb next h hready.1 hblock).bind fun c1 m1 h1 => ?_
  exact ((h.after h1).branches hready.2 hp he hbranch hstart).mono fun c2 m2 h2 => h1.calm h2

theorem doLeave (hb : S.Simulates (.block b) σ σ' o) (ho : o ≠ .normal) :
    S.Simulates (.stmt (.doLoop n b e)) σ σ' o := by
  intro next ctx used first last c m h hready hat
  obtain ⟨i, start, r, j, hblock, -, -, -, -, rfl⟩ := hat.doLoop
  exact (hb next h hready.1 hblock).mono fun c1 m1 h1 => h1.elsewhere ho

theorem whileLoop (hloop : S.Simulates (.loop e b none) σ σ' o) :
    S.Simulates (.stmt (.whileLoop n e b)) σ σ' o := by
  intro next ctx used first last c m h hready hat
  exact hloop next h ⟨hready.1, hready.2, trivial⟩ hat.whileLoop

theorem forLoop {i : Option Stmt} (hi : S.Simulates (.optional i) σ σ1 .normal)
    (hloop : S.Simulates (.loop e b s) σ1 σ' o) :
    S.Simulates (.stmt (.forLoop n i e s b)) σ σ' o := by
  rintro next ctx used first last c m h ⟨hri, hre, hrs, hrb⟩ hat
  obtain ⟨j, hp, hrest⟩ := hat.forLoop
  exact (hi next h hri hp).bind fun c1 m1 h1 => hloop.after h ⟨hre, hrb, hrs⟩ h1 hrest

theorem forLeave {i : Option Stmt} (hi : S.Simulates (.optional i) σ σ' o) (ho : o ≠ .normal) :
    S.Simulates (.stmt (.forLoop n i e s b)) σ σ' o := by
  intro next ctx used first last c m h hready hat
  obtain ⟨j, hp, -⟩ := hat.forLoop
  exact (hi next h hready.1 hp).mono fun c1 m1 h1 => h1.elsewhere ho

/-! ### Switches -/

/-- The block that follows the cases, to which `next` does not belong. -/
theorem fallback (hb : S.Simulates (.block b) σ σ' o) (h : S.Enters ctx used first σ c m)
    (hready : b.Ready S.env.tables S.frame false)
    (hat : Emit.Placed S.env S.P (Emit.block (ctx.withNext none) b) used first first last) :
    Reach S.P (fun c' m' => Ends S.P S.scene ctx used last c σ' o c' m') c m :=
  (hb false ⟨h.withNext_none, h.stands, h.holds⟩ hready hat).mono fun _ _ h1 =>
    h1.inContext fun _ => rfl

theorem testNone : S.Simulates (.tests d [] none) σ σ .normal := by
  rintro next ctx used first last c m h - ⟨x, done, labels, l, hat, -⟩
  obtain ⟨-, hfallback⟩ := hat.nil
  cases hfallback
  exact .here ((Calm.refl h.stands).ends h.holds)

theorem testFallback (hb : S.Simulates (.block b) σ σ' o) :
    S.Simulates (.tests d [] (some b)) σ σ' o := by
  rintro next ctx used first last c m h hready ⟨x, done, labels, l, hat, -⟩
  obtain ⟨-, hfallback⟩ := hat.nil
  cases hfallback with
  | some _ hblock => exact hb.fallback h hready.2 hblock

theorem bodyFallback (hb : S.Simulates (.block b) σ σ' o) :
    S.Simulates (.bodies [] (some b)) σ σ' o := by
  rintro next ctx used first last c m h hready ⟨x, done, labels, l, test, label, hat, hlabel, ht⟩
  obtain ⟨rfl, hfallback⟩ := hat.nil
  cases hfallback with
  | some hl hblock =>
    cases hlabel
    obtain rfl := Option.mem_unique hl ht
    exact hb.fallback h hready.2 hblock

section
variable {cases : List Case} {f : Option Block}

/-- A core at the first body. -/
theorem body_reach {next : Bool} (hb : S.Simulates (.block b) σ σ1 o)
    (h : S.Enters ctx used first σ c m)
    (hready : (Part.bodies (.mk n e b :: cases) f).Ready S.env.tables S.frame next)
    (hat : (Part.bodies (.mk n e b :: cases) f).At S.env S.P ctx used c first last) :
    ∃ x done labels l test j,
      CasesAt S.env S.P ctx used x cases f done labels l test last ∧
      S.P.HasAll j [.jump (.label done)] ∧ Reach S.P (fun c' m' => Ends S.P S.scene
        (ctx.withNext ((labels.head?.map (·.2)).or l)) used j c σ1 o c' m') c m := by
  obtain ⟨x, done, labels, l, _, label, hat, hlabel, ht⟩ := hat
  obtain ⟨test, bodyLabel, labels', k, rfl, ⟨r, i, j, -, -, -, -, hblock, hbody, hjump, -⟩,
    hrest⟩ := hat.cons
  cases hlabel
  obtain rfl := Option.mem_unique hbody ht
  have hsits : (ctx.withNext ((labels'.head?.map (·.2)).or l)).Sits S.P S.frame used :=
    ⟨h.function, h.general, fun label hlabel => hrest.bound label hlabel⟩
  exact ⟨x, done, labels', l, k, j, hrest, hjump,
    hb _ ⟨hsits, h.stands, h.holds⟩ hready.1.2.1 hblock⟩

theorem body (hb : S.Simulates (.block b) σ σ' o) (ho : o ≠ .next) :
    S.Simulates (.bodies (.mk n e b :: cases) f) σ σ' o := by
  intro next ctx used first last c m h hready hat
  obtain ⟨x, done, labels, l, test, j, hrest, hjump, hreach⟩ := hb.body_reach h hready hat
  refine hreach.bind fun c1 m1 h1 => ?_
  exact (h1.inContext fun h => absurd h ho).land fun hc => reach_jump h.general hjump hc hrest.done

theorem bodyNext (hb : S.Simulates (.block b) σ σ1 .next)
    (hrest : S.Simulates (.bodies cases f) σ1 σ' o) :
    S.Simulates (.bodies (.mk n e b :: cases) f) σ σ' o := by
  intro next ctx used first last c m h hready hat
  obtain ⟨x, done, labels, l, test, j, hcases, -, hreach⟩ := hb.body_reach h hready hat
  refine hreach.bind fun c1 m1 h1 => ?_
  obtain ⟨label, t, hlabel, ht, h1⟩ := h1.arrive ctx
  exact hrest.after (q := next) h ⟨hready.1.2.2, hready.2⟩ h1
    ⟨x, done, labels, l, test, label, hcases, hlabel, ht⟩

theorem testHit (he : e.value S.scene σ = some v)
    (hb : S.Simulates (.bodies (.mk n e b :: cases) f) σ σ' o) :
    S.Simulates (.tests v (.mk n e b :: cases) f) σ σ' o := by
  rintro next ctx used first last c m h hready ⟨x, done, labels, l, hat, hx, hd⟩
  obtain ⟨test, bodyLabel, labels', k, rfl, ⟨r, i, j, hp, hr, -, htest, -, hbody, -, -⟩, hrest⟩ :=
    hat.cons
  refine (h.branchesUnequal hready.1.1 hp he hr htest hrest.entry hx hd).bind fun c1 m1 h1 => ?_
  rw [if_neg (by simp)] at h1
  exact hb.after (q := next) h hready (h1.ends h.holds)
    ⟨x, done, _, l, first, bodyLabel, hat, rfl, hbody⟩

theorem testMiss (he : e.value S.scene σ = some v) (hv : v ≠ d)
    (hrest : S.Simulates (.tests d cases f) σ σ' o) :
    S.Simulates (.tests d (.mk n e b :: cases) f) σ σ' o := by
  rintro next ctx used first last c m h hready ⟨x, done, labels, l, hat, hx, hd⟩
  obtain ⟨test, bodyLabel, labels', k, rfl, ⟨r, i, j, hp, hr, -, htest, -, -, -, -⟩, hcases⟩ :=
    hat.cons
  refine (h.branchesUnequal hready.1.1 hp he hr htest hcases.entry hx hd).bind fun c1 m1 h1 => ?_
  rw [if_pos hv.symm] at h1
  exact hrest.after (q := next) h ⟨hready.1.2.2, hready.2⟩ (h1.ends h.holds)
    ⟨x, done, labels', l, hcases, hx, (h1.registers x hx).trans hd⟩

theorem switch (he : e.value S.scene σ = some v) (hcases : S.Simulates (.tests v cases f) σ σ' o) :
    S.Simulates (.stmt (.switch n e cases f)) σ σ' o := by
  intro next ctx used first last c m h hready hat
  obtain ⟨x, i, done, labels, l, j, k, hlength, hp, hx, hswitch, hfallback, hdone, hnop, rfl⟩ :=
    hat.switch
  have hat : CasesAt S.env S.P ctx (used ++ [x]) x cases f done labels l i k :=
    ⟨hlength, ⟨j, hswitch, hfallback⟩, hdone⟩
  refine (h.computes hready.1 hp he).bind fun c1 m1 h1 => ?_
  refine (hcases next ⟨h.take hx, h1.1.stands, h1.1.holds h.holds⟩ hready.2
    ⟨x, done, labels, l, hat, by simp, h1.2⟩).bind fun c2 m2 h2 => ?_
  exact ((h1.1.ends h.holds).after h2 (by simp +contextual)).land fun hc =>
    reach_nop h.general hnop hc

end

end Simulates

end Setting

/-- **Code does what statements mean**: whenever the execution of a part of a routine ends, a core
that is at its code, in a frame that holds the store of the execution, comes to where the outcome
leads, with the store that the execution ends with. The stack pointer, the frame pointer and the
registers in use are as they were. -/
theorem reach_of_exec {S : Setting} {part : Part} {σ σ' : Store} {o : Outcome}
    (h : Exec S.scene part σ σ' o) :
    S.Simulates part σ σ' o := by
  induction h with
  | declareNone hd hl => exact .declareNone hd hl
  | declareSome hd he hl => exact .declareSome hd he hl
  | assign hl he => exact .assign hl he
  | ifTrue he hv _ ih => exact .ifTrue he hv ih
  | ifFalse he _ ih => exact .ifFalse he ih
  | ifSkip he => exact .ifSkip he
  | whileLoop _ ih => exact .whileLoop ih
  | doAgain _ he hv _ ihb ih => exact .doAgain ihb he hv ih
  | doDone _ he ih => exact .doDone ih he
  | doLeave _ ho ih => exact .doLeave ih ho
  | forLoop _ _ ihi ih => exact .forLoop ihi ih
  | forLeave _ ho ih => exact .forLeave ih ho
  | blockStmt _ ih => exact .blockStmt ih
  | switch he _ ih => exact .switch he ih
  | next => exact .next
  | returnNone => exact .returnNone
  | returnSome he => exact .returnSome he
  | expression he => exact .expression he
  | optionalNone => exact .optionalNone
  | optionalSome _ ih => exact .optionalSome ih
  | block _ ih => exact .block ih
  | nil => exact .nil
  | cons _ _ ihs ih => exact .cons ihs ih
  | consLeave _ ho ih => exact .consLeave ih ho
  | loopDone he => exact .loopDone he
  | loopPass he hv _ _ _ ihb ihs ih => exact .loopPass he hv ihb ihs ih
  | loopLeave he hv _ ho ih => exact .loopLeave he hv ih ho
  | loopLeaveStep he hv _ _ ho ihb ih => exact .loopLeaveStep he hv ihb ih ho
  | testHit he _ ih => exact .testHit he ih
  | testMiss he hv _ ih => exact .testMiss he hv ih
  | testNone => exact .testNone
  | testFallback _ ih => exact .testFallback ih
  | body _ ho ih => exact .body ih ho
  | bodyNext _ _ ihb ih => exact .bodyNext ihb ih
  | bodyFallback _ ih => exact .bodyFallback ih

end Code

end Awl
