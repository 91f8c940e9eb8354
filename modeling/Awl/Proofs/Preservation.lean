import Awl.Proofs.Simulation

/-!
# The meaning of a unit is preserved

Every statement of an accepted unit, however deep in the body of a routine, has its code in the
generated program (`Emitted`), and that code does what the statement means (`generate_simulates`).
-/

namespace Awl

open Machine Code

/-! ## The statements of a unit -/

def Case.body : Case → Block
  | .mk _ _ body => body

mutual

/-- The statements inside a statement, each with the block that `next` goes on with there. -/
def Stmt.inner (next : Option Block) : Stmt → List (Option Block × Stmt)
  | .ifElse _ _ b b' => b.inner next ++ Block.innerOption next b'
  | .whileLoop _ _ b => b.inner next
  | .doLoop _ b _ => b.inner next
  | .forLoop _ i _ s b => Stmt.innerOption next i ++ Stmt.innerOption next s ++ b.inner next
  | .block _ b => b.inner next
  | .switch _ _ cases f => Case.innerAll f cases ++ Block.innerOption none f
  | _ => []

def Stmt.innerOption (next : Option Block) : Option Stmt → List (Option Block × Stmt)
  | none => []
  | some s => (next, s) :: s.inner next

def Stmt.innerAll (next : Option Block) : List Stmt → List (Option Block × Stmt)
  | [] => []
  | s :: ss => (next, s) :: (s.inner next ++ Stmt.innerAll next ss)

def Block.inner (next : Option Block) : Block → List (Option Block × Stmt)
  | .mk _ ss => Stmt.innerAll next ss

def Block.innerOption (next : Option Block) : Option Block → List (Option Block × Stmt)
  | none => []
  | some b => b.inner next

/-- In a block of a switch, `next` goes on with the one that follows, which may be the fallback. -/
def Case.innerAll (fallback : Option Block) : List Case → List (Option Block × Stmt)
  | [] => []
  | .mk _ _ b :: cases =>
    b.inner ((cases.head?.map Case.body).or fallback) ++ Case.innerAll fallback cases

end

/-- A statement of the main code, which has no frame scope, or of the body of a function, method,
constructor or thread, whose variables its scope counts. -/
inductive SourceUnit.Contains (u : SourceUnit) (t : Tables) :
    Option ScopeId → Option Block → Stmt → Prop
  | main {next : Option Block} {s : Stmt} : (next, s) ∈ Stmt.innerAll none u.statements →
      u.Contains t none next s
  | body {i : Nat} {d : Definition} {f : Function} {scope : ScopeId} {b : Block}
      {next : Option Block} {s : Stmt} :
      u.definitions[i]? = some d → t.function? i = some f → f.scope = some scope →
      d.body = .block b → (next, s) ∈ Stmt.innerAll none b.statements →
      u.Contains t (some scope) next s

namespace Code

/-! ## Where their code lies -/

/-- The code of the block that `next` goes on with. -/
def Context.GoesOn (env : Env) (P : Program) (context : Context) (next : Option Block) : Prop :=
  ∀ b, next = some b → ∃ l t context' used last, context.next = some l ∧ P.target? l = some t ∧
    context'.function = context.function ∧ Emit.Placed env P (Emit.block context' b) used t t last

/-- A statement of a routine has its code in a program. -/
structure Emitted (env : Env) (P : Program) (frame : Option ScopeId) (next : Option Block)
    (s : Stmt) : Prop where
  parts : ∃ context used first last followed, context.Sits P frame used ∧
    context.GoesOn env P next ∧
    s.Ready env.tables frame followed ∧ Emit.Placed env P (Emit.stmt context s) used first () last

theorem CasesAt.goesOn {env : Env} {P : Program} {context : Context} {used : List Register}
    {x : Register} {cases : List Case} {fallback : Option Block} {done : LabelId}
    {labels : List (LabelId × LabelId)} {l : Option LabelId} {first last : Nat}
    (h : CasesAt env P context used x cases fallback done labels l first last) :
    (context.withNext ((labels.head?.map (·.2)).or l)).GoesOn env P
      ((cases.head?.map Case.body).or fallback) := by
  intro b' hb
  cases cases with
  | nil =>
    obtain ⟨rfl, hfallback⟩ := h.nil
    cases hfallback with
    | none => cases hb
    | some hl hblock =>
      cases hb
      exact ⟨_, first, context.withNext none, used, last, rfl, hl, rfl, hblock⟩
  | cons case cases =>
    obtain ⟨n, e, b⟩ := case
    cases hb
    obtain ⟨test, bodyLabel, labels', i, rfl, ⟨r, j, k, -, -, -, -, hblock, hbody, -, -⟩, -⟩ :=
      h.cons
    exact ⟨bodyLabel, j + 2, context.withNext ((labels'.head?.map (·.2)).or l), used, k, rfl,
      hbody, rfl, hblock⟩

/-- Wherever the code of a part lies, the statements inside the part have theirs. -/
def Covers (env : Env) (P : Program) (frame : Option ScopeId)
    (inner : Option Block → List (Option Block × Stmt))
    (ready : Bool → Prop) (placed : Context → List Register → Prop) : Prop :=
  ∀ {followed : Bool} {next : Option Block} {context : Context} {used : List Register},
    context.Sits P frame used →
    context.GoesOn env P next → ready followed → placed context used →
    ∀ q ∈ inner next, Emitted env P frame q.1 q.2

section
variable (env : Env) (P : Program) (frame : Option ScopeId)

mutual

theorem inner_emitted : ∀ s : Stmt, Covers env P frame s.inner (s.Ready env.tables frame)
    fun context used =>
    ∃ first last, Emit.Placed env P (Emit.stmt context s) used first () last
  | .ifElse n e b b' => by
    rintro hsits hnext hready ⟨first, last, h⟩ q hq
    simp only [Stmt.inner] at hq
    cases b' with
    | none =>
      obtain ⟨r, i, done, j, -, -, -, hb, -⟩ := h.ifThen
      rw [Block.innerOption, List.append_nil] at hq
      exact block_emitted b hsits hnext hready.2.1 ⟨_, _, hb⟩ q hq
    | some b' =>
      obtain ⟨r, i, thenLabel, done, j, k, -, -, -, hb', -, hb, -⟩ := h.ifElse
      rw [Block.innerOption] at hq
      rcases List.mem_append.1 hq with hq | hq
      · exact block_emitted b hsits hnext hready.2.1 ⟨_, _, hb⟩ q hq
      · exact block_emitted b' hsits hnext hready.2.2 ⟨_, _, hb'⟩ q hq
  | .whileLoop n e b => by
    rintro hsits hnext hready ⟨first, last, h⟩ q hq
    obtain ⟨r, i, test, done, j, k, -, -, -, -, hb, -⟩ := h.whileLoop.loopBlock
    simp only [Stmt.inner] at hq
    exact block_emitted b hsits hnext hready.2 ⟨_, _, hb⟩ q hq
  | .doLoop n b e => by
    rintro hsits hnext hready ⟨first, last, h⟩ q hq
    obtain ⟨i, start, r, j, hb, -⟩ := h.doLoop
    simp only [Stmt.inner] at hq
    exact block_emitted b hsits hnext hready.1 ⟨_, _, hb⟩ q hq
  | .forLoop n i e s b => by
    rintro hsits hnext hready ⟨first, last, h⟩ q hq
    obtain ⟨j, hi, hloop⟩ := h.forLoop
    obtain ⟨r, _, test, done, _, k, -, -, -, -, hb, hs, -⟩ := hloop.loopBlock
    simp only [Stmt.inner] at hq
    rcases List.mem_append.1 hq with hq | hq
    · rcases List.mem_append.1 hq with hq | hq
      · exact optional_emitted i hsits hnext hready.1 ⟨_, _, hi⟩ q hq
      · exact optional_emitted s hsits hnext hready.2.2.1 ⟨_, _, hs⟩ q hq
    · exact block_emitted b hsits hnext hready.2.2.2 ⟨_, _, hb⟩ q hq
  | .block n b => by
    rintro hsits hnext hready ⟨first, last, h⟩ q hq
    simp only [Stmt.inner] at hq
    exact block_emitted b hsits hnext hready ⟨_, _, h.blockStmt⟩ q hq
  | .switch n e cases f => by
    rintro hsits hnext hready ⟨first, last, h⟩ q hq
    obtain ⟨x, i, done, labels, l, j, k, hlength, -, hx, hswitch, hfallback, hdone, -, -⟩ :=
      h.switch
    simp only [Stmt.inner] at hq
    rcases List.mem_append.1 hq with hq | hq
    · exact cases_emitted cases _ _ f (hsits.take hx) hready.2.1
        ⟨x, done, labels, l, i, k, hlength, ⟨j, hswitch, hfallback⟩, hdone⟩ q hq
    · cases f with
      | none => simp [Block.innerOption] at hq
      | some b =>
        cases hfallback with
        | some hl hb =>
          rw [Block.innerOption] at hq
          exact block_emitted b (hsits.take hx).withNext_none
            (by simp [Context.GoesOn, Context.withNext]) hready.2.2
            ⟨_, _, hb⟩ q hq
  | .declaration .. | .assignment .. | .next .. | .return .. | .expression .. | .acquire ..
      | .release .. => by
    intro _ _ _ _ q hq
    simp [Stmt.inner] at hq

theorem optional_emitted : ∀ s : Option Stmt, Covers env P frame (Stmt.innerOption · s)
    (Stmt.ReadyOption env.tables frame · s) fun context used =>
    ∃ first last, Emit.Placed env P (Emit.optionalStmt context s) used first () last
  | none => by
    intro _ _ _ _ q hq
    simp [Stmt.innerOption] at hq
  | some s => by
    rintro hsits hnext hready ⟨first, last, h⟩ q hq
    simp only [Stmt.innerOption] at hq
    rcases List.mem_cons.1 hq with rfl | hq
    · exact ⟨_, _, first, last, _, hsits, hnext, hready, h.optional_some⟩
    · exact inner_emitted s hsits hnext hready ⟨_, _, h.optional_some⟩ q hq

theorem stmts_emitted :
    ∀ ss : List Stmt, Covers env P frame (Stmt.innerAll · ss) (Stmt.ReadyAll env.tables frame · ss)
    fun context used => ∃ first last, Emit.Placed env P (Emit.stmts context ss) used first () last
  | [] => by
    intro _ _ _ _ q hq
    simp [Stmt.innerAll] at hq
  | s :: ss => by
    rintro hsits hnext hready ⟨first, last, h⟩ q hq
    obtain ⟨i, hs, hss⟩ := h.stmts_cons
    simp only [Stmt.innerAll] at hq
    rcases List.mem_cons.1 hq with rfl | hq
    · exact ⟨_, _, first, i, _, hsits, hnext, hready.1, hs⟩
    rcases List.mem_append.1 hq with hq | hq
    · exact inner_emitted s hsits hnext hready.1 ⟨_, _, hs⟩ q hq
    · exact stmts_emitted ss hsits hnext hready.2 ⟨_, _, hss⟩ q hq

theorem block_emitted : ∀ b : Block, Covers env P frame (b.inner ·) (b.Ready env.tables frame ·)
    fun context used =>
    ∃ first last, Emit.Placed env P (Emit.block context b) used first first last
  | .mk n ss => by
    rintro hsits hnext hready ⟨first, last, h⟩ q hq
    obtain ⟨-, i, hss, -⟩ := h.block
    simp only [Block.inner] at hq
    exact stmts_emitted ss hsits hnext hready ⟨_, _, hss⟩ q hq

theorem cases_emitted :
    ∀ (cases : List Case) (context : Context) (used : List Register) (fallback : Option Block),
    context.Sits P frame used → Case.ReadyAll env.tables frame fallback.isSome cases →
    (∃ x done labels l first last, CasesAt env P context used x cases fallback done labels l first
      last) →
    ∀ q ∈ Case.innerAll fallback cases, Emitted env P frame q.1 q.2
  | [] => by
    intro _ _ _ _ _ _ q hq
    simp [Case.innerAll] at hq
  | .mk n e b :: cases => by
    rintro context used fallback hsits hready ⟨x, done, labels, l, first, last, h⟩ q hq
    obtain ⟨test, bodyLabel, labels', i, rfl, ⟨r, j, k, -, -, -, -, hb, -, -, -⟩, hrest⟩ := h.cons
    rw [Case.innerAll] at hq
    rcases List.mem_append.1 hq with hq | hq
    · have hsits' : (context.withNext ((labels'.head?.map (·.2)).or l)).Sits P frame used :=
        ⟨hsits.function, hsits.general, fun label hlabel => hrest.bound label hlabel⟩
      exact block_emitted b hsits' hrest.goesOn hready.2.1 ⟨_, _, hb⟩ q hq
    · exact cases_emitted cases context used fallback hsits hready.2.2
        ⟨_, _, _, _, _, _, hrest⟩ q hq

end

end

/-! ## The statements of a generated program -/

section
variable {u : SourceUnit} {t : Tables} {options : Options} {g : Generated} {frame : Option ScopeId}
  {next : Option Block} {d : Definition} {s : Stmt} {i : Nat}

/-- Every definition is a routine of its own, or a thread. -/
theorem definition_routine (hu : u.Sound t) (options : Options) (layout : StaticLayout)
    (hd : u.definitions[i]? = some d) :
    Routine.function i d.body ∈ (startEnv u t options layout).routines u ∨
      ∃ index, Routine.thread index i d.body ∈ (startEnv u t options layout).routines u := by
  have hmem : (i, d.body) ∈ definitions t.functions u := by
    rw [definitions_eq hu]
    exact List.mem_map.2 ⟨(d, i), List.mk_mem_zipIdx_iff_getElem?.2 hd, rfl⟩
  by_cases hthread : i ∈ t.functions.threads
  · obtain ⟨index, body, hbody⟩ : ∃ index body, Routine.thread index i body ∈
        (startEnv u t options layout).routines u := thread_mem_routines hu hthread
    have hdefinition : (i, body) ∈ definitions t.functions u := by
      simp only [Env.routines, List.mem_append, List.mem_cons, List.mem_map, List.mem_filterMap,
        List.mem_filter,
        Option.map_eq_some_iff, reduceCtorEq, and_false, exists_false, false_or] at hbody
      obtain ⟨⟨⟨f, body'⟩, index'⟩, hp, heq⟩ := hbody
      cases heq
      exact (Env.mem_threadBodies (List.mem_of_getElem? (List.mk_mem_zipIdx_iff_getElem?.1 hp))).2
    obtain ⟨d', hd', rfl⟩ := mem_definitions hu hdefinition
    obtain rfl := Option.mem_unique hd' hd
    exact .inr ⟨index, hbody⟩
  · refine .inl (List.mem_append_left _ (List.mem_append_left _ (List.mem_map.2 ⟨(i, d.body),
      List.mem_filter.2 ⟨hmem, ?_⟩, rfl⟩)))
    simpa [startEnv] using hthread

theorem body_placed (hu : u.Sound t) (hg : generate u t options = .ok g) {f : Function}
    {scope : ScopeId} {b : Block} (hd : u.definitions[i]? = some d) (hf : t.function? i = some f)
    (hscope : f.scope = some scope) (hb : d.body = .block b) : ∃ first last,
      Emit.Placed (startEnv u t options g.layout) g.program
      (Emit.stmts { function := some scope } b.statements) []
        first () last := by
  rcases definition_routine hu options g.layout hd with hr | ⟨index, hr⟩
  · obtain ⟨first, last, hp, -⟩ := generate_routine hu hg hr
    obtain ⟨f', scope', -, hf', hscope', -, -, hbody⟩ := Emit.Placed.function hp
    obtain rfl := Option.mem_unique hf' hf
    obtain rfl := Option.mem_unique hscope' hscope
    rw [hb] at hbody
    obtain ⟨j, r, hss, -⟩ := hbody.bodyBlock
    exact ⟨first, j, hss⟩
  · obtain ⟨first, last, hp, -⟩ := generate_routine hu hg hr
    obtain ⟨f', scope', -, -, size, hf', hscope', -, -, -, -, hroot⟩ := Emit.Placed.thread hp
    obtain rfl := Option.mem_unique hf' hf
    obtain rfl := Option.mem_unique hscope' hscope
    rw [hb] at hroot
    obtain ⟨exit, j, -, hss, -⟩ := hroot.parts
    exact ⟨_, j, hss⟩

/-- Every statement of a unit has its code in the generated program. -/
theorem contains_emitted (hu : u.Sound t) (hg : generate u t options = .ok g)
    (hs : u.Contains t frame next s) :
    Emitted (startEnv u t options g.layout) g.program frame next s := by
  have hnone : ∀ context : Context, context.GoesOn (startEnv u t options g.layout) g.program none :=
    by simp [Context.GoesOn]
  cases hs with
  | main hmem =>
    obtain ⟨i, j, -, hmain, -⟩ := (generate_at hg).2.parts
    obtain ⟨size, -, hroot⟩ := hmain.mainCode
    obtain ⟨exit, k, -, hss, -⟩ := hroot.parts
    have hsits : Context.Sits g.program none [] {} := ⟨rfl, by simp, by simp⟩
    exact stmts_emitted _ _ _ u.statements hsits (hnone _) hu.main ⟨_, _, hss⟩ _ hmem
  | @body i d f scope b next s hd hf hscope hb hmem =>
    obtain ⟨first, last, hss⟩ := body_placed hu hg hd hf hscope hb
    obtain ⟨f', scope', -, -, hf', hscope', -, -, -, hready⟩ := (hu.definitions i d hd).ready
    obtain rfl := Option.mem_unique hf' hf
    obtain rfl := Option.mem_unique hscope' hscope
    rw [hb] at hready
    have hsits : Context.Sits g.program (some scope') [] { function := some scope' } :=
      ⟨rfl, by simp, by simp⟩
    exact stmts_emitted _ _ _ b.statements hsits (hnone _) hready ⟨_, _, hss⟩ _ hmem

theorem contains_formed (hu : u.Sound t) (layout : StaticLayout)
    (hs : u.Contains t frame next s) : (Scene.mk t layout frame).Formed := by
  refine ⟨hu.laid, fun F hF => ?_⟩
  cases hs with
  | main => cases hF
  | @body i d f scope b next s hd hf hscope =>
    cases hF
    obtain ⟨f', scope', parent, sc, hf', hscope', -, -, hframe, -⟩ := (hu.definitions i d hd).ready
    obtain rfl := Option.mem_unique hf' hf
    obtain rfl := Option.mem_unique hscope' hscope
    exact ⟨sc, hframe.isScope, hframe.kind, hframe.owner⟩

/-- **Generated code does what statements mean.** The code of a statement of an accepted unit lies
between two positions. Whenever the execution of the statement ends, a core at the first position,
with the store of the execution in its frame and in the shared memory, comes to where the outcome
leads, with the store that the execution ends with: to the second position, to the code of the block
that `next` goes on with, or to the return address, with the result in its place. The stack pointer,
the frame pointer, the registers in use and the private memory outside the slots of the frame are as
they were. -/
theorem generate_simulates (h : u.check = .ok t) (hids : (u.nodes.map (·.id)).Nodup)
    (hg : generate u t options = .ok g) {frame : Option ScopeId} {next : Option Block} {s : Stmt}
    (hs : u.Contains t frame next s) : ∃ context used first last, context.function = frame ∧
      Emit.Placed (startEnv u t options g.layout) g.program (Emit.stmt context s) used first
      () last ∧
      context.GoesOn (startEnv u t options g.layout) g.program next ∧
      ∀ (σ σ' : Store) (o : Outcome) (c : Core) (m : Memory),
        Exec ⟨t, g.layout, frame⟩ (.stmt s) σ σ' o →
        c.pc = (first : Nat) → c.replies = [] → Scene.Holds ⟨t, g.layout, frame⟩ σ c m →
        Reach g.program (fun c' m' => Ends g.program ⟨t, g.layout,
          frame⟩ context used last c σ' o c' m') c m := by
  have hu := SourceUnit.check_sound h hids
  obtain ⟨context, used, first, last, followed, hsits, hnext, hready, hp⟩ :=
    (contains_emitted hu hg hs).parts
  refine ⟨context, used, first, last, hsits.function, hp, hnext,
    fun σ σ' o c m hexec hpc hreplies hσ => ?_⟩
  let S : Setting := ⟨startEnv u t options g.layout, g.program, frame,
    contains_formed hu g.layout hs⟩
  exact reach_of_exec (S := S) hexec followed ⟨hsits, ⟨hpc, hreplies⟩, hσ⟩ hready hp

end

/-- The switch in the method of the counter: for 2, the value is raised twice. -/
def counterSwitch : Stmt :=
  let number : Node → Int32 → Expr := fun i n => .literal i (.int n)
  let raise : Node → Node → Node → Node → Node → Stmt := fun i j k l m =>
    .assignment i (.name j "value") (.binary k .add (.name l "value") (number m 1))
  .switch 6 (.name 7 "n")
    [.mk 8 (number 9 2) (.mk 10 [raise 30 31 32 33 34, .next 11]),
    .mk 12 (number 13 1) (.mk 14 [raise 15 16 17 18 19])] none

theorem counterSwitch_exec {c : Scene} {σ : Store} {F : ScopeId} {a : Int}
    (hn : c.locate σ 7 "n" = some (.local F "n"))
    (hvalue : ∀ σ' : Store, σ'.locals = σ.locals → ∀ i ∈ [16, 18, 31, 33],
      c.locate σ' i "value" = some (.word a))
    (h : σ.locals F "n" = 2) : ∃ σ', Exec c (.stmt counterSwitch) σ σ' .normal ∧
      σ'.shared = σ.shared.write a (σ.shared a + 2) := by
  let σ1 := σ.write (.word a) (σ.shared a + 1)
  have hraise : ∀ (τ : Store) (n : Node) {i j k l : Node}, τ.locals = σ.locals →
      i.id ∈ [16, 18, 31, 33] → k.id ∈ [16, 18, 31, 33] → Exec c (.stmt (.assignment n
        (.name i "value") (.binary j .add (.name k "value") (.literal l (.int 1))))) τ
        (τ.write (.word a) (τ.shared a + 1)) .normal := by
    intro τ n i j k l hτ hi hk
    refine .assign (hvalue τ hτ i.id hi) ?_
    simp only [Expr.value, hvalue τ hτ k.id hk]
    rfl
  refine ⟨σ1.write (.word a) (σ1.shared a + 1), ?_, ?_⟩
  · have hfirst := hraise σ 30 (i := 31) (j := 32) (k := 33) (l := 34) rfl (by decide) (by decide)
    refine .switch ?_ (.testHit rfl (.bodyNext (.block (.cons hfirst (.consLeave .next (by simp))))
      (.body (.block (.cons ?_ .nil)) (by simp))))
    · rw [Expr.value, show c.locate σ (Node.id 7) "n" = _ from hn]
      exact congrArg some h
    · exact hraise σ1 _ rfl (by decide) (by decide)
  · funext b
    simp only [σ1, Store.write, Memory.write]
    split <;> simp [Int.add_assoc]

theorem counterUnit_simulates : ∃ t g, counterUnit.check = .ok t ∧
    (counterUnit.nodes.map (·.id)).Nodup ∧
    generate counterUnit t {} = .ok g ∧ counterUnit.Contains t (some 2) none counterSwitch ∧
    (∀ σ : Store, σ.locals 2 "n" = 2 →
      ∃ σ', Exec ⟨t, g.layout, some 2⟩ (.stmt counterSwitch) σ σ' .normal ∧
      σ'.shared = σ.shared.write (σ.locals 2 receiverName)
      (σ.shared (σ.locals 2 receiverName) + 2)) ∧
    ∃ context used first last, context.function = some 2 ∧
      Emit.Placed (startEnv counterUnit t {} g.layout) g.program
      (Emit.stmt context counterSwitch) used first () last ∧
      context.GoesOn (startEnv counterUnit t {} g.layout) g.program none ∧
      ∀ (σ σ' : Store) (o : Outcome) (c : Core) (m : Memory),
        Exec ⟨t, g.layout, some 2⟩ (.stmt counterSwitch) σ σ' o →
        c.pc = (first : Nat) → c.replies = [] → Scene.Holds ⟨t, g.layout, some 2⟩ σ c m →
        Reach g.program (fun c' m' => Ends g.program ⟨t, g.layout,
          some 2⟩ context used last c σ' o c' m') c m := by
  have hscopes : (counterUnit.check.toOption.map fun t => ((t.function? 0).bind (·.scope),
      [7, 16, 18, 31, 33].map t.annotations.scope?)) =
      some (some 2, [some 2, some 1, some 1, some 1, some 1]) := by decide +kernel
  have hslots : (counterUnit.check.toOption.map fun t => ((t.scopes.offset? 2 "n").toOption,
      (t.scopes.offset? 1 "value").toOption, (t.scopes.kind 2).toOption,
      (t.scopes.kind 1).toOption)) =
      some (some (some 1), some (some 0), some .function, some .members) := by decide +kernel
  obtain ⟨t, g, ht, hg⟩ := counterUnit_generated
  rw [ht] at hscopes hslots
  simp only [Except.toOption, Option.map_some, Option.some.injEq, Prod.mk.injEq, List.map_cons,
    List.map_nil, List.cons.injEq, and_true] at hscopes hslots
  obtain ⟨hscope, h7, h16, h18, h31, h33⟩ := hscopes
  obtain ⟨hn, hvalue, hfunction, hmembers⟩ := hslots
  obtain ⟨f, hf, hscope⟩ := Option.bind_eq_some_iff.1 hscope
  have hcontains : counterUnit.Contains t (some 2) none counterSwitch := by
    refine .body (i := 0) rfl hf hscope rfl ?_
    simp only [Block.statements, Stmt.innerAll]
    exact .head _
  refine ⟨t, g, ht, counterUnit_nodup, hg, hcontains, fun σ h => ?_,
    generate_simulates ht counterUnit_nodup hg hcontains⟩
  refine counterSwitch_exec (F := 2) ?_ (fun σ' hσ' i hi => ?_) h
  · simp only [Scene.locate, h7, Except.toOption, hn, hfunction, Option.bind_eq_bind,
      Option.bind_some]
    rfl
  · have hscope : t.annotations.scope? i = some 1 := by
      simp only [List.mem_cons, List.not_mem_nil, or_false] at hi
      rcases hi with rfl | rfl | rfl | rfl <;> assumption
    simp only [Scene.locate, hscope, Except.toOption, hvalue, hmembers, Option.bind_eq_bind,
      Option.bind_some]
    simp [hσ']

end Code

end Awl
