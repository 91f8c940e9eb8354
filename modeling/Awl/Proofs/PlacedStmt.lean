import Awl.Proofs.Placed

/-!
# Where the code of statements lies

For each kind of statement, the instructions that its code consists of, the positions of the code of
its parts, and the positions that its labels are bound to.
-/

namespace Awl.Code

open Machine

variable {b body : Block} {c e value : Expr} {done : LabelId} {n : Node}
  {discriminant : Register} {st : Stmt}

/-- The instructions that store the result, if there is one, and jump to the return address. -/
def returnCode (r : Register) : Option Register → List Ins
  | none => [.const 1 r, .compute .sub .arp r r, .load (.indirect r) r, .jump (.indirect r)]
  | some value => [.const 2 r, .compute .sub .arp r r, .store value (.indirect r), .const 1 r,
      .compute .sub .arp r r, .load (.indirect r) r, .jump (.indirect r)]

namespace Emit

variable {env : Env} {P : Program} {used : List Register} {first last : Nat} {ctx : Context}
  {s : EmitState} {labels : List (LabelId × LabelId)} {fallback : Option LabelId}
  {step : Option Stmt}
  {cases : List Case} {d : Declaration} {ss : List Stmt} {r : Register} {a : Address}

/-! ## Simple statements -/

theorem jumpBack_lies (result : Option Register) :
    Lies env (jumpBack result) used (fun _ => used) fun P i _ j =>
    ∃ r, Free used r ∧ P.HasAll i (returnCode r result) ∧ j = i + (returnCode r result).length := by
  refine .of (jumpBack_takes result) fun P => ?_
  cases result with
  | none =>
    refine .allocate fun r hr => .emit rfl (.emit rfl (.emit rfl
      (.emit rfl (.close (.release (.pure ?_))))))
    rintro _ _ rfl h4 _ rfl h3 _ rfl h2 _ rfl h1
    exact ⟨r, hr, ⟨h1, h2, h3, h4, trivial⟩, rfl⟩
  | some value =>
    refine .allocate fun r hr =>
      .emit rfl (.emit rfl (.emit rfl (.emit rfl (.emit rfl (.emit rfl (.emit rfl
      (.close (.release (.pure ?_)))))))))
    rintro _ _ rfl h7 _ rfl h6 _ rfl h5 _ rfl h4 _ rfl h3 _ rfl h2 _ rfl h1
    exact ⟨r, hr, ⟨h1, h2, h3, h4, h5, h6, h7, trivial⟩, rfl⟩

theorem Placed.returnNone (h : Placed env P (stmt ctx (.return n none)) used first () last) :
    ∃ r, Free used r ∧ P.HasAll first (returnCode r none) ∧
      last = first + (returnCode r none).length := by
  refine h.walk ?_
  exact .ends (jumpBack_lies none) fun _ _ _ h => h

theorem Placed.returnSome (h : Placed env P (stmt ctx (.return n (some e))) used first () last) :
    ∃ x i r, Placed env P (expr ctx e) used first x i ∧ Free used x ∧ Free (used ++ [x]) r ∧
      P.HasAll i (returnCode r (some x)) ∧ last = i + (returnCode r (some x)).length := by
  refine h.walk ?_
  refine .seq expr_lies fun x => .seq (jumpBack_lies (some x)) fun _ => .close (.release (.pure ?_))
  rintro _ i ⟨r, hr, hcode, hlast⟩ _ ⟨he, hx⟩
  exact ⟨x, i, r, he, hx, hr, hcode, hlast⟩

theorem Placed.expression (h : Placed env P (stmt ctx (.expression n e)) used first () last) :
    ∃ r, Placed env P (expr ctx e) used first r last := by
  refine h.walk ?_
  exact .seq expr_lies fun r => .close (.release (.pure fun _ _ h => ⟨r, h.1⟩))

theorem Placed.next {n : Node} (h : Placed env P (stmt ctx (.next n)) used first () last) :
    ∃ l, ctx.next = some l ∧ P.HasAll first [.jump (.label l)] ∧ last = first + 1 := by
  refine h.walk ?_
  simp only [stmt]
  cases hn : ctx.next with
  | none => exact fun _ _ => trivial
  | some l =>
    exact .close (.emit rfl (.pure fun _ i hlast hjump => ⟨l, rfl, ⟨hjump, trivial⟩, hlast⟩))

theorem storePlace_lies (value : Register) (p : Place) (hp : ∀ r ∈ p.held, r ∈ used) :
    Lies env (storePlace value p) used (fun _ => p.giveBack used) fun P i _ j => ∃ r,
      (∀ k, p = .frame k → Free used r) ∧ P.HasAll i (p.storeCode value r) ∧
      j = i + (p.storeCode value r).length := fun _ hs =>
  (storePlace_adds value p hs hp).weaken fun _ _ h => by
    obtain ⟨r, hr, h⟩ := h
    exact ⟨h.uses, fun P hP => ⟨(h.lays P hP).1, r, hr, (h.lays P hP).2, h.here⟩⟩

/-- A variable in a frame is found without a register. -/
theorem free_frame {p : Place} (h : ∀ k, p = .frame k → Free (used ++ p.held) r) :
    ∀ k, p = .frame k → Free used r := by
  intro k hk
  have hfree := h k hk
  rwa [hk, Place.held, List.append_nil] at hfree

/-- The code of a declaration without an initial value. -/
theorem Placed.declareNone (hd : d.initializer = none)
    (h : Placed env P (stmt ctx (.declaration n d)) used first () last) :
    ∃ id k kind p code r, NameAt env ctx.function used d.node.id d.name id k kind p code ∧
      (∀ k, p = .frame k → Free used r) ∧ P.HasAll first (code ++ p.storeCode .zero r) ∧
      last = first + (code ++ p.storeCode .zero r).length := by
  refine h.walk ?_
  simp only [stmt, declaration, hd]
  refine .here fun _ => .seq namePlace_lies fun p => .seq (storePlace_lies .zero p fun r hr =>
    List.mem_append_right _ hr) fun _ => .close (.comment (.pure ?_))
  rintro _ _ ⟨r, hr, hstore, rfl⟩ _ ⟨id, k, kind, code, hname, hcode, rfl⟩ -
  refine ⟨id, k, kind, p, code, r, hname, free_frame hr,
    Program.HasAll.append.2 ⟨hcode, hstore⟩, ?_⟩
  rw [List.length_append, Nat.add_assoc]

theorem Placed.declareSome (hd : d.initializer = some e)
    (h : Placed env P (stmt ctx (.declaration n d)) used first () last) :
    ∃ x i id k kind p code r, Placed env P (expr ctx e) used first x i ∧ Free used x ∧
      NameAt env ctx.function (used ++ [x]) d.node.id d.name id k kind p code ∧
      (∀ k, p = .frame k → Free (used ++ [x]) r) ∧ P.HasAll i (code ++ p.storeCode x r) ∧
      last = i + (code ++ p.storeCode x r).length := by
  refine h.walk ?_
  simp only [stmt, declaration, hd]
  refine .here fun _ => .seq expr_lies fun x => .seq namePlace_lies fun p =>
    .seq (storePlace_lies x p
    fun r hr => List.mem_append_right _ hr) fun _ => .releaseAny (.close (.comment (.pure ?_)))
  rintro _ _ ⟨r, hr, hstore, rfl⟩ i ⟨id, k, kind, code, hname, hcode, rfl⟩ _ ⟨he, hx⟩ -
  refine ⟨x, i, id, k, kind, p, code, r, he, hx, hname, free_frame hr,
    Program.HasAll.append.2 ⟨hcode, hstore⟩, ?_⟩
  rw [List.length_append, Nat.add_assoc]

theorem Placed.assignment {target : Awl.Target}
    (h : Placed env P (stmt ctx (.assignment n target value)) used first () last) :
    ∃ p i x j r, Placed env P (targetPlace ctx target) used first p i ∧
      Placed env P (expr ctx value) (used ++ p.held) i x j ∧ Free (used ++ p.held) x ∧
      (∀ k, p = .frame k → Free (used ++ [x]) r) ∧
      P.HasAll j (p.storeCode x r) ∧ last = j + (p.storeCode x r).length := by
  refine h.walk ?_
  refine .here fun _ => .seq targetPlace_lies fun p => .seq expr_lies fun x =>
    .seq (storePlace_lies x p
    fun r hr => List.mem_append_left _ (List.mem_append_right _ hr)) fun _ =>
    .releaseAny (.commented (fun s => ?_) ?_)
  -- Only a name leaves a comment behind.
  · cases target with
    | name n x => exact comment_done
    | index n a i => exact EmitState.Commented.refl _
    | field n o x => exact EmitState.Commented.refl _
  · rintro _ j ⟨r, hr, hstore, hlast⟩ i ⟨hv, hx⟩ _ ht -
    refine ⟨p, i, x, j, r, ht, hv, hx, fun k hk => ?_, hstore, hlast⟩
    have hfree := hr k hk
    rwa [hk, Place.held, List.append_nil] at hfree

/-! ## Blocks -/

theorem Placed.discard {α : Type} {m : Emit α}
    (h : Placed env P (Functor.discard m : Emit Unit) used first () last) :
    ∃ a, Placed env P m used first a last := by
  obtain ⟨s, s', hrun, hs, hfirst, hlast, hP⟩ := h
  obtain ⟨a, s1, hm, hpure⟩ := bind_eq_ok.1 (show (m >>= fun _ => pure ()) env s = _ from hrun)
  obtain ⟨-, rfl⟩ := pure_eq_ok.1 hpure
  exact ⟨a, s, s', hm, hs, hfirst, hlast, hP⟩

theorem stmts_lies : Lies env (stmts ctx ss) used (fun _ => used) fun P i _ j =>
    Placed env P (stmts ctx ss) used i () j := (stmts_steady ctx ss (any _)).takes.lies

theorem block_lies : Lies env (block ctx b) used (fun _ => used) fun P i a j =>
    Placed env P (block ctx b) used i i j ∧ a = i := fun _ hs =>
  (block_blocks ctx b (any _) _ used hs (any _)).withRun.weaken fun _ _ h => by
    obtain ⟨hrun, rfl, h⟩ := h
    exact ⟨h.uses, fun P hP => ⟨hP.of_grows h.grows, .of_run hrun hs hP, rfl⟩⟩

/-- A block without code is an instruction without effect. -/
theorem Placed.block {a : InstructionId} (h : Placed env P (block ctx b) used first a last) :
    a = first ∧ ∃ i, Placed env P (stmts ctx b.statements) used first () i ∧
      (last = i ∧ first < i ∨ i = first ∧ P.HasAll i [.nop] ∧ last = i + 1) := by
  obtain ⟨n, statements⟩ := b
  refine h.walk ?_
  refine .here fun a => .seq stmts_lies fun _ => .here fun k => ?_
  split
  · rename_i heq
    refine .emit rfl (.pure ?_)
    rintro _ i rfl hnop rfl _ hss rfl
    exact ⟨rfl, i, hss, .inr ⟨beq_iff_eq.1 heq, ⟨hnop, trivial⟩, rfl⟩⟩
  · rename_i hne
    refine .pure ?_
    rintro i rfl _ hss rfl
    exact ⟨rfl, i, hss, .inl ⟨rfl, Nat.lt_of_le_of_ne ((stmts_steady _ _ (any _)).le hss) fun h =>
      hne (beq_iff_eq.2 h.symm)⟩⟩

theorem Placed.stmts_nil (h : Placed env P (stmts ctx []) used first () last) : last = first := by
  refine h.walk ?_
  exact .pure fun _ => rfl

theorem Placed.stmts_cons (h : Placed env P (stmts ctx (st :: ss)) used first () last) : ∃ i,
      Placed env P (stmt ctx st) used first () i ∧ Placed env P (stmts ctx ss) used i () last := by
  refine h.walk ?_
  exact .seq (stmt_steady ctx st (any _)).takes.lies fun _ =>
    .ends stmts_lies fun i _ _ hss _ hst => ⟨i, hst, hss⟩

theorem Placed.optional_none (h : Placed env P (optionalStmt ctx none) used first () last) :
    last = first := by
  refine h.walk ?_
  exact .pure fun _ => rfl

theorem Placed.optional_some (h : Placed env P (optionalStmt ctx (some st)) used first () last) :
    Placed env P (stmt ctx st) used first () last := by
  simpa only [optionalStmt] using h

/-! ## Branches and loops -/

/-- The code of a block whose first position is not needed. -/
theorem discardBlock_lies :
    Lies env (Functor.discard (Emit.block ctx b) : Emit Unit) used (fun _ => used)
    fun P i _ j => Placed env P (Emit.block ctx b) used i i j := fun s hs =>
  .discard ((block_lies s hs).weaken fun _ _ h =>
    ⟨h.1, fun P hP => ⟨(h.2 P hP).1, (h.2 P hP).2.1⟩⟩)

theorem Placed.ifThen (h : Placed env P (stmt ctx (.ifElse n c b none)) used first () last) :
    ∃ r i done j, Placed env P (expr ctx c) used first r i ∧ Free used r ∧
      P.HasAll i [.compute .equal .zero r r, .branch r done] ∧
      Placed env P (Emit.block ctx b) used (i + 2) (i + 2) j ∧
      P.target? done = some j ∧ P.HasAll j [.nop] ∧ last = j + 1 := by
  refine h.walk ?_
  simp only [stmt, branchUnless, bind_assoc]
  refine .label fun done => .seq expr_lies fun r => .emit rfl (.emit rfl (.release
    (.seq discardBlock_lies fun _ => .close (.anchor (.pure ?_)))))
  rintro _ j rfl hnop hdone _ hb _ rfl h2 i rfl h1 _ ⟨hc, hr⟩
  exact ⟨r, i, done, j, hc, hr, ⟨h1, h2, trivial⟩, hb, hdone, hnop, rfl⟩

theorem Placed.ifElse {b' : Block}
    (h : Placed env P (stmt ctx (.ifElse n c b (some b'))) used first () last) :
    ∃ r i thenLabel done j k, Placed env P (expr ctx c) used first r i ∧ Free used r ∧
      P.HasAll i [.branch r thenLabel] ∧ Placed env P (Emit.block ctx b') used (i + 1) (i + 1) j ∧
      P.HasAll j [.jump (.label done)] ∧ Placed env P (Emit.block ctx b) used (j + 1) (j + 1) k ∧
      P.target? thenLabel = some (j + 1) ∧ P.target? done = some k ∧ P.HasAll k [.nop] ∧
      last = k + 1 := by
  refine h.walk ?_
  refine .label fun done => .seq expr_lies fun r => .label fun thenLabel => .emit rfl (.release
    (.seq discardBlock_lies fun _ => .emit rfl (.seq block_lies fun _ => .binds
    (.close (.anchor (.pure ?_))))))
  rintro _ k rfl hnop hdone hthen _ ⟨hb, rfl⟩ j rfl hjump _ hb' i rfl hbranch _ ⟨hc, hr⟩
  exact ⟨r, i, thenLabel, done, j, k, hc, hr, ⟨hbranch, trivial⟩, hb', ⟨hjump, trivial⟩, hb, hthen,
    hdone, hnop, rfl⟩

theorem discardBlock_steady (b : Block) :
    Steady Any env (Functor.discard (Emit.block ctx b) : Emit Unit) :=
  (block_blocks ctx b (any _)).steady

theorem optional_steady (st : Option Stmt) : Steady Any env (optionalStmt ctx st) :=
  optionalStmt_steady ctx st (any _)

/-- The code of a loop with a block as its body and, where it has one, a statement after it. -/
abbrev loopCode (ctx : Context) (c : Expr) (body : Block) (step : Option Stmt) : Emit Unit :=
  Emit.loop ctx c (Functor.discard (Emit.block ctx body)) (optionalStmt ctx step)

theorem Placed.loopBlock (h : Placed env P (loopCode ctx c body step) used first () last) :
    ∃ r i test done j k, Placed env P (expr ctx c) used first r i ∧ Free used r ∧
      P.target? test = some first ∧
      P.HasAll i [.compute .equal .zero r r, .branch r done] ∧
      Placed env P (Emit.block ctx body) used (i + 2) (i + 2) j ∧
      Placed env P (optionalStmt ctx step) used j () k ∧ P.HasAll k [.jump (.label test), .nop] ∧
      P.target? done = some (k + 1) ∧ last = k + 2 := by
  refine h.walk (.label fun test => .label fun done => .here fun _ => .seq expr_lies fun r => .binds
    (.emit rfl (.emit rfl (.release (.seq (discardBlock_steady body).takes.lies fun _ =>
    .seq (optional_steady step).takes.lies fun _ => .emit rfl (.close (.anchor (.pure ?_))))))))
  rintro _ _ rfl hnop hdone k rfl hjump j ht _ hb _ rfl h2 i rfl h1 htest _ ⟨hc, hr⟩ rfl
  obtain ⟨a, hb⟩ := hb.discard
  obtain rfl := hb.block.1
  exact ⟨r, i, test, done, j, k, hc, hr, htest, ⟨h1, h2, trivial⟩, hb, ht,
    ⟨hjump, hnop⟩, hdone, rfl⟩

theorem Placed.whileLoop (h : Placed env P (stmt ctx (.whileLoop n c body)) used first () last) :
    Placed env P (loopCode ctx c body none) used first () last := by
  simpa only [stmt, loopCode, optionalStmt] using h

theorem Placed.forLoop {initializer : Option Stmt}
    (h : Placed env P (stmt ctx (.forLoop n initializer c step body)) used first () last) :
    ∃ i, Placed env P (optionalStmt ctx initializer) used first () i ∧
      Placed env P (loopCode ctx c body step) used i () last := by
  refine h.walk ?_
  exact .seq (optional_steady initializer).takes.lies fun _ =>
    .ends (loop_steady (any _) (discardBlock_steady body)
    (optional_steady step)).takes.lies fun i _ _ hl _ hi => ⟨i, hi, hl⟩

theorem Placed.doLoop (h : Placed env P (stmt ctx (.doLoop n body c)) used first () last) :
    ∃ i start r j, Placed env P (Emit.block ctx body) used first first i ∧
      P.target? start = some first ∧
      Placed env P (expr ctx c) used i r j ∧ Free used r ∧ P.HasAll j [.branch r start] ∧
      last = j + 1 := by
  refine h.walk ?_
  refine .label fun start => .seq block_lies fun _ => .binds (.seq expr_lies fun r => .emit rfl
    (.close (.release (.pure ?_))))
  rintro _ j rfl hbranch i ⟨hc, hr⟩ hstart _ ⟨hb, rfl⟩
  exact ⟨i, start, r, j, hb, hstart, hc, hr, ⟨hbranch, trivial⟩, rfl⟩

theorem Placed.blockStmt (h : Placed env P (stmt ctx (.block n b)) used first () last) :
    Placed env P (Emit.block ctx b) used first first last := by
  obtain ⟨a, h⟩ := h.discard
  obtain rfl := h.block.1
  exact h

/-! ## Switches -/

/-- What the code of a case of a switch consists of. -/
structure CaseAt (env : Env) (P : Program) (ctx : Context) (used : List Register)
    (discriminant : Register) (value : Expr) (body : Block) (next : Option LabelId)
    (test bodyLabel miss done : LabelId) (first last : Nat) : Prop where
  parts : ∃ r i j, Placed env P (expr ctx value) used first r i ∧ Free used r ∧
    P.target? test = some first ∧
    P.HasAll i [.compute .notEqual discriminant r r, .branch r miss] ∧
    Placed env P (Emit.block (ctx.withNext next) body) used (i + 2) (i + 2) j ∧
    P.target? bodyLabel = some (i + 2) ∧
    P.HasAll j [.jump (.label done)] ∧ last = j + 1

theorem switchCase_lies {next : Option LabelId} {test bodyLabel miss : LabelId} :
    Lies env (switchCase ctx discriminant value test bodyLabel miss done
      (Emit.block (ctx.withNext next) body)) used (fun _ => used) fun P i _ j =>
      CaseAt env P ctx used discriminant value body next test bodyLabel miss done i j := by
  refine .of (switchCase_takes (any _) (block_blocks _ _ (any _))) fun P => .here fun _ =>
    .seq expr_lies fun r => .binds (.emit rfl (.emit rfl (.release
    (.seq block_lies fun _ => .binds (.close (.emit rfl (.pure ?_)))))))
  rintro _ j rfl hjump hbody _ ⟨hb, rfl⟩ _ rfl h2 i rfl h1 htest _ ⟨hv, hr⟩ rfl
  exact ⟨r, i, j, hv, hr, htest, ⟨h1, h2, trivial⟩, hb, hbody, ⟨hjump, trivial⟩, rfl⟩

/-- The code of a switch that follows its cases. -/
inductive FallbackAt (env : Env) (P : Program) (ctx : Context) (used : List Register)
    (first : Nat) : Option Block → Option LabelId → Nat → Prop
  | none : FallbackAt env P ctx used first none none first
  | some {b : Block} {l : LabelId} {last : Nat} : P.target? l = some first →
      Placed env P (Emit.block (ctx.withNext .none) b) used first first last →
      FallbackAt env P ctx used first (some b) (some l) last

theorem Placed.switchCases_nil
    (h : Placed env P (switchCases ctx discriminant done fallback [] labels) used first () last) :
    last = first := by
  refine h.walk ?_
  exact .pure fun _ => rfl

/-- A case, and the labels that a failed test and `next` lead to. -/
theorem Placed.switchCases_cons {test bodyLabel : LabelId}

    (h : Placed env P (switchCases ctx discriminant done fallback (.mk n value body :: cases)
      ((test, bodyLabel) :: labels)) used first () last) :
    ∃ i, CaseAt env P ctx used discriminant value body
        ((labels.head?.map (·.2)).or fallback) test bodyLabel
          (((labels.head?.map (·.1)).or fallback).getD done) done first i ∧
        Placed env P (switchCases ctx discriminant done fallback cases labels) used i () last := by
  refine h.walk ?_
  exact .seq switchCase_lies fun _ => .ends (switchCases_takes _ _ _ cases labels (any _)).lies
    fun i _ _ hcases _ hcase => ⟨i, hcase, hcases⟩

theorem Placed.switch {d : Expr} {fallback : Option Block}
    (h : Placed env P (stmt ctx (.switch n d cases fallback)) used first () last) :
    ∃ x i done labels l j k, labels.length = cases.length ∧
      Placed env P (expr ctx d) used first x i ∧ Free used x ∧
      Placed env P (switchCases ctx x done l cases labels) (used ++ [x]) i () j ∧
      FallbackAt env P ctx (used ++ [x]) j fallback l k ∧ P.target? done = some k ∧
      P.HasAll k [.nop] ∧ last = k + 1 := by
  refine h.walk ?_
  rw [stmt]
  refine .label fun done => .labels cases.length fun tests htests =>
    .labels cases.length fun bodies hbodies => ?_
  have hlength : (tests.zip bodies).length = cases.length := by
    rw [List.length_zip, htests, hbodies, Nat.min_self]
  have hcases : ∀ x l, Lies env (switchCases ctx x done l cases (tests.zip bodies)) (used ++ [x])
      (fun _ => used ++ [x]) _ := fun x l => (switchCases_takes x done l cases _ (any _)).lies
  cases fallback with
  | none =>
    refine .seq expr_lies fun x => .seq (hcases x none) fun _ =>
      .anchor (.close (.release (.pure ?_)))
    rintro _ k rfl hnop hdone i hcases _ ⟨hd, hx⟩
    exact ⟨x, i, done, _, none, k, k, hlength, hd, hx, hcases, .none, hdone, hnop, rfl⟩
  | some b =>
    refine .label fun l => .seq expr_lies fun x => .seq (hcases x (some l)) fun _ =>
      .seq block_lies fun j => .binds (.anchor (.close (.release (.pure ?_))))
    rintro _ k rfl hnop hdone hl _ ⟨hb, rfl⟩ i hcases _ ⟨hd, hx⟩
    exact ⟨x, i, done, _, some l, j, k, hlength, hd, hx, hcases, .some hl hb, hdone, hnop, rfl⟩

/-! ## Locks -/

theorem Placed.withLock {lock : Expr} {f : Address → Emit Unit} (hf : ∀ a, Steady Any env (f a))
    (h : Placed env P (withLock ctx lock f) used first () last) :
    ∃ p a i, Placed env P (exprPlace ctx lock) used first p i ∧
      Placed env P (f a) (used ++ p.held) i () last ∧ ∀ r, a = .indirect r →
      r ∈ used ++ p.held := by
  refine h.walk (.seq (exprPlace_takes (any _)).lies fun p => ?_)
  cases p with
  | frame k => exact fun _ _ => .bind (Sat.throw (Q := fun _ _ => False) trivial) nofun
  | global k =>
    exact .pure_bind (Address.direct k) (.seq (hf (.direct k)).takes.lies fun _ =>
      .pure fun _ i ha _ hp => ⟨_, _, i, hp, ha, nofun⟩)
  | shared r =>
    exact .pure_bind (Address.indirect r) (.seq (hf (.indirect r)).takes.lies fun _ =>
      .close (.release (.pure fun _ i ha _ hp =>
        ⟨_, _, i, hp, ha, fun _ h => Address.indirect.inj h ▸ List.mem_append_right _ (.head _)⟩)))

theorem Placed.acquire (h : Placed env P (acquire a) used first () last) :
    ∃ r retry acquired, Free used r ∧ P.target? retry = some first ∧
      P.HasAll first [.testAndSet a, .receive r, .branch r acquired, .jump (.label retry), .nop] ∧
      P.target? acquired = some (first + 4) ∧ last = first + 5 := by
  refine h.walk (.label fun retry => .label fun acquired => .allocate fun r hr => .here fun _ =>
    .emit rfl (.binds (.emit rfl (.emit rfl (.emit rfl
    (.anchor (.close (.release (.pure ?_)))))))))
  rintro _ _ rfl hnop hacquired _ rfl h4 _ rfl h3 _ rfl h2 hretry i rfl h1 rfl
  exact ⟨r, retry, acquired, hr, hretry, ⟨h1, h2, h3, h4, hnop⟩, hacquired, rfl⟩

theorem Placed.writeShared (h : Placed env P (writeShared r a) used first () last) :
    P.HasAll first [.write r a] ∧
    last = first + 1 :=
  h.walk (.close (.emit rfl (.pure fun _ _ hlast hcode => ⟨⟨hcode, trivial⟩, hlast⟩)))

end Emit

end Awl.Code
