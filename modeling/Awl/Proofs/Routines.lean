import Awl.Proofs.EmitUnit
import Awl.Proofs.Sealed

/-!
# Where the routines of a unit lie

A generated program is the code of the dispatcher, of the main core and of the routines, one after
the other (`generate_at`). For each kind of routine there is a lemma that says which instructions
its code consists of and where the code of its body lies.

The routines that can be called are sealed (`Routine.sealed`): a function, the routine that
initializes the fields of a class and the allocator jump to nowhere but inside themselves, calls and
returns aside.
-/

namespace Awl.Code

open Machine

variable {ctx : Context} {body : FunctionBody} {f : FunctionId} {used : List Register} {index : Nat}
  {u : SourceUnit} {label : LabelId} {c : ClassDef} {P : Program} {t : Tables}

namespace Emit

variable {env : Env} {P : Program} {first last : Nat} {s : EmitState}

/-! ## Functions -/

section
variable {α : Type} {C : Nat → α → Nat → Prop}

theorem Walks.entry {k : LabelId → Emit α}
    (hk : ∀ l, env.entries.get? f = some l → Walks env P (k l) used C) :
    Walks env P (Emit.entry f >>= k) used C :=
  fun s hs => entry_sat (any _) fun l hl => hk l hl s hs

theorem Walks.entryName {k : String → Emit α} (hk : ∀ x, Walks env P (k x) used C) :
    Walks env P (Emit.entryName f >>= k) used C := fun s hs => .bind (entryName_sat (any _))
      fun x s1 h => by
    subst h
    exact hk x s1 hs

theorem Walks.frameScope {k : ScopeId → Emit α} (hk : ∀ fn scope,
      env.tables.function? f = some fn → fn.scope = some scope →
      Walks env P (k scope) used C) : Walks env P (Emit.frameScope f >>= k) used C := fun s hs =>
  frameScope_sat (any _) (any _) fun fn scope hfn hscope => hk fn scope hfn hscope s hs

theorem Walks.requireAllFree {k : Unit → Emit α} (hk : Walks env P (k ()) [] C) :
    Walks env P (Emit.requireAllFree >>= k) [] C :=
  fun s hs => .run (requireAllFree_run hs) (hk s hs)

end

theorem Placed.function (h : Placed env P (function f body) [] first () last) :
    ∃ fn scope l, env.tables.function? f = some fn ∧ fn.scope = some scope ∧
      env.entries.get? f = some l ∧ P.target? l = some first ∧
      Placed env P (bodyCode { function := some scope } body) [] first () last := by
  refine h.walk ?_
  rw [function_eq]
  refine .requireAllFree (.frameScope fun fn scope hfn hscope => .here fun _ => .seq
    (bodyCode_takes (any _)).lies fun _ => .entry fun l hl => .binds (.entryName fun _ =>
    .close (.comment (.pure ?_))))
  rintro _ hlabel _ hbody rfl
  exact ⟨fn, scope, l, hfn, hscope, hl, hlabel, hbody⟩

theorem Placed.bodyBlock {b : Block}
    (h : Placed env P (bodyCode ctx (.block b)) used first () last) :
    ∃ i r, Placed env P (stmts ctx b.statements) used first () i ∧ Free used r ∧
      P.HasAll i (returnCode r none) ∧ last = i + (returnCode r none).length := by
  refine h.walk (.seq stmts_lies fun _ => .ends (jumpBack_lies none) ?_)
  rintro i _ _ ⟨r, hr, hcode, hlast⟩ _ hss
  exact ⟨i, r, hss, hr, hcode, hlast⟩

/-! ## Field initializers -/

theorem loadSlot_flows (k : Nat) (used : List Register) :
    Lies env (loadPlace (.frame k)) used (used ++ [·]) (FlowAt env used) := by
  have h : Lies env (loadPlace (.frame k)) (used ++ (Place.frame k).held) (used ++ [·])
    (FlowAt env used) := loadPlace_flows (.frame k)
  rwa [Place.held, List.append_nil] at h

theorem initializeFields_flows (ht : env.tables.MethodsRun) (scope : ScopeId)
    (used : List Register) :
    ∀ (fields : List Declaration), Check.FieldsReady env.tables fields →
    Lies env (initializeFields scope fields) used (fun _ => used) (FlowAt env used)
  | [], _ => Lies.pure (fun _ => used) fun _ _ => .nil
  | d :: fields, hready => by
    have ih := initializeFields_flows ht scope used fields fun d hd => hready d (.tail _ hd)
    have hd := hready d (.head _)
    unfold initializeFields
    cases hi : d.initializer with
    | none => exact ih
    | some e =>
      rw [hi] at hd
      have he : Flows env {} e := expr_flows ht e hd
      exact .query fun o _ => .expect fun k _ => .append (he used) fun value =>
        .append (loadSlot_flows 0 _).less fun object =>
        .append (writeElement_flows object value k).less.less
        fun _ => .append (release_flows object).less fun _ =>
        .append (release_flows value) fun _ => ih

theorem Placed.initializerRoutine (ht : env.tables.MethodsRun)
    (hready : Check.FieldsReady env.tables c.fields)
    (h : Placed env P (initializerRoutine c label) [] first () last) :
    P.target? label = some first ∧ ∃ i r, Flow env P [] first i ∧ Free [] r ∧
      P.HasAll i (returnCode r none) ∧ last = i + (returnCode r none).length := by
  refine h.walk (.requireAllFree fun s hs => memberScope_sat (any _) (any _)
    fun _ scope _ _ _ => ?_)
  have hwalk : Walks env P (do
      let first ← here
      initializeFields scope c.fields
      jumpBack none
      bind label first
      comment first ("initialize fields of " ++ c.name)) [] fun i _ j => P.target? label = some i ∧
        ∃ k r, Flow env P [] i k ∧ Free [] r ∧ P.HasAll k (returnCode r none) ∧
        j = k + (returnCode r none).length := by
    refine .here fun _ => .seq (initializeFields_flows ht scope [] c.fields hready) fun _ =>
      .seq (jumpBack_lies none) fun _ => .binds (.close (.comment (.pure ?_)))
    rintro _ hlabel k ⟨r, hr, hcode, hlast⟩ _ hflow rfl
    exact ⟨hlabel, k, r, hflow, hr, hcode, hlast⟩
  exact hwalk s hs

/-! ## The allocator -/

/-- The instructions of the allocator. The second label is the one of its second part. -/
def allocatorCode (layout : StaticLayout) (base size r : Register)
    (entry locked : LabelId) : List Ins :=
  [.testAndSet (.direct layout.allocatorLock), .receive base, .branch base locked,
    .jump (.label entry),
    .read (.direct layout.heapPointer), .receive base, .const 1 size, .compute .add .arp size size,
    .load (.indirect size) size, .compute .add base size size,
    .write size (.direct layout.heapPointer),
    .write .zero (.direct layout.allocatorLock)] ++ returnCode r (some base)

theorem Placed.allocatorRoutine (h : Placed env P allocatorRoutine [] first () last) :
    ∃ base size r locked, Free [base] size ∧ Free [] base ∧ Free [base] r ∧
      P.HasAll first (allocatorCode env.layout base size r env.allocator locked) ∧
      P.target? env.allocator = some first ∧ P.target? locked = some (first + 4) ∧
      last = first + 19 := by
  refine h.walk (.read (.label fun locked => .allocate fun base hbase => .allocate fun size hsize =>
    .here fun _ =>
    .emit rfl (.binds (.comment (.emit rfl (.emit rfl (.emit rfl (.here fun _ => .emit rfl (.binds
    (.emit rfl (.emit rfl (.emit rfl (.emit rfl (.emit rfl (.emit rfl (.emit rfl (.release
    (.seq (jumpBack_lies (some base)) fun _ => .close (.release (.pure ?_))))))))))))))))))))
  rintro _ _ ⟨r, hr, hcode, rfl⟩ _ rfl h12 _ rfl h11 _ rfl h10 _ rfl h9 _ rfl h8 _ rfl h7
    _ rfl h6 hlocked
    _ rfl h5 rfl _ rfl h4 _ rfl h3 _ rfl h2 hentry _ rfl h1 rfl
  exact ⟨base, size, r, locked, hsize, hbase, hr,
    ⟨h1, h2, h3, h4, h5, h6, h7, h8, h9, h10, h11, h12, hcode⟩,
    hentry, hlocked, rfl⟩

/-! ## The outermost frames -/

/-- The instructions that build the outermost frame of a core. -/
def rootCode (size : Nat) (exit : LabelId) : List Ins :=
  .replicate size (.push .zero) ++ [.push .arp, .constLabel exit .arp, .push .arp, .push .zero,
    .const 2 .arp, .compute .add .sp .arp .arp]

@[simp] theorem length_rootCode (size : Nat) (exit : LabelId) :
    (rootCode size exit).length = size + 6 := by
  simp [rootCode]

/-- The code of a core from the place where its frame is built. -/
structure RootAt (env : Env) (P : Program) (size : Nat) (code : Emit Unit)
    (first last : Nat) : Prop where
  parts : ∃ exit i, P.HasAll first (rootCode size exit) ∧
    Placed env P code [] (first + size + 6) () i ∧
    P.Has i .endProg [] ∧ P.target? exit = some i ∧ last = i + 1

theorem enterRootFrame_adds (n : Nat) (l : LabelId) (hs : s.Uses used) :
    Sat Any (enterRootFrame n l) env s fun _ s' => s.Adds (rootCode n l) used s' := by
  refine .run (pushZeros_run n) (.emit rfl (.emit rfl
    (.emit rfl (.emit rfl (.emit rfl (.emit_last rfl ?_))))))
  have h :=
    ((((((EmitState.Adds.refl hs).pushes (.replicate n .zero)).emit .push [.register .arp]).emit
    .const [.immediate (.label l), .register .arp]).emit .push [.register .arp]).emit .push
    [.register .zero]).emit .const [.immediate (.value 2), .register .arp] |>.emit .compute
    [.operator .add, .register .sp, .register .arp, .register .arp]
  simpa [rootCode] using h

theorem enterRootFrame_lies (n : Nat) (l : LabelId) :
    Lies env (enterRootFrame n l) used (fun _ => used)
    fun P i _ j => P.HasAll i (rootCode n l) ∧ j = i + n + 6 := fun _ hs =>
  (enterRootFrame_adds n l hs).weaken fun _ _ h => ⟨h.uses, fun P hP =>
    ⟨(h.lays P hP).1, (h.lays P hP).2, by rw [h.here, length_rootCode, Nat.add_assoc]⟩⟩

theorem Placed.mainCode {statements : List Stmt}
    (h : Placed env P (mainCode statements) [] first () last) :
    ∃ size, env.tables.scopes.frameSize ScopeTree.globalId = .ok size ∧
      RootAt env P size (stmts {} statements) first last := by
  refine h.walk (.label fun exit => .query fun size hsize => .here fun _ => .seq
    (enterRootFrame_lies _ _) fun _ => .comment (.seq stmts_lies fun _ => .here fun _ => .emit rfl
    (.close (.binds (.pure ?_)))))
  rintro _ hexit i rfl hend rfl _ hss _ ⟨hroot, rfl⟩ -
  exact ⟨size, hsize, exit, i, hroot, hss, hend, hexit, rfl⟩

/-! ## Threads -/

theorem Placed.thread (h : Placed env P (thread index f body) [] first () last) :
    ∃ fn scope l r size, env.tables.function? f = some fn ∧ fn.scope = some scope ∧
      env.tables.scopes.frameSize scope = .ok size ∧ env.entries.get? f = some l ∧
      P.target? l = some first ∧
        P.HasAll first [.read (.direct (env.layout.threadFlag index)), .receive r,
        .compute .equal .zero r r, .branch r l] ∧
      RootAt env P size (threadBody { function := some scope } body) (first + 4) last := by
  refine h.walk ?_
  rw [thread_eq]
  refine .read (.entry fun l hl => .allocate fun r _ => .here fun _ => .emit rfl (.binds
    (.emit rfl (.emit rfl (.emit rfl (.release (.entryName fun _ =>
    .comment (.frameScope fun fn scope hfn hscope => .label fun exit => .query fun size hsize =>
    .seq (enterRootFrame_lies _ _) fun _ => .seq (threadBody_steady (any _)).takes.lies fun _ =>
    .here fun _ => .emit rfl (.close (.binds (.pure ?_)))))))))))
  rintro _ hexit i rfl hend rfl _ hbody _ ⟨hroot, rfl⟩ _ rfl h4 _ rfl h3
    _ rfl h2 hlabel _ rfl h1 rfl
  exact ⟨fn, scope, l, r, size, hfn, hscope, hsize, hl, hlabel, ⟨h1, h2, h3, h4, trivial⟩, exit, i,
    hroot,
    hbody, hend, hexit, rfl⟩

/-! ## The dispatcher -/

theorem Placed.dispatch_nil (h : Placed env P (dispatch index []) [] first () last) :
    last = first := h.walk (.pure fun _ => rfl)

/-- One core is sent to its thread. -/
theorem Placed.dispatch_cons {fs : List FunctionId}
    (h : Placed env P (dispatch index (f :: fs)) [] first () last) :
    ∃ l r, env.entries.get? f = some l ∧
        P.HasAll first [.const (index + 1) r, .compute .equal .sprId r r,
        .branch r l] ∧ Placed env P (dispatch (index + 1) fs) [] (first + 3) () last := by
  refine h.walk (.allocate fun r _ => .here fun _ => .emit rfl (.emit rfl
    (.entry fun l hl => .emit rfl (.release (.query fun _ _ => .comment
    (.ends (dispatch_steady fs (index + 1) (any _)).takes.lies ?_))))))
  rintro _ _ _ hrest _ rfl h3 _ rfl h2 _ rfl h1 -
  exact ⟨l, r, hl, ⟨h1, h2, h3, trivial⟩, hrest⟩

/-! ## All routines -/

/-- Routines one after the other. -/
inductive RoutinesAt (env : Env) (P : Program) : List Routine → Nat → Nat → Prop
  | nil {i : Nat} : RoutinesAt env P [] i i
  | cons {r : Routine} {rs : List Routine} {i j k : Nat} : Placed env P r.code [] i () j →
      RoutinesAt env P rs j k → RoutinesAt env P (r :: rs) i k

theorem routines_walks : ∀ (rs : List Routine), Walks env P (rs.forM Routine.code) [] fun i _ j =>
    RoutinesAt env P rs i j
  | [] => .pure fun _ => .nil
  | _ :: rs => .seq (routine_takes (any _)).lies fun _ s hs => (routines_walks rs s hs).weaken
    fun _ _ h hP => ⟨(h hP).1, fun _ hr => .cons hr (h hP).2⟩

theorem unit_walks {rs : List Routine} : Walks env P (do
    dispatch 0 env.threads
    mainCode u.statements
    rs.forM Routine.code) [] fun i _ j => ∃ k l, Placed env P (dispatch 0 env.threads) [] i () k ∧
      Placed env P (mainCode u.statements) [] k () l ∧ RoutinesAt env P rs l j :=
  .seq (dispatch_steady _ 0 (any _)).takes.lies fun _ =>
    .seq (mainCode_steady (any _)).takes.lies fun _ s hs => (routines_walks rs s hs).weaken
    fun _ _ h hP => ⟨(h hP).1, fun _ hmain _ hdispatch => ⟨_, _, hdispatch, hmain, (h hP).2⟩⟩

end Emit

/-- The code of a unit in its program. -/
structure UnitAt (u : SourceUnit) (env : Env) (P : Program) : Prop where
  parts : ∃ i j, Emit.Placed env P (Emit.dispatch 0 env.threads) [] 0 () i ∧
    Emit.Placed env P (Emit.mainCode u.statements) [] i () j ∧
    Emit.RoutinesAt env P (env.routines u) j P.size

theorem startState_here (u : SourceUnit) (t : Tables) : (startState u t).here = 0 := by
  have hmany : ∀ (names : List String) (s : EmitState), (s.addLabels names).here = s.here := by
    intro names
    induction names with
    | nil => exact fun _ => rfl
    | cons name names ih => exact fun s => ih (s.addLabel name)
  show (EmitState.addLabels _ _).here = 0
  rw [hmany, hmany]
  rfl

/-- **A generated program is the code of its unit**: the dispatcher, the main code and the
routines. -/
theorem generate_at {options : Options} {g : Generated}
    (h : generate u t options = .ok g) : g.threads = t.functions.threads ∧
      UnitAt u (startEnv u t options g.layout) g.program := by
  rw [generate_eq] at h
  obtain ⟨globals, -, h⟩ := except_bind_eq_ok.1 h
  obtain ⟨layout, -, h⟩ := except_bind_eq_ok.1 h
  obtain ⟨⟨⟨⟩, s'⟩, hunit, h⟩ := except_bind_eq_ok.1 h
  cases h
  refine ⟨rfl, ?_⟩
  have hinto : s'.Into s'.program := ⟨fun i ins hi => ⟨ins.comment, hi⟩, fun l t hl => hl⟩
  rw [Emit.unit_eq] at hunit
  have hparts := ((Emit.unit_walks _ (startState_uses u t)).of_ok hunit hinto).2
  rw [startState_here] at hparts
  exact ⟨hparts⟩

theorem sound_methodsRun (hu : u.Sound t) : t.MethodsRun := by
  intro f fn hf
  obtain ⟨d, hd⟩ : ∃ d, u.definitions[f]? = some d :=
    ⟨_, List.getElem?_eq_getElem (hu.functions f fn hf)⟩
  exact (hu.definitions f d hd).runs fn hf

/-! ## Routines that can be called -/

/-- Control does not go on with what follows: the last instruction ends the core or jumps to the
return address. -/
def Stops (P : Program) (first last : Nat) : Prop :=
  ∃ i, first ≤ i ∧ last = i + 1 ∧ (P.Has i .endProg [] ∨ ∃ r, P.Has i .jump [.target (.indirect r)])

theorem Stops.mono {first first' last : Nat} (h : Stops P first last) (hle : first' ≤ first) :
    Stops P first' last := by
  obtain ⟨i, hi, hlast⟩ := h
  exact ⟨i, Nat.le_trans hle hi, hlast⟩

theorem returnCode_stops {i : Nat} {r : Register} {result : Option Register}
    (h : P.HasAll i (returnCode r result)) : Stops P i (i + (returnCode r result).length) := by
  cases result with
  | none => exact ⟨i + 3, Nat.le_add_right .., rfl, .inr ⟨r, h.2.2.2.1⟩⟩
  | some value => exact ⟨i + 6, Nat.le_add_right .., rfl, .inr ⟨r, h.2.2.2.2.2.2.1⟩⟩

/-- The number of slots of the frame that a routine is called with. A thread is not called. -/
def Routine.Frame (t : Tables) : Routine → Nat → Prop
  | .function f _, n => ∃ fn scope, t.function? f = some fn ∧ fn.scope = some scope ∧
    t.scopes.frameSize scope = .ok n
  | .initializer .., n | .allocator, n => n = 1
  | .thread .., _ => False

section
variable {env : Env} {P : Program} {slots first last : Nat} (ht : env.tables.MethodsRun)
include ht

theorem body_sealed (hroom : Room env P slots ∅ ctx) (hbody : body.Ready env.tables ctx.function)
    (h : Emit.Placed env P (Emit.bodyCode ctx body) used first () last) :
    (∃ B, Sealed env P slots ∅ B first last) ∧ Stops P first last := by
  cases body with
  | block b =>
    obtain ⟨i, r, hss, hr, hcode, rfl⟩ := h.bodyBlock
    obtain ⟨B, hB⟩ := Emit.stmts_seals b.statements hroom hbody (Set.Subset.refl _) hss
    exact ⟨⟨_, hB.seq (.chunk (.back hcode (hr.mono (List.nil_subset _))))⟩,
      (returnCode_stops hcode).mono hB.tiled.le⟩
  | expression e =>
    have h : Emit.Placed env P (Emit.stmt ctx (.return 0 (some e))) used first ()
      last := by simpa only [Emit.stmt, Emit.bodyCode] using h
    have he : Expr.ReadyOption env.tables ctx.function (some e) := hbody
    obtain ⟨x, i, r, hx, -, -, hcode, rfl⟩ := h.returnSome
    exact ⟨Emit.return_sealed hroom he h, (returnCode_stops hcode).mono (hx.flow ht he).le⟩

theorem function_sealed (hlaid : env.tables.scopes.Laid)
    (hready : Routine.Ready env.tables (.function f body))
    (hframe : Routine.Frame env.tables (.function f body) slots)
    (h : Emit.Placed env P (Emit.function f body) [] first () last) :
    (∃ B, Sealed env P slots ∅ B first last) ∧ Stops P first last := by
  obtain ⟨fn, scope, hfn, hscope, hbody⟩ := hready
  obtain ⟨fn', scope', hfn', hscope', hsize⟩ := hframe
  obtain ⟨fn1, scope1, l, hfn1, hscope1, -, -, hcode⟩ := h.function
  obtain rfl := Option.mem_unique hfn' hfn
  obtain rfl := Option.mem_unique hfn1 hfn
  obtain rfl := Option.mem_unique hscope' hscope
  obtain rfl := Option.mem_unique hscope1 hscope
  have hroom : Room env P slots ∅ { function := some scope1 } := ⟨ht, hlaid, hsize, nofun⟩
  exact body_sealed ht hroom hbody hcode

theorem initializer_sealed (hready : Routine.Ready env.tables (.initializer c label))
    (h : Emit.Placed env P (Emit.initializerRoutine c label) [] first () last) :
    (∃ B, Sealed env P slots ∅ B first last) ∧ Stops P first last := by
  obtain ⟨type, id, -, -, hfields⟩ := hready
  obtain ⟨-, i, r, hflow, hr, hcode, rfl⟩ := h.initializerRoutine ht hfields
  exact ⟨⟨_, Sealed.seq (.flow hflow) (.chunk (.back hcode hr))⟩,
    (returnCode_stops hcode).mono hflow.le⟩

omit ht in
theorem allocator_sealed (h : Emit.Placed env P Emit.allocatorRoutine [] first () last) :
    (∃ B, Sealed env P slots ∅ B first last) ∧ Stops P first last := by
  obtain ⟨base, size, r, locked, hsize, hbase, hr, hcode, hentry, hlocked, rfl⟩ :=
    h.allocatorRoutine
  obtain ⟨h0, h1, h2, h3, h4, h5, h6, h7, h8, h9, h10, h11, hback⟩ := hcode
  have hsize := hsize.mono (List.nil_subset _)
  -- The lock is asked for until it is free.
  have hwait : Sealed env P slots (insert first (insert (first + 4) ∅)) ∅ first (first + 4) :=
    .ofTiled (.cons (.flow (.quiet h0 .testAndSet (.quiet h1 (.receive hbase) .nil)))
      (.cons (.branch h2 hlocked (.inr (.inl rfl))) (.cons (.jump h3 hentry (.inl rfl)) .nil)))
  have hwork : Flow env P [] (first + 4) (first + 12) := .quiet h4 .read
      (.quiet h5 (.receive hbase) (.quiet h6 (.const hsize) (.quiet h7 (.compute hsize) (.quiet h8
        (.load hsize) (.quiet h9 (.compute hsize) (.quiet h10 .write (.quiet h11 .write .nil)))))))
  have hreturn : Sealed env P slots (insert (first + 4) ∅) ∅ (first + 12) (first + 19) :=
    .chunk (.back hback hr)
  refine ⟨⟨_, (hwait.start (Nat.lt_add_of_pos_right (by decide))).append
    ((Sealed.seq (.flow hwork) hreturn).start (by omega)) (by simp) Set.subset_union_right⟩, ?_⟩
  exact (returnCode_stops hback).mono (Nat.le_add_right first 12)

/-- **Routines are sealed**: the code of a routine that can be called jumps to nowhere but inside
itself, calls and returns aside, and ends with a return. -/
theorem Routine.sealed {r : Routine} (hlaid : env.tables.scopes.Laid) (hready : r.Ready env.tables)
    (hframe : r.Frame env.tables slots) (h : Emit.Placed env P r.code [] first () last) :
    (∃ B, Sealed env P slots ∅ B first last) ∧ Stops P first last := by
  cases r with
  | function f body => exact function_sealed ht hlaid hready hframe h
  | initializer c label => exact initializer_sealed ht hready h
  | allocator => exact allocator_sealed h
  | thread index f body => exact hframe.elim

end

/-! ## The routines that are called -/

section
variable {u : SourceUnit} {t : Tables} (hu : u.Sound t) {options : Options} {layout : StaticLayout}
  {fn : Function}
include hu

theorem function_mem_definitions (hf : t.function? f = some fn) :
    ∃ body, (f, body) ∈ definitions t.functions u := by
  obtain ⟨d, hd⟩ : ∃ d, u.definitions[f]? = some d :=
    ⟨_, List.getElem?_eq_getElem (hu.functions f fn hf)⟩
  rw [definitions_eq hu]
  exact ⟨d.body, List.mem_map.2 ⟨(d, f), List.mk_mem_zipIdx_iff_getElem?.2 hd, rfl⟩⟩

omit hu in
theorem isThread_of_mem_threads (h : f ∈ t.functions.threads)
    (hf : t.function? f = some fn) : fn.isThread = true := by
  obtain ⟨⟨f, fn'⟩, hmem, rfl⟩ := List.mem_map.1 h
  obtain ⟨hmem, hthread⟩ := List.mem_filter.1 hmem
  obtain ⟨⟨_, _⟩, hentry, heq⟩ := List.mem_map.1 hmem
  cases heq
  have hget : t.function? f = some fn' :=
    Array.getElem?_toList.symm.trans (List.mk_mem_zipIdx_iff_getElem?.1 hentry)
  exact Option.some.inj (hget.symm.trans hf) ▸ hthread

/-- What is called is a routine of the unit, with the frame that the call builds. -/
theorem Call.Goes.routine {c : Call} {l : LabelId} {size : Nat}
    (h : c.Goes (startEnv u t options layout) l size) :
    ∃ r ∈ (startEnv u t options layout).routines u,
      r.label? (startEnv u t options layout) = some l ∧ r.Frame t size := by
  have hfunction : ∀ {f n}, FunctionEntry (startEnv u t options layout) f n l size →
      ∃ r ∈ (startEnv u t options layout).routines u,
        r.label? (startEnv u t options layout) = some l ∧ r.Frame t size := by
    rintro f n ⟨fn, scope, hfn, hthread, -, hscope, hsize, hl⟩
    obtain ⟨body, hbody⟩ := function_mem_definitions hu hfn
    refine ⟨.function f body, ?_, hl, fn, scope, hfn, hscope, hsize⟩
    refine List.mem_append_left _ (List.mem_append_left _ (List.mem_map.2 ⟨(f, body),
      List.mem_filter.2 ⟨hbody, ?_⟩, rfl⟩))
    have hnot : f ∉ t.functions.threads := fun hmem => by
      rw [isThread_of_mem_threads hmem hfn] at hthread
      cases hthread
    simpa [startEnv] using hnot
  cases h with
  | function h => exact hfunction h
  | method h => exact hfunction h
  | constructor h => exact hfunction h
  | @initializer x l h =>
    obtain ⟨i, hi, -⟩ := startEnv_initializer options layout h
    obtain ⟨c, hc, rfl⟩ := List.mem_map.1 (List.mem_of_getElem? hi)
    have hc := (List.mem_filter.1 (List.mem_filter.1 hc).1).1
    exact ⟨.initializer c l, List.mem_append_left _ (List.mem_append_right _ (List.mem_filterMap.2
      ⟨c, hc, by rw [h]; rfl⟩)), rfl, rfl⟩
  | allocation => exact ⟨.allocator, List.mem_append_right _ (.head _), rfl, rfl⟩

theorem thread_mem_routines (h : f ∈ t.functions.threads) :
    ∃ index body, Routine.thread index f body ∈ (startEnv u t options layout).routines u := by
  obtain ⟨body, hbody⟩ := mem_threads hu h
  cases hl : (definitions t.functions u).lookup f with
  | none => simpa using List.lookup_eq_none_iff.1 hl _ hbody
  | some b =>
    have hmem : (f, b) ∈ (startEnv u t options layout).threadBodies u := List.mem_filterMap.2
      ⟨f, h, by rw [show (startEnv u t options layout).tables = t from rfl, hl]; rfl⟩
    obtain ⟨index, hindex⟩ := List.mem_iff_getElem?.1 hmem
    exact ⟨index, b, List.mem_append_right _ (.tail _ (List.mem_map.2 ⟨((f, b), index),
      List.mk_mem_zipIdx_iff_getElem?.2 hindex, rfl⟩))⟩

end

theorem counterUnit_generated : ∃ t g, counterUnit.check = .ok t ∧
    generate counterUnit t {} = .ok g := by
  have h : (counterUnit.check.toOption.bind fun t =>
      (generate counterUnit t {}).toOption).isSome = true := by
    decide +kernel
  obtain ⟨t, ht⟩ := counterUnit_accepted
  rw [ht] at h
  cases hg : generate counterUnit t {} with
  | ok g => exact ⟨t, g, ht, hg⟩
  | error e =>
    rw [Except.toOption, Option.bind_some, hg] at h
    cases h

end Awl.Code
