import Awl.Proofs.ExactUnit
import Awl.Proofs.EmitStmt

/-!
# What the code of a unit needs

The code of a unit is the dispatcher, the main code and a list of routines (`Emit.unit_eq`), each of
which binds its own label (`Emit.routine_takes`). The labels of all routines exist from the start,
and no two routines share one, so each label is bound exactly once.

Main result: the generator fails on an accepted unit only if registers or shared memory run out.
-/

namespace Awl.Code

open Machine

variable {body : FunctionBody} {f : FunctionId} {l : LabelId} {E : CodeError → Prop}
  {rs : List Routine} {u : SourceUnit} {r : Routine} {env : Env}

/-! ## Routines -/

/-- A piece of code with a label at its first instruction. -/
inductive Routine where
  | function (f : FunctionId) (body : FunctionBody)
  | initializer (c : ClassDef) (label : LabelId)
  | allocator
  | thread (index : Nat) (f : FunctionId) (body : FunctionBody)

namespace Routine

def code : Routine → Emit Unit
  | .function f body => Emit.function f body
  | .initializer c label => Emit.initializerRoutine c label
  | .allocator => Emit.allocatorRoutine
  | .thread index f body => Emit.thread index f body

/-- The label at the first instruction. -/
def label? (env : Env) : Routine → Option LabelId
  | .function f _ | .thread _ f _ => env.entries.get? f
  | .initializer _ label => some label
  | .allocator => some env.allocator

/-- The tables say everything about a routine that its code needs. -/
def Ready (t : Tables) : Routine → Prop
  | .function f body | .thread _ f body => ∃ fn frame,
    t.function? f = some fn ∧ fn.scope = some frame ∧ body.Ready t (some frame)
  | .initializer c _ => ∃ type id, t.types.class? c.name = some type ∧
    Check.MembersAt t type id c.fields ∧ Check.FieldsReady t c.fields
  | .allocator => True

end Routine

/-- The functions that have a core of their own, with their bodies. -/
def Env.threadBodies (env : Env) (u : SourceUnit) : List (FunctionId × FunctionBody) :=
  env.threads.filterMap fun f => ((definitions env.tables.functions u).lookup f).map (f, ·)

/-- The routines of a unit in the order of their code. -/
def Env.routines (env : Env) (u : SourceUnit) : List Routine :=
  ((definitions env.tables.functions u).filter fun p => !env.threads.contains p.1).map
    (fun p => .function p.1 p.2) ++
    u.classes.filterMap (fun c => (env.initializers.lookup c.name).map (.initializer c)) ++
    .allocator :: (env.threadBodies u).zipIdx.map (fun p => .thread p.2 p.1.1 p.1.2)

namespace Emit

theorem threads_eq (i : Nat) (bodies : List (FunctionId × FunctionBody)) : threads i bodies =
      ((bodies.zipIdx i).map (fun p => Routine.thread p.2 p.1.1 p.1.2)).forM Routine.code := by
  induction bodies generalizing i with
  | nil => rfl
  | cons p bodies ih =>
    rw [threads, ih]
    rfl

theorem initializers_eq (env : Env) (cs : List ClassDef) :
    (cs.forM fun c => match env.initializers.lookup c.name with
      | some label => initializerRoutine c label
      | none => pure ()) =
    (cs.filterMap fun c => (env.initializers.lookup c.name).map (.initializer c)).forM
        Routine.code := by
  induction cs with
  | nil => rfl
  | cons c cs ih =>
    rw [List.filterMap_cons, List.forM, ih]
    cases env.initializers.lookup c.name with
    | none => exact pure_bind ..
    | some label => rfl

theorem functions_eq (bodies : List (FunctionId × FunctionBody)) :
    (bodies.forM fun p => function p.1 p.2) = (bodies.map fun p => Routine.function p.1 p.2).forM
      Routine.code := by
  induction bodies with
  | nil => rfl
  | cons p bodies ih =>
    rw [List.forM, ih]
    rfl

/-- The code of a unit, with all its routines in one list. -/
theorem unit_eq (u : SourceUnit) (env : Env) (s : EmitState) :
    unit u env s = (do
      dispatch 0 env.threads
      mainCode u.statements
      (env.routines u).forM Routine.code) env s := by
  have h : (env.routines u).forM Routine.code = (do
      ((definitions env.tables.functions u).filter fun p => !env.threads.contains p.1).forM fun p =>
        function p.1 p.2
      u.classes.forM fun c => match env.initializers.lookup c.name with
        | some label => initializerRoutine c label
        | none => pure ()
      allocatorRoutine
      threads 0 (env.threadBodies u)) := by
    rw [functions_eq, initializers_eq, threads_eq, Env.routines]
    simp only [List.forM_eq_forM, List.forM_append, bind_assoc]
    rfl
  rw [h]
  rfl

/-! ## The code of a routine -/

/-- The code of a function between its entry and its end. -/
def bodyCode (ctx : Context) : FunctionBody → Emit Unit
  | .block b => do
    stmts ctx b.statements
    jumpBack none
  | .expression e => returnStatement ctx (some e)

theorem function_eq (f : FunctionId) (body : FunctionBody) : function f body = (do
    requireAllFree
    let scope ← frameScope f
    let first ← here
    bodyCode { function := some scope } body
    bind (← entry f) first
    comment first ("function " ++ (← entryName f))) := by
  cases body with
  | block b => simp only [function, bodyCode, bind_assoc]
  | expression e => simp only [function, bodyCode]

/-- The code of a thread once its flag is set. -/
def threadBody (ctx : Context) : FunctionBody → Emit Unit
  | .block b => stmts ctx b.statements
  | .expression e => do release (← expr ctx e)

theorem thread_eq (index : Nat) (f : FunctionId) (body : FunctionBody) : thread index f body = (do
    let flag := (← read).layout.threadFlag index
    let label ← entry f
    let r ← allocate
    let first ← here
    readShared (.direct flag)
    bind label first
    receive r
    compute .equal .zero r r
    branch r label
    release r
    comment first ("thread " ++ (← entryName f) ++ " waits for its flag")
    let scope ← frameScope f
    let exit ← createLabel "thread_exit"
    let size ← query (·.scopes.frameSize scope)
    enterRootFrame size exit
    threadBody { function := some scope } body
    let last ← here
    endProgram
    bind exit last) := by
  cases body with
  | block b => simp only [thread, threadBody]
  | expression e => simp only [thread, threadBody, bind_assoc]

variable {E : CodeError → Prop} {env : Env} {s : EmitState} {lo : Nat}
  {used : List Register}

theorem requireAllFree_run (hs : s.Uses []) : requireAllFree env s = .ok ((), s) := by
  have hfree : s.registers.allFree = true := by
    rw [Registers.allFree, hs.inUse]
    rfl
  refine bind_eq_ok.2 ⟨s, s, rfl, ?_⟩
  rw [hfree]
  rfl

theorem requireAllFree_takes : Takes E env [] lo [] requireAllFree lo fun _ => [] :=
    .ofEmits fun _ hs _ =>
  .run_last (requireAllFree_run hs) (.refl hs)

section
variable {ctx : Context} {used : List Register}
  [Exhausts E] (hbody : Allowed E (body.Ready env.tables ctx.function ∧ ctx.next = none))

include hbody

theorem bodyCode_takes : Takes E env [] lo used (bodyCode ctx body) (lo + 1) fun _ => used := by
  cases body with
  | block b =>
    have hss := stmts_steady ctx b.statements (hbody.imp fun h => by rw [h.2]; exact h.1)
    exact .seq hss.takes fun _ => jumpBack_takes none
  | expression e =>
    rw [bodyCode]
    exact returnStatement_takes ctx (hbody.imp (·.1))

theorem threadBody_steady : Steady E env (threadBody ctx body) := by
  cases body with
  | block b => exact stmts_steady ctx b.statements (hbody.imp fun h => by rw [h.2]; exact h.1)
  | expression e => exact expression_steady ctx (hbody.imp (·.1))

end

/-- The frame of a routine that is ready is the one that its code looks up. -/
theorem ready_body (index : Nat) {fn : Function} {scope : ScopeId}
    (h : (Routine.thread index f body).Ready env.tables)
    (hfn : env.tables.function? f = some fn) (hscope : fn.scope = some scope) :
    body.Ready env.tables (some scope) := by
  obtain ⟨fn', frame, hfn', hframe, hbody⟩ := h
  obtain rfl := Option.mem_unique hfn' hfn
  obtain rfl := Option.mem_unique hframe hscope
  exact hbody

theorem ready_function (index : Nat) (h : (Routine.thread index f body).Ready env.tables) :
    ∃ fn, env.tables.function? f = some fn := by
  obtain ⟨fn, _, hfn, _⟩ := h
  exact ⟨fn, hfn⟩

theorem function_takes [Exhausts E] (hr : Allowed E ((Routine.function f body).Ready env.tables)) :
    Takes E env (env.entries.get? f).toList lo [] (function f body) lo fun _ => [] := by
  have hf : Allowed E (∃ fn, env.tables.function? f = some fn) :=
    hr.imp (ready_function 0)
  rw [function_eq]
  refine .seq requireAllFree_takes fun _ => .frameScope hf fun fn scope hfn hscope _ => .mark
    fun first _ => .le (.seq (bodyCode_takes (hr.imp fun h => ⟨ready_body 0 h hfn hscope, rfl⟩))
      fun _ => .entry hf fun l hl => ?_) (Nat.le_succ_of_le ‹_›)
  rw [hl]
  exact .binds (.seq (entryName_takes hf) fun _ => .comment (Nat.lt_succ_self _))

theorem initializeFields_steady [Exhausts E] {id : ScopeId} : ∀ (fields : List Declaration),
    Allowed E (Check.FieldsReady env.tables fields ∧ ∀ d ∈ fields, ∃ b k,
      env.tables.scopes.bindingAt? id d.name = some b ∧ b.offset = some k) →
    Steady E env (initializeFields id fields)
  | [], _ => .of fun _ _ => .pure () rfl
  | d :: fields, h => by
    have ih := initializeFields_steady fields (h.imp fun h =>
      ⟨fun d hd => h.1 d (.tail _ hd), fun d hd => h.2 d (.tail _ hd)⟩)
    have hoffset : Allowed E (∃ k, env.tables.scopes.offset? id d.name = .ok (some k)) := by
      refine h.imp fun h => ?_
      obtain ⟨b, k, hb, hk⟩ := h.2 d (.head _)
      obtain ⟨sc, hsc, hb⟩ := ScopeTree.exists_of_bindingAt? hb
      exact ⟨k, by rw [ScopeTree.offset?_eq hsc, hb, ← hk]; rfl⟩
    unfold initializeFields
    refine .of fun lo used => ?_
    cases hi : d.initializer with
    | none => exact ih.takes
    | some e =>
      have he : Allowed E (e.Ready env.tables none) := h.imp fun h => by
        have hd := h.1 d (.head _)
        rwa [hi] at hd
      refine .query (hoffset.imp fun h => ⟨_, h.choose_spec⟩) fun o ho =>
        .expect (hoffset.imp fun h => ?_) fun k _ =>
        .le (.seq (expr_fresh e he).takes fun value => .seq (loadFrame_takes 0 .of) fun object =>
        .seq (writeElement_takes object k value .of) fun _ => .seq .release fun _ =>
        .seq .release fun _ => ih.takes) (by omega)
      obtain ⟨k, hk⟩ := h
      exact ⟨k, Except.ok.inj (ho.symm.trans hk)⟩

theorem initializerRoutine_takes [Exhausts E] {c : ClassDef}
    (hr : Allowed E ((Routine.initializer c l).Ready env.tables)) :
    Takes E env [l] lo [] (initializerRoutine c l) lo fun _ => [] := by
  have hclass : Allowed E ((env.tables.types.class? c.name).isSome = true) := hr.imp fun h => by
    obtain ⟨type, _, htype, _⟩ := h
    exact Option.isSome_iff_exists.2 ⟨type, htype⟩
  refine .seq requireAllFree_takes fun _ s hs hfit hlo hl => memberScope_sat hfit hclass
    fun type scope htype hscope _ => ?_
  have hfields : Steady E env (initializeFields scope c.fields) :=
      initializeFields_steady c.fields (hr.imp fun h => by
    obtain ⟨type', _, htype', hm, hready⟩ := h
    obtain rfl := Option.mem_unique htype' htype
    obtain rfl := Option.mem_unique hm.scope hscope
    exact ⟨hready, hm.slots⟩)
  have htakes : Takes E env [l] lo [] (do
      let first ← here
      initializeFields scope c.fields
      jumpBack none
      bind l first
      comment first ("initialize fields of " ++ c.name)) lo fun _ => [] := .mark fun first _ =>
    .le (.seq hfields.takes fun _ => .seq (jumpBack_takes none) fun _ =>
      .binds (.comment (by omega))) (by omega)
  exact htakes s hs hfit hlo hl

theorem allocatorRoutine_takes [Exhausts E] :
    Takes E env [env.allocator] lo [] allocatorRoutine lo fun _ => [] :=
  -- The entry is bound before the label of the second part.
  .read <| .label fun _ => .perm (.swap ..) <| .seq (.allocate .of) fun base => .seq (.allocate .of)
    fun size => .mark fun first _ => .le (.step rfl <| .binds <| .seq (.comment (by omega)) fun _ =>
      .step rfl <| .step rfl <| .step rfl <| .here fun _ => .step rfl <| .binds <| .step rfl <|
    .step rfl <| .step rfl <| .step rfl <| .step rfl <| .step rfl <| .step rfl <|
    .seq .release fun _ => .seq (jumpBack_takes (some base)) fun _ => .release) (by omega)

theorem enterRootFrame_takes (n : Nat) (exit : LabelId) :
    Takes E env [] lo used (enterRootFrame n exit) (lo + 1) fun _ => used :=
      .le (.seq (.pushZeros n) fun _ =>
  .step rfl <| .step rfl <| .step rfl <| .step rfl <| .step rfl <|
    .emit rfl) (by omega)

/-- The end of the code of a core. -/
theorem endCode_takes {exit : LabelId} : Takes E env [exit] lo used (do
    let last ← here
    endProgram
    bind exit last) lo fun _ => used := .here fun _ => .le (.step rfl <|
  .bindLabel) (by omega)

theorem thread_takes [Exhausts E] {index : Nat}
    (hr : Allowed E ((Routine.thread index f body).Ready env.tables)) :
    Takes E env (env.entries.get? f).toList lo [] (thread index f body) lo fun _ => [] := by
  have hf := hr.imp (ready_function _)
  rw [thread_eq]
  refine .read (.entry hf fun l hl => ?_)
  rw [hl]
  exact .seq (.allocate .of) fun r => .mark fun first _ => .le (.step rfl <| .binds <| .step rfl <|
    .step rfl <| .step rfl <| .seq .release fun _ => .seq (entryName_takes hf) fun _ =>
    .seq (.comment (by omega)) fun _ => .frameScope hf fun fn scope hfn hscope hsize =>
    .label fun exit => .query (hsize.imp fun h => ⟨_, h.choose_spec.1⟩)
    fun size _ => .seq (enterRootFrame_takes size exit) fun _ =>
    .seq (threadBody_steady (hr.imp fun h => ⟨ready_body _ h hfn hscope, rfl⟩)).takes fun _ =>
    endCode_takes) (by omega)

theorem mainCode_steady [Exhausts E] {statements : List Stmt}
    (h : Allowed E (Stmt.ReadyAll env.tables none false statements ∧
      ∃ size, env.tables.scopes.frameSize ScopeTree.globalId = .ok size)) :
    Steady E env (mainCode statements) := .of fun _ _ => .label
      fun exit => .query (h.imp (·.2)) fun size _ =>
  .mark fun first _ =>
    .le (.seq (enterRootFrame_takes size exit) fun _ => .seq (.comment (by omega)) fun _ =>
    .seq (stmts_steady {} statements (h.imp (·.1))).takes fun _ => endCode_takes) (by omega)

theorem dispatch_steady [Exhausts E] : ∀ (fs : List FunctionId) (index : Nat),
    Allowed E (∀ f ∈ fs, ∃ fn, env.tables.function? f = some fn) → Steady E env (dispatch index fs)
  | [], _, _ => .of fun _ _ => .pure () rfl
  | f :: fs, index, hfs => by
    have ih := dispatch_steady fs (index + 1) (hfs.imp fun h f hf => h f (.tail _ hf))
    have hf := hfs.imp fun h => h f (.head _)
    exact .of fun lo used => .seq (.allocate .of) fun r => .mark fun first _ =>
      .le (.step rfl <| .step rfl <| .entry hf fun l _ => .step rfl <|
        .seq .release fun _ => .query (hf.imp fun h =>
      ⟨_, Slots.fetch_eq_ok_iff.2 h.choose_spec⟩) fun _ _ => .seq (.comment (by omega)) fun _ =>
      ih.takes) (by omega)

/-- The code of a routine binds its label and leaves the others alone. -/
theorem routine_takes [Exhausts E] (hr : Allowed E (r.Ready env.tables)) :
    Takes E env (r.label? env).toList lo [] r.code lo fun _ => [] := by
  cases r with
  | function f body => exact function_takes hr
  | initializer c label => exact initializerRoutine_takes hr
  | allocator => exact allocatorRoutine_takes
  | thread index f body => exact thread_takes hr

/-- The labels of routines. -/
abbrev labels (env : Env) (rs : List Routine) : List LabelId :=
  rs.flatMap fun r => (r.label? env).toList

theorem routines_takes [Exhausts E] : ∀ (rs : List Routine),
    Allowed E (∀ r ∈ rs, r.Ready env.tables) →
    Takes E env (labels env rs) lo [] (rs.forM Routine.code) lo fun _ => []
  | [], _ => .pure () rfl
  | r :: rs, h =>
    (routine_takes (h.imp fun h => h r (.head _))).bind fun _ =>
      routines_takes rs (h.imp fun h r hr => h r (.tail _ hr))

theorem labels_nodup (h : rs.Pairwise fun r r' => r.label? env ≠ r'.label? env) :
    (labels env rs).Nodup := by
  refine List.nodup_flatMap.2 ⟨fun r _ => ?_, h.imp fun {r r'} hne l hl hl' => hne ?_⟩
  · cases r.label? env with
    | none => exact .nil
    | some l => exact List.nodup_singleton l
  · rw [Option.mem_toList.1 hl, Option.mem_toList.1 hl']

end Emit

/-! ## Where the generator starts -/

/-- The classes whose fields need code. -/
def initializedClasses (u : SourceUnit) (t : Tables) : List String :=
  ((u.classes.filter hasInitializers).filter fun c => (t.types.class? c.name).isSome).map (·.name)

/-- The state before any code, with a label for each routine. -/
def startState (u : SourceUnit) (t : Tables) : EmitState :=
  let empty : EmitState := { program := { cores := t.functions.threads.length + 1 } }
  ((empty.addLabels (t.functions.functions.toList.map functionLabel)).addLabels
    ((initializedClasses u t).map (· ++ ".init"))).addLabel "alloc"

/-- What the generator knows about a unit before it emits any code. The labels are numbered in the
order of the functions, then of the classes; the last one is the label of the allocator. -/
def startEnv (u : SourceUnit) (t : Tables) (options : Options) (layout : StaticLayout) : Env where
  tables := t
  options := options
  layout := layout
  threads := t.functions.threads
  entries := { items := (List.range t.functions.functions.size).toArray }
  initializers := ((initializedClasses u t).zip (List.range' t.functions.functions.size
    (initializedClasses u t).length)).reverse
  allocator := t.functions.functions.size + (initializedClasses u t).length

theorem createLabels_eq (s : EmitState) (names : List String) : createLabels s.program names =
      (List.range' s.labels names.length, (s.addLabels names).program) := by
  induction names generalizing s with
  | nil => rfl
  | cons name names ih =>
    have := ih (s.addLabel name)
    rw [EmitState.addLabel_labels] at this
    show ((s.program.createLabel name).1 :: (createLabels (s.addLabel name).program names).1,
      (createLabels (s.addLabel name).program names).2) = _
    rw [this]
    rfl

section
variable (u : SourceUnit) (t : Tables)

theorem startState_registers : (startState u t).registers = {} :=
  (EmitState.addLabels_registers ..).trans (EmitState.addLabels_registers ..)

theorem startState_uses : (startState u t).Uses [] :=
  ⟨by rw [startState_registers]; exact .initial, by rw [startState_registers]⟩

theorem startState_labels : (startState u t).labels =
    t.functions.functions.size + (initializedClasses u t).length + 1 := by
  simp only [startState, EmitState.addLabel_labels, EmitState.addLabels_labels, List.length_map]
  exact congrArg (· + _ + 1) (Nat.zero_add _)

theorem startState_unbound (hl : l < (startState u t).labels) : (startState u t).Unbound l := by
  have hone : ∀ (s : EmitState) (name : String), (∀ l, l < s.labels → s.Unbound l) →
      ∀ l, l < (s.addLabel name).labels → (s.addLabel name).Unbound l := fun s name h l hl => by
    rw [EmitState.addLabel_labels] at hl
    rcases Nat.eq_or_lt_of_le (Nat.le_of_lt_succ hl) with rfl | hlt
    · exact s.addLabel_unbound name
    · exact (h l hlt).addLabel name
  have hmany : ∀ (names : List String) (s : EmitState), (∀ l, l < s.labels → s.Unbound l) →
      ∀ l, l < (s.addLabels names).labels → (s.addLabels names).Unbound l := fun names => by
    induction names with
    | nil => exact fun s h => h
    | cons name names ih => exact fun s h => ih _ (hone s name h)
  let empty : EmitState := { program := { cores := t.functions.threads.length + 1 } }
  have hempty : ∀ l, l < empty.labels → empty.Unbound l := fun l hl =>
    absurd hl (Nat.not_lt_zero l)
  exact hone _ _ (hmany _ _ (hmany _ _ hempty)) l hl

end

section
variable {u : SourceUnit} {t : Tables} (options : Options) (layout : StaticLayout)

/-- The entry of a function has the number of the function. -/
theorem startEnv_entry {f : Nat} (hf : f < t.functions.functions.size) :
    (startEnv u t options layout).entries.get? f = some f := by
  simp [startEnv, Slots.get?, hf]

/-- The entries of the field routines come after those of the functions. -/
theorem startEnv_initializer {x : String}
    (h : (startEnv u t options layout).initializers.lookup x = some l) :
    ∃ i, (initializedClasses u t)[i]? = some x ∧ l = t.functions.functions.size + i := by
  obtain ⟨l1, l2, heq, -⟩ := List.lookup_eq_some_iff.1 h
  have hmem : (x, l) ∈ (initializedClasses u t).zip (List.range' t.functions.functions.size
      (initializedClasses u t).length) := List.mem_reverse.1 (by
    show (x, l) ∈ (startEnv u t options layout).initializers
    rw [heq]
    simp)
  obtain ⟨i, hi⟩ := List.mem_iff_getElem?.1 hmem
  rw [List.getElem?_zip_eq_some] at hi
  refine ⟨i, hi.1, ?_⟩
  have hrange := hi.2
  rw [List.getElem?_range' (List.getElem?_eq_some_iff.1 hi.1).1] at hrange
  exact (Option.some.inj hrange).symm.trans (by rw [Nat.one_mul])

end

/-- The generator places the static words and then emits the unit from `startState`. -/
theorem generate_eq (u : SourceUnit) (t : Tables) (options : Options) :
    generate u t options = (do
      let globals ← orFault (t.scopes.frameSize ScopeTree.globalId)
      let layout ← StaticLayout.place options.sharedMemory t.functions.threads.length globals
      let p ← Emit.unit u (startEnv u t options layout) (startState u t)
      return { program := p.2.program, layout, threads := t.functions.threads }) := by
  have hsize : t.functions.functions.toList.length = t.functions.functions.size := by
    simp [Slots.toList, Slots.size]
  let empty : EmitState := { program := { cores := t.functions.threads.length + 1 } }
  have hentries := createLabels_eq empty (t.functions.functions.toList.map functionLabel)
  have hlabels : (empty.addLabels (t.functions.functions.toList.map functionLabel)).labels =
      t.functions.functions.size := by
    rw [EmitState.addLabels_labels, List.length_map]
    exact Nat.zero_add _
  have hclasses := createLabels_eq
    (empty.addLabels (t.functions.functions.toList.map functionLabel))
    ((initializedClasses u t).map (· ++ ".init"))
  rw [List.length_map, hsize, show List.range' empty.labels t.functions.functions.size =
    List.range t.functions.functions.size from List.range_eq_range'.symm] at hentries
  rw [List.length_map, hlabels] at hclasses
  refine bind_congr fun globals => bind_congr fun layout => ?_
  dsimp only
  rw [show ({ cores := t.functions.threads.length + 1 } : Program) = empty.program from rfl,
    hentries]
  rw [show ((u.classes.filter hasInitializers).filter fun c => (t.types.class? c.name).isSome).map
    (·.name) = initializedClasses u t from rfl, hclasses]
  have hallocator : (empty.addLabels (t.functions.functions.toList.map functionLabel) |>.addLabels
      ((initializedClasses u t).map (· ++ ".init"))).program.createLabel "alloc" =
      (t.functions.functions.size + (initializedClasses u t).length, (startState u t).program) := by
    refine Prod.ext ?_ rfl
    show EmitState.labels _ = _
    rw [EmitState.addLabels_labels, hlabels, List.length_map]
  rw [hallocator]
  have hstate : ({ program := (startState u t).program } : EmitState) = startState u t :=
    congrArg (EmitState.mk _) (startState_registers u t).symm
  rw [hstate]
  rfl

/-! ## The routines of an accepted unit -/

theorem Env.mem_threadBodies {p : FunctionId × FunctionBody} (h : p ∈ env.threadBodies u) :
    p.1 ∈ env.threads ∧
    p ∈ definitions env.tables.functions u := by
  obtain ⟨f, hf, hbody⟩ := List.mem_filterMap.1 h
  obtain ⟨body, hlookup, rfl⟩ := Option.map_eq_some_iff.1 hbody
  obtain ⟨l1, l2, hl, -⟩ := List.lookup_eq_some_iff.1 hlookup
  refine ⟨hf, ?_⟩
  rw [hl]
  simp

theorem Env.threadBodies_apart (env : Env) (u : SourceUnit) (h : env.threads.Nodup) :
    (env.threadBodies u).Pairwise fun p q => p.1 ≠ q.1 := by
  refine List.Pairwise.filterMap _ (fun f f' hne p hp p' hp' => ?_) h
  obtain ⟨_, _, rfl⟩ := Option.map_eq_some_iff.1 hp
  obtain ⟨_, _, rfl⟩ := Option.map_eq_some_iff.1 hp'
  exact hne

theorem threads_nodup (t : FunctionTable) : t.threads.Nodup := by
  have hids : (t.entries.map (·.1)).Nodup := by
    rw [FunctionTable.entries, Slots.entries, List.map_map]
    show (t.functions.toList.zipIdx.map Prod.snd).Nodup
    rw [List.zipIdx_map_snd]
    exact List.nodup_range'
  exact hids.sublist (List.filter_sublist.map _)

section
variable {u : SourceUnit} {t : Tables} (hu : u.Sound t)
include hu

/-- The functions of an accepted unit are its definitions. -/
theorem functions_size : t.functions.functions.size = u.definitions.length := by
  refine Nat.le_antisymm (Nat.le_of_not_lt fun hlt => ?_) (Nat.le_of_not_lt fun hlt => ?_)
  · obtain ⟨f, hf⟩ := Slots.exists_of_lt hlt
    exact Nat.lt_irrefl _ (hu.functions _ f hf)
  · obtain ⟨f, _, _, _, hf, _⟩ := (hu.definitions _ _ (List.getElem?_eq_getElem hlt)).ready
    exact Nat.lt_irrefl _ (Slots.lt_of_get? hf)

theorem definitions_eq : definitions t.functions u = u.definitions.zipIdx.map
    fun p => (p.2, p.1.body) := by
  have hlookup : ∀ (ds : List Definition) (i : Nat),
      (∀ (j : Nat) d, ds[j]? = some d → t.functions.lookup d.node.id = some (i + j)) →
      (ds.map fun d => (d.node.id, d.body)).filterMap (fun p =>
        (t.functions.lookup p.1).map (·, p.2)) =
      (ds.zipIdx i).map fun p => (p.2, p.1.body) := fun ds => by
    induction ds with
    | nil => exact fun _ _ => rfl
    | cons d ds ih =>
      intro i h
      have hd : t.functions.lookup d.node.id = some i := h 0 d rfl
      have hds := ih (i + 1) fun j d' hj => by
        rw [h (j + 1) d' hj, Nat.add_assoc, Nat.add_comm 1]
      simp only [List.map_cons, List.zipIdx_cons, List.filterMap_cons, hd, hds, Option.map_some]
  rw [← hlookup u.definitions 0 fun j d hj => by
    rw [(hu.definitions j d hj).bound, Nat.zero_add]]
  simp only [definitions, SourceUnit.definitions, ClassDef.definitions, List.map_append,
    List.map_flatMap, List.map_map]
  rfl

theorem mem_definitions (h : (f, body) ∈ definitions t.functions u) :
    ∃ d, u.definitions[f]? = some d ∧ d.body = body := by
  rw [definitions_eq hu, List.mem_map] at h
  obtain ⟨⟨d, i⟩, hmem, heq⟩ := h
  cases heq
  exact ⟨d, List.mk_mem_zipIdx_iff_getElem?.1 hmem, rfl⟩

theorem definition_ready (h : (f, body) ∈ definitions t.functions u) : ∃ fn frame,
    t.function? f = some fn ∧ fn.scope = some frame ∧ body.Ready t (some frame) := by
  obtain ⟨d, hd, rfl⟩ := mem_definitions hu h
  obtain ⟨fn, frame, _, _, hfn, hframe, _, _, _, hbody⟩ := (hu.definitions f d hd).ready
  exact ⟨fn, frame, hfn, hframe, hbody⟩

theorem startEnv_fits (options : Options) (layout : StaticLayout) :
    (startEnv u t options layout).Fits (startState u t) where
  frame id f hf := by
    obtain ⟨d, hd⟩ : ∃ d, u.definitions[id]? = some d :=
      ⟨_, List.getElem?_eq_getElem (hu.functions id f hf)⟩
    obtain ⟨fn, frame, _, sc, hfn, hframe, hlen, _, hat, _⟩ := (hu.definitions id d hd).ready
    obtain rfl := Option.mem_unique hfn hf
    refine ⟨frame, sc.slots, hframe, ?_, by rw [hlen]; exact hat.filled⟩
    exact ScopeTree.frameSize_eq hat.isScope (by rw [hat.owner]; exact hat.isScope)
  entry id f hf := by
    have hlt : id < t.functions.functions.size := Slots.lt_of_get? hf
    refine ⟨id, startEnv_entry options layout hlt, ?_⟩
    rw [startState_labels]
    exact Nat.lt_succ_of_lt (Nat.lt_of_lt_of_le hlt (Nat.le_add_right ..))
  thread id f hf hthread := by
    refine List.mem_map.2 ⟨(id, f), List.mem_filter.2 ⟨?_, hthread⟩, rfl⟩
    refine List.mem_map.2 ⟨(f, id), List.mk_mem_zipIdx_iff_getElem?.2 ?_, rfl⟩
    exact Array.getElem?_toList.trans hf
  members x c hx := by
    obtain ⟨d, hd, rfl⟩ := hu.registered x c hx
    obtain ⟨type, id, htype, hm, _⟩ := hu.classes d hd
    obtain rfl := Option.mem_unique htype hx
    obtain ⟨sc, hsc, _, _, howner⟩ := hm.isMembers
    exact ⟨id, sc.slots, hm.scope, ScopeTree.frameSize_eq hsc (by rw [howner]; exact hsc)⟩

theorem mem_threads (hf : f ∈ t.functions.threads) :
    ∃ body, (f, body) ∈ definitions t.functions u := by
  obtain ⟨⟨f, fn⟩, hmem, rfl⟩ := List.mem_map.1 hf
  obtain ⟨⟨_, _⟩, hentry, heq⟩ := List.mem_map.1 (List.mem_filter.1 hmem).1
  cases heq
  have hget : t.function? f = some fn :=
    Array.getElem?_toList.symm.trans (List.mk_mem_zipIdx_iff_getElem?.1 hentry)
  obtain ⟨d, hd⟩ : ∃ d, u.definitions[f]? = some d :=
    ⟨_, List.getElem?_eq_getElem (hu.functions f fn hget)⟩
  refine ⟨d.body, ?_⟩
  rw [definitions_eq hu]
  exact List.mem_map.2 ⟨(d, f), List.mk_mem_zipIdx_iff_getElem?.2 hd, rfl⟩

theorem definitions_nodup : ((definitions t.functions u).map (·.1)).Nodup := by
  rw [definitions_eq hu, List.map_map]
  show (u.definitions.zipIdx.map Prod.snd).Nodup
  rw [List.zipIdx_map_snd]
  exact List.nodup_range'

/-- The routines of an accepted unit are ready, and their labels are still to be bound. -/
theorem routines_ready (options : Options) (layout : StaticLayout)
    (hr : r ∈ (startEnv u t options layout).routines u) :
    r.Ready t ∧ ∃ l, r.label? (startEnv u t options layout) = some l ∧
      (startState u t).Unbound l := by
  have hentry : ∀ {f fn}, t.function? f = some fn → ∃ l,
      (startEnv u t options layout).entries.get? f = some l ∧
      (startState u t).Unbound l := fun hf => by
    obtain ⟨l, hl, hlt⟩ := (startEnv_fits hu options layout).entry _ _ hf
    exact ⟨l, hl, startState_unbound u t hlt⟩
  simp only [Env.routines, List.mem_append, List.mem_cons, List.mem_map, List.mem_filterMap,
    List.mem_filter] at hr
  rcases hr with (⟨⟨f, body⟩, ⟨hmem, -⟩, rfl⟩ | ⟨c, hc, hr⟩) | rfl | ⟨⟨⟨f, body⟩, i⟩, hmem, rfl⟩
  · obtain ⟨fn, frame, hfn, hready⟩ := definition_ready hu hmem
    exact ⟨⟨fn, frame, hfn, hready⟩, hentry hfn⟩
  · obtain ⟨l, hl, rfl⟩ := Option.map_eq_some_iff.1 hr
    obtain ⟨i, hi, rfl⟩ := startEnv_initializer options layout hl
    obtain ⟨type, id, htype, hm, hfields⟩ := hu.classes c hc
    refine ⟨⟨type, id, htype, hm, hfields⟩, _, rfl, startState_unbound u t ?_⟩
    have := (List.getElem?_eq_some_iff.1 hi).1
    rw [startState_labels]
    exact Nat.lt_succ_of_lt (Nat.add_lt_add_left this _)
  · refine ⟨trivial, _, rfl, startState_unbound u t ?_⟩
    rw [startState_labels]
    exact Nat.lt_succ_self _
  · have hmem' := List.mem_of_getElem? (List.mk_mem_zipIdx_iff_getElem?.1 hmem)
    obtain ⟨fn, frame, hfn, hready⟩ := definition_ready hu (Env.mem_threadBodies hmem').2
    exact ⟨⟨fn, frame, hfn, hready⟩, hentry hfn⟩

/-- No two routines share an entry. -/
theorem routines_apart (options : Options) (layout : StaticLayout) :
    ((startEnv u t options layout).routines u).Pairwise fun r r' =>
      r.label? (startEnv u t options layout) ≠ r'.label? (startEnv u t options layout) := by
  let env := startEnv u t options layout
  let size := t.functions.functions.size
  have hfunction : ∀ {f body}, (f, body) ∈ definitions t.functions u →
      env.entries.get? f = some f ∧ f < size := fun h => by
    obtain ⟨fn, _, hfn, _⟩ := definition_ready hu h
    exact ⟨startEnv_entry options layout (Slots.lt_of_get? hfn), Slots.lt_of_get? hfn⟩
  have hthread : ∀ {p i}, (p, i) ∈ (env.threadBodies u).zipIdx →
      p.1 ∈ env.threads ∧ env.entries.get? p.1 = some p.1 ∧ p.1 < size := fun h => by
    have hmem := List.mem_of_getElem? (List.mk_mem_zipIdx_iff_getElem?.1 h)
    exact ⟨(Env.mem_threadBodies hmem).1, hfunction (Env.mem_threadBodies hmem).2⟩
  have hfield : ∀ {c : ClassDef} {l}, env.initializers.lookup c.name = some l →
      ∃ i, (initializedClasses u t)[i]? = some c.name ∧ l = size + i :=
    fun h => startEnv_initializer options layout h
  rw [Env.routines, List.append_assoc, List.pairwise_append, List.pairwise_append,
    List.pairwise_cons]
  refine ⟨?_, ⟨?_, ⟨?_, ?_⟩, ?_⟩, ?_⟩
  · -- Functions have numbers of their own.
    have hids : (definitions t.functions u).Pairwise fun p q => p.1 ≠ q.1 :=
      List.pairwise_map.1 (definitions_nodup hu)
    refine List.pairwise_map.2 ((hids.filter _).imp_of_mem fun {p q} hp hq hne => ?_)
    show env.entries.get? p.1 ≠ env.entries.get? q.1
    rw [(hfunction (List.mem_filter.1 hp).1).1, (hfunction (List.mem_filter.1 hq).1).1]
    exact fun h => hne (Option.some.inj h)
  · -- Classes have names of their own.
    have hnames : u.classes.Pairwise fun c c' => c.name ≠ c'.name :=
      List.pairwise_map.1 hu.classNames
    refine List.Pairwise.filterMap _ (fun c c' hne r hr r' hr' => ?_) hnames
    obtain ⟨l, hl, rfl⟩ := Option.map_eq_some_iff.1 hr
    obtain ⟨l', hl', rfl⟩ := Option.map_eq_some_iff.1 hr'
    obtain ⟨i, hi, rfl⟩ := hfield hl
    obtain ⟨i', hi', rfl⟩ := hfield hl'
    intro h
    obtain rfl : i = i' := Nat.add_left_cancel (Option.some.inj h)
    exact hne (Option.some.inj (hi.symm.trans hi'))
  · rintro r hr h
    obtain ⟨⟨p, i⟩, hp, rfl⟩ := List.mem_map.1 hr
    obtain ⟨-, hentry, hlt⟩ := hthread hp
    have heq : size + (initializedClasses u t).length = p.1 := Option.some.inj (h.trans hentry)
    exact absurd hlt (Nat.not_lt.2 (heq ▸ Nat.le_add_right ..))
  · have hids := env.threadBodies_apart u (threads_nodup t.functions)
    rw [← List.zipIdx_map_fst 0 (env.threadBodies u), List.pairwise_map] at hids
    refine List.pairwise_map.2 (hids.imp_of_mem fun {p q} hp hq hne => ?_)
    show env.entries.get? p.1.1 ≠ env.entries.get? q.1.1
    rw [(hthread hp).2.1, (hthread hq).2.1]
    exact fun h => hne (Option.some.inj h)
  · intro r hr r' hr' h
    obtain ⟨c, -, hc⟩ := List.mem_filterMap.1 hr
    obtain ⟨l, hl, rfl⟩ := Option.map_eq_some_iff.1 hc
    obtain ⟨i, hi, rfl⟩ := hfield hl
    have hlt := (List.getElem?_eq_some_iff.1 hi).1
    rcases List.mem_cons.1 hr' with rfl | hr'
    · have heq : size + i = size + (initializedClasses u t).length := Option.some.inj h
      omega
    · obtain ⟨⟨p, j⟩, hp, rfl⟩ := List.mem_map.1 hr'
      obtain ⟨-, hentry, hlt⟩ := hthread hp
      have heq : size + i = p.1 := Option.some.inj (h.trans hentry)
      exact absurd hlt (Nat.not_lt.2 (heq ▸ Nat.le_add_right ..))
  · intro r hr r' hr' h
    obtain ⟨⟨f, body⟩, hp, rfl⟩ := List.mem_map.1 hr
    obtain ⟨hmem, hnot⟩ := List.mem_filter.1 hp
    obtain ⟨hentry, hlt⟩ := hfunction hmem
    rcases List.mem_append.1 hr' with hr' | hr'
    · obtain ⟨c, -, hc⟩ := List.mem_filterMap.1 hr'
      obtain ⟨l, hl, rfl⟩ := Option.map_eq_some_iff.1 hc
      obtain ⟨i, hi, rfl⟩ := hfield hl
      have heq : f = size + i := Option.some.inj (hentry.symm.trans h)
      exact absurd hlt (Nat.not_lt.2 (heq ▸ Nat.le_add_right ..))
    rcases List.mem_cons.1 hr' with rfl | hr'
    · have heq : f = size + (initializedClasses u t).length := Option.some.inj (hentry.symm.trans h)
      exact absurd hlt (Nat.not_lt.2 (heq ▸ Nat.le_add_right ..))
    · obtain ⟨⟨p, j⟩, hp, rfl⟩ := List.mem_map.1 hr'
      obtain ⟨hthread, hentry', -⟩ := hthread hp
      have heq : f = p.1 := Option.some.inj (hentry.symm.trans (h.trans hentry'))
      rw [← heq] at hthread
      simp [env, hthread] at hnot

end

/-! ## Generating the code of an accepted unit -/

/-- The code of a unit, with what it needs to know about the unit. -/
theorem unit_takes {lo : Nat} [Emit.Exhausts E]
    (h : Allowed E ((∀ f ∈ env.threads, ∃ fn,
        env.tables.function? f = some fn) ∧
      (Stmt.ReadyAll env.tables none false u.statements ∧
        ∃ size, env.tables.scopes.frameSize ScopeTree.globalId = .ok size) ∧
      ∀ r ∈ rs, r.Ready env.tables)) :
    Emit.Takes E env (Emit.labels env rs) lo [] (do
      Emit.dispatch 0 env.threads
      Emit.mainCode u.statements
      rs.forM Routine.code) lo fun _ => [] :=
        .seq (Emit.dispatch_steady _ 0 (h.imp (·.1))).takes fun _ =>
    .seq (Emit.mainCode_steady (h.imp (·.2.1))).takes fun _ =>
    Emit.routines_takes rs (h.imp (·.2.2))

section
variable {u : SourceUnit} {t : Tables} (hu : u.Sound t) (options : Options) (layout : StaticLayout)
include hu

theorem start_ready : (∀ f ∈ t.functions.threads, ∃ fn, t.function? f = some fn) ∧
    (Stmt.ReadyAll t none false u.statements ∧
      ∃ size, t.scopes.frameSize ScopeTree.globalId = .ok size) ∧
    ∀ r ∈ (startEnv u t options layout).routines u, r.Ready t := by
  refine ⟨fun f hf => ?_, ⟨hu.main, ?_⟩, fun r hr => (routines_ready hu options layout hr).1⟩
  · obtain ⟨body, hbody⟩ := mem_threads hu hf
    obtain ⟨fn, _, hfn, _⟩ := definition_ready hu hbody
    exact ⟨fn, hfn⟩
  · obtain ⟨sc, hsc, -, -, howner⟩ := hu.laid.global
    exact ⟨_, ScopeTree.frameSize_eq hsc (by rw [howner]; exact hsc)⟩

theorem unit_sat [Emit.Exhausts E] :
    Emit.Sat E (Emit.unit u) (startEnv u t options layout) (startState u t) fun _ s' =>
      (startState u t).Emits 0 [] s' := by
  unfold Emit.Sat
  rw [Emit.unit_eq]
  refine (unit_takes (.of (start_ready hu options layout)) _ (startState_uses u t)
    (.of (startEnv_fits hu options layout)) (Nat.zero_le _) (.of ⟨Emit.labels_nodup
    (routines_apart hu options layout), fun l hl => ?_⟩)).weaken fun _ _ h => ⟨h.1.grows, h.1.uses⟩
  obtain ⟨r, hr, hl⟩ := List.mem_flatMap.1 hl
  obtain ⟨-, l', hl', hun⟩ := routines_ready hu options layout hr
  obtain rfl := Option.mem_unique hl' (Option.mem_toList.1 hl)
  exact hun

end

/-- **Accepted units have code**: with distinct node numbers, generating the code of a unit that the
checker accepts, from the tables of that check, fails only if registers or shared memory run out. No
lookup fails on the way, no label is bound twice and no register is given back twice. -/
theorem generate_of_check {u : SourceUnit} {t : Tables} (h : u.check = .ok t)
    (hids : (u.nodes.map (·.id)).Nodup) (options : Options) :
    (∃ g, generate u t options = .ok g) ∨ generate u t options = .error .registersExhausted ∨
      ∃ required available,
      generate u t options = .error (.sharedMemoryExhausted required available) := by
  have hu := SourceUnit.check_sound h hids
  obtain ⟨sc, hsc, -, -, howner⟩ := hu.laid.global
  have hglobals := ScopeTree.frameSize_eq hsc (by rw [howner]; exact hsc)
  have hrun : generate u t options = (do
      let layout ← StaticLayout.place options.sharedMemory t.functions.threads.length sc.slots
      let p ← Emit.unit u (startEnv u t options layout) (startState u t)
      return { program := p.2.program, layout, threads := t.functions.threads }) := by
    rw [generate_eq, hglobals]
    rfl
  cases hplace : StaticLayout.place options.sharedMemory t.functions.threads.length sc.slots with
  | error e =>
    rw [hplace] at hrun
    unfold StaticLayout.place at hplace
    dsimp only at hplace
    split at hplace
    · cases hplace
      exact .inr (.inr ⟨_, _, hrun⟩)
    · cases hplace
  | ok layout =>
    have hunit := unit_sat (E := (· = .registersExhausted)) hu options layout
    rw [hplace] at hrun
    unfold Emit.Sat at hunit
    cases hcode : Emit.unit u (startEnv u t options layout) (startState u t) with
    | ok p => exact .inl ⟨_, hrun.trans (by show (Emit.unit u _ _ >>= _) = _; rw [hcode]; rfl)⟩
    | error e =>
      rw [hcode] at hunit
      obtain rfl : e = .registersExhausted := hunit
      exact .inr (.inl (hrun.trans (by show (Emit.unit u _ _ >>= _) = _; rw [hcode]; rfl)))

/-- A counter whose method adds 1 or 2 to it: the first block of the switch goes on with the second
one. The main code makes a counter and calls the method. -/
def counterUnit : SourceUnit :=
  let value : Node → Expr := (.name · "value")
  let number : Node → Int32 → Expr := fun i n => .literal i (.int n)
  let raise : Block := .mk 14 [.assignment 15 (.name 16 "value")
    (.binary 17 .add (value 18) (number 19 1))]
  let body : Block := .mk 5 [
    .switch 6 (.name 7 "n")
      [.mk 8 (number 9 2) (.mk 10 [.assignment 30 (.name 31 "value")
        (.binary 32 .add (value 33) (number 34 1)), .next 11]), .mk 12 (number 13 1) raise] none,
    .return 20 (some (value 21))]
  { classes := [{
      node := 0
      name := "Counter"
      fields := [⟨1, .int, "value", some (number 2 7)⟩]
      methods := [⟨3, "add", [⟨4, "n", .int⟩], .int, false, .block body⟩]
      constructors := [] }]
    statements := [
      .declaration 22 ⟨23, .named "Counter", "counter", some (.new 24 "Counter" [])⟩,
      .declaration 25 ⟨26, .int, "total", some (.methodCall 27
        (.name 28 "counter") "add" [number 29 2])⟩] }

theorem counterUnit_accepted : ∃ t, counterUnit.check = .ok t := by
  have h : counterUnit.check.toBool = true := by decide +kernel
  cases hc : counterUnit.check with
  | ok t => exact ⟨t, rfl⟩
  | error e => rw [hc] at h; cases h

theorem counterUnit_nodup : (counterUnit.nodes.map (·.id)).Nodup := by decide +kernel

theorem generate_counterUnit : (counterUnit.nodes.map (·.id)).Nodup ∧
    ∃ t, counterUnit.check = .ok t ∧ ((∃ g, generate counterUnit t {} = .ok g) ∨
      generate counterUnit t {} = .error .registersExhausted ∨ ∃ required available,
        generate counterUnit t {} = .error (.sharedMemoryExhausted required available)) := by
  obtain ⟨t, ht⟩ := counterUnit_accepted
  exact ⟨counterUnit_nodup, t, ht, generate_of_check ht counterUnit_nodup {}⟩

end Awl.Code
