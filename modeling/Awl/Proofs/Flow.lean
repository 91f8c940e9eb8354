import Awl.Proofs.PlacedStmt

/-!
# The shape of the code of expressions

The code of an expression is a sequence of instructions that only write registers, and of calls.
Between its first and its last position it never leaves a register that was in use before with
another value (`Flow`), and it is made of nothing else (`Emit.expr_flows`). A call is described by
its `CallSite`: the positions of its parts, its arguments and the registers that it saves.

`Emit.Lies env m used used' C` is how such facts are proved: whenever an action is run, its code
lies in the program as `C` says.
-/

namespace Awl

variable {f : FunctionId} {es : List Expr} {keep : List Register} {n : Nat} {β : Type}
  {node : NodeId}

/-- A method is not a thread. -/
def Tables.MethodsRun (t : Tables) : Prop := ∀ f fn,
  t.function? f = some fn → fn.signature.isMethod = true → fn.isThread = false

theorem Tables.HasCallee.runs {t : Tables} (ht : t.MethodsRun) (h : t.HasCallee node n true)
    (hf : t.functions.lookup node = some f) :
    ∀ fn, t.function? f = some fn → fn.isThread = false ∧ fn.signature.arguments.length = n := by
  intro fn hfn
  obtain ⟨f', fn', hf', hfn', hn, hm⟩ := h
  obtain rfl := Option.mem_unique hf' hf
  obtain rfl := Option.mem_unique hfn' hfn
  exact ⟨ht f' fn' hfn hm, hn⟩

namespace Code

open Machine

/-! ## Calls -/

/-- The instructions of a call between its arguments and its jump. -/
def enterCode (saved : List Register) (entry returnLabel : LabelId) : List Ins :=
  [.push .arp, .constLabel returnLabel .arp, .push .arp, .push .zero] ++ saved.map .push ++
    [.const (saved.length + 2) .arp, .compute .add .sp .arp .arp, .jump (.label entry)]

/-- The instructions of a call from its return anchor on. -/
def leaveCode (saved : List Register) (size : Nat) (result : Register) : List Ins :=
  .nop :: saved.reverse.map .pop ++
    [.const (size + 1) result, .compute .add .arp result .sp, .const 2 result,
      .compute .sub .arp result result, .load (.indirect result) result,
      .load (.indirect .arp) .arp]

@[simp] theorem length_enterCode (saved : List Register) (entry returnLabel : LabelId) :
    (enterCode saved entry returnLabel).length = saved.length + 7 := by
  simp only [enterCode, List.length_append, List.length_map, List.length_cons, List.length_nil]
  omega

@[simp] theorem length_leaveCode (saved : List Register) (size : Nat) (result : Register) :
    (leaveCode saved size result).length = saved.length + 7 := by
  simp only [leaveCode, List.length_append, List.length_map, List.length_cons, List.length_nil,
    List.length_reverse]

/-- What is called. The first argument of a constructor and of the routine that initializes fields
is the object; the argument of an allocation is its size. -/
inductive Call where
  | function (ctx : Context) (f : FunctionId) (arguments : List Expr)
  | method (ctx : Context) (f : FunctionId) (receiver : Expr) (arguments : List Expr)
  | constructor (ctx : Context) (f : FunctionId) (arguments : List Expr)
  | initializer (className : String)
  | allocation

/-- The expressions whose values are the arguments, in order. The value of an object or of a size is
in a register already. -/
def Call.sources : Call → List (Option (Context × Expr))
  | .function ctx _ es => es.map fun e => some (ctx, e)
  | .method ctx _ receiver es => some (ctx, receiver) :: es.map fun e => some (ctx, e)
  | .constructor ctx _ es => none :: es.map fun e => some (ctx, e)
  | .initializer _ | .allocation => [none]

/-- A function of this many arguments that is not a thread, with its entry and the size of its
frame. -/
def FunctionEntry (env : Env) (f : FunctionId) (arguments : Nat) (entry : LabelId)
    (size : Nat) : Prop :=
  ∃ fn scope, env.tables.function? f = some fn ∧ fn.isThread = false ∧
    fn.signature.arguments.length = arguments ∧ fn.scope = some scope ∧
    env.tables.scopes.frameSize scope = .ok size ∧ env.entries.get? f = some entry

/-- The label that a call goes to, and the number of slots of the frame that it builds. -/
inductive Call.Goes (env : Env) : Call → LabelId → Nat → Prop
  | function {ctx : Context} {f : FunctionId} {es : List Expr} {l : LabelId} {size : Nat} :
      FunctionEntry env f es.length l size → Goes env (.function ctx f es) l size
  | method {ctx : Context} {f : FunctionId} {receiver : Expr} {es : List Expr} {l : LabelId}
      {size : Nat} : FunctionEntry env f (es.length + 1) l size →
      Goes env (.method ctx f receiver es) l size
  | constructor {ctx : Context} {f : FunctionId} {es : List Expr} {l : LabelId} {size : Nat} :
      FunctionEntry env f (es.length + 1) l size → Goes env (.constructor ctx f es) l size
  | initializer {c : String} {l : LabelId} : env.initializers.lookup c = some l →
      Goes env (.initializer c) l 1
  | allocation : Goes env .allocation env.allocator 1

/-- An argument: where its value is computed, and the register that holds it then. -/
structure Argument where
  /-- The expression, unless the value is in the register already. -/
  source : Option (Context × Expr)
  first : Nat
  last : Nat
  register : Register

/-- The code of an argument lies where it is said to lie. -/
def Argument.At (env : Env) (P : Program) (used : List Register) (a : Argument) : Prop :=
  match a.source with
  | some (ctx, e) => Emit.Placed env P (Emit.expr ctx e) used a.first a.register a.last
  | none => a.first = a.last

/-- A call in a program. -/
structure CallSite where
  call : Call
  /-- The label of the callee. -/
  entry : LabelId
  /-- The number of slots of the callee's frame. -/
  size : Nat
  arguments : List Argument
  /-- The registers in use, the oldest one first. -/
  saved : List Register
  result : Register
  returnLabel : LabelId
  /-- The position of the first instruction. -/
  first : Nat
  /-- The position after the arguments. -/
  enter : Nat

namespace CallSite

/-- The position of the jump to the callee. -/
def jump (s : CallSite) : Nat := s.enter + s.saved.length + 6

/-- The position that the callee comes back to. -/
def anchor (s : CallSite) : Nat := s.enter + s.saved.length + 7

/-- The position after the call. -/
def last (s : CallSite) : Nat := s.anchor + s.saved.length + 7

/-- The number of slots that no argument is for. -/
def rest (s : CallSite) : Nat := s.size - s.arguments.length

/-- The instructions of a call, arguments aside. -/
structure At (env : Env) (P : Program) (s : CallSite) : Prop where
  goes : s.call.Goes env s.entry s.size
  sources : s.arguments.map (·.source) = s.call.sources
  fits : s.arguments.length ≤ s.size
  general : ∀ r ∈ s.saved, r ∈ generalPurpose
  nodup : s.saved.Nodup
  free : Free s.saved s.result
  zeros : P.HasAll s.first (.replicate s.rest (.push .zero))
  enters : P.HasAll s.enter (enterCode s.saved s.entry s.returnLabel)
  returns : P.target? s.returnLabel = some s.anchor
  leaves : P.HasAll s.anchor (leaveCode s.saved s.size s.result)

end CallSite

/-! ## Code of expressions -/

/-- An instruction that writes nothing but a register that may be taken, or the shared memory. -/
inductive Quiet (keep : List Register) : Ins → Prop
  | const {v : Int} {r : Register} : Free keep r → Quiet keep (.const v r)
  | compute {op : Operator} {x y z : Register} : Free keep z → Quiet keep (.compute op x y z)
  | load {a : Address} {r : Register} : Free keep r → Quiet keep (.load a r)
  | read {a : Address} : Quiet keep (.read a)
  | receive {r : Register} : Free keep r → Quiet keep (.receive r)
  | write {r : Register} {a : Address} : Quiet keep (.write r a)
  | testAndSet {a : Address} : Quiet keep (.testAndSet a)
  | nop : Quiet keep .nop

section
variable (env : Env) (P : Program)

mutual

/-- Code from one position to another that computes values and leaves the registers `keep` alone. -/
inductive Flow : List Register → Nat → Nat → Prop
  | nil {keep : List Register} {i : Nat} : Flow keep i i
  | quiet {keep : List Register} {i j : Nat} {x : Ins} : P.Has i x.1 x.2 → Quiet keep x →
      Flow keep (i + 1) j → Flow keep i j
  | call {keep : List Register} {i j : Nat} (s : CallSite) : s.first = i → s.At env P →
      (∀ r ∈ keep, r ∈ s.saved) → Pushes s.saved s.arguments (i + s.rest) s.enter →
      Flow keep s.last j → Flow keep i j

/-- Code that computes and pushes arguments, the last one first. -/
inductive Pushes : List Register → List Argument → Nat → Nat → Prop
  | nil {saved : List Register} {i : Nat} : Pushes saved [] i i
  | cons {saved : List Register} {a : Argument} {as : List Argument} {i : Nat} :
      Pushes saved as i a.first → a.At env P saved → Flow saved a.first a.last →
      P.Has a.last .push [.register a.register] → Pushes saved (a :: as) i (a.last + 1)

end

/-- A call with the code that pushes its arguments. With the zeros before them they are the slots of
the frame. -/
structure CallSite.Full (c : CallSite) : Prop where
  site : c.At env P
  pushes : Pushes env P c.saved c.arguments (c.first + c.rest) c.enter

end

variable {keep' : List Register} {r : Register} {code : List Ins}

theorem Free.mono (h : Free keep r) (hk : keep' ⊆ keep) : Free keep' r :=
  ⟨h.general, fun hr => h.unused (hk hr)⟩

theorem Quiet.mono {keep : List Register} {x : Ins} (h : Quiet keep x) (hk : keep' ⊆ keep) :
    Quiet keep' x := by
  cases h with
  | const h => exact .const (h.mono hk)
  | compute h => exact .compute (h.mono hk)
  | load h => exact .load (h.mono hk)
  | read => exact .read
  | receive h => exact .receive (h.mono hk)
  | write => exact .write
  | testAndSet => exact .testAndSet
  | nop => exact .nop

section
variable {env : Env} {P : Program} {keep : List Register} {i j k : Nat}

theorem Flow.mono (hk : keep' ⊆ keep) : ∀ {i j : Nat}, Flow env P keep i j → Flow env P keep' i j
  | _, _, .nil => .nil
  | _, _, .quiet hx hq h => .quiet hx (hq.mono hk) (h.mono hk)
  | _, _, .call s hi hs hsaved hp h => .call s hi hs (fun r hr => hsaved r (hk hr)) hp (h.mono hk)

theorem Flow.append {i j : Nat} : Flow env P keep i j → Flow env P keep j k → Flow env P keep i k
  | .nil, h' => h'
  | .quiet hx hq h, h' => .quiet hx hq (h.append h')
  | .call s hi hs hsaved hp h, h' => .call s hi hs hsaved hp (h.append h')

theorem Flow.ofCode (h : P.HasAll i code) (hq : ∀ x ∈ code, Quiet keep x) :
    Flow env P keep i (i + code.length) := by
  induction code generalizing i with
  | nil => exact .nil
  | cons x code ih =>
    refine .quiet h.1 (hq x (.head _)) ?_
    rw [List.length_cons, ← Nat.add_assoc, Nat.add_right_comm]
    exact ih h.2 fun y hy => hq y (.tail _ hy)

end

section
variable {env : Env} {used keep : List Register} {r : Register} {k : Nat}

theorem Place.loadCode_quiet (p : Place) (hr : Free keep r) : ∀ x ∈ p.loadCode r, Quiet keep x := by
  cases p with
  | frame k =>
    simp only [Place.loadCode, List.mem_cons, List.not_mem_nil, or_false,
      forall_eq_or_imp, forall_eq]
    exact ⟨.const hr, .compute hr, .load hr⟩
  | global a =>
    simp only [Place.loadCode, List.mem_cons, List.not_mem_nil, or_false,
      forall_eq_or_imp, forall_eq]
    exact ⟨.read, .receive hr⟩
  | shared y =>
    simp only [Place.loadCode, List.mem_cons, List.not_mem_nil, or_false,
      forall_eq_or_imp, forall_eq]
    exact ⟨.read, .receive hr⟩

theorem fieldCode_quiet {object : Register} (ho : Free keep object)
    (hr : k ≠ 0 → Free keep r) : ∀ x ∈ fieldCode object r k, Quiet keep x := by
  unfold fieldCode
  split
  · exact fun x hx => absurd hx List.not_mem_nil
  · rename_i hk
    simp only [List.mem_cons, List.not_mem_nil, or_false, forall_eq_or_imp, forall_eq]
    exact ⟨.const (hr hk), .compute ho⟩

theorem NameCode.quiet {function : Option ScopeId} {kind : ScopeKind} {p : Place}
    (h : NameCode env function used k kind p code) : ∀ x ∈ code, Quiet used x := by
  cases h with
  | global => exact fun x hx => absurd hx List.not_mem_nil
  | function => exact fun x hx => absurd hx List.not_mem_nil
  | block => exact fun x hx => absurd hx List.not_mem_nil
  | members _ _ ho hr =>
    intro x hx
    rcases List.mem_append.1 hx with hx | hx
    · exact Place.loadCode_quiet _ ho x hx
    · exact fieldCode_quiet ho (fun hk => (hr hk).mono (List.subset_append_left ..)) x hx

end

/-! ## Where code lies -/

namespace EmitState.Adds

variable {code : List Ins} {used : List Register} {s s1 : EmitState}

theorem pushes (h : s.Adds code used s1) (l : List Register) :
    s.Adds (code ++ l.map .push) used (s1.pushes l) := by
  induction l generalizing code s1 with
  | nil =>
    rw [List.map_nil, List.append_nil]
    exact h
  | cons r l ih =>
    have := ih (h.emit .push [.register r])
    rwa [List.append_assoc, List.singleton_append] at this

theorem pops (h : s.Adds code used s1) (l : List Register) :
    s.Adds (code ++ l.map .pop) used (s1.pops l) := by
  induction l generalizing code s1 with
  | nil =>
    rw [List.map_nil, List.append_nil]
    exact h
  | cons r l ih =>
    have := ih (h.emit .pop [.register r])
    rwa [List.append_assoc, List.singleton_append] at this

theorem enterCall (hs : s.Uses used) (entry : LabelId) :
    s.Adds (enterCode used entry s.labels) used (s.enterCall entry) := by
  have h := ((((((((refl hs).addLabel "return").emit .push [.register .arp]).emit .const
    [.immediate (.label s.labels), .register .arp]).emit .push [.register .arp]).emit .push
    [.register .zero]).pushes s.registers.inUse).emit .const
    [.immediate (.value (s.registers.inUse.length + 2)), .register .arp]).emit .compute
    [.operator .add, .register .sp, .register .arp, .register .arp] |>.emit .jump
    [.target (.label entry)]
  rw [EmitState.enterCall]
  rw [hs.inUse] at h ⊢
  simpa [enterCode] using h

end EmitState.Adds

namespace Emit

variable {α β : Type} {env : Env} {used used' : List Register} {Q : List Argument → Prop}
  {ctx : Context} {s : EmitState} {P : Program} {i j size : Nat} {c : Call}

section
variable {m : Emit α} {f : α → Emit β} {used1 : α → List Register} {used2 : β → List Register}
  {C : Program → Nat → α → Nat → Prop} {D : α → Program → Nat → β → Nat → Prop} {a : α}

theorem Lies.bind (hm : Lies env m used used1 C) (hf : ∀ a, Lies env (f a) (used1 a) used2 (D a)) :
    Lies env (m >>= f) used used2 fun P i b j => ∃ a k, C P i a k ∧ D a P k b j := by
  intro s hs
  refine .bind (hm s hs) fun a s1 h1 => (hf a s1 h1.1).weaken fun b s2 h2 => ⟨h2.1, fun P hP => ?_⟩
  obtain ⟨hP1, hD⟩ := h2.2 P hP
  obtain ⟨hP0, hC⟩ := h1.2 P hP1
  exact ⟨hP0, a, s1.here, hC, hD⟩

/-- The action itself, next to what its code is like. -/
theorem Lies.placed (hm : Lies env m used used1 C) :
    Lies env m used used1 fun P i a j => C P i a j ∧ Placed env P m used i a j := fun s hs =>
  (hm s hs).withRun.weaken fun _ _ h => ⟨h.2.1, fun P hP =>
    ⟨(h.2.2 P hP).1, (h.2.2 P hP).2, .of_run h.1 hs hP⟩⟩

theorem Placed.lies (h : Placed env P m used i a j) (hm : Lies env m used used1 C) : C P i a j := by
  obtain ⟨s, s', hrun, hs, rfl, rfl, hP⟩ := h
  exact (((hm s hs).of_ok hrun).2 P hP).2

theorem Lies.query {x : Tables → Except Fault α} {D : Program → Nat → β → Nat → Prop}
    (hf : ∀ a, x env.tables = .ok a → Lies env (f a) used used2 D) :
    Lies env (Emit.query x >>= f) used used2 D :=
  fun s hs => .query (any _) fun a ha => hf a ha s hs

theorem Lies.expect {what : Missing} {o : Option α} {D : Program → Nat → β → Nat → Prop}
    (hf : ∀ a, o = some a → Lies env (f a) used used2 D) :
    Lies env (Emit.expect what o >>= f) used used2 D :=
  fun s hs => .expect (any _) fun a ha => hf a ha s hs

theorem Lies.read {f : Env → Emit β} {D : Program → Nat → β → Nat → Prop}
    (hf : Lies env (f env) used used2 D) :
    Lies env (MonadReader.read >>= f) used used2 D := fun s hs =>
  .read (hf s hs)

/-- The position of the next instruction is where the following code begins. -/
theorem Lies.here {f : Nat → Emit β} {D : Program → Nat → β → Nat → Prop}
    (hf : ∀ a, Lies env (f a) used used2 D) : Lies env (Emit.here >>= f) used used2 D := fun s hs =>
  .run here_run (hf s.here s hs)

/-- A comment changes nothing. -/
theorem Lies.comment {id : Nat} {text : String} {f : Unit → Emit β}
    {D : Program → Nat → β → Nat → Prop}
    (hf : Lies env (f ()) used used2 D) : Lies env (Emit.comment id text >>= f) used used2 D := by
  intro s hs
  refine .bind comment_done fun _ s1 hc => ?_
  have h := (EmitState.Adds.refl hs).comment hc
  refine (hf s1 h.uses).weaken fun b s2 h2 => ⟨h2.1, fun P hP => ?_⟩
  obtain ⟨hP1, hD⟩ := h2.2 P hP
  rw [h.here] at hD
  exact ⟨(h.lays P hP1).1, hD⟩

theorem Lies.pure (used1 : α → List Register) {D : Program → Nat → α → Nat → Prop}
    (h : ∀ P i, D P i a i) : Lies env (Pure.pure a) (used1 a) used1 D :=
      fun _ hs => .pure ⟨hs, fun P hP =>
  ⟨hP, h P _⟩⟩

theorem Lies.ofAdds (code : α → List Ins) (used1 : α → List Register)
    (h : ∀ s, s.Uses used → Sat Any m env s fun a s' => s.Adds (code a) (used1 a) s') :
    Lies env m used used1 fun P i a j => P.HasAll i (code a) ∧
      j = i + (code a).length := fun s hs =>
  (h s hs).weaken fun _ _ h' => ⟨h'.uses, fun P hP => ⟨(h'.lays P hP).1, (h'.lays P hP).2, h'.here⟩⟩

/-- The code of a part is a flow. -/
abbrev FlowAt (env : Env) (keep : List Register) (P : Program) (i : Nat) (_ : α) (j : Nat) : Prop :=
  Flow env P keep i j

/-- Instructions that only write registers. -/
theorem Lies.quiet
    (h : ∀ s, s.Uses used → Sat Any m env s fun a s' =>
      ∃ code, (∀ x ∈ code, Quiet keep x) ∧ s.Adds code (used1 a) s') :
    Lies env m used used1 (FlowAt env keep) := fun s hs =>
  (h s hs).weaken fun _ _ h' => by
    obtain ⟨code, hq, h'⟩ := h'
    exact ⟨h'.uses, fun P hP => ⟨(h'.lays P hP).1, h'.here ▸ .ofCode (h'.lays P hP).2 hq⟩⟩

/-- Code that leaves more registers alone. -/
theorem Lies.less {l : List Register} (hm : Lies env m used used1 (FlowAt env (keep ++ l))) :
    Lies env m used used1 (FlowAt env keep) :=
  hm.weaken fun _ _ _ _ h => h.mono (List.subset_append_left ..)

/-- One piece of code after another. -/
theorem Lies.append (hm : Lies env m used used1 (FlowAt env keep))
    (hf : ∀ a, Lies env (f a) (used1 a) used2 (FlowAt env keep)) :
    Lies env (m >>= f) used used2 (FlowAt env keep) :=
  (hm.bind hf).weaken fun _ _ _ _ h => by
    obtain ⟨_, _, h, h'⟩ := h
    exact h.append h'

end

/-! ## Values -/

theorem constantRegister_flows (v : Int) : Lies env (constantRegister v) used (used ++ [·])
    (FlowAt env used) := .quiet fun _ hs => (constantRegister_adds v hs).weaken fun r _ h =>
    ⟨[.const v r], fun _ hx => List.mem_singleton.1 hx ▸ .const h.uses.free, h⟩

theorem loadPlace_flows (p : Place) : Lies env (loadPlace p) (used ++ p.held) (used ++ [·])
    (FlowAt env used) := .quiet fun _ hs => (loadPlace_adds p hs).weaken fun r _ h =>
    ⟨p.loadCode r, Place.loadCode_quiet p h.uses.free, h⟩

theorem namePlace_flows (ctx : Context) (node : NodeId) (x : String) :
    Lies env (namePlace ctx node x) used (fun p => used ++ p.held) (FlowAt env used) :=
      .quiet fun _ hs =>
  (namePlace_adds hs).weaken fun _ _ h => by
    obtain ⟨_, _, _, code, hname, h⟩ := h
    exact ⟨code, hname.code.quiet, h⟩

theorem fieldPlace_flows (object : Register) (k : Nat) :
    Lies env (fieldPlace object k) (used ++ [object]) (fun p => used ++ p.held) (FlowAt env used) :=
  .quiet fun _ hs => (fieldPlace_adds k hs).weaken fun p _ h => by
    obtain ⟨rfl, r, hr, h⟩ := h
    exact ⟨fieldCode object r k, fieldCode_quiet hs.free
      fun hk => (hr hk).mono (List.subset_append_left ..), h⟩

theorem elementPlace_flows (array index : Register) :
    Lies env (elementPlace array index) (used ++ [array] ++ [index]) (fun p => used ++ p.held)
      (FlowAt env used) :=
  .quiet fun _ hs => (elementPlace_adds hs).weaken fun _ _ h => by
    obtain ⟨rfl, h⟩ := h
    have hi := hs.free.mono (List.subset_append_left used [array])
    exact ⟨_, fun x hx => List.mem_singleton.1 hx ▸ .compute hi, h⟩

theorem writeElement_adds (block value : Register) (k : Nat) (hs : s.Uses used) :
    Sat Any (writeElement block k value) env s fun _ s' => ∃ r, Free used r ∧
      s.Adds [.const k r, .compute .add block r r, .write value (.indirect r)] used s' := by
  refine .bind (constantRegister_adds k hs) fun r s1 h => .emit rfl (.emit rfl ?_)
  have h' := (h.emit .compute [.operator .add, .register block, .register r, .register r]).emit
    .write
    [.register value, .address (.indirect r)]
  exact (release_last h'.uses).weaken fun _ s2 hr => ⟨r, h.uses.free, h'.registers hr⟩

theorem writeElement_flows (block value : Register) (k : Nat) :
    Lies env (writeElement block k value) used (fun _ => used) (FlowAt env used) := by
  refine .quiet fun s hs => (writeElement_adds block value k hs).weaken
    fun _ s' ⟨r, hr, h⟩ => ⟨_, ?_, h⟩
  simp only [List.mem_cons, List.not_mem_nil, or_false, forall_eq_or_imp, forall_eq]
  exact ⟨.const hr, .compute hr, .write⟩

/-- Giving back the register that was taken last. -/
theorem release_flows (r : Register) :
    Lies env (release r) (used ++ [r]) (fun _ => used) (FlowAt env used) :=
  .quiet fun _ hs => (release_last hs).weaken fun _ _ hr =>
    ⟨[], fun _ hx => absurd hx List.not_mem_nil, (EmitState.Adds.refl hs).registers hr⟩

/-! ## Calls in a program -/

/-- The parts of a call whose arguments `C` is about. -/
structure CallParts (P : Program) (saved : List Register) (entry : LabelId) (size n : Nat)
    (C : Nat → Nat → Prop) (first : Nat) (result : Register) (last : Nat) : Prop where
  fits : n ≤ size
  general : ∀ r ∈ saved, r ∈ generalPurpose
  nodup : saved.Nodup
  free : Free saved result
  parts : ∃ enter returnLabel, P.HasAll first (.replicate (size - n) (.push .zero)) ∧
    C (first + (size - n)) enter ∧
    P.HasAll enter (enterCode saved entry returnLabel) ∧
    P.target? returnLabel = some (enter + saved.length + 7) ∧
    P.HasAll (enter + saved.length + 7) (leaveCode saved size result) ∧
    last = enter + saved.length + 7 + saved.length + 7

theorem leaveCall_adds (saved : List Register) (size : Nat) (hs : s.Uses used) :
    Sat Any (leaveCall saved size) env s fun r s' => s.Adds (leaveCode saved size r).tail
      (used ++ [r]) s' := by
  have h := (EmitState.Adds.refl hs).pops saved.reverse
  refine .run (forM_pop_run _) (.bind (allocate_sat .of h.uses) fun r s1 hr =>
    .emit rfl (.emit rfl (.emit rfl (.emit rfl
    (.emit rfl (.emit rfl ?_))))))
  have h' :=
    ((((((h.registers hr).emit .const [.immediate (.value (size + 1)), .register r]).emit .compute
    [.operator .add, .register .arp, .register r, .register .sp]).emit .const
    [.immediate (.value 2), .register r]).emit .compute
    [.operator .sub, .register .arp, .register r, .register r]).emit .load
    [.address (.indirect r), .register r]).emit .load [.address (.indirect .arp), .register .arp]
  exact Sat.pure (by simpa [leaveCode] using h')

theorem call_lies {entry : LabelId} {push : Emit Unit}
    {C : Program → Nat → Unit → Nat → Prop} (hpush : Lies env push used (fun _ => used') C) :
    Lies env (call entry size n push) used (fun r => used' ++ [r]) fun P i r j =>
      CallParts P used' entry size n (fun a b => C P a () b) i r j := by
  intro s hs
  rw [call_eq]
  split
  · exact .bind (Sat.throw (Q := fun _ _ => False) trivial) nofun
  rename_i hfits
  have h0 := (EmitState.Adds.refl hs).pushes (.replicate (size - n) .zero)
  refine .run (pushZeros_run _) (.bind (hpush _ h0.uses) fun _ s1 h1 =>
    .run (enterCall_run entry) ?_)
  have h2 := EmitState.Adds.enterCall h1.1 entry
  refine .bind anchor_done fun _ s3 h3 => ?_
  have h3' := ((EmitState.Adds.refl h2.uses).emit .nop []).bind h3
  refine (leaveCall_adds s1.registers.inUse size h3'.uses).weaken fun r s4 h4 =>
    ⟨h4.uses, fun P hP => ?_⟩
  have h := h3'.append h4
  rw [h1.1.inUse] at h h4
  obtain ⟨hP2, hleave⟩ := h.lays P hP
  obtain ⟨hP1, henter⟩ := h2.lays P hP2
  obtain ⟨hP0, hC⟩ := h1.2 P hP1
  obtain ⟨hPs, hzeros⟩ := h0.lays P hP0
  have hreturn := (h3.into (h4.lays P hP).1).2
  rw [h2.here, length_enterCode] at hleave hreturn
  rw [h0.here] at hC
  rw [List.map_replicate] at hzeros
  simp only [List.nil_append, List.length_map, List.length_replicate] at hC
  refine ⟨hPs, Nat.not_lt.1 hfits, fun x hx => h1.1.mem hx, h1.1.nodup, h4.uses.free, s1.here,
    s1.labels,
    hzeros, hC, henter, hreturn, hleave, ?_⟩
  rw [h.here, h2.here]
  show s1.here + (enterCode used' entry s1.labels).length + (leaveCode used' size r).length = _
  rw [length_enterCode, length_leaveCode]
  omega

/-- Code that pushes some arguments that `Q` is about. -/
abbrev Supplies (env : Env) (push : Emit Unit) (used used' : List Register)
    (Q : List Argument → Prop) : Prop :=
  Lies env push used (fun _ => used') fun P i _ j => ∃ as, Q as ∧ Pushes env P used' as i j

/-- A call lies between two positions. It saves these registers, and `Q` is about its arguments. -/
def SiteAt (env : Env) (c : Call) (saved : List Register) (Q : List Argument → Prop) (P : Program)
    (i : Nat) (r : Register) (j : Nat) : Prop :=
  ∃ s : CallSite, s.Full env P ∧ s.call = c ∧ s.saved = saved ∧ s.first = i ∧ s.last = j ∧
    s.result = r ∧ Q s.arguments

theorem SiteAt.flow (h : SiteAt env c used Q P i r j) : Flow env P used i j := by
  obtain ⟨s, hs, -, rfl, rfl, rfl, -⟩ := h
  exact .call s rfl hs.site (fun _ hr => hr) hs.pushes .nil

theorem Lies.flows {m : Emit Register} {used1 : Register → List Register}
    (h : Lies env m used' used1 (SiteAt env c used Q)) : Lies env m used' used1 (FlowAt env used) :=
  h.weaken fun _ _ _ _ h => h.flow

section
variable {c : Call} {m : Emit Unit} {Q : List Argument → Prop} {D : Program → Nat → β → Nat → Prop}
  {used2 : β → List Register} {k : ScopeId → Emit β}

/-- A call with its arguments. -/
theorem call_site {entry : LabelId} (hgoes : c.Goes env entry size) (hn : c.sources.length = n)
    (hQ : ∀ as, Q as → as.map (·.source) = c.sources) (hpush : Supplies env m used used' Q) :
    Lies env (call entry size n m) used (fun r => used' ++ [r]) (SiteAt env c used' Q) := by
  refine (call_lies hpush).weaken fun P i r j h => ?_
  obtain ⟨enter, l, hzeros, ⟨as, has, hp⟩, henter, hl, hleave, rfl⟩ := h.parts
  have hlen : as.length = n := by rw [← hn, ← hQ as has, List.length_map]
  have hat : CallSite.At env P ⟨c, entry, size, as, used', r, l, i, enter⟩ :=
    ⟨hgoes, hQ as has, hlen ▸ h.fits, h.general, h.nodup, h.free,
      by rw [CallSite.rest, hlen]; exact hzeros,
      henter, hl, hleave⟩
  refine ⟨_, ⟨hat, ?_⟩, rfl, rfl, rfl, rfl, rfl, has⟩
  rw [CallSite.rest, hlen]
  exact hp

/-- A register that is pushed as the only argument. -/
theorem Supplies.register (h : ∀ s : EmitState, s.Uses used → Sat Any m env s fun _ s' =>
    s.Adds [.push r] used' s') : Supplies env m used used' fun as => ∃ i, as = [⟨none, i, i, r⟩] :=
  (Lies.ofAdds (fun _ => [.push r]) (fun _ => used') h).weaken fun P i _ j h => by
    obtain ⟨hcode, rfl⟩ := h
    exact ⟨_, ⟨i, rfl⟩, .cons .nil rfl .nil hcode.1⟩

theorem pushLast_supplies (r : Register) :
    Supplies env (pushLast r) (used ++ [r]) used fun as => ∃ i, as = [⟨none, i, i, r⟩] :=
      .register fun _ hs =>
  .emit rfl <| by
    have h := (EmitState.Adds.refl hs).emit .push [.register r]
    exact (release_last h.uses).weaken fun _ _ hr => h.registers hr

theorem alloc_site (size : Register) : Lies env (alloc size) (used ++ [size]) (used ++ [·])
    (SiteAt env .allocation used fun as => ∃ i, as = [⟨none, i, i, size⟩]) :=
  .read (call_site .allocation rfl (fun _ h => h.elim fun _ h => h ▸ rfl) (pushLast_supplies size))

theorem alloc_flows (size : Register) : Lies env (alloc size) (used ++ [size]) (used ++ [·])
    (FlowAt env used) :=
  (alloc_site size).flows

theorem initializer_site {x : String} {entry : LabelId}
    (hx : env.initializers.lookup x = some entry)
    (object : Register) : Lies env (call entry 1 1 (push object)) used (used ++ [·])
      (SiteAt env (.initializer x) used fun as => ∃ i, as = [⟨none, i, i, object⟩]) :=
  call_site (.initializer hx) rfl (fun _ h => h.elim fun _ h => h ▸ rfl)
    (.register fun _ hs => Sat.emit_last rfl ((EmitState.Adds.refl hs).emit ..))

/-- What the tables say about a function that is called. -/
theorem Lies.frameScope
    (hk : ∀ fn scope, env.tables.function? f = some fn → fn.scope = some scope →
      Lies env (k scope) used used2 D) :
      Lies env (Emit.frameScope f >>= k) used used2 D := fun s hs =>
  frameScope_sat (any _) (any _) fun fn scope hfn hscope => hk fn scope hfn hscope s hs

theorem Lies.entry {k : LabelId → Emit β}
    (hk : ∀ l, env.entries.get? f = some l → Lies env (k l) used used2 D) :
    Lies env (Emit.entry f >>= k) used used2 D :=
  fun s hs => entry_sat (any _) fun l hl => hk l hl s hs

theorem Lies.entryName {k : String → Emit β} (hk : ∀ x, Lies env (k x) used used2 D) :
    Lies env (Emit.entryName f >>= k) used used2 D :=
      fun s hs => .bind (entryName_sat (any _)) fun x s1 h => by
    subst h
    exact hk x s1 hs

theorem Lies.memberScope {c : String} (hk : ∀ scope, Lies env (k scope) used used2 D) :
    Lies env (Emit.memberScope c >>= k) used used2 D := fun s hs =>
  memberScope_sat (any _) (any _) fun _ scope _ _ _ => hk scope s hs

/-- A call of a function that is not a thread. -/
theorem callFunction_site (hf : ∀ fn, env.tables.function? f = some fn →
      fn.isThread = false ∧ fn.signature.arguments.length = n)
    (hgoes : ∀ l size, FunctionEntry env f n l size → c.Goes env l size) (hn : c.sources.length = n)
    (hQ : ∀ as, Q as → as.map (·.source) = c.sources) (hpush : Supplies env m used used Q) :
    Lies env (callFunction f n m) used (used ++ [·]) (SiteAt env c used Q) := by
  refine .frameScope fun fn scope hfn hscope => .query fun size hsize => .entry fun l hl =>
    .here fun _ => ?_
  have hentry : FunctionEntry env f n l size :=
    ⟨fn, scope, hfn, (hf fn hfn).1, (hf fn hfn).2, hscope, hsize, hl⟩
  refine Lies.weaken ((call_site (hgoes l size hentry) hn hQ hpush).bind fun r =>
    .entryName fun x => .comment
    (Lies.pure (D := fun _ i y j => y = r ∧ i = j) (used ++ [·]) fun _ _ => ⟨rfl, rfl⟩))
    fun P i y j h => ?_
  obtain ⟨r, k, hcall, rfl, rfl⟩ := h
  exact hcall

end

theorem launch_flows (f : FunctionId) (name : String) :
    Lies env (launch f name) used (used ++ [·]) (FlowAt env used) := by
  refine .read (.expect fun thread _ => .quiet fun s hs => .bind (allocate_sat .of hs)
    fun r s1 hr => .run here_run (.emit rfl (.emit rfl (.bind comment_done fun _ s2 hc => ?_))))
  have h :=
    ((((EmitState.Adds.refl hs).registers hr).emit .const [.immediate (.value 1), .register r]).emit
    .write [.register r, .address (.direct (env.layout.threadFlag thread))]).comment hc
  refine Sat.pure ⟨_, ?_, h⟩
  simp only [List.cons_append, List.nil_append, List.mem_cons, List.not_mem_nil, or_false,
    forall_eq_or_imp, forall_eq]
  exact ⟨.const hr.uses.free, .write⟩

/-! ## Expressions -/

theorem writeChars_flows (block : Register) : ∀ (cs : List Char) (k : Nat),
    Lies env (writeChars block k cs) used (fun _ => used) (FlowAt env used)
  | [], _ => Lies.pure (fun _ => used) fun _ _ => .nil
  | _ :: cs, k =>
    .append (constantRegister_flows _) fun r => .append (writeElement_flows block r k).less
      fun _ => .append (release_flows r) fun _ => writeChars_flows block cs (k + 1)

theorem string_flows (str : String) : Lies env (string str) used (used ++ [·]) (FlowAt env used) :=
  .append (constantRegister_flows _) fun size => .here fun _ => .append (alloc_flows size)
    fun block => .comment (.append (writeChars_flows block str.toList 0).less fun _ =>
      .append (writeElement_flows block .zero str.length).less fun _ =>
        Lies.pure (used ++ [·]) fun _ _ => .nil)

theorem literal_flows (l : Literal) :
    Lies env (literal l) used (used ++ [·]) (FlowAt env used) := by
  cases l with
  | int v => exact constantRegister_flows _
  | bool b => exact constantRegister_flows _
  | char c => exact constantRegister_flows _
  | string str => exact string_flows str

/-- The expression flows, whichever registers are in use. -/
def Flows (env : Env) (ctx : Context) (e : Expr) : Prop :=
  ∀ used, Lies env (expr ctx e) used (used ++ [·]) (FlowAt env used)

section
variable {ctx : Context}

theorem indexTarget_flows {a k : Expr} (n : Node) (ha : Flows env ctx a) (hk : Flows env ctx k) :
    Lies env (targetPlace ctx (.index n a k)) used (fun p => used ++ p.held) (FlowAt env used) :=
  .append (ha used) fun array => .append (hk _).less fun index => elementPlace_flows array index

theorem fieldTarget_flows {o : Expr} (n : Node) (x : String) (ho : Flows env ctx o) :
    Lies env (targetPlace ctx (.field n o x)) used (fun p => used ++ p.held) (FlowAt env used) := by
  intro s hs
  refine .bind fieldOffset_done fun k s1 hk => ?_
  obtain ⟨rfl, -⟩ := hk
  exact Lies.append (ho used) (fun object => fieldPlace_flows object k) s1 hs

theorem runInitializer_flows (c : String) (object : Register) :
    Lies env (runInitializer c object) used (fun _ => used) (FlowAt env used) := by
  refine .read ?_
  cases hc : env.initializers.lookup c with
  | none => exact Lies.pure (fun _ => used) fun _ _ => .nil
  | some entry => exact .append (initializer_site hc object).flows fun r => release_flows r

/-- The arguments of a constructor, and then the object. -/
theorem pushObject_supplies (object : Register) {push' : Emit Unit}
    (hpush : Supplies env push' used used Q) : Supplies env (do push'; push object) used used
      fun as => ∃ i as', as = ⟨none, i, i, object⟩ :: as' ∧ Q as' := by
  refine (hpush.bind fun _ => Lies.ofAdds (fun _ => [.push object]) (fun _ => used) fun s hs =>
    Sat.emit_last rfl ((EmitState.Adds.refl hs).emit ..)).weaken fun P i _ j h => ?_
  obtain ⟨_, k, ⟨as, has, hp⟩, hcode, rfl⟩ := h
  exact ⟨_, ⟨k, as, rfl, has⟩, .cons hp rfl .nil hcode.1⟩

/-- The sources of some arguments are these expressions. -/
abbrev Evaluated (ctx : Context) (es : List Expr) (as : List Argument) : Prop :=
  as.map (·.source) = es.map fun e => some (ctx, e)

/-- The arguments of a call, and then one more. -/
theorem pushValue_flows {e : Expr} (he : Flows env ctx e)
    (hpush : Supplies env (pushAll ctx es) used used (Evaluated ctx es)) :
    Supplies env (do pushAll ctx es; pushLast (← expr ctx e)) used used
      (Evaluated ctx (e :: es)) := by
  refine (hpush.bind fun _ => (he used).placed.bind fun r =>
    Lies.ofAdds (fun _ => [.push r]) (fun _ => used)
    fun s hs => .emit rfl ?_).weaken fun P i _ j h => ?_
  · have h := (EmitState.Adds.refl hs).emit .push [.register r]
    exact (release_last h.uses).weaken fun _ _ hr => h.registers hr
  · obtain ⟨_, k, ⟨as, has, hp⟩, r, m, ⟨hflow, hplaced⟩, hcode, rfl⟩ := h
    exact ⟨⟨some (ctx, e), k, m, r⟩ :: as, by rw [Evaluated, List.map_cons, List.map_cons, has],
      .cons hp hplaced hflow hcode.1⟩

/-- A call of a function. A thread is only launched. -/
theorem functionCall_site {n : Node} {name : String} (h : env.tables.HasCallee n.id es.length false)
    (hpush : Supplies env (pushAll ctx es) used used (Evaluated ctx es)) :
    Lies env (expr ctx (.call n name es)) used (used ++ [·]) fun P i r j => ∃ f fn,
      env.tables.functions.lookup n.id = some f ∧ env.tables.function? f = some fn ∧
      if fn.isThread then Flow env P used i j
      else SiteAt env (.function ctx f es) used (Evaluated ctx es) P i r j := by
  refine .read (.expect fun f hf => .query fun fn hfn => ?_)
  have hfn := Slots.fetch_eq_ok_iff.1 hfn
  split
  · rename_i hthread
    exact (launch_flows f name).weaken fun _ _ _ _ h => ⟨f, fn, hf, hfn, by rwa [if_pos hthread]⟩
  · rename_i hthread
    refine (callFunction_site (fun fn' hfn' => ?_) (fun _ _ h => .function h)
      (by simp [Call.sources])
      (fun _ h => h) hpush).weaken fun _ _ _ _ h => ⟨f, fn, hf, hfn, by rwa [if_neg hthread]⟩
    obtain ⟨fn1, hfn1, hlen⟩ := h.callee hf
    obtain rfl := Option.mem_unique hfn' hfn
    obtain rfl := Option.mem_unique hfn1 hfn
    exact ⟨Bool.eq_false_iff.2 hthread, hlen⟩

/-- A call of a method. The receiver is its first argument. -/
theorem methodCall_site {n : Node} {o : Expr} {name : String} (ht : env.tables.MethodsRun)
    (h : env.tables.HasCallee n.id (es.length + 1) true) (hpush : Supplies env
      (do pushAll ctx es; pushLast (← expr ctx o)) used used (Evaluated ctx (o :: es))) :
    Lies env (expr ctx (.methodCall n o name es)) used (used ++ [·]) fun P i r j => ∃ f,
      env.tables.functions.lookup n.id = some f ∧
      SiteAt env (.method ctx f o es) used (Evaluated ctx (o :: es)) P i r j :=
  .read (.expect fun f hf => (callFunction_site (h.runs ht hf) (fun _ _ h => .method h)
    (by simp [Call.sources]) (fun _ h => h) hpush).weaken fun _ _ _ _ h => ⟨f, hf, h⟩)

theorem constructor_site (ht : env.tables.MethodsRun)
    (hnew : env.tables.HasConstructor node es.length)
    (hf : env.tables.functions.lookup node = some f)
    (hpush : Supplies env (pushAll ctx es) used used (Evaluated ctx es)) (object : Register) :
    Lies env (callFunction f (es.length + 1) (do pushAll ctx es; push object)) used (used ++ [·])
      (SiteAt env (.constructor ctx f es) used fun as => ∃ i as', as = ⟨none, i, i, object⟩ :: as' ∧
        Evaluated ctx es as') := by
  rcases hnew.2 with ⟨hnone, -⟩ | hcallee
  · rw [hf] at hnone
    cases hnone
  · refine callFunction_site (hcallee.runs ht hf) (fun _ _ h => .constructor h)
      (by simp [Call.sources])
      (fun as h => ?_) (pushObject_supplies object hpush)
    obtain ⟨i, as', rfl, has⟩ := h
    rw [List.map_cons, has]
    rfl

theorem runConstructor_flows (ht : env.tables.MethodsRun)
    (hnew : env.tables.HasConstructor node es.length)
    (hpush : Supplies env (pushAll ctx es) used used (Evaluated ctx es)) (object : Register) :
    Lies env (runConstructor node es.length (pushAll ctx es) object) used (fun _ => used)
      (FlowAt env used) := by
  refine .read ?_
  cases hf : env.tables.functions.lookup node with
  | none => exact Lies.pure (fun _ => used) fun _ _ => .nil
  | some f =>
    exact .append (constructor_site ht hnew hf hpush object).flows fun r => release_flows r

end

mutual

/-- The code of an expression that the tables know all about is a flow. -/
theorem expr_flows (ht : env.tables.MethodsRun) : ∀ (e : Expr), e.Ready env.tables ctx.function →
    Flows env ctx e
  | .literal n l, _ => by
    intro used
    exact literal_flows l
  | .name n x, _ => by
    intro used
    exact .here fun _ => .append (namePlace_flows ctx n.id x) fun p =>
      .append (loadPlace_flows p) fun r => .comment (Lies.pure (used ++ [·]) fun _ _ => .nil)
  | .enumValue n x member, _ => by
    intro used
    exact .read (.expect fun e _ => constantRegister_flows _)
  | .arrayLiteral n es, h => by
    intro used
    exact .append (constantRegister_flows _) fun size => .append (alloc_flows size) fun block =>
      .append (elements_flows ht es h block 0 _).less fun _ =>
      Lies.pure (used ++ [·]) fun _ _ => .nil
  | .newArray n t length, h => by
    intro used
    exact .append (expr_flows ht length h used) fun size => alloc_flows size
  | .index n a i, h => by
    intro used
    rw [index_eq]
    exact .append (indexTarget_flows n (expr_flows ht a h.1) (expr_flows ht i h.2)) fun p =>
      loadPlace_flows p
  | .field n o x, h => by
    intro used
    rw [field_eq]
    exact .append (fieldTarget_flows n x (expr_flows ht o h.2)) fun p => loadPlace_flows p
  | .call n name es, h => by
    intro used
    refine (functionCall_site h.1 (pushAll_flows ht es h.2 used)).weaken fun P i r j h => ?_
    obtain ⟨f, fn, -, -, h⟩ := h
    split at h
    · exact h
    · exact h.flow
  | .methodCall n o name es, h => by
    intro used
    refine (methodCall_site ht h.1 (pushValue_flows (expr_flows ht o h.2.1)
      (pushAll_flows ht es h.2.2 used))).weaken fun P i r j h => ?_
    obtain ⟨f, -, h⟩ := h
    exact h.flow
  | .new n x es, h => by
    intro used
    simp only [expr, newObject_eq] at h ⊢
    exact .memberScope fun scope => .query fun words _ => .here fun _ =>
      .append (constantRegister_flows _) fun size => .append (alloc_flows size) fun object =>
      .comment (.append (runInitializer_flows x object).less fun _ =>
        .append (runConstructor_flows ht h.2.1 (pushAll_flows ht es h.2.2 _) object).less fun _ =>
          Lies.pure (used ++ [·]) fun _ _ => .nil)
  | .unary n op e, h => by
    intro used
    refine .append (expr_flows ht e h used) fun r => .quiet fun s hs => .emit rfl
      (Sat.pure ⟨_, fun x hx => List.mem_singleton.1 hx ▸ .compute hs.free,
        (EmitState.Adds.refl hs).emit .compute [.operator (unaryOperator op), .register .zero,
          .register r, .register r]⟩)
  | .binary n op l r, h => by
    intro used
    refine .append (expr_flows ht l h.1 used) fun x => .append (expr_flows ht r h.2 _).less fun y =>
      .quiet fun s hs => .emit rfl ?_
    have h' := (EmitState.Adds.refl hs).emit .compute
      [.operator (binaryOperator op), .register x, .register y, .register y]
    exact .bind (release_second h'.uses) fun _ s2 hr => Sat.pure ⟨_, fun z hz =>
      List.mem_singleton.1 hz ▸ .compute (hs.free.mono (List.subset_append_left ..)),
      h'.registers hr⟩

theorem elements_flows (ht : env.tables.MethodsRun) : ∀ (es : List Expr),
    Expr.ReadyAll env.tables ctx.function es → ∀ (block : Register) (k : Nat)
    (used : List Register), Lies env (elements ctx block k es) used (fun _ => used)
    (FlowAt env used)
  | [], _, _, _, used => Lies.pure (fun _ => used) fun _ _ => .nil
  | e :: es, h, block, k, used =>
    .append (expr_flows ht e h.1 used) fun r => .append (writeElement_flows block r k).less fun _ =>
      .append (release_flows r) fun _ => elements_flows ht es h.2 block (k + 1) used

theorem pushAll_flows (ht : env.tables.MethodsRun) :
    ∀ (es : List Expr), Expr.ReadyAll env.tables ctx.function es →
    ∀ (used : List Register), Supplies env (pushAll ctx es) used used (Evaluated ctx es)
  | [], _, used => Lies.pure (fun _ => used) fun _ _ => ⟨[], rfl, .nil⟩
  | e :: es, h, used => pushValue_flows (expr_flows ht e h.1) (pushAll_flows ht es h.2 used)

end

theorem targetPlace_flows (ht : env.tables.MethodsRun) {target : Awl.Target}
    (h : target.Ready env.tables ctx.function) (used : List Register) :
    Lies env (targetPlace ctx target) used (fun p => used ++ p.held) (FlowAt env used) := by
  cases target with
  | name n x => exact namePlace_flows ctx n.id x
  | index n a i => exact indexTarget_flows n (expr_flows ht a h.1) (expr_flows ht i h.2)
  | field n o x => exact fieldTarget_flows n x (expr_flows ht o h.2)

end Emit

end Code

end Awl
