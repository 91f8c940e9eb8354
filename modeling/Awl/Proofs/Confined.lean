import Awl.Proofs.Routines

/-!
# Code that stays within its storage

Of the registers, only the frame pointer and the stack pointer lead into private memory that other
code uses too. `Program.Contained` lists what an instruction may do with the frame pointer: compute
the address of a slot of the frame, fetch the return address or the place of the result below it,
and what calls do to build and to leave a frame. Fixed addresses are among the static words, and few
constructs write to one (`StaticWrite`): the allocator moves the heap pointer, a call of a thread
function sets its flag, a release and a plain declaration store the zero register, and an assignment
or a declaration of a global variable stores a value that has just been computed.

`Emit.Confines` says that an action adds such code only. It is kept by sequencing, so that for each
construct there is one short lemma; the names of variables are the only place where the tables are
asked.
-/

namespace Awl

open Machine

variable {x : Ins} {n slots a first i k : Nat} {P P' : Program} {object r : Register}
  {l : StaticLayout} {layout : Code.StaticLayout} {operands : List Operand} {frame : Option ScopeId}
  {opcode : OpCode} {t : Tables} {id : ScopeId}

/-! ## Static words -/

namespace Code.StaticLayout

/-- The heap pointer, the lock of the allocator, the flags of threads and the global variables. -/
def addresses (l : StaticLayout) : List Nat :=
  l.heapPointer :: l.allocatorLock :: ((List.range l.threads).map l.threadFlag ++
    (List.range l.globals).map l.global)

theorem threadFlag_mem (h : i < l.threads) : l.threadFlag i ∈ l.addresses := by
  simp only [addresses, List.mem_cons, List.mem_append, List.mem_map, List.mem_range]
  exact .inr (.inr (.inl ⟨i, h, rfl⟩))

theorem global_mem (h : k < l.globals) : l.global k ∈ l.addresses := by
  simp only [addresses, List.mem_cons, List.mem_append, List.mem_map, List.mem_range]
  exact .inr (.inr (.inr ⟨k, h, rfl⟩))

@[simp] theorem heapPointer_mem (l : StaticLayout) : l.heapPointer ∈ l.addresses := .head _

@[simp] theorem allocatorLock_mem (l : StaticLayout) : l.allocatorLock ∈ l.addresses :=
  .tail _ (.head _)

/-- The static words follow one another without gaps. -/
theorem addresses_eq (l : StaticLayout) :
    l.addresses = List.range' l.base (required l.threads l.globals) := by
  have hflags : (List.range l.threads).map l.threadFlag = List.range' (l.base + 2) l.threads := by
    rw [List.range'_eq_map_range]
    rfl
  have hglobals : (List.range l.globals).map l.global = List.range'
      (l.base + 2 + l.threads) l.globals := by
    rw [List.range'_eq_map_range]
    rfl
  rw [addresses, hflags, hglobals, List.range'_append_1, required, Nat.add_assoc, Nat.add_comm 2]
  rfl

/-- No two static words are the same. -/
theorem addresses_nodup (l : StaticLayout) : l.addresses.Nodup := by
  rw [addresses_eq]
  exact List.nodup_range'

/-- The static words are the top of the shared memory. -/
theorem mem_addresses_of_place {sharedMemory threads globals : Nat}
    (h : place sharedMemory threads globals = .ok l) :
    a ∈ l.addresses ↔ l.base ≤ a ∧ a < sharedMemory := by
  simp only [place] at h
  split at h
  · cases h
  · cases h
    rw [addresses_eq, List.mem_range'_1]
    dsimp only
    omega

end Code.StaticLayout

/-! ## What an instruction may do -/

/-- An operand that has nothing to do with the frame pointer. A fixed address is one of a static
word. -/
def Machine.Operand.Apart (layout : Code.StaticLayout) : Operand → Prop
  | .register r => r ≠ .arp
  | .address (.direct a) => a ∈ layout.addresses
  | .address (.indirect r) => r ≠ .arp
  | .target (.indirect r) => r ≠ .arp
  | _ => True

/-- What calls do with the frame pointer. -/
inductive Machine.Ins.Links : Ins → Prop
  /-- It is saved. -/
  | save : Links (.push .arp)
  /-- It holds the return address for a moment. -/
  | address (l : LabelId) : Links (.constLabel l .arp)
  /-- It is set to a new frame, at a distance from the top of the stack. -/
  | distance (v : Int) : Links (.const v .arp)
  | enter : Links (.compute .add .sp .arp .arp)
  /-- The stack is cut back to where it was before the frame was built. -/
  | leave (r : Register) : Links (.compute .add .arp r .sp)
  /-- It is set to the frame of the caller. -/
  | restore : Links (.load (.indirect .arp) .arp)

/-- The instruction at a position of a routine that starts at `first` and has a frame of `slots`
slots. -/
inductive Machine.Program.Contained (P : Program) (layout : Code.StaticLayout)
    (slots first i : Nat) : Prop
  | apart {x : Ins} : P.Has i x.1 x.2 → (∀ o ∈ x.2, o.Apart layout) →
      Contained P layout slots first i
  /-- The address of a slot of the frame is computed. -/
  | slot {j k : Nat} {r : Register} : i = j + 1 → first ≤ j → k < slots →
      P.HasAll j [.const (k + 1) r, .compute .add .arp r r] → Contained P layout slots first i
  /-- The address of the return address or of the result is computed. -/
  | header {j : Nat} {v : Int} {r : Register} : i = j + 1 → first ≤ j → v = 1 ∨ v = 2 →
      P.HasAll j [.const v r, .compute .sub .arp r r] → Contained P layout slots first i
  | link {x : Ins} : P.Has i x.1 x.2 → x.Links → Contained P layout slots first i

theorem Machine.Program.Within.refl (P : Program) : P.Within P :=
  ⟨fun _ ins hi => ⟨ins.comment, hi⟩, fun _ _ hl => hl⟩

theorem Machine.Program.Within.trans {P1 P2 P3 : Program} (h : P1.Within P2) (h' : P2.Within P3) :
    P1.Within P3 := by
  refine ⟨fun i ins hi => ?_, fun l t hl => h'.bound l t (h.bound l t hl)⟩
  obtain ⟨c, hc⟩ := h.code i ins hi
  obtain ⟨c', hc'⟩ := h'.code i _ hc
  exact ⟨c', hc'⟩

theorem Machine.Program.Within.has (hle : P.Within P') (h : P.Has i opcode operands) :
    P'.Has i opcode operands := by
  obtain ⟨comment, h⟩ := h
  obtain ⟨comment', h'⟩ := hle.code i _ h
  exact ⟨comment', h'⟩

theorem Machine.Program.Within.hasAll {P P' : Program} (hle : P.Within P') :
    ∀ {code : List Ins} {i : Nat},
    P.HasAll i code → P'.HasAll i code
  | [], _, _ => trivial
  | _ :: _, _, h => ⟨hle.has h.1, hle.hasAll h.2⟩

theorem Machine.Program.Contained.mono
    (h : P.Contained layout slots first i) (hle : P.Within P') :
    P'.Contained layout slots first i := by
  cases h with
  | apart hi hx => exact .apart (hle.has hi) hx
  | slot hi hj hk hc => exact .slot hi hj hk (hle.hasAll hc)
  | header hi hj hv hc => exact .header hi hj hv (hle.hasAll hc)
  | link hi hx => exact .link (hle.has hi) hx

/-- A routine that starts earlier. -/
theorem Machine.Program.Contained.lower {first' : Nat} (h : P.Contained layout slots first i)
    (hle : first' ≤ first) : P.Contained layout slots first' i := by
  cases h with
  | apart hi hx => exact .apart hi hx
  | slot hi hj hk hc => exact .slot hi (Nat.le_trans hle hj) hk hc
  | header hi hj hv hc => exact .header hi (Nat.le_trans hle hj) hv hc
  | link hi hx => exact .link hi hx

/-- What calls do with the frame pointer is no write. -/
theorem Machine.Ins.Links.ne_write (h : x.Links) (r : Register) (a : Address) : x ≠ .write r a := by
  cases h <;> simp

namespace Code

/-- Why a register is written to a fixed address, by the instruction at position `i` of a program.
`qs` are the stores of the unit. -/
inductive StaticWrite (env : Env) (qs : List NameStore) (P : Program) (i : Nat) :
    Register → Nat → Prop
  | zero {a : Nat} : StaticWrite env qs P i .zero a
  | heapPointer {r : Register} : StaticWrite env qs P i r env.layout.heapPointer
  | threadFlag {r : Register} {k : Nat} : k < env.threads.length →
      StaticWrite env qs P i r (env.layout.threadFlag k)
  /-- The instruction follows the code of the value. -/
  | store {q : NameStore} {id : ScopeId} {k : Nat} {ctx : Context} {used : List Register}
      {first : Nat}
      {r : Register} : q ∈ qs → env.tables.annotations.scope? q.node = some id →
      env.tables.scopes.kind id = .ok .global → env.tables.scopes.offset? id q.name = .ok (some k) →
      Emit.Placed env P (Emit.expr ctx q.value) used first r i →
      StaticWrite env qs P i r (env.layout.global k)

variable {env : Env} {used : List Register}

theorem Emit.Placed.within {α : Type} {m : Emit α} {last : Nat} {a : α}
    (h : Placed env P m used first a last)
    (hle : P.Within P') : Placed env P' m used first a last := by
  obtain ⟨s, s', hrun, hs, hfirst, hlast, hP⟩ := h
  exact ⟨s, s', hrun, hs, hfirst, hlast, hP.trans hle⟩

theorem StaticWrite.within {qs : List NameStore} {P P' : Program} {i : Nat} {r : Register} {a : Nat}
    (h : StaticWrite env qs P i r a) (hle : P.Within P') : StaticWrite env qs P' i r a := by
  cases h with
  | zero => exact .zero
  | heapPointer => exact .heapPointer
  | threadFlag hk => exact .threadFlag hk
  | store hq hid hkind hk hp => exact .store hq hid hkind hk (hp.within hle)

/-! ## States -/

/-- The static words of the environment are those of its tables. -/
structure Env.Spacious (env : Env) : Prop where
  laid : env.tables.scopes.Laid
  globals : env.tables.scopes.frameSize ScopeTree.globalId = .ok env.layout.globals
  threads : env.threads.length = env.layout.threads

/-- What the code of a routine may use: what the environment says, the stores of the unit, and a
frame of `slots` slots. -/
structure Storage where
  env : Env
  stores : List NameStore
  slots : Nat
  spacious : env.Spacious

/-- The code from `first` on belongs to one routine, stays within its storage, and writes to fixed
addresses for a reason. -/
structure EmitState.Confined (σ : Storage) (first : Nat) (s : EmitState) : Prop where
  wf : s.registers.WF
  started : first ≤ s.here
  code : ∀ i, first ≤ i → i < s.here → s.program.Contained σ.env.layout σ.slots first i
  writes : ∀ i r a, first ≤ i → s.program.Has i .write [.register r, .address (.direct a)] →
    StaticWrite σ.env σ.stores s.program i r a

namespace EmitState

variable {σ : Storage} {first : Nat} {s s' : EmitState}

theorem Grows.within (h : s.Grows n s') : s.program.Within s'.program := ⟨h.code, h.bound⟩

/-- The instructions that are not new. -/
theorem has_of_within (hle : s.program.Within P)
    (h : P.Has i opcode operands) (hi : i < s.here) : s.program.Has i opcode operands := by
  obtain ⟨c', h⟩ := h
  obtain ⟨⟨opcode', operands', c⟩, hins⟩ := Slots.exists_of_lt hi
  obtain ⟨c'', h'⟩ := hle.code i _ hins
  cases h.symm.trans h'
  exact ⟨c, hins⟩

theorem emit_has (s : EmitState) (opcode : OpCode) (operands : List Operand) :
    (s.emit opcode operands).program.Has s.here opcode operands :=
  ⟨_, by rw [emit_get?, if_pos rfl]⟩

namespace Confined

/-- No code yet. -/
theorem start (hwf : s.registers.WF) : s.Confined σ s.here := by
  refine ⟨hwf, Nat.le_refl _, fun i hi hlt => absurd hlt (Nat.not_lt.2 hi), fun i r a hi hw => ?_⟩
  obtain ⟨c, hc⟩ := hw
  exact absurd (Slots.lt_of_get? hc) (Nat.not_lt.2 hi)

/-- No instruction is added. -/
theorem keep (h : s.Confined σ first) (hle : s.program.Within s'.program) (hhere : s'.here = s.here)
    (hwf : s'.registers.WF) : s'.Confined σ first := by
  refine ⟨hwf, hhere ▸ h.started, fun i hi hlt => (h.code i hi (hhere ▸ hlt)).mono hle,
    fun i r a hi hw => ?_⟩
  obtain ⟨c, hc⟩ := id hw
  have hlt : i < s.here := hhere ▸ Slots.lt_of_get? hc
  exact (h.writes i r a hi (has_of_within hle hw hlt)).within hle

theorem emit (h : s.Confined σ first)
    (hx : (s.emit x.1 x.2).program.Contained σ.env.layout σ.slots first s.here)
    (hw : ∀ r a, x = .write r (.direct a) →
      StaticWrite σ.env σ.stores (s.emit x.1 x.2).program s.here r a) :
    (s.emit x.1 x.2).Confined σ first := by
  have hle := (s.emit_grows (n := 0) x.1 x.2).within
  refine ⟨h.wf, Nat.le_trans h.started (by rw [emit_here]; omega), fun i hi hlt => ?_,
    fun i r a hi hi' => ?_⟩
  · rw [emit_here] at hlt
    by_cases hs : i = s.here
    · rw [hs]
      exact hx
    · exact (h.code i hi (by omega)).mono hle
  · obtain ⟨c, hc⟩ := id hi'
    by_cases hs : i = s.here
    · subst hs
      rw [emit_get?, if_pos rfl] at hc
      refine hw r a (Prod.ext ?_ ?_)
      · exact congrArg Instruction.opcode (Option.some.inj hc)
      · exact congrArg Instruction.operands (Option.some.inj hc)
    · have hlt : i < (s.emit x.1 x.2).here := Slots.lt_of_get? hc
      rw [emit_here] at hlt
      exact (h.writes i r a hi (has_of_within hle hi' (by omega))).within hle

/-- A write to a fixed address. -/
theorem write (h : s.Confined σ first) (hr : r ≠ .arp) (ha : a ∈ σ.env.layout.addresses)
    (hw : StaticWrite σ.env σ.stores (s.emit .write [.register r, .address (.direct a)]).program
      s.here r a) :
    (s.emit .write [.register r, .address (.direct a)]).Confined σ first := by
  refine h.emit (.apart (x := .write r (.direct a)) (s.emit_has ..) ?_) fun r' a' heq => ?_
  · exact List.forall_mem_cons.2 ⟨hr, List.forall_mem_singleton.2 ha⟩
  · obtain ⟨rfl, rfl⟩ := heq
    exact hw

end Confined

end EmitState

theorem ne_arp_of_mem (h : r ∈ generalPurpose) : r ≠ .arp := by
  rintro rfl
  exact absurd h (by decide)

/-- A place that the code of a routine may use. -/
def Place.Fits (σ : Storage) : Place → Prop
  | .frame k => k < σ.slots
  | .global a => a ∈ σ.env.layout.addresses
  | .shared r => r ≠ .arp

/-- The place of a global variable is computed by no code. -/
theorem NameAt.global_eq {function : Option ScopeId} {node : NodeId} {x : String} {kind : ScopeKind}
    {code : List Ins}
    (h : NameAt env function used node x id k kind (.global a) code) : kind = .global ∧ code = [] ∧
    a = env.layout.global k := by
  cases h.code
  exact ⟨rfl, rfl, rfl⟩

/-! ## Actions -/

namespace Emit

/-- The action adds code that stays within the storage of its routine. Its result is as `R` says. -/
def Confines {α : Type} (σ : Storage) (m : Emit α) (R : α → Prop) : Prop :=
  ∀ s first, s.Confined σ first → Sat Any m σ.env s fun a s' => s'.Confined σ first ∧ R a

/-- An action with a result that nothing is said about. -/
abbrev Keeps {α : Type} (σ : Storage) (m : Emit α) : Prop := Confines σ m fun _ => True

/-- An action that computes a value or an address into a register. -/
abbrev Gives (σ : Storage) (m : Emit Register) : Prop := Confines σ m (· ≠ .arp)

variable {α β : Type} {σ : Storage} {m pushArguments : Emit Unit}
  {block value array index : Register} {f : Unit → Emit α} {R : α → Prop} {op : Operator}
  {p : Place} {v : Int}

namespace Confines

variable {m : Emit α} {f : α → Emit β} {R : α → Prop} {R' : β → Prop}

theorem bind (hm : Confines σ m R) (hf : ∀ a, R a → Confines σ (f a) R') :
    Confines σ (m >>= f) R' := fun s first hs => .bind (hm s first hs) fun a s1 h1 =>
  hf a h1.2 s1 first h1.1

/-- An action, and then another one that does not depend on its result. -/
theorem seq (hm : Confines σ m R) (hf : ∀ a, Confines σ (f a) R') : Confines σ (m >>= f) R' :=
  hm.bind fun a _ => hf a

/-- An action, and then one that is the same for all results. -/
theorem step {k : Emit β} (hm : Confines σ m R) (hk : Confines σ k R') :
    Confines σ (m >>= fun _ => k) R' := hm.seq fun _ => hk

theorem weaken {R1 : α → Prop} (hm : Confines σ m R) (h : ∀ a, R a → R1 a) :
    Confines σ m R1 := fun s first hs => (hm s first hs).weaken fun _ _ h' => ⟨h'.1, h _ h'.2⟩

theorem keeps (hm : Confines σ m R) : Keeps σ m := hm.weaken fun _ _ => trivial

theorem pure {a : α} (h : R a) : Confines σ (Pure.pure a) R := fun _ _ hs => Sat.pure ⟨hs, h⟩

theorem throw {e : CodeError} : Confines σ (MonadExcept.throw e : Emit α) R :=
  fun _ _ _ => Sat.throw trivial

theorem read {f : Env → Emit β} (h : Confines σ (f σ.env) R') :
    Confines σ (MonadReader.read >>= f) R' := fun s first hs => .read (h s first hs)

theorem discard (hm : Keeps σ m) : Keeps σ (Functor.discard m : Emit Unit) :=
  fun s first hs => (hm s first hs).discard

theorem orThrow (x : Except CodeError α) :
    Confines σ (Emit.orThrow x) fun a => x = .ok a := fun _ _ hs =>
  .orThrow (fun _ h => ⟨hs, h⟩) fun _ _ => trivial

theorem query {x : Tables → Except Fault α}
    (hf : ∀ a, x σ.env.tables = .ok a → Confines σ (f a) R') :
    Confines σ (Emit.query x >>= f) R' :=
  fun s first hs => .query (any _) fun a ha => hf a ha s first hs

theorem expect_last (what : Missing) (o : Option α) :
    Confines σ (Emit.expect what o) fun a => o = some a :=
  fun _ _ hs => .expect_last (any _) fun _ h => ⟨hs, h⟩

theorem expect {what : Missing} {o : Option α} (hf : ∀ a, o = some a → Confines σ (f a) R') :
    Confines σ (Emit.expect what o >>= f) R' := .bind (.expect_last what o) hf

theorem forM {f : α → Emit Unit} : ∀ {l : List α}, (∀ a ∈ l, Keeps σ (f a)) → Keeps σ (l.forM f)
  | [], _ => .pure trivial
  | a :: _, h => .step (h a (.head _)) <| forM fun b hb => h b (.tail _ hb)

/-- An action that leaves the state alone. -/
theorem ofSame (h : ∀ s, Sat Any m σ.env s fun _ s' => s' = s) : Keeps σ m := fun s _ hs =>
  (h s).weaken fun _ _ h' => ⟨h' ▸ hs, trivial⟩

end Confines

/-! ## Registers, labels and comments -/

theorem release_keeps (r : Register) : Keeps σ (release r) := fun _ _ hs =>
  (release_done ⟨hs.wf, rfl⟩).weaken fun _ _ h =>
    ⟨hs.keep (h.2.program ▸ .refl _) h.2.here h.2.uses.wf, trivial⟩

theorem inUse_confines : Confines σ inUse fun l => ∀ r ∈ l, r ≠ .arp := fun _ _ hs =>
  .run_last inUse_run ⟨hs, fun _ hr => ne_arp_of_mem (hs.wf.mem hr)⟩

theorem requireAllFree_keeps : Keeps σ requireAllFree := fun s first hs => by
  refine .get ?_
  split
  · trivial
  · exact Sat.pure ⟨hs, trivial⟩

theorem bind_keeps (l : LabelId) (t : InstructionId) : Keeps σ (bind l t) := fun _ _ hs =>
  bind_done.weaken fun _ _ h =>
    ⟨hs.keep (h.grows (n := 0) (Nat.zero_le _)).within h.here (h.registers ▸ hs.wf), trivial⟩

theorem comment_keeps (id : Nat) (text : String) : Keeps σ (comment id text) := fun _ _ hs =>
  comment_done.weaken fun _ _ h =>
    ⟨hs.keep (h.grows (n := 0)).within h.here (h.registers ▸ hs.wf), trivial⟩

namespace Confines

variable {k : Emit β} {R' : β → Prop}

theorem allocate {f : Register → Emit β} (hf : ∀ r, r ≠ .arp → Confines σ (f r) R') :
    Confines σ (Emit.allocate >>= f) R' := fun _ first hs =>
  .bind (allocate_sat .of ⟨hs.wf, rfl⟩) fun r _ h =>
    hf r (ne_arp_of_mem (h.uses.mem (by simp))) _ first
    (hs.keep (h.program ▸ .refl _) h.here h.uses.wf)

theorem here {f : Nat → Emit β} (hf : ∀ i, Confines σ (f i) R') :
    Confines σ (Emit.here >>= f) R' := fun s first hs => .run here_run (hf s.here s first hs)

theorem label {name : String} {f : LabelId → Emit β} (hf : ∀ l, Confines σ (f l) R') :
    Confines σ (createLabel name >>= f) R' := fun s first hs => .run (createLabel_run name)
  (hf s.labels _ first (hs.keep (s.addLabel_grows (n := 0) name (Nat.zero_le _)).within rfl hs.wf))

theorem release (hk : Confines σ k R') : Confines σ (Emit.release r >>= fun _ => k) R' :=
  .step (release_keeps r) hk

theorem binds {l : LabelId} {t : InstructionId} (hk : Confines σ k R') :
    Confines σ (Emit.bind l t >>= fun _ => k) R' := .step (bind_keeps l t) hk

theorem comment {id : Nat} {text : String} (hk : Confines σ k R') :
    Confines σ (Emit.comment id text >>= fun _ => k) R' := .step (comment_keeps id text) hk

end Confines

theorem entry_keeps (f : FunctionId) : Keeps σ (entry f) := .read (.keeps (.orThrow _))

theorem entryName_keeps (f : FunctionId) : Keeps σ (entryName f) :=
  .ofSame fun _ => entryName_sat (any _)

theorem frameScope_confines (f : FunctionId) : Confines σ (frameScope f) fun scope =>
    ∃ fn, σ.env.tables.function? f = some fn ∧ fn.scope = some scope := .query fun fn hfn =>
  (Confines.expect_last _ _).weaken fun _ hs => ⟨fn, Slots.fetch_eq_ok_iff.1 hfn, hs⟩

theorem memberScope_keeps (c : String) : Keeps σ (memberScope c) := .read (.expect fun _ _ =>
  .keeps (.expect_last _ _))

theorem createLabels_keeps (name : String) : ∀ n, Keeps σ (createLabels name n)
  | 0 => .pure trivial
  | n + 1 => .label fun _ => .seq (createLabels_keeps name n) fun _ => .pure trivial

/-! ## Instructions -/

/-- An instruction that has nothing to do with the frame pointer and is no write to a fixed
address. -/
theorem apart_keeps (hrun : ∀ s, m σ.env s = .ok ((), s.emit opcode operands))
    (hx : ∀ o ∈ operands, o.Apart σ.env.layout)
    (hw : opcode = .write → ∀ a, .address (.direct a) ∉ operands) :
    Keeps σ m := fun s _ hs => by
  refine .run_last (hrun s) ⟨hs.emit (x := (opcode, operands)) (.apart (s.emit_has ..) hx)
    fun r a h => ?_, trivial⟩
  obtain ⟨rfl, rfl⟩ := h
  exact absurd (.tail _ (.head _)) (hw rfl a)

/-- An instruction of a call. -/
theorem link_keeps (hrun : ∀ s, m σ.env s = .ok ((), s.emit opcode operands))
    (hx : Ins.Links (opcode, operands)) :
    Keeps σ m := fun s _ hs =>
  .run_last (hrun s) ⟨hs.emit (.link (s.emit_has ..) hx) fun r _ h =>
    absurd h (hx.ne_write r _), trivial⟩

section
variable {r x y z : Register} (hr : r ≠ .arp)
include hr

theorem constant_keeps (v : Int) : Keeps σ (constant v r) :=
  apart_keeps (fun _ => rfl) (by simp [Operand.Apart, hr]) nofun

theorem load_keeps : Keeps σ (load (.indirect r) r) :=
  apart_keeps (fun _ => rfl) (by simp [Operand.Apart, hr]) nofun

theorem store_keeps (hx : x ≠ .arp) : Keeps σ (store x (.indirect r)) :=
  apart_keeps (fun _ => rfl) (by simp [Operand.Apart, hr, hx]) nofun

theorem push_keeps : Keeps σ (push r) :=
  apart_keeps (fun _ => rfl) (by simp [Operand.Apart, hr]) nofun

theorem pop_keeps : Keeps σ (pop r) :=
  apart_keeps (fun _ => rfl) (by simp [Operand.Apart, hr]) nofun

theorem receive_keeps : Keeps σ (receive r) :=
  apart_keeps (fun _ => rfl) (by simp [Operand.Apart, hr]) nofun

theorem branch_keeps (l : LabelId) : Keeps σ (branch r l) :=
  apart_keeps (fun _ => rfl) (by simp [Operand.Apart, hr]) nofun

theorem writeShared_keeps (hx : x ≠ .arp) : Keeps σ (writeShared r (.indirect x)) :=
  apart_keeps (fun _ => rfl) (by simp [Operand.Apart, hr, hx]) (by simp)

/-- A write to a fixed address that has a reason anywhere. -/
theorem writeStatic_keeps (ha : a ∈ σ.env.layout.addresses)
    (hw : ∀ P i, StaticWrite σ.env σ.stores P i r a) :
    Keeps σ (writeShared r (.direct a)) :=
  fun _ _ hs => .emit_last rfl ⟨hs.write hr ha (hw _ _), trivial⟩

end

theorem writeZero_keeps {a : Address} (ha : (Operand.address a).Apart σ.env.layout) :
    Keeps σ (writeShared .zero a) := by
  cases a with
  | direct a => exact writeStatic_keeps (by decide) ha fun _ _ => .zero
  | indirect x => exact writeShared_keeps (by decide) ha

theorem compute_keeps {x y z : Register} (hx : x ≠ .arp) (hy : y ≠ .arp) (hz : z ≠ .arp) :
    Keeps σ (compute op x y z) :=
  apart_keeps (fun _ => rfl) (by simp [Operand.Apart, hx, hy, hz]) nofun

theorem readShared_keeps {a : Address} (ha : (Operand.address a).Apart σ.env.layout) :
    Keeps σ (readShared a) := apart_keeps (fun _ => rfl) (List.forall_mem_singleton.2 ha) nofun

theorem testAndSet_keeps {a : Address} (ha : (Operand.address a).Apart σ.env.layout) :
    Keeps σ (testAndSet a) := apart_keeps (fun _ => rfl) (List.forall_mem_singleton.2 ha) nofun

theorem jump_keeps (l : LabelId) : Keeps σ (jump (.label l)) :=
  apart_keeps (fun _ => rfl) (by simp [Operand.Apart]) nofun

theorem endProgram_keeps : Keeps σ endProgram := apart_keeps (fun _ => rfl) nofun nofun

theorem nop_keeps : Keeps σ nop := apart_keeps (fun _ => rfl) nofun nofun

theorem anchor_keeps (l : LabelId) : Keeps σ (anchor l) :=
  .here fun _ => .step nop_keeps <| bind_keeps l _

/-- A constant that is combined with the frame pointer at once. -/
theorem offset_confines (hr : r ≠ .arp) (hop : ∀ (P : Program) first j, first ≤ j →
      P.HasAll j [.const v r, .compute op .arp r r] →
      P.Contained σ.env.layout σ.slots first (j + 1)) (hf : Confines σ (f ()) R) :
    Confines σ (do constant v r; let u ← compute op .arp r r; f u) R := fun s first hs => by
  refine .emit rfl (.emit rfl (hf _ first ?_))
  have h1 : (s.emit .const [.immediate (.value v), .register r]).Confined σ first :=
    hs.emit (.apart (x := .const v r) (s.emit_has ..) (by simp [Operand.Apart, hr])) (by simp)
  refine h1.emit (x := .compute op .arp r r) ?_ (by simp)
  rw [EmitState.emit_here]
  refine hop _ first s.here hs.started ⟨?_, ?_, trivial⟩
  · exact (EmitState.emit_grows (n := 0) ..).within.has (s.emit_has ..)
  · have := EmitState.emit_has (s.emit .const [.immediate (.value v), .register r]) .compute
      [.operator op, .register .arp, .register r, .register r]
    rwa [EmitState.emit_here] at this

theorem header_confines (hv : v = 1 ∨ v = 2) (hr : r ≠ .arp) (hf : Confines σ (f ()) R) :
    Confines σ (do constant v r; let u ← compute .sub .arp r r; f u) R :=
  offset_confines hr (fun _ _ _ hj hc => .header rfl hj hv hc) hf

/-! ## Values and places -/

theorem constantRegister_gives (v : Int) : Gives σ (constantRegister v) :=
  .allocate fun _ hr => .step (constant_keeps hr v) <| .pure hr

theorem slotAddress_gives (hk : k < σ.slots) : Gives σ (slotAddress k) := .allocate fun _ hr =>
  offset_confines hr (fun _ _ _ hj hc => .slot rfl hj hk hc) (.pure hr)

theorem loadPlace_gives (hp : p.Fits σ) : Gives σ (loadPlace p) := by
  cases p with
  | frame k =>
    exact .bind (slotAddress_gives hp) fun _ hr => .step (load_keeps hr) <| .pure hr
  | global a =>
    exact .allocate fun _ hr => .step (readShared_keeps hp) <| .step (receive_keeps hr) <| .pure hr
  | shared r =>
    exact .step (readShared_keeps hp) <| .step (receive_keeps hp) <| .pure hp

/-- A value is stored. In a global variable there is a reason for it. -/
theorem storePlace_confined {s : EmitState} (hs : s.Confined σ first)
    (hv : value ≠ .arp) (hp : p.Fits σ) (hw : ∀ a, p = .global a →
      StaticWrite σ.env σ.stores (s.emit .write [.register value, .address (.direct a)]).program
      s.here value a) :
    Sat Any (storePlace value p) σ.env s fun _ s' => s'.Confined σ first ∧ True := by
  cases p with
  | frame k =>
    have h : Keeps σ (storePlace value (.frame k)) := .bind (slotAddress_gives hp) fun r hr =>
      .step (store_keeps hr hv) <| release_keeps r
    exact h s first hs
  | global a => exact .emit_last rfl ⟨hs.write hv hp (hw a rfl), trivial⟩
  | shared r =>
    have h : Keeps σ (storePlace value (.shared r)) := .step (writeShared_keeps hv hp) <|
      release_keeps r
    exact h s first hs

theorem fieldPlace_shared (ho : object ≠ .arp) (k : Nat) :
    Confines σ (fieldPlace object k) (· = .shared object) := by
  unfold fieldPlace
  split
  · exact .bind (constantRegister_gives _) fun r hr => .step (compute_keeps ho hr ho) <|
      .release <| .pure rfl
  · exact .pure rfl

theorem elementPlace_shared (ha : array ≠ .arp) (hi : index ≠ .arp) :
    Confines σ (elementPlace array index) (· = .shared index) := .step (compute_keeps ha hi hi) <|
  .release <| .pure rfl

theorem fieldPlace_fits (ho : object ≠ .arp) (k : Nat) :
    Confines σ (fieldPlace object k) (·.Fits σ) :=
  (fieldPlace_shared ho k).weaken fun _ hp => hp ▸ ho

theorem fieldOffset_keeps (object : NodeId) (x : String) : Keeps σ (fieldOffset object x) :=
  .ofSame fun _ => fieldOffset_done.weaken fun _ _ h => h.1

/-! ## Calls -/

theorem pushZeros_keeps : ∀ n, Keeps σ (pushZeros n)
  | 0 => .pure trivial
  | n + 1 => .step (push_keeps (by decide)) <| pushZeros_keeps n

theorem pushLast_keeps (hr : r ≠ .arp) : Keeps σ (pushLast r) :=
  .step (push_keeps hr) <| release_keeps r

theorem enterCall_confines (l : LabelId) :
    Confines σ (enterCall l) fun p => ∀ r ∈ p.2, r ≠ .arp := .label fun returnLabel =>
  .step (link_keeps (fun _ => rfl) .save) <| .step
    (link_keeps (fun _ => rfl) (.address returnLabel)) <| .step (link_keeps (fun _ => rfl) .save) <|
    .step (push_keeps (by decide)) <| .bind inUse_confines fun saved hs => .step (.forM fun r hr =>
    push_keeps (hs r hr)) <| .step (link_keeps (fun _ => rfl) (.distance _)) <|
    .step (link_keeps (fun _ => rfl) .enter) <| .step (jump_keeps l) <| .pure hs

theorem leaveCall_gives {saved : List Register} (hs : ∀ r ∈ saved, r ≠ .arp) (size : Nat) :
    Gives σ (leaveCall saved size) := .step (.forM fun r hr =>
  pop_keeps (hs r (List.mem_reverse.1 hr))) <|
    .allocate fun result hr => .step (constant_keeps hr _) <|
    .step (link_keeps (fun _ => rfl) (.leave result)) <| header_confines (.inr rfl) hr <|
    .step (load_keeps hr) <| .step (link_keeps (fun _ => rfl) .restore) <| .pure hr

theorem call_gives (l : LabelId) (size arguments : Nat)
    (hargs : Keeps σ pushArguments) : Gives σ (call l size arguments pushArguments) := by
  rw [call_eq]
  split
  · exact .bind (R := fun _ => False) .throw fun _ h => h.elim
  · exact .step (pushZeros_keeps _) <| .step hargs <| .bind (enterCall_confines l) fun p hp =>
      .step (anchor_keeps p.1) <| leaveCall_gives hp size

theorem callFunction_gives (f : FunctionId) (arguments : Nat)
    (hargs : Keeps σ pushArguments) : Gives σ (callFunction f arguments pushArguments) :=
  .seq (frameScope_confines f) fun _ => .query fun size _ => .seq (entry_keeps f) fun l =>
    .here fun _ => .bind (call_gives l size arguments hargs) fun _ hr =>
    .seq (entryName_keeps f) fun _ => .comment <| .pure hr

theorem alloc_gives {size : Register} (hs : size ≠ .arp) : Gives σ (alloc size) :=
  .read (call_gives _ 1 1 (pushLast_keeps hs))

theorem launch_gives (f : FunctionId) (name : String) :
    Gives σ (launch f name) := .read <| .expect fun thread ht =>
  .allocate fun r hr => by
    have hlt : thread < σ.env.threads.length := (List.findIdx?_eq_some_iff_getElem.1 ht).1
    exact .here fun first => .step (constant_keeps hr _) <|
      .step (writeStatic_keeps hr (StaticLayout.threadFlag_mem (σ.spacious.threads ▸ hlt))
        fun _ _ => .threadFlag hlt) <| .comment <| .pure hr

theorem jumpBack_keeps (result : Option Register) (hv : ∀ r, result = some r → r ≠ .arp) :
    Keeps σ (jumpBack result) := by
  refine .allocate fun r hr => ?_
  have htail : Keeps σ (do
      constant 1 r
      compute .sub .arp r r
      load (.indirect r) r
      jump (.indirect r)
      release r) :=
    header_confines (.inl rfl) hr <| .step (load_keeps hr) <|
      .step (apart_keeps (fun _ => rfl) (by simp [Operand.Apart, hr]) nofun) <| release_keeps r
  cases result with
  | none => exact htail
  | some value =>
    exact header_confines (.inr rfl) hr (.step (store_keeps hr (hv value rfl)) <| htail)

/-! ## Heap values -/

theorem writeElement_keeps (hb : block ≠ .arp) (i : Nat) (hv : value ≠ .arp) :
    Keeps σ (writeElement block i value) := .bind (constantRegister_gives _) fun address ha =>
  .step (compute_keeps hb ha ha) <| .step (writeShared_keeps hv ha) <| release_keeps address

theorem writeChars_keeps (hb : block ≠ .arp) : ∀ (cs : List Char) (i : Nat),
    Keeps σ (writeChars block i cs)
  | [], _ => .pure trivial
  | _ :: cs, i => .bind (constantRegister_gives _) fun _ hr => .step (writeElement_keeps hb i hr) <|
      .release <| writeChars_keeps hb cs (i + 1)

theorem string_gives (str : String) : Gives σ (string str) :=
    .bind (constantRegister_gives _) fun _ hs =>
  .here fun first => .bind (alloc_gives hs) fun _ hb => .comment <|
    .step (writeChars_keeps hb _ _) <| .step (writeElement_keeps hb _ (by decide)) <| .pure hb

theorem literal_gives (l : Literal) : Gives σ (literal l) := by
  cases l with
  | int v => exact constantRegister_gives _
  | bool b => exact constantRegister_gives _
  | char c => exact constantRegister_gives _
  | string str => exact string_gives str

theorem enumValue_gives (x member : String) : Gives σ (enumValue x member) :=
  .read (.expect fun _ _ => constantRegister_gives _)

theorem newObject_gives (node : NodeId) (c : String) (arguments : Nat)
    (hargs : Keeps σ pushArguments) : Gives σ (newObject node c arguments pushArguments) := by
  rw [newObject_eq]
  refine .seq (memberScope_keeps c) fun _ => .query fun words _ => .here fun first =>
    .bind (constantRegister_gives _)
    fun _ hs => .bind (alloc_gives hs) fun object ho => .comment <| ?_
  have hinit : Keeps σ (runInitializer c object) := by
    refine .read ?_
    split
    · exact .seq (call_gives _ 1 1 (push_keeps ho)) fun r => release_keeps r
    · exact .pure trivial
  have hconstructor : Keeps σ (runConstructor node arguments pushArguments object) := by
    refine .read ?_
    split
    · exact .seq (callFunction_gives _ _ (.step hargs <| push_keeps ho)) fun r => release_keeps r
    · exact .pure trivial
  exact .step hinit <| .step hconstructor <| .pure ho

end Emit

/-! ## Expressions -/

end Code

mutual

/-- The nodes of an expression that name variables, with the names. -/
def Expr.names : Expr → List (NodeId × String)
  | .literal .. | .enumValue .. => []
  | .name n x => [(n.id, x)]
  | .arrayLiteral _ es | .call _ _ es | .new _ _ es => Expr.namesAll es
  | .newArray _ _ e | .field _ e _ | .unary _ _ e => e.names
  | .index _ l r | .binary _ _ l r => l.names ++ r.names
  | .methodCall _ r _ es => r.names ++ Expr.namesAll es

def Expr.namesAll : List Expr → List (NodeId × String)
  | [] => []
  | e :: es => e.names ++ Expr.namesAll es

end

namespace Code.Emit

variable {σ : Storage} {ctx : Context}

/-- The places of these names fit. -/
def NamesFit (σ : Storage) (ctx : Context) (names : List (NodeId × String)) : Prop :=
  ∀ q ∈ names, Confines σ (namePlace ctx q.1 q.2) (·.Fits σ)

theorem namesFit_append {names names' : List (NodeId × String)} :
    NamesFit σ ctx (names ++ names') ↔ NamesFit σ ctx names ∧ NamesFit σ ctx names' :=
  List.forall_mem_append

mutual

theorem expr_gives {σ : Storage} {ctx : Context} : ∀ (e : Expr), NamesFit σ ctx e.names →
    Gives σ (expr ctx e)
  | .literal _ l, _ => literal_gives l
  | .name n x, h =>
    .here fun first => .bind (h (n.id, x) (.head _)) fun _ hp =>
      .bind (loadPlace_gives hp) fun _ hr => .comment <| .pure hr
  | .enumValue _ x member, _ => enumValue_gives x member
  | .arrayLiteral _ es, h =>
    .bind (constantRegister_gives _) fun _ hs => .bind (alloc_gives hs) fun _ hb =>
      .step (elements_keeps es h hb 0) <| .pure hb
  | .newArray _ _ length, h => .bind (expr_gives length h) fun _ hs => alloc_gives hs
  | .index _ a i, h => by
    rw [Expr.names, namesFit_append] at h
    exact .bind (expr_gives a h.1) fun _ ha => .bind (expr_gives i h.2) fun _ hi =>
      .bind ((elementPlace_shared ha hi).weaken fun _ hp => hp ▸ hi) fun _ hp => loadPlace_gives hp
  | .field _ o x, h =>
    .seq (fieldOffset_keeps _ _) fun k => .bind (expr_gives o h) fun _ ho =>
      .bind (fieldPlace_fits ho k) fun _ hp => loadPlace_gives hp
  | .call n name es, h => by
    refine .read <| .expect fun f _ => .query fun fn _ => ?_
    split
    · exact launch_gives f name
    · exact callFunction_gives f _ (pushAll_keeps es h)
  | .methodCall _ r _ es, h => by
    rw [Expr.names, namesFit_append] at h
    exact .read <| .expect fun f _ => callFunction_gives f _ <| .step (pushAll_keeps es h.2) <|
      .bind (expr_gives r h.1) fun _ hr => pushLast_keeps hr
  | .new n c es, h => newObject_gives n.id c _ (pushAll_keeps es h)
  | .unary _ op e, h =>
    .bind (expr_gives e h) fun _ hr => .step (compute_keeps (by decide) hr hr) <| .pure hr
  | .binary _ op l r, h => by
    rw [Expr.names, namesFit_append] at h
    exact .bind (expr_gives l h.1) fun left hl => .bind (expr_gives r h.2) fun _ hr =>
      .step (compute_keeps hl hr hr) <| .release <| .pure hr

theorem elements_keeps {σ : Storage} {ctx : Context} : ∀ (es : List Expr),
    NamesFit σ ctx (Expr.namesAll es) → ∀ {block : Register}, block ≠ .arp → ∀ (i : Nat),
    Keeps σ (elements ctx block i es)
  | [], _, _, _, _ => .pure trivial
  | e :: es, h, _, hb, i => by
    rw [Expr.namesAll, namesFit_append] at h
    exact .bind (expr_gives e h.1) fun r hr => .step (writeElement_keeps hb i hr) <|
      .release <| elements_keeps es h.2 hb (i + 1)

theorem pushAll_keeps {σ : Storage} {ctx : Context} : ∀ (es : List Expr),
    NamesFit σ ctx (Expr.namesAll es) → Keeps σ (pushAll ctx es)
  | [], _ => .pure trivial
  | e :: es, h => by
    rw [Expr.namesAll, namesFit_append] at h
    exact .step (pushAll_keeps es h.2) <| .bind (expr_gives e h.1) fun _ hr => pushLast_keeps hr

end

end Code.Emit

/-! ## Names -/

namespace ScopeTree.Laid

variable {t : ScopeTree} {id : ScopeId} {sc : Scope} {x : String} {k n : Nat}

theorem frameSize_owner (h : t.Laid) (hsc : t.scopes.get? id = some sc) :
    t.frameSize id = t.frameSize sc.owner := by
  obtain ⟨o, ho, hoo⟩ := h.owner id sc hsc
  rw [frameSize_eq hsc ho, frameSize_eq ho (by rw [hoo]; exact ho)]

/-- The slot of a name is one of the frame of its scope. -/
theorem offset_lt (h : t.Laid) (hk : t.offset? id x = .ok (some k))
    (hn : t.frameSize id = .ok n) : k < n := by
  obtain ⟨sc, hsc, o, ho, hslots⟩ : ∃ sc, t.scopes.get? id = some sc ∧ ∃ o,
      t.scopes.get? sc.owner = some o ∧
      n = o.slots := by
    unfold frameSize at hn
    simpa only [except_bind_eq_ok, except_pure_eq_ok, Slots.fetch_eq_ok_iff] using hn
  rw [offset?_eq hsc] at hk
  obtain ⟨b, hb, hoff⟩ := Option.bind_eq_some_iff.1 (Except.ok.inj hk)
  exact hslots ▸ h.bound id sc o x b k hsc ho hb hoff

end ScopeTree.Laid

mutual

theorem Expr.Ready.names : ∀ (e : Expr), e.Ready t frame → ∀ q ∈ e.names, t.HasName frame q.1 q.2
  | .literal .., _, _, hq => by cases hq
  | .enumValue .., _, _, hq => by cases hq
  | .name n x, h, q, hq => by
    cases List.mem_singleton.1 hq
    exact h
  | .arrayLiteral _ es, h, q, hq => Expr.ReadyAll.names es h q hq
  | .newArray _ _ e, h, q, hq => Expr.Ready.names e h q hq
  | .index _ a i, h, q, hq =>
    (List.mem_append.1 hq).elim (Expr.Ready.names a h.1 q) (Expr.Ready.names i h.2 q)
  | .field _ o _, h, q, hq => Expr.Ready.names o h.2 q hq
  | .call _ _ es, h, q, hq => Expr.ReadyAll.names es h.2 q hq
  | .methodCall _ r _ es, h, q, hq =>
    (List.mem_append.1 hq).elim (Expr.Ready.names r h.2.1 q) (Expr.ReadyAll.names es h.2.2 q)
  | .new _ _ es, h, q, hq => Expr.ReadyAll.names es h.2.2 q hq
  | .unary _ _ e, h, q, hq => Expr.Ready.names e h q hq
  | .binary _ _ l r, h, q, hq =>
    (List.mem_append.1 hq).elim (Expr.Ready.names l h.1 q) (Expr.Ready.names r h.2 q)

theorem Expr.ReadyAll.names : ∀ (es : List Expr),
    Expr.ReadyAll t frame es → ∀ q ∈ Expr.namesAll es, t.HasName frame q.1 q.2
  | [], _, _, hq => by cases hq
  | e :: es, h, q, hq =>
    (List.mem_append.1 hq).elim (Expr.Ready.names e h.1 q) (Expr.ReadyAll.names es h.2 q)

end

namespace Code.Emit

variable {σ : Storage} {ctx : Context} {node : NodeId} {x : String}
  {body : FunctionBody}

/-- A name that code of a routine reaches has a place that fits, if its frame has as many slots as
its scope counts. A global variable has one in any frame. -/
theorem namePlace_fits {sc : Scope} (hplaces : σ.env.tables.Places node x id sc k)
    (hreach : σ.env.tables.scopes.Reaches ctx.function sc) (hsize : sc.kind ≠ .global →
      σ.env.tables.scopes.frameSize (ScopeTree.frameOwner ctx.function) = .ok σ.slots) :
    Confines σ (namePlace ctx node x) (·.Fits σ) := by
  refine .read <| .expect fun id' hid => .query fun o ho => .expect fun k' hk =>
    .query fun kind hkind => ?_
  obtain rfl := Option.mem_unique hplaces.scope hid
  subst hk
  obtain rfl : sc.kind = kind :=
    Except.ok.inj ((ScopeTree.kind_eq hplaces.isScope).symm.trans hkind)
  unfold ScopeTree.Reaches at hreach
  split
  · rename_i hglobal
    have hid := σ.spacious.laid.single id sc hplaces.isScope hglobal
    exact .pure (StaticLayout.global_mem (σ.spacious.laid.offset_lt (hid ▸ ho) σ.spacious.globals))
  · rename_i hmembers
    rw [hmembers] at hreach
    obtain ⟨-, f, -, -, hf, -⟩ := hreach
    rw [hf]
    refine .query fun o' ho' => .expect fun k' hk' => ?_
    subst hk'
    have hlt : k' < σ.slots := σ.spacious.laid.offset_lt ho'
      (by simpa [hf, ScopeTree.frameOwner] using hsize (by simp [hmembers]))
    exact .bind (loadPlace_gives hlt) fun _ ho => fieldPlace_fits ho _
  · rename_i hkind
    rw [hkind] at hreach
    refine .pure (σ.spacious.laid.offset_lt ho ?_)
    rw [σ.spacious.laid.frameSize_owner hplaces.isScope, hreach]
    exact hsize (by simp [hkind])
  · rename_i hkind
    rw [hkind] at hreach
    refine .pure (σ.spacious.laid.offset_lt ho ?_)
    rw [σ.spacious.laid.frameSize_owner hplaces.isScope, hreach]
    exact hsize (by simp [hkind])

/-- The storage of a routine whose frame has as many slots as its scopes count. -/
abbrev Roomy (σ : Storage) (function : Option ScopeId) : Prop :=
  σ.env.tables.scopes.frameSize (ScopeTree.frameOwner function) = .ok σ.slots

section
variable (h : Roomy σ ctx.function) {c lock value : Expr}
include h

theorem name_fits (hx : σ.env.tables.HasName ctx.function node x) :
    Confines σ (namePlace ctx node x) (·.Fits σ) := by
  obtain ⟨id, sc, k, hplaces, hreach⟩ := hx
  exact namePlace_fits hplaces hreach fun _ => h

theorem ready_gives {e : Expr} (he : e.Ready σ.env.tables ctx.function) : Gives σ (expr ctx e) :=
  expr_gives e fun _ hq => name_fits h (Expr.Ready.names e he _ hq)

/-- The place of a target fits. Only a name has a fixed address. -/
theorem targetPlace_fits (target : Awl.Target) (ht : target.Ready σ.env.tables ctx.function) :
    Confines σ (targetPlace ctx target) fun p => p.Fits σ ∧ ∀ a, p = .global a →
      ∃ n x, target = .name n x := by
  cases target with
  | name n x => exact (name_fits h ht).weaken fun _ hp => ⟨hp, fun _ _ => ⟨n, x, rfl⟩⟩
  | index n a i =>
    refine .bind (ready_gives h ht.1) fun _ ha => .bind (ready_gives h ht.2) fun _ hi =>
      (elementPlace_shared ha hi).weaken fun p hp => ?_
    subst hp
    exact ⟨hi, by simp⟩
  | field n o x =>
    refine .seq (fieldOffset_keeps _ _) fun k => .bind (ready_gives h ht.2) fun _ ho =>
      (fieldPlace_shared ho k).weaken fun p hp => ?_
    subst hp
    exact ⟨ho, by simp⟩

theorem exprPlace_fits (ht : lock.LockReady σ.env.tables ctx.function) :
    Confines σ (exprPlace ctx lock) (·.Fits σ) := by
  cases lock with
  | name n x =>
    obtain ⟨id, sc, k, hplaces, hkind⟩ := ht
    exact namePlace_fits hplaces (by simp [ScopeTree.Reaches, hkind]) fun hne => absurd hkind hne
  | index n a i => exact (targetPlace_fits h (.index n a i) ht).weaken fun _ hp => hp.1
  | field n o x => exact (targetPlace_fits h (.field n o x) ht).weaken fun _ hp => hp.1
  | _ => exact ht.elim

/-! ## Statements -/

theorem declaration_keeps {d : Declaration}
    (hd : Expr.ReadyOption σ.env.tables ctx.function d.initializer)
    (hx : σ.env.tables.HasName ctx.function d.node.id d.name) (hq : d.stores ⊆ σ.stores) :
    Keeps σ (declaration ctx d) := by
  refine .here fun start => ?_
  cases hi : d.initializer with
  | none =>
    exact .bind (name_fits h hx) fun _ hp => .step (fun _ _ hs =>
      storePlace_confined hs (by decide) hp fun _ _ => .zero) <| comment_keeps start _
  | some e =>
    rw [hi] at hd
    have hq : (⟨d.node.id, d.name, e⟩ : NameStore) ∈ σ.stores :=
      hq (by simp [Declaration.stores, hi])
    intro s first hs
    refine .bindRun (ready_gives h hd s first hs) fun v s1 hrun h1 =>
      .bindRun (name_fits h hx s1 first h1.1)
      fun p s2 hplace h2 => .bind (storePlace_confined h2.1 h1.2 h2.2 fun a hp => ?_) fun _ s3 h3 =>
      Confines.release (comment_keeps start _) s3 first h3.1
    subst hp
    obtain ⟨id, k, kind, code, hname, hadds⟩ := (namePlace_adds ⟨h1.1.wf, rfl⟩).of_ok hplace
    obtain ⟨rfl, rfl, rfl⟩ := hname.global_eq
    have hplaced : Placed σ.env s2.program (expr ctx e) s.registers.inUse s.here v s2.here := by
      rw [show s2.here = s1.here from hadds.here]
      exact .of_run hrun ⟨hs.wf, rfl⟩ (hadds.lays _ (.refl _)).1
    exact .store hq hname.scope hname.isKind hname.offset
      (hplaced.within (s2.emit_grows (n := 0) ..).within)

theorem assignment_keeps {target : Awl.Target} (ht : target.Ready σ.env.tables ctx.function)
    (hv : value.Ready σ.env.tables ctx.function) (hq : target.stores value ⊆ σ.stores) :
    Keeps σ (assignment ctx target value) := by
  refine .here fun start s first hs => .bindRun (targetPlace_fits h target ht s first hs)
    fun p s1 hplace h1 => .bindRun (ready_gives h hv s1 first h1.1) fun r s2 hrun h2 =>
    .bind (storePlace_confined h2.1 h2.2 h1.2.1 fun a hp => ?_) fun _ s3 h3 =>
    Confines.release ?_ s3 first h3.1
  · subst hp
    obtain ⟨n, x, rfl⟩ := h1.2.2 a rfl
    obtain ⟨id, k, kind, code, hname, -⟩ := (namePlace_adds ⟨hs.wf, rfl⟩).of_ok hplace
    obtain ⟨rfl, -, rfl⟩ := hname.global_eq
    have hplaced : Placed σ.env s2.program (expr ctx value) s1.registers.inUse s1.here r s2.here :=
      .of_run hrun ⟨h1.1.wf, rfl⟩ (.refl _)
    exact .store (hq (List.mem_singleton.2 rfl)) hname.scope hname.isKind hname.offset
      (hplaced.within (s2.emit_grows (n := 0) ..).within)
  · split
    · exact comment_keeps start _
    · exact .pure trivial

theorem returnStatement_keeps : ∀ {value : Option Expr},
    Expr.ReadyOption σ.env.tables ctx.function value →
    Keeps σ (returnStatement ctx value)
  | none, _ => jumpBack_keeps none fun _ hr => by cases hr
  | some _, hv => .bind (ready_gives h hv) fun r hr =>
      .step (jumpBack_keeps (some r) fun _ hr' => Option.some.inj hr' ▸ hr) <| release_keeps r

theorem withLock_keeps {f : Address → Emit Unit} (hl : lock.LockReady σ.env.tables ctx.function)
    (hf : ∀ a, (Operand.address a).Apart σ.env.layout → Keeps σ (f a)) :
    Keeps σ (withLock ctx lock f) := by
  refine .bind (exprPlace_fits h hl) fun p hp => .bind (.orThrow _) fun a ha =>
    .step (hf a ?_) <| ?_
  · cases p <;> cases ha <;> exact hp
  · split
    · exact release_keeps _
    · exact .pure trivial

theorem branchUnless_keeps (hc : c.Ready σ.env.tables ctx.function) (l : LabelId) :
    Keeps σ (branchUnless ctx c l) := .bind (ready_gives h hc) fun r hr =>
  .step (compute_keeps (by decide) hr hr) <| .step (branch_keeps hr l) <| release_keeps r

theorem loop_keeps {body step : Emit Unit} (hc : c.Ready σ.env.tables ctx.function)
    (hbody : Keeps σ body) (hstep : Keeps σ step) :
    Keeps σ (loop ctx c body step) := .label fun test =>
  .label fun done => .here fun start => .bind (ready_gives h hc) fun r hr => .binds <|
    .step (compute_keeps (by decide) hr hr) <| .step (branch_keeps hr done) <| .release <|
    .step hbody <| .step hstep <| .step (jump_keeps test) <| anchor_keeps done

theorem switchCase_keeps {discriminant : Register} (hd : discriminant ≠ .arp)
    (hv : value.Ready σ.env.tables ctx.function) (test bodyLabel miss done : LabelId)
    {body : Emit InstructionId} (hbody : Keeps σ body) :
    Keeps σ (switchCase ctx discriminant value test bodyLabel miss done body) :=
  .here fun _ => .bind (ready_gives h hv) fun _ hr => .binds <| .step (compute_keeps hd hr hr) <|
    .step (branch_keeps hr miss) <| .release <| .seq hbody fun _ => .binds <| jump_keeps done

end

theorem acquire_keeps {a : Address} (ha : (Operand.address a).Apart σ.env.layout) :
    Keeps σ (acquire a) := .label fun retry =>
  .label fun acquired => .allocate fun r hr => .here fun _ => .step (testAndSet_keeps ha) <|
    .binds <| .step (receive_keeps hr) <| .step (branch_keeps hr acquired) <|
    .step (jump_keeps retry) <| .step (anchor_keeps acquired) <| release_keeps r

theorem nonempty_keeps {code : Emit Unit} (hc : Keeps σ code) : Keeps σ (nonempty code) := by
  refine .here fun first => .step hc <| .here fun last => ?_
  split
  · exact .step nop_keeps <| .pure trivial
  · exact .pure trivial

mutual

theorem stmt_keeps {σ : Storage} {next : Bool} (ctx : Context) (h : Roomy σ ctx.function) :
    ∀ (st : Stmt),
    st.Ready σ.env.tables ctx.function next → st.stores ⊆ σ.stores → Keeps σ (stmt ctx st)
  | .declaration _ d, hst, hq => declaration_keeps h hst.1 hst.2 hq
  | .assignment _ target value, hst, hq => assignment_keeps h hst.1 hst.2 hq
  | .ifElse _ c thenBlock none, hst, hq => by
    rw [Stmt.stores, List.append_subset] at hq
    exact .label fun done => .step (branchUnless_keeps h hst.1 done) <|
      .step (block_keeps ctx h thenBlock hst.2.1 hq.1).discard <| anchor_keeps done
  | .ifElse _ c thenBlock (some elseBlock), hst, hq => by
    rw [Stmt.stores, List.append_subset] at hq
    exact .label fun done => .bind (ready_gives h hst.1) fun r hr => .label fun thenLabel =>
      .step (branch_keeps hr thenLabel) <| .release <|
      .step (block_keeps ctx h elseBlock hst.2.2 hq.2).discard <| .step (jump_keeps done) <|
      .seq (block_keeps ctx h thenBlock hst.2.1 hq.1) fun first => .binds <| anchor_keeps done
  | .whileLoop _ c body, hst, hq =>
    loop_keeps h hst.1 (block_keeps ctx h body hst.2 hq).discard (.pure trivial)
  | .doLoop _ body c, hst, hq =>
    .label fun start => .seq (block_keeps ctx h body hst.1 hq) fun first => .binds <|
      .bind (ready_gives h hst.2)
      fun r hr => .step (branch_keeps hr start) <| release_keeps r
  | .forLoop _ initializer c step body, hst, hq => by
    rw [Stmt.stores, List.append_subset, List.append_subset] at hq
    exact .step (optionalStmt_keeps ctx h initializer hst.1 hq.1) <| loop_keeps h hst.2.1
      (block_keeps ctx h body hst.2.2.2 hq.2.2).discard
      (optionalStmt_keeps ctx h step hst.2.2.1 hq.2.1)
  | .block _ b, hst, hq => (block_keeps ctx h b hst hq).discard
  | .switch _ d cases none, hst, hq => by
    rw [Stmt.stores, List.append_subset] at hq
    exact .label fun done => .seq (createLabels_keeps _ _) fun tests =>
      .seq (createLabels_keeps _ _) fun bodies => .bind (ready_gives h hst.1) fun r hr =>
      .step (switchCases_keeps ctx h hr done none cases hst.2.1 hq.1 _) <|
      .step (anchor_keeps done) <| release_keeps r
  | .switch _ d cases (some b), hst, hq => by
    rw [Stmt.stores, List.append_subset] at hq
    exact .label fun done => .seq (createLabels_keeps _ _) fun tests =>
      .seq (createLabels_keeps _ _) fun bodies =>
      .label fun fallbackLabel => .bind (ready_gives h hst.1) fun r hr =>
      .step (switchCases_keeps ctx h hr done (some fallbackLabel) cases hst.2.1 hq.1 _) <|
      .seq (block_keeps (ctx.withNext none) h b hst.2.2 hq.2) fun first => .binds <|
      .step (anchor_keeps done) <| release_keeps r
  | .next _, _, _ => by
    rw [stmt]
    split
    · exact jump_keeps _
    · exact .throw
  | .return _ value, hst, _ => returnStatement_keeps h hst
  | .expression _ e, hst, _ => .seq (ready_gives h hst) fun r => release_keeps r
  | .acquire _ lock, hst, _ => withLock_keeps h hst fun _ ha => acquire_keeps ha
  | .release _ lock, hst, _ => withLock_keeps h hst fun _ ha => writeZero_keeps ha

theorem optionalStmt_keeps {σ : Storage} {next : Bool} (ctx : Context) (h : Roomy σ ctx.function) :
    ∀ (st : Option Stmt), Stmt.ReadyOption σ.env.tables ctx.function next st →
      Stmt.storesOption st ⊆ σ.stores →
    Keeps σ (optionalStmt ctx st)
  | none, _, _ => .pure trivial
  | some st, hst, hq => stmt_keeps ctx h st hst hq

theorem stmts_keeps {σ : Storage} {next : Bool} (ctx : Context) (h : Roomy σ ctx.function) :
    ∀ (ss : List Stmt),
    Stmt.ReadyAll σ.env.tables ctx.function next ss → Stmt.storesAll ss ⊆ σ.stores →
    Keeps σ (stmts ctx ss)
  | [], _, _ => .pure trivial
  | st :: ss, hss, hq => by
    rw [Stmt.storesAll, List.append_subset] at hq
    exact .step (stmt_keeps ctx h st hss.1 hq.1) <| stmts_keeps ctx h ss hss.2 hq.2

theorem block_keeps {σ : Storage} {next : Bool} (ctx : Context) (h : Roomy σ ctx.function) :
    ∀ (b : Block),
    b.Ready σ.env.tables ctx.function next → b.stores ⊆ σ.stores → Keeps σ (block ctx b)
  | .mk _ ss, hb, hq => nonempty_keeps (stmts_keeps ctx h ss hb hq)

theorem switchCases_keeps {σ : Storage} {fallback : Bool} (ctx : Context) (h : Roomy σ ctx.function)
    {discriminant : Register} (hd : discriminant ≠ .arp) (done : LabelId) (label : Option LabelId) :
    ∀ (cases : List Case), Case.ReadyAll σ.env.tables ctx.function fallback cases →
      Case.storesAll cases ⊆ σ.stores → ∀ (labels : List (LabelId × LabelId)),
    Keeps σ (switchCases ctx discriminant done label cases labels)
  | [], _, _, _ => .pure trivial
  | .mk _ value body :: cases, _, _, [] => .pure trivial
  | .mk _ value body :: cases, hcs, hq, (test, bodyLabel) :: labels => by
    rw [Case.storesAll, List.append_subset] at hq
    exact .seq (switchCase_keeps h hd hcs.1 test bodyLabel _ done
      (block_keeps (ctx.withNext ((labels.head?.map (·.2)).or label)) h body hcs.2.1 hq.1)) fun _ =>
      switchCases_keeps ctx h hd done label cases hcs.2.2 hq.2 labels

end

/-! ## Routines -/

theorem enterRootFrame_keeps (n : Nat) (exit : LabelId) : Keeps σ (enterRootFrame n exit) :=
  .step (pushZeros_keeps n) <| .step (link_keeps (fun _ => rfl) .save) <|
    .step (link_keeps (fun _ => rfl) (.address exit)) <| .step (link_keeps (fun _ => rfl) .save) <|
    .step (push_keeps (by decide)) <| .step (link_keeps (fun _ => rfl) (.distance 2)) <|
    link_keeps (fun _ => rfl) .enter

theorem bodyCode_keeps (ctx : Context) (h : Roomy σ ctx.function)
    (hb : body.Ready σ.env.tables ctx.function)
    (hq : body.stores ⊆ σ.stores) : Keeps σ (bodyCode ctx body) := by
  cases body with
  | block b =>
    obtain ⟨n, ss⟩ := b
    exact .step (stmts_keeps ctx h ss hb hq) <| jumpBack_keeps none fun _ hr => by cases hr
  | expression e => exact returnStatement_keeps h (show Expr.ReadyOption _ _ (some e) from hb)

theorem threadBody_keeps (ctx : Context) (h : Roomy σ ctx.function)
    (hb : body.Ready σ.env.tables ctx.function)
    (hq : body.stores ⊆ σ.stores) : Keeps σ (threadBody ctx body) := by
  cases body with
  | block b =>
    obtain ⟨n, ss⟩ := b
    exact stmts_keeps ctx h ss hb hq
  | expression e => exact .seq (ready_gives h hb) fun r => release_keeps r

theorem allocatorRoutine_keeps (hslots : 0 < σ.slots) : Keeps σ allocatorRoutine := by
  refine .read <| .label fun locked => .allocate fun base hb => .allocate fun size hs =>
    .here fun first => ?_
  have hlock : (Operand.address (.direct σ.env.layout.allocatorLock)).Apart σ.env.layout :=
    σ.env.layout.allocatorLock_mem
  have hheap : (Operand.address (.direct σ.env.layout.heapPointer)).Apart σ.env.layout :=
    σ.env.layout.heapPointer_mem
  refine .step (testAndSet_keeps hlock) <| .binds <| .comment <|
    .step (receive_keeps hb) <| .step (branch_keeps hb locked) <| .step (jump_keeps _) <|
    .here fun start => .step (readShared_keeps hheap) <| .binds <| .step (receive_keeps hb) <| ?_
  -- The size is the argument, in the first slot.
  refine offset_confines hs (fun P first j hj hc => .slot rfl hj hslots (by simpa using hc)) ?_
  exact .step (load_keeps hs) <| .step (compute_keeps hb hs hs) <|
    .step (writeStatic_keeps hs hheap fun _ _ => .heapPointer) <| .step (writeZero_keeps hlock) <|
    .release <| .step (jumpBack_keeps (some base) fun _ hr => Option.some.inj hr ▸ hb) <|
    release_keeps base

theorem initializeFields_keeps (hslots : 0 < σ.slots) (scope : ScopeId) :
    ∀ {fields : List Declaration},
      (∀ d ∈ fields, ∀ e, d.initializer = some e → NamesFit σ {} e.names) →
    Keeps σ (initializeFields scope fields)
  | [], _ => .pure trivial
  | d :: fields, h => by
    have ih := initializeFields_keeps hslots scope fun d' hd' => h d' (.tail _ hd')
    rw [initializeFields]
    cases hd : d.initializer with
    | none => exact ih
    | some e =>
      exact .query fun _ _ => .expect fun k _ => .bind (expr_gives e (h d (.head _) e hd))
        fun value hv => .bind (loadPlace_gives hslots) fun object ho =>
        .step (writeElement_keeps ho k hv) <| .release <| .release <| ih

theorem dispatch_keeps : ∀ (fs : List FunctionId) (index : Nat), Keeps σ (dispatch index fs)
  | [], _ => .pure trivial
  | f :: fs, index => .allocate fun r hr => .here fun first =>
      .step (constant_keeps hr _) <| .step (compute_keeps (by decide) hr hr) <|
      .seq (entry_keeps f) fun l => .step (branch_keeps hr l) <| .release <|
      .query fun _ _ => .comment <| dispatch_keeps fs (index + 1)

theorem mainCode_keeps (h : Roomy σ none) {statements : List Stmt} {next : Bool}
    (hs : Stmt.ReadyAll σ.env.tables none next statements)
    (hq : Stmt.storesAll statements ⊆ σ.stores) :
    Keeps σ (mainCode statements) := .label fun exit => .query fun size _ =>
  .here fun _ => .step (enterRootFrame_keeps size exit) <| .comment <|
    .step (stmts_keeps {} h statements hs hq) <| .here fun last => .step endProgram_keeps <|
    bind_keeps exit last

end Code.Emit

namespace Code

open Emit

variable {σ : Storage} {P : Program} {first last : Nat}

/-- The number of slots of the frame of a routine. -/
def Routine.Slots (t : Tables) : Routine → Nat → Prop
  | .function f _, n | .thread _ f _, n => ∃ fn scope, t.function? f = some fn ∧
    fn.scope = some scope ∧ t.scopes.frameSize scope = .ok n
  | .initializer .., n | .allocator, n => n = 1

theorem Routine.slots_of_frame {r : Routine} (h : r.Frame t n) : r.Slots t n := by
  cases r with
  | thread => exact h.elim
  | _ => exact h

/-- What a routine needs from outside: the initial values of fields are made of global variables,
and the flag of a thread exists. -/
def Routine.Grounded (env : Env) : Routine → Prop
  | .initializer c _ =>
    ∀ d ∈ c.fields, ∀ e, d.initializer = some e → ∀ q ∈ e.names, env.tables.HasGlobal q.1 q.2
  | .thread index _ _ => index < env.layout.threads
  | .function .. | .allocator => True

/-- The stores of the body of a routine. -/
def Routine.stores : Routine → List NameStore
  | .function _ body | .thread _ _ body => body.stores
  | .initializer .. | .allocator => []

theorem globals_fit {names : List (NodeId × String)}
    (h : ∀ q ∈ names, σ.env.tables.HasGlobal q.1 q.2) : NamesFit σ {} names := fun q hq => by
  obtain ⟨id, sc, k, hplaces, hkind⟩ := h q hq
  exact namePlace_fits hplaces (by simp [ScopeTree.Reaches, hkind]) fun hne => absurd hkind hne

/-- **Routines stay within their storage.** -/
theorem Routine.keeps {r : Routine} (hready : r.Ready σ.env.tables) (hground : r.Grounded σ.env)
    (hslots : r.Slots σ.env.tables σ.slots) (hq : r.stores ⊆ σ.stores) : Keeps σ r.code := by
  cases r with
  | function f body =>
    obtain ⟨fn, scope, hfn, hscope, hbody⟩ := hready
    obtain ⟨fn', scope', hfn', hscope', hsize⟩ := hslots
    rw [Routine.code, function_eq]
    refine .step requireAllFree_keeps <| .bind (frameScope_confines f) fun scope1 hscope1 =>
      .here fun start => ?_
    obtain ⟨fn1, hfn1, hscope1⟩ := hscope1
    obtain rfl := Option.mem_unique hfn hfn'
    obtain rfl := Option.mem_unique hfn hfn1
    obtain rfl := Option.mem_unique hscope hscope'
    obtain rfl := Option.mem_unique hscope hscope1
    exact .step (bodyCode_keeps { function := some scope } hsize hbody hq) <| .seq (entry_keeps f)
      fun l => .binds <| .seq (entryName_keeps f) fun _ => comment_keeps start _
  | initializer c label =>
    have hpos : 0 < σ.slots := hslots ▸ Nat.one_pos
    exact .step requireAllFree_keeps <| .seq (memberScope_keeps _) fun scope => .here fun start =>
      .step (initializeFields_keeps hpos scope fun d hd e he => globals_fit (hground d hd e he)) <|
      .step (jumpBack_keeps none fun _ hr => by cases hr) <| .binds <| comment_keeps start _
  | allocator =>
    have hpos : 0 < σ.slots := hslots ▸ Nat.one_pos
    exact allocatorRoutine_keeps hpos
  | thread index f body =>
    obtain ⟨fn, scope, hfn, hscope, hbody⟩ := hready
    obtain ⟨fn', scope', hfn', hscope', hsize⟩ := hslots
    have hflag : (Operand.address (.direct (σ.env.layout.threadFlag index))).Apart σ.env.layout :=
      StaticLayout.threadFlag_mem hground
    rw [Routine.code, thread_eq]
    refine .read <| .seq (entry_keeps f) fun l => .allocate fun x hx => .here fun start =>
      .step (readShared_keeps hflag) <| .binds <| .step (receive_keeps hx) <|
      .step (compute_keeps (by decide) hx hx) <| .step (branch_keeps hx l) <| .release <|
      .seq (entryName_keeps f) fun _ => .comment <|
      .bind (frameScope_confines f) fun scope1 hscope1 => ?_
    obtain ⟨fn1, hfn1, hscope1⟩ := hscope1
    obtain rfl := Option.mem_unique hfn hfn'
    obtain rfl := Option.mem_unique hfn hfn1
    obtain rfl := Option.mem_unique hscope hscope'
    obtain rfl := Option.mem_unique hscope hscope1
    exact .label fun exit => .query fun size _ => .step (enterRootFrame_keeps size exit) <|
      .step (threadBody_keeps { function := some scope } hsize hbody hq) <| .here fun last =>
      .step endProgram_keeps <| bind_keeps exit last

section
variable {α : Type} {m : Emit α} {used : List Register} {a : α}
  (h : Placed σ.env P m used first a last)
  (hm : Keeps σ m) {i : Nat} (hi : first ≤ i) (hlt : i < last)
include h hm hi hlt

/-- What an action adds to a program stays within the storage. -/
theorem Emit.Placed.contained : P.Contained σ.env.layout σ.slots first i := by
  obtain ⟨s, s', hrun, huses, rfl, rfl, hP⟩ := h
  exact (((hm s s.here (.start huses.wf)).of_ok hrun).1.code i hi hlt).mono hP

theorem Emit.Placed.staticWrite {address : Nat}
    (hw : P.Has i .write [.register r, .address (.direct address)]) :
    StaticWrite σ.env σ.stores P i r address := by
  obtain ⟨s, s', hrun, huses, rfl, rfl, hP⟩ := h
  have hs' := ((hm s s.here (.start huses.wf)).of_ok hrun).1
  exact (hs'.writes i r address hi (EmitState.has_of_within hP hw hlt)).within hP

end

end Code

end Awl
