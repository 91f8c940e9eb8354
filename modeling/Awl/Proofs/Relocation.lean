import Awl.Proofs.Discipline
import Awl.Proofs.NumberingCheck

/-!
# Relocation

Two runs of the generator on units that differ in their nodes only, with tables that have the same
results at related nodes, for memories of different sizes and with or without comments. The static
words are at the end of the memory, so their addresses have the same distance from the two ends.
`Relocation.Mirrors` relates the runs of two actions step by step: both run out of registers, or
both succeed, with the same registers and labels and with code that differs in comments and direct
addresses only. Of accepted units, no run fails in another way.
-/

namespace Awl

open Machine

variable {a a' : Address} {s s' : EmitState} {b b' : FunctionBody} {os : List Operand}
  {n n' : NodeId} {o : Options} {p p' : Place}

/-! ## Code that has been moved -/

/-- The same address in memories of `m` and of `n` words, if a fixed one is counted from the end. -/
inductive Machine.Address.Moves (m n : Nat) : Address → Address → Prop
  | direct {a b : Nat} (h : a + n = b + m) : Moves m n (.direct a) (.direct b)
  | indirect (r : Register) : Moves m n (.indirect r) (.indirect r)

inductive Machine.Operand.Moves (m n : Nat) : Operand → Operand → Prop
  | address {a b : Address} (h : a.Moves m n b) : Moves m n (.address a) (.address b)
  | same {o : Operand} (h : o.kind ≠ .address) : Moves m n o o

theorem Machine.Operand.Moves.kind {m n : Nat} {o o' : Operand} (h : o.Moves m n o') :
    o'.kind = o.kind := by
  cases h <;> rfl

namespace Code

/-- An instruction as two runs with these options emit it. -/
structure Options.Moves (o o' : Options) (i i' : Instruction) : Prop where
  opcode : i'.opcode = i.opcode
  operands : List.Forall₂ (Operand.Moves o.sharedMemory o'.sharedMemory) i.operands i'.operands
  comment : o.comments = true → o'.comments = true → i'.comment = i.comment
  bare : o.comments = false → i.comment = none
  bare' : o'.comments = false → i'.comment = none

/-- Two programs that differ by where the memory ends and by their comments. -/
structure Options.MovesAll (o o' : Options) (p p' : Program) : Prop where
  labels : p'.labels = p.labels
  cores : p'.cores = p.cores
  size : p'.instructions.size = p.instructions.size
  code : ∀ k i, p.instructions.get? k = some i → ∃ i', p'.instructions.get? k = some i' ∧
    o.Moves o' i i'

/-- What is known before two runs: all of it agrees but the options, the place of the static words
and the numbers of the nodes in the tables. -/
structure Relocation where
  env : Env
  options : Options
  layout : StaticLayout
  tables : Tables
  nodes : Renumbering
  like : nodes.TablesLike env.tables tables
  base : env.layout.base + options.sharedMemory = layout.base + env.options.sharedMemory
  threads : layout.threads = env.layout.threads

namespace Relocation

variable (ρ : Relocation)

/-- What is known before the second run. -/
def target : Env := { ρ.env with options := ρ.options, layout := ρ.layout, tables := ρ.tables }

/-- The states of two runs. -/
structure States (s s' : EmitState) : Prop where
  registers : s'.registers = s.registers
  program : ρ.env.options.MovesAll ρ.options s.program s'.program

/-- An address of the first run and of the second. -/
abbrev Addresses : Address → Address → Prop :=
  Address.Moves ρ.env.options.sharedMemory ρ.options.sharedMemory

inductive Places : Place → Place → Prop
  | frame (offset : Nat) : Places (.frame offset) (.frame offset)
  | global {a b : Nat} (h : ρ.Addresses (.direct a) (.direct b)) : Places (.global a) (.global b)
  | shared (r : Register) : Places (.shared r) (.shared r)

theorem global_moves (offset : Nat) :
    ρ.Addresses (.direct (ρ.env.layout.global offset)) (.direct (ρ.layout.global offset)) := by
  have hbase := ρ.base
  have hthreads := ρ.threads
  constructor
  unfold StaticLayout.global
  omega

theorem threadFlag_moves (i : Nat) :
    ρ.Addresses (.direct (ρ.env.layout.threadFlag i)) (.direct (ρ.layout.threadFlag i)) := by
  have hbase := ρ.base
  constructor
  unfold StaticLayout.threadFlag
  omega

theorem allocatorLock_moves :
    ρ.Addresses (.direct ρ.env.layout.allocatorLock) (.direct ρ.layout.allocatorLock) := by
  have hbase := ρ.base
  constructor
  unfold StaticLayout.allocatorLock
  omega

end Relocation

namespace Relocation

variable {ρ : Relocation} {α α' β β' : Type} {R : α → α' → Prop} {S : β → β' → Prop}

theorem States.here (h : ρ.States s s') : s'.here = s.here := h.program.size

/-- The outcomes of two runs. If both succeed, the results are related by `R`. If only one of them
does, the other one has not run out of registers. -/
def Outcomes (ρ : Relocation) (R : α → α' → Prop) :
    Except CodeError (α × EmitState) → Except CodeError (α' × EmitState) → Prop
  | .ok (a, s), .ok (a', s') => R a a' ∧ ρ.States s s'
  | .ok _, .error e | .error e, .ok _ => e ≠ .registersExhausted
  | .error _, .error _ => True

/-- Two runs agree. -/
def Mirrors (ρ : Relocation) (m : Emit α) (m' : Emit α') (R : α → α' → Prop) : Prop :=
  ∀ s s', ρ.States s s' → ρ.Outcomes R (m ρ.env s) (m' ρ.target s')

/-- Two actions that do the same, one in each run. -/
abbrev Twins (ρ : Relocation) (m m' : Emit α) : Prop := ρ.Mirrors m m' Eq

/-- An action that does the same in both runs. -/
abbrev Twin (ρ : Relocation) (m : Emit α) : Prop := ρ.Twins m m

variable {m : Emit α} {m' : Emit α'} {f : α → Emit β}

namespace Mirrors

theorem pure {a : α} {a' : α'} (h : R a a') : ρ.Mirrors (Pure.pure a) (Pure.pure a') R :=
  fun _ _ hs => ⟨h, hs⟩

theorem throw {e e' : CodeError} :
    ρ.Mirrors (MonadExcept.throw e : Emit α) (MonadExcept.throw e' : Emit α') R :=
  fun _ _ _ => trivial

theorem bind {f' : α' → Emit β'} (hm : ρ.Mirrors m m' R)
    (hf : ∀ a a', R a a' → ρ.Mirrors (f a) (f' a') S) :
    ρ.Mirrors (m >>= f) (m' >>= f') S := by
  intro s s' hs
  have h := hm s s' hs
  rw [Emit.bind_run, Emit.bind_run]
  cases hr : m ρ.env s <;> cases hr' : m' ρ.target s' <;> rw [hr, hr'] at h
  case ok.ok p p' => exact hf _ _ h.1 _ _ h.2
  case ok.error p e =>
    show ρ.Outcomes S (f p.1 ρ.env p.2) (.error e)
    cases f p.1 ρ.env p.2 with
    | ok => exact h
    | error => trivial
  case error.ok e p =>
    show ρ.Outcomes S (.error e) (f' p.1 ρ.target p.2)
    cases f' p.1 ρ.target p.2 with
    | ok => exact h
    | error => trivial
  case error.error => trivial

theorem read {f : Env → Emit β} {f' : Env → Emit β'} (h : ρ.Mirrors (f ρ.env) (f' ρ.target) S) :
    ρ.Mirrors (MonadReader.read >>= f) (MonadReader.read >>= f') S := h

theorem here {f : InstructionId → Emit β} {f' : InstructionId → Emit β'}
    (h : ∀ first, ρ.Mirrors (f first) (f' first) S) :
    ρ.Mirrors (Emit.here >>= f) (Emit.here >>= f') S := by
  intro s s' hs
  rw [Emit.bind_run, Emit.bind_run, Emit.here_run, Emit.here_run, hs.here]
  exact h s.here s s' hs

/-- An action that both runs have, and then others. -/
theorem run {m' : Emit α} {f' : α → Emit β'} (hm : ρ.Twins m m')
    (hf : ∀ a, ρ.Mirrors (f a) (f' a) S) :
    ρ.Mirrors (m >>= f) (m' >>= f') S := hm.bind fun a _ h => h ▸ hf a

theorem orThrow (x : Except CodeError α) : ρ.Twin (Emit.orThrow x) := by
  intro s s' hs
  cases x with
  | ok a => exact ⟨rfl, hs⟩
  | error e => trivial

theorem query {x : Tables → Except Fault α} (h : x ρ.tables = x ρ.env.tables) :
    ρ.Twin (Emit.query x) := by
  refine .read ?_
  show ρ.Twins (Emit.orThrow (orFault (x ρ.env.tables))) (Emit.orThrow (orFault (x ρ.tables)))
  rw [h]
  exact orThrow _

theorem scopes (x : ScopeTree → Except Fault α) : ρ.Twin (Emit.query fun t => x t.scopes) :=
  .query (congrArg x ρ.like.scopes)

theorem functionEntry (f : FunctionId) : ρ.Twin (Emit.query (·.functions.get f)) :=
  .query (by simp only [FunctionTable.get, ρ.like.functions])

theorem expect (what : Missing) (o : Option α) : ρ.Twin (Emit.expect what o) := by
  cases o with
  | some a => exact .pure rfl
  | none => exact .throw

theorem discard {m' : Emit α} (h : ρ.Twins m m') :
    ρ.Twins (Functor.discard m) (Functor.discard m') :=
  h.bind fun _ _ _ => .pure rfl

end Mirrors

end Relocation

/-! ## Units that differ in their nodes -/

/-- The bodies of functions, each with the number of its function. -/
def BodiesLike (ρ : Renumbering) (p p' : FunctionId × FunctionBody) : Prop :=
  p'.1 = p.1 ∧ p.2.Like ρ.pairs p'.2

section
variable {ρ : Renumbering} {t t' : Tables} {u u' : SourceUnit}

theorem definitions_like (ht : ρ.TablesLike t t') (h : u.Like ρ.pairs u') :
    List.Forall₂ (BodiesLike ρ) (definitions t.functions u) (definitions t'.functions u') := by
  let R : NodeId × FunctionBody → NodeId × FunctionBody → Prop := fun p p' =>
    ρ.rel p.1 p'.1 ∧ p.2.Like ρ.pairs p'.2
  have hfunctions : List.Forall₂ R (u.functions.map fun f => (f.node.id, f.body))
      (u'.functions.map fun f => (f.node.id, f.body)) :=
    List.rel_map (fun _ _ hf => ⟨hf.node, hf.body⟩) h.functions
  have hclasses : List.Forall₂ R
      (u.classes.flatMap fun c => c.methods.map (fun m => (m.node.id, m.body)) ++
        c.constructors.map fun k => (k.node.id, FunctionBody.block k.body))
      (u'.classes.flatMap fun c => c.methods.map (fun m => (m.node.id, m.body)) ++
        c.constructors.map fun k => (k.node.id, FunctionBody.block k.body)) := by
    refine List.rel_flatMap h.classes fun _ _ hc => List.rel_append ?_ ?_
    · exact List.rel_map (fun _ _ hm => ⟨hm.node, hm.body⟩) hc.methods
    · exact List.rel_map (fun _ _ hk => ⟨hk.node, .block hk.body⟩) hc.constructors
  refine List.rel_filterMap ?_ (List.rel_append hclasses hfunctions)
  intro p p' hp
  simp only [FunctionTable.lookup, ht.bindings hp.1]
  cases t.functions.bindings[p.1]? with
  | none => exact .none
  | some f => exact .some ⟨rfl, hp.2⟩

theorem lookup_like {ps ps' : List (FunctionId × FunctionBody)}
    (h : List.Forall₂ (BodiesLike ρ) ps ps')
    (f : FunctionId) : Option.Rel (FunctionBody.Like ρ.pairs) (ps.lookup f) (ps'.lookup f) := by
  induction h with
  | nil => exact .none
  | @cons p p' _ _ hp _ ih =>
    obtain ⟨g, b⟩ := p
    obtain ⟨g', b'⟩ := p'
    obtain ⟨rfl, hb⟩ := hp
    simp only [List.lookup_cons]
    cases f == g' with
    | true => exact .some hb
    | false => exact ih

theorem initializedClasses_eq (ht : ρ.TablesLike t t') (h : u.Like ρ.pairs u') :
    initializedClasses u' t' = initializedClasses u t := by
  have hinit : ∀ c c' : ClassDef, c.Like ρ.pairs c' → hasInitializers c' = hasInitializers c := by
    intro c c' hc
    unfold hasInitializers
    have hfields := hc.fields
    generalize c.fields = ds, c'.fields = ds' at hfields
    induction hfields with
    | nil => rfl
    | @cons d d' _ _ hd _ ih =>
      have hv : d'.initializer.isSome = d.initializer.isSome := by
        have hv := hd.initializer
        generalize d.initializer = v, d'.initializer = v' at hv
        cases hv <;> rfl
      simp only [List.any_cons, hv, ih]
  have hall : List.Forall₂ (ClassDef.Like ρ.pairs)
      ((u.classes.filter hasInitializers).filter fun c => (t.types.class? c.name).isSome)
      ((u'.classes.filter hasInitializers).filter fun c => (t'.types.class? c.name).isSome) := by
    refine List.rel_filter (fun c c' hc => ?_) (List.rel_filter (fun c c' hc => ?_) h.classes)
    · simp only [ht.types, hc.name]
    · simp only [hinit c c' hc]
  have hnames := List.rel_map (fun c c' hc => hc.name.symm) hall
  rw [List.forall₂_eq_eq_eq] at hnames
  exact hnames.symm

end

/-! ## Instructions, labels and comments -/

/-- An instruction with a description, if it has none yet and there are comments at all. -/
def Options.note (o : Options) (text : String) (i : Instruction) : Instruction :=
  if o.comments = true ∧ i.comment = none then { i with comment := some text } else i

theorem Options.note_of_bare (h : o.comments = false) (text : String) (i : Instruction) :
    o.note text i = i := if_neg fun hc => absurd (hc.1.symm.trans h) nofun

theorem Options.note_operands (o : Options) (text : String) (i : Instruction) :
    (o.note text i).opcode = i.opcode ∧ (o.note text i).operands = i.operands := by
  unfold Options.note
  split <;> exact ⟨rfl, rfl⟩

theorem Options.Moves.note {i i' : Instruction} (h : o.Moves o' i i') (text : String) :
    o.Moves o' (o.note text i) (o'.note text i') := by
  obtain ⟨hop, hos⟩ := o.note_operands text i
  obtain ⟨hop', hos'⟩ := o'.note_operands text i'
  refine ⟨by rw [hop, hop', h.opcode],
    by rw [hos, hos']; exact h.operands, fun hc hc' => ?_, fun hf =>
    by rw [note_of_bare hf]; exact h.bare hf, fun hf => by rw [note_of_bare hf]; exact h.bare' hf⟩
  have hcomment := h.comment hc hc'
  unfold Options.note
  rw [hc, hc', hcomment]
  split
  · rfl
  · exact hcomment

namespace Emit

/-- A comment can only be put at an instruction that exists. -/
theorem comment_run (env : Env) (text : String) (id : Nat) (s : EmitState) :
    (∃ f, comment id text env s = .error (.fault f)) ∨ ∃ code, comment id text env s =
      .ok ((), { s with program := { s.program with instructions := code } }) ∧
      code.size = s.program.instructions.size ∧ ∀ k, code.get? k =
        if k = id then (s.program.instructions.get? k).map (env.options.note text)
        else s.program.instructions.get? k := by
  by_cases hc : env.options.comments = true
  · have hrun : comment id text env s = (do
        let i ← orThrow (s.program.instruction id)
        if i.comment.isNone then
          set { s with program := ← orThrow (s.program.setComment id text) } :
              Emit Unit) env s := by
      show (if env.options.comments = true then _ else _ : Emit Unit) env s = _
      rw [if_pos hc]
      rfl
    cases hf : s.program.instructions.fetch id with
    | error f => exact .inl ⟨f, by rw [hrun, Program.instruction, hf]; rfl⟩
    | ok i =>
      have hi := Slots.fetch_eq_ok_iff.1 hf
      have hfetch : s.program.instruction id = .ok i := by rw [Program.instruction, hf]; rfl
      rw [hrun, hfetch]
      refine .inr ?_
      by_cases hnone : i.comment = none
      · obtain ⟨code, hcode⟩ : ∃ code, s.program.instructions.replace id
            { i with comment := some text } = .ok code := Slots.replace_eq_ok (Slots.lt_of_get? hi)
        obtain ⟨-, hsize, hget⟩ := Slots.replace_ok hcode
        have hset : s.program.setComment id text = .ok { s.program with instructions := code } := by
          unfold Program.setComment
          rw [hfetch]
          exact congrArg (fun x => (do
            let instructions ← orFault x
            return { s.program with instructions } : Except CodeError Program)) hcode
        refine ⟨code, ?_, hsize, fun k => ?_⟩
        · show (if i.comment.isNone = true then _ else _ : Emit Unit) env s = _
          rw [if_pos (by rw [hnone]; rfl), hset]
          rfl
        · rw [hget]
          by_cases hk : k = id
          · subst hk
            rw [if_pos rfl, if_pos rfl, hi, Option.map_some, Options.note, if_pos ⟨hc, hnone⟩]
          · rw [if_neg hk, if_neg hk]
      · refine ⟨s.program.instructions, ?_, rfl, fun k => ?_⟩
        · show (if i.comment.isNone = true then _ else _ : Emit Unit) env s = _
          rw [if_neg fun h => hnone (Option.isNone_iff_eq_none.1 h)]
          rfl
        · split
          · rename_i hk
            rw [hk, hi, Option.map_some, Options.note, if_neg fun h => hnone h.2]
          · rfl
  · refine .inr ⟨s.program.instructions, ?_, rfl, fun k => ?_⟩
    · show (if env.options.comments = true then _ else _ : Emit Unit) env s = _
      rw [if_neg hc]
      rfl
    · rw [funext (Options.note_of_bare (Bool.eq_false_iff.2 hc) text), Option.map_id']
      split <;> rfl

end Emit

namespace Relocation

variable {ρ : Relocation} {α α' β β' : Type} {R : α → α' → Prop} {S : β → β' → Prop}
  {opcode : OpCode} {os' : List Operand}

theorem States.emit (h : ρ.States s s')
    (hos : List.Forall₂ (Operand.Moves ρ.env.options.sharedMemory ρ.options.sharedMemory) os os') :
    ρ.States (s.emit opcode os) (s'.emit opcode os') where
  registers := h.registers
  program := {
    labels := h.program.labels
    cores := h.program.cores
    size := (EmitState.emit_here s' opcode os').trans
      ((congrArg (· + 1) h.here).trans (EmitState.emit_here s opcode os).symm)
    code := fun k i hi => by
      rw [EmitState.emit_get?] at hi ⊢
      rw [h.here]
      by_cases hk : k = s.here
      · rw [if_pos hk] at hi ⊢
        cases hi
        exact ⟨_, rfl, rfl, hos, fun _ _ => rfl, fun _ => rfl, fun _ => rfl⟩
      · rw [if_neg hk] at hi ⊢
        exact h.program.code k i hi }

theorem instruction_twins (opcode : OpCode)
    (hos : List.Forall₂ (Operand.Moves ρ.env.options.sharedMemory ρ.options.sharedMemory) os os') :
    ρ.Twins (Emit.instruction opcode os) (Emit.instruction opcode os') := by
  intro s s' hs
  have hkinds : os'.map Operand.kind = os.map Operand.kind := by
    induction hos with
    | nil => rfl
    | cons ho _ ih => rw [List.map_cons, List.map_cons, ho.kind, ih]
  unfold Emit.instruction Instruction.make
  rw [hkinds]
  by_cases htakes : opcode.takes (os.map Operand.kind) = true
  · simp only [htakes]
    exact ⟨hs.here.symm, hs.emit hos⟩
  · simp only [htakes]
    trivial

/-- Operands without an address are the same in both runs. -/
theorem moves_refl {m n : Nat} (h : os.all (fun o => o.kind != .address) = true) :
    List.Forall₂ (Operand.Moves m n) os os := by
  rw [List.forall₂_same]
  intro o ho
  exact .same (bne_iff_ne.1 (List.all_eq_true.1 h o ho))

theorem plain_twin (h : os.all (fun o => o.kind != .address) = true) :
    ρ.Twin (Functor.discard (Emit.instruction opcode os) : Emit Unit) :=
  .discard (instruction_twins opcode (moves_refl h))

/-- An instruction without an address, and then others. -/
theorem Mirrors.step {m : Emit β} {m' : Emit β'} (h : os.all (fun o => o.kind != .address) = true)
    (hm : ρ.Mirrors m m' S) :
    ρ.Mirrors (Functor.discard (Emit.instruction opcode os) >>= fun _ : Unit => m)
      (Functor.discard (Emit.instruction opcode os) >>= fun _ : Unit => m') S :=
  .run (plain_twin h) fun _ => hm

section Actions

open Emit

theorem load_twin (x r : Register) : ρ.Twin (load (.indirect x) r) :=
  .discard (instruction_twins _ (.cons (.address (.indirect x)) (.cons (.same nofun) .nil)))

theorem store_twin (r x : Register) : ρ.Twin (store r (.indirect x)) :=
  .discard (instruction_twins _ (.cons (.same nofun) (.cons (.address (.indirect x)) .nil)))

theorem readShared_twins (h : ρ.Addresses a a') : ρ.Twins (readShared a) (readShared a') :=
  .discard (instruction_twins _ (.cons (.address h) .nil))

theorem writeShared_twins (r : Register) (h : ρ.Addresses a a') :
    ρ.Twins (writeShared r a) (writeShared r a') :=
  .discard (instruction_twins _ (.cons (.same nofun) (.cons (.address h) .nil)))

theorem testAndSet_twins (h : ρ.Addresses a a') : ρ.Twins (testAndSet a) (testAndSet a') :=
  .discard (instruction_twins _ (.cons (.address h) .nil))

theorem States.retake (h : ρ.States s s') (registers : Registers) :
    ρ.States { s with registers } { s' with registers } := ⟨rfl, h.program⟩

theorem allocate_twin : ρ.Twin allocate := by
  intro s s' hs
  show ρ.Outcomes Eq ((do
      let p ← orThrow s.registers.allocate
      set { s with registers := p.2 }
      return p.1 : Emit Register) ρ.env s)
    ((do
      let p ← orThrow s'.registers.allocate
      set { s' with registers := p.2 }
      return p.1 : Emit Register) ρ.target s')
  rw [hs.registers]
  cases s.registers.allocate with
  | ok p => exact ⟨rfl, hs.retake p.2⟩
  | error e => trivial

theorem release_twin (r : Register) : ρ.Twin (release r) := by
  intro s s' hs
  show ρ.Outcomes Eq ((do set { s with registers := ← orThrow (s.registers.release r) } : Emit Unit)
    ρ.env s)
    ((do set { s' with registers := ← orThrow (s'.registers.release r) } : Emit Unit) ρ.target s')
  rw [hs.registers]
  cases s.registers.release r with
  | ok registers => exact ⟨rfl, hs.retake registers⟩
  | error e => trivial

theorem inUse_twin : ρ.Twin inUse := fun _ _ hs => ⟨congrArg Registers.inUse hs.registers.symm, hs⟩

theorem requireAllFree_twin : ρ.Twin requireAllFree := by
  intro s s' hs
  show ρ.Outcomes Eq ((if (!s.registers.allFree) = true then throw (.fault .registersHeld)
    else pure () : Emit Unit) ρ.env s) ((if (!s'.registers.allFree) = true then
      throw (.fault .registersHeld) else pure () : Emit Unit) ρ.target s')
  rw [hs.registers]
  split
  · trivial
  · exact ⟨rfl, hs⟩

theorem createLabel_twin (name : String) : ρ.Twin (createLabel name) := by
  intro s s' hs
  have hlabels := hs.program.labels
  refine ⟨by show s.program.labels.nextId = s'.program.labels.nextId; rw [hlabels],
    hs.registers, ?_⟩
  refine ⟨?_, hs.program.cores, hs.program.size, hs.program.code⟩
  rw [hlabels]

theorem bind_twin (l : LabelId) (t : InstructionId) : ρ.Twin (bind l t) := by
  intro s s' hs
  show ρ.Outcomes Eq ((do set { s with program := ← orThrow (s.program.bind l t) } : Emit Unit)
    ρ.env s)
    ((do set { s' with program := ← orThrow (s'.program.bind l t) } : Emit Unit) ρ.target s')
  unfold Program.bind Program.label
  rw [hs.program.labels]
  cases orFault (s.program.labels.fetch l) with
  | error e => trivial
  | ok entry =>
    simp only [Bind.bind, Except.bind]
    split
    · trivial
    · cases orFault (s.program.labels.replace l { entry with target := some t }) with
      | error e => trivial
      | ok labels =>
        exact ⟨rfl, hs.registers, rfl, hs.program.cores, hs.program.size, hs.program.code⟩

theorem comment_twin (id : Nat) (text : String) : ρ.Twin (comment id text) := by
  intro s s' hs
  obtain ⟨f, hrun⟩ | ⟨code, hrun, hsize, hget⟩ := comment_run ρ.env text id s <;>
    obtain ⟨f', hrun'⟩ | ⟨code', hrun', hsize', hget'⟩ :=
      comment_run ρ.target text id s' <;> rw [hrun, hrun']
  · trivial
  · exact nofun
  · exact nofun
  refine ⟨rfl, hs.registers, hs.program.labels, hs.program.cores, ?_, fun k i hk => ?_⟩
  · exact hsize'.trans (hs.program.size.trans hsize.symm)
  · rw [hget] at hk
    rw [hget']
    by_cases hid : k = id
    · rw [if_pos hid] at hk ⊢
      obtain ⟨i0, hi0, rfl⟩ := Option.map_eq_some_iff.1 hk
      obtain ⟨i', hi', hmoves⟩ := hs.program.code k i0 hi0
      exact ⟨_, by rw [hi']; rfl, hmoves.note text⟩
    · rw [if_neg hid] at hk ⊢
      exact hs.program.code k i hk

namespace Mirrors

variable {m : Emit β} {m' : Emit β'}

theorem comment {id : Nat} {text : String} (h : ρ.Mirrors m m' S) :
    ρ.Mirrors (Emit.comment id text >>= fun _ => m) (Emit.comment id text >>= fun _ => m') S :=
  .run (comment_twin id text) fun _ => h

theorem binds {l : LabelId} {t : InstructionId} (h : ρ.Mirrors m m' S) :
    ρ.Mirrors (Emit.bind l t >>= fun _ => m) (Emit.bind l t >>= fun _ => m') S :=
  .run (bind_twin l t) fun _ => h

theorem release {r : Register} (h : ρ.Mirrors m m' S) :
    ρ.Mirrors (Emit.release r >>= fun _ => m) (Emit.release r >>= fun _ => m') S :=
  .run (release_twin r) fun _ => h

theorem allocate {f : Register → Emit β} {f' : Register → Emit β'}
    (h : ∀ r, ρ.Mirrors (f r) (f' r) S) :
    ρ.Mirrors (Emit.allocate >>= f) (Emit.allocate >>= f') S := .run allocate_twin h

theorem label {name : String} {f : LabelId → Emit β} {f' : LabelId → Emit β'}
    (h : ∀ l, ρ.Mirrors (f l) (f' l) S) :
    ρ.Mirrors (Emit.createLabel name >>= f) (Emit.createLabel name >>= f') S :=
  .run (createLabel_twin name) h

end Mirrors

theorem entry_twin (f : FunctionId) : ρ.Twin (entry f) := .read (.orThrow _)

theorem entryName_twin (f : FunctionId) : ρ.Twin (entryName f) := by
  intro s s' hs
  show ρ.Outcomes Eq
    ((do return (← orThrow (s.program.label (← entry f))).name : Emit String) ρ.env s)
    ((do return (← orThrow (s'.program.label (← entry f))).name : Emit String) ρ.target s')
  unfold Program.label
  rw [hs.program.labels]
  exact Mirrors.run (entry_twin f) (fun l => .run (.orThrow _) fun _ => .pure rfl) s s' hs

theorem frameScope_twin (f : FunctionId) : ρ.Twin (frameScope f) :=
  .run (.functionEntry f) fun _ => .expect _ _

theorem memberScope_twin (c : String) : ρ.Twin (memberScope c) := by
  refine .read ?_
  simp only [target, ρ.like.types]
  exact .run (.expect _ _) fun _ => .expect _ _

theorem anchor_twin (l : LabelId) : ρ.Twin (anchor l) :=
  .here fun first => .step rfl <| bind_twin l first

theorem pushZeros_twin (n : Nat) : ρ.Twin (pushZeros n) := by
  induction n with
  | zero => exact .pure rfl
  | succ n ih => exact .step rfl ih

variable {f : α → Emit PUnit}

theorem forM_twins {f' : β → Emit PUnit} {T : α → β → Prop} {l : List α} {l' : List β}
    (hl : List.Forall₂ T l l')
    (h : ∀ a b, T a b → ρ.Twins (f a) (f' b)) : ρ.Twins (l.forM f) (l'.forM f') := by
  induction hl with
  | nil => exact .pure rfl
  | cons hab _ ih => exact .run (h _ _ hab) fun _ => ih

theorem forM_twin (h : ∀ a, ρ.Twin (f a)) (l : List α) : ρ.Twin (l.forM f) :=
  forM_twins (List.forall₂_same.2 fun _ _ => rfl) fun a b (hab : a = b) => hab ▸ h a

theorem constantRegister_twin (value : Int) : ρ.Twin (constantRegister value) :=
  .allocate fun _ => .step rfl <| .pure rfl

/-! ## Calls -/

variable {m m' : Emit Unit}

theorem call_twins (entry : LabelId) (frameSize arguments : Nat) (h : ρ.Twins m m') :
    ρ.Twins (call entry frameSize arguments m) (call entry frameSize arguments m') := by
  unfold call
  split
  · exact .throw
  exact .run (pushZeros_twin _) fun _ => .run h fun _ => .label fun l => .step rfl <|
    .step rfl <| .step rfl <| .step rfl <| .run inUse_twin fun saved =>
    .run (forM_twin (fun _ => plain_twin rfl) saved) fun _ => .step rfl <| .step rfl <| .step rfl <|
    .run (anchor_twin l) fun _ => .run (forM_twin (fun _ => plain_twin rfl) saved.reverse) fun _ =>
    .allocate fun result => .step rfl <| .step rfl <| .step rfl <| .step rfl <|
    .run (load_twin _ _) fun _ => .run (load_twin _ _) fun _ => .pure rfl

theorem pushLast_twin (r : Register) : ρ.Twin (pushLast r) := .step rfl <| release_twin r

theorem callFunction_twins (f : FunctionId) (arguments : Nat) (h : ρ.Twins m m') :
    ρ.Twins (callFunction f arguments m) (callFunction f arguments m') :=
  .run (frameScope_twin f) fun scope => .run (.scopes (·.frameSize scope)) fun _ =>
    .run (entry_twin f) fun l => .here fun _ => .run (call_twins l _ arguments h) fun _ =>
    .run (entryName_twin f) fun _ => .comment <| .pure rfl

theorem alloc_twin (size : Register) : ρ.Twin (alloc size) :=
  .read (call_twins _ 1 1 (pushLast_twin size))

theorem initializeObject_twin (l : LabelId) (object : Register) :
    ρ.Twin (initializeObject l object) :=
  .run (call_twins l 1 1 (plain_twin rfl)) fun r => release_twin r

theorem launch_twin (f : FunctionId) (name : String) : ρ.Twin (launch f name) :=
  .read (.run (.expect _ _) fun i => .allocate fun r => .here fun _ => .step rfl <|
    .run (writeShared_twins r (ρ.threadFlag_moves i)) fun _ => .comment <| .pure rfl)

theorem jumpBack_twin (result : Option Register) : ρ.Twin (jumpBack result) := by
  cases result with
  | none =>
    exact .allocate fun r => .step rfl <| .step rfl <| .run (load_twin r r) fun _ => .step rfl <|
      release_twin r
  | some value =>
    exact .allocate fun r => .step rfl <| .step rfl <| .run (store_twin value r) fun _ =>
      .step rfl <| .step rfl <| .run (load_twin r r) fun _ => .step rfl <| release_twin r

theorem enterRootFrame_twin (n : Nat) (exit : LabelId) : ρ.Twin (enterRootFrame n exit) :=
  .run (pushZeros_twin n) fun _ => .step rfl <| .step rfl <| .step rfl <| .step rfl <| .step rfl <|
    plain_twin rfl

theorem allocatorRoutine_twin : ρ.Twin allocatorRoutine := by
  refine .read (.label fun locked => .allocate fun base => .allocate fun size =>
    .here fun first => ?_)
  refine .run (testAndSet_twins ρ.allocatorLock_moves) fun _ => .binds <| .comment <| .step rfl <|
    .step rfl <| .step rfl <| .here fun start => ?_
  exact .run (readShared_twins (.direct ρ.base)) fun _ => .binds <| .step rfl <|
    .step rfl <| .step rfl <| .run (load_twin _ _) fun _ => .step rfl <|
    .run (writeShared_twins _ (.direct ρ.base)) fun _ =>
    .run (writeShared_twins _ ρ.allocatorLock_moves) fun _ => .release <|
    .run (jumpBack_twin _) fun _ => release_twin base

theorem acquire_twins {lock lock' : Address} (h : ρ.Addresses lock lock') :
    ρ.Twins (acquire lock) (acquire lock') := .label fun _ => .label fun _ => .allocate fun r =>
  .here fun _ => .run (testAndSet_twins h) fun _ => .binds <| .step rfl <| .step rfl <| .step rfl <|
  .run (anchor_twin _) fun _ => release_twin r

/-! ## Places -/

theorem slotAddress_twin (offset : Nat) : ρ.Twin (slotAddress offset) :=
  .allocate fun _ => .step rfl <| .step rfl <| .pure rfl

theorem loadPlace_twins (h : ρ.Places p p') : ρ.Twins (loadPlace p) (loadPlace p') := by
  cases h with
  | frame offset =>
    exact .run (slotAddress_twin offset) fun r => .run (load_twin r r) fun _ => .pure rfl
  | global h => exact .allocate fun r => .run (readShared_twins h) fun _ => .step rfl <| .pure rfl
  | shared r => exact .run (readShared_twins (.indirect r)) fun _ => .step rfl <| .pure rfl

theorem storePlace_twins (value : Register) (h : ρ.Places p p') :
    ρ.Twins (storePlace value p) (storePlace value p') := by
  cases h with
  | frame offset =>
    exact .run (slotAddress_twin offset) fun r => .run (store_twin value r) fun _ => release_twin r
  | global h => exact writeShared_twins value h
  | shared r => exact .run (writeShared_twins value (.indirect r)) fun _ => release_twin r

theorem fieldPlace_mirrors (object : Register) (offset : Nat) :
    ρ.Mirrors (fieldPlace object offset) (fieldPlace object offset) ρ.Places := by
  unfold fieldPlace
  split
  · exact .run (constantRegister_twin _) fun r => .step rfl <| .release <| .pure (.shared object)
  · exact .pure (.shared object)

theorem elementPlace_mirrors (array index : Register) :
    ρ.Mirrors (elementPlace array index) (elementPlace array index) ρ.Places := .step rfl <|
  .release <| .pure (.shared index)

theorem namePlace_mirrors (ctx : Context) (hn : ρ.nodes.rel n n') (x : String) :
    ρ.Mirrors (namePlace ctx n x) (namePlace ctx n' x) ρ.Places := by
  refine .read ?_
  simp only [target, Annotations.scope?, ρ.like.nodeScopes hn]
  refine .run (.expect _ _) fun scope => .run (.scopes (·.offset? scope x)) fun _ =>
    .run (.expect _ _) fun offset => .run (.scopes (·.kind scope)) fun kind => ?_
  cases kind with
  | global => exact .pure (.global (ρ.global_moves offset))
  | members =>
    have hobject : ∀ receiver : Option Nat, ρ.Mirrors
        (expect .receiver receiver >>= fun r => loadPlace (.frame r) >>= fun object =>
          fieldPlace object offset)
        (expect .receiver receiver >>= fun r => loadPlace (.frame r) >>= fun object =>
          fieldPlace object offset) ρ.Places := fun receiver => .run (.expect _ _) fun r =>
      .run (loadPlace_twins (.frame r)) fun object => fieldPlace_mirrors object offset
    cases ctx.function with
    | some function => exact .run (.scopes (·.offset? function receiverName)) hobject
    | none => exact .bind (.pure rfl) fun _ _ h => h ▸ hobject _
  | function => exact .pure (.frame offset)
  | block => exact .pure (.frame offset)

theorem fieldOffset_twins (hn : ρ.nodes.rel n n') (x : String) :
    ρ.Twins (fieldOffset n x) (fieldOffset n' x) := by
  refine .read ?_
  simp only [target, Annotations.type?, ρ.like.nodeTypes hn, ρ.like.types]
  cases (ρ.env.tables.annotations.types[n]?.bind (·.class?)).bind
      ρ.env.tables.types.memberScope? with
  | none => exact .throw
  | some scope => exact .run (.scopes (·.offset? scope x)) fun _ => .expect _ _

/-! ## Expressions -/

theorem writeElement_twin (block : Register) (index : Nat) (value : Register) :
    ρ.Twin (writeElement block index value) :=
  .run (constantRegister_twin _) fun r => .step rfl <|
    .run (writeShared_twins value (.indirect r)) fun _ =>
  release_twin r

theorem writeChars_twin (block : Register) : ∀ (cs : List Char) (index : Nat),
    ρ.Twin (writeChars block index cs)
  | [], _ => .pure rfl
  | _ :: cs, index =>
    .run (constantRegister_twin _) fun r => .run (writeElement_twin block index r) fun _ =>
      .release <| writeChars_twin block cs (index + 1)

theorem string_twin (text : String) : ρ.Twin (string text) :=
  .run (constantRegister_twin _) fun size => .here fun _ => .run (alloc_twin size) fun block =>
    .comment <|
    .run (writeChars_twin block _ 0) fun _ => .run (writeElement_twin block _ _) fun _ => .pure rfl

theorem literal_twin (l : Literal) : ρ.Twin (literal l) := by
  cases l with
  | string text => exact string_twin text
  | int v => exact constantRegister_twin _
  | bool b => exact constantRegister_twin _
  | char c => exact constantRegister_twin _

theorem enumValue_twin (e member : String) : ρ.Twin (enumValue e member) := by
  refine .read ?_
  simp only [target, ρ.like.types]
  exact .run (.expect _ _) fun _ => constantRegister_twin _

theorem runInitializer_twin (c : String) (object : Register) :
    ρ.Twin (runInitializer c object) := by
  refine .read ?_
  dsimp only [target]
  split
  · exact initializeObject_twin _ object
  · exact .pure rfl

theorem runConstructor_twins (hn : ρ.nodes.rel n n') (arguments : Nat) (h : ρ.Twins m m')
    (object : Register) :
    ρ.Twins (runConstructor n arguments m object) (runConstructor n' arguments m' object) := by
  refine .read ?_
  simp only [target, FunctionTable.lookup, ρ.like.bindings hn]
  cases ρ.env.tables.functions.bindings[n]? with
  | none => exact .pure rfl
  | some f =>
    have harguments : ρ.Twins (do m; push object) (do m'; push object) :=
      .run h fun _ => plain_twin rfl
    exact .run (callFunction_twins f _ harguments) fun r => release_twin r

theorem newObject_twins (hn : ρ.nodes.rel n n') (c : String) (arguments : Nat)
    (h : ρ.Twins m m') : ρ.Twins (newObject n c arguments m) (newObject n' c arguments m') := by
  rw [newObject_eq, newObject_eq]
  exact .run (memberScope_twin c) fun scope => .run (.scopes (·.frameSize scope)) fun _ =>
    .here fun _ => .run (constantRegister_twin _) fun size => .run (alloc_twin size) fun object =>
      .comment <| .run (runInitializer_twin c object) fun _ =>
      .run (runConstructor_twins hn arguments h object) fun _ => .pure rfl

mutual

theorem expr_twins (ctx : Context) : ∀ e e' : Expr, e.Like ρ.nodes.pairs e' →
    ρ.Twins (expr ctx e) (expr ctx e')
  | .literal _ l, _, h => by
    obtain ⟨_, rfl, -⟩ := h
    exact literal_twin l
  | .name _ x, _, h => by
    obtain ⟨_, rfl, hn⟩ := h
    exact .here fun _ => .bind (namePlace_mirrors ctx hn x) fun _ _ hp =>
      .run (loadPlace_twins hp) fun _ => .comment <| .pure rfl
  | .enumValue _ x member, _, h => by
    obtain ⟨_, rfl, -⟩ := h
    exact enumValue_twin x member
  | .arrayLiteral _ es, _, h => by
    obtain ⟨_, es', rfl, -, hes⟩ := h
    simp only [expr, Expr.length_likeAll hes]
    exact .run (constantRegister_twin _) fun size => .run (alloc_twin size) fun block =>
      .run (elements_twins ctx block es es' hes 0) fun _ => .pure rfl
  | .newArray _ _ length, _, h => by
    obtain ⟨_, length', rfl, -, hlength⟩ := h
    exact .run (expr_twins ctx length length' hlength) fun size => alloc_twin size
  | .index _ a i, _, h => by
    obtain ⟨_, a', i', rfl, -, ha, hi⟩ := h
    exact .run (expr_twins ctx a a' ha) fun array => .run (expr_twins ctx i i' hi) fun index =>
      .bind (elementPlace_mirrors array index) fun _ _ hp => loadPlace_twins hp
  | .field _ o x, _, h => by
    obtain ⟨_, o', rfl, -, ho⟩ := h
    exact .run (fieldOffset_twins ho.node x) fun offset => .run (expr_twins ctx o o' ho)
      fun object => .bind (fieldPlace_mirrors object offset) fun _ _ hp => loadPlace_twins hp
  | .call n name es, _, h => by
    obtain ⟨_, es', rfl, hn, hes⟩ := h
    simp only [expr, Expr.length_likeAll hes]
    refine .read ?_
    simp only [target, FunctionTable.lookup, ρ.like.bindings hn]
    refine .run (.expect _ _) fun f => .run (.functionEntry f) fun fn => ?_
    split
    · exact launch_twin f name
    · exact callFunction_twins f es.length (pushAll_twins ctx es es' hes)
  | .methodCall n receiver _ es, _, h => by
    obtain ⟨_, receiver', es', rfl, hn, hreceiver, hes⟩ := h
    simp only [expr, Expr.length_likeAll hes]
    refine .read ?_
    simp only [target, FunctionTable.lookup, ρ.like.bindings hn]
    refine .run (.expect _ _) fun f => callFunction_twins f _ ?_
    exact .run (pushAll_twins ctx es es' hes) fun _ =>
      .run (expr_twins ctx receiver receiver' hreceiver) fun r => pushLast_twin r
  | .new n c es, _, h => by
    obtain ⟨_, es', rfl, hn, hes⟩ := h
    simp only [expr, Expr.length_likeAll hes]
    exact newObject_twins hn c es.length (pushAll_twins ctx es es' hes)
  | .unary _ op e, _, h => by
    obtain ⟨_, e', rfl, -, he⟩ := h
    exact .run (expr_twins ctx e e' he) fun r => .step rfl <| .pure rfl
  | .binary _ op l r, _, h => by
    obtain ⟨_, l', r', rfl, -, hl, hr⟩ := h
    exact .run (expr_twins ctx l l' hl) fun left =>
      .run (expr_twins ctx r r' hr) fun right => .step rfl <| .release <| .pure rfl
termination_by structural e => e

theorem elements_twins (ctx : Context) (block : Register) : ∀ es es' : List Expr,
    Expr.LikeAll ρ.nodes.pairs es es' → ∀ index : Nat,
      ρ.Twins (elements ctx block index es) (elements ctx block index es')
  | [], _, h, _ => by
    obtain rfl := h
    exact .pure rfl
  | e :: es, _, h, index => by
    obtain ⟨e', es', rfl, he, hes⟩ := h
    exact .run (expr_twins ctx e e' he) fun r => .run (writeElement_twin block index r) fun _ =>
      .release <| elements_twins ctx block es es' hes (index + 1)
termination_by structural es => es

theorem pushAll_twins (ctx : Context) : ∀ es es' : List Expr, Expr.LikeAll ρ.nodes.pairs es es' →
    ρ.Twins (pushAll ctx es) (pushAll ctx es')
  | [], _, h => by
    obtain rfl := h
    exact .pure rfl
  | e :: es, _, h => by
    obtain ⟨e', es', rfl, he, hes⟩ := h
    exact .run (pushAll_twins ctx es es' hes) fun _ => .run (expr_twins ctx e e' he) fun r =>
      pushLast_twin r
termination_by structural es => es

end

theorem indexPlace_mirrors (ctx : Context) {a a' i i' : Expr} (ha : a.Like ρ.nodes.pairs a')
    (hi : i.Like ρ.nodes.pairs i') :
    ρ.Mirrors (do elementPlace (← expr ctx a) (← expr ctx i))
      (do elementPlace (← expr ctx a') (← expr ctx i')) ρ.Places :=
  .run (expr_twins ctx a a' ha) fun array => .run (expr_twins ctx i i' hi) fun index =>
    elementPlace_mirrors array index

theorem memberPlace_mirrors (ctx : Context) {o o' : Expr} (ho : o.Like ρ.nodes.pairs o')
    (x : String) :
    ρ.Mirrors (do let offset ← fieldOffset o.id x; fieldPlace (← expr ctx o) offset)
      (do let offset ← fieldOffset o'.id x; fieldPlace (← expr ctx o') offset) ρ.Places :=
  .run (fieldOffset_twins ho.node x) fun offset => .run (expr_twins ctx o o' ho) fun object =>
    fieldPlace_mirrors object offset

theorem exprPlace_mirrors (ctx : Context) {e e' : Expr} (h : e.Like ρ.nodes.pairs e') :
    ρ.Mirrors (exprPlace ctx e) (exprPlace ctx e') ρ.Places := by
  cases e <;> simp only [Expr.Like] at h
  case name n x =>
    obtain ⟨_, rfl, hn⟩ := h
    exact namePlace_mirrors ctx hn x
  case index n a i =>
    obtain ⟨_, a', i', rfl, -, ha, hi⟩ := h
    exact indexPlace_mirrors ctx ha hi
  case field n o x =>
    obtain ⟨_, o', rfl, -, ho⟩ := h
    exact memberPlace_mirrors ctx ho x
  case literal | enumValue =>
    obtain ⟨_, rfl, -⟩ := h
    exact .throw
  case arrayLiteral | newArray | call | new | unary =>
    obtain ⟨_, _, rfl, -⟩ := h
    exact .throw
  case methodCall | binary =>
    obtain ⟨_, _, _, rfl, -⟩ := h
    exact .throw

theorem targetPlace_mirrors (ctx : Context) {t t' : Awl.Target} (h : t.Like ρ.nodes.pairs t') :
    ρ.Mirrors (targetPlace ctx t) (targetPlace ctx t') ρ.Places := by
  cases t with
  | name n x =>
    obtain ⟨_, rfl, hn⟩ := h
    exact namePlace_mirrors ctx hn x
  | index n a i =>
    obtain ⟨_, a', i', rfl, -, ha, hi⟩ := h
    exact indexPlace_mirrors ctx ha hi
  | field n o x =>
    obtain ⟨_, o', rfl, -, ho⟩ := h
    exact memberPlace_mirrors ctx ho x

/-! ## Statements -/

theorem declaration_twins (ctx : Context) {d d' : Declaration} (h : d.Like ρ.nodes.pairs d') :
    ρ.Twins (declaration ctx d) (declaration ctx d') := by
  have hv := h.initializer
  unfold declaration
  rw [h.name]
  refine .here fun _ => ?_
  generalize d.initializer = v, d'.initializer = v' at hv
  cases hv with
  | some he =>
    exact .run (expr_twins ctx _ _ he) fun value => .bind (namePlace_mirrors ctx h.node d.name)
      fun _ _ hp => .run (storePlace_twins value hp) fun _ => .release <| comment_twin _ _
  | none =>
    exact .bind (namePlace_mirrors ctx h.node d.name) fun _ _ hp =>
      .run (storePlace_twins .zero hp) fun _ => comment_twin _ _

theorem assignment_twins (ctx : Context) {t t' : Awl.Target} (h : t.Like ρ.nodes.pairs t')
    {v v' : Expr}
    (hv : v.Like ρ.nodes.pairs v') : ρ.Twins (assignment ctx t v) (assignment ctx t' v') := by
  refine .here fun first => .bind (targetPlace_mirrors ctx h) fun _ _ hp =>
    .run (expr_twins ctx v v' hv) fun r => .run (storePlace_twins r hp) fun _ => .release ?_
  cases t with
  | name n x =>
    obtain ⟨_, rfl, -⟩ := h
    exact comment_twin _ _
  | index n a i =>
    obtain ⟨_, _, _, rfl, -⟩ := h
    exact .pure rfl
  | field n o x =>
    obtain ⟨_, _, rfl, -⟩ := h
    exact .pure rfl

theorem returnStatement_twins (ctx : Context) {v v' : Option Expr}
    (h : Expr.LikeOption ρ.nodes.pairs v v') :
    ρ.Twins (returnStatement ctx v) (returnStatement ctx v') := by
  cases h with
  | none => exact jumpBack_twin none
  | some h =>
    exact .run (expr_twins ctx _ _ h) fun r => .run (jumpBack_twin (some r)) fun _ => release_twin r

theorem address_mirrors (h : ρ.Places p p') :
    ρ.Mirrors (orThrow p.address) (orThrow p'.address) ρ.Addresses := by
  cases h with
  | frame offset => exact .throw
  | global h => exact .pure h
  | shared r => exact .pure (.indirect r)

theorem withLock_twins (ctx : Context) {l l' : Expr} (h : l.Like ρ.nodes.pairs l')
    {f : Address → Emit Unit} (hf : ∀ a a', ρ.Addresses a a' → ρ.Twins (f a) (f a')) :
    ρ.Twins (withLock ctx l f) (withLock ctx l' f) := by
  refine .bind (exprPlace_mirrors ctx h) fun p p' hp => .bind (address_mirrors hp) fun a a' ha =>
    .run (hf a a' ha) fun _ => ?_
  cases ha with
  | direct h => exact .pure rfl
  | indirect r => exact release_twin r

theorem branchUnless_twins (ctx : Context) {c c' : Expr} (h : c.Like ρ.nodes.pairs c')
    (l : LabelId) :
    ρ.Twins (branchUnless ctx c l) (branchUnless ctx c' l) :=
  .run (expr_twins ctx c c' h) fun r => .step rfl <| .step rfl <| release_twin r

theorem nonempty_twins (h : ρ.Twins m m') : ρ.Twins (nonempty m) (nonempty m') := by
  refine .here fun first => .run h fun _ => .here fun last => ?_
  split
  · exact .step rfl <| .pure rfl
  · exact .pure rfl

theorem loop_twins (ctx : Context) {c c' : Expr} (h : c.Like ρ.nodes.pairs c')
    {body body' step step' : Emit Unit} (hbody : ρ.Twins body body') (hstep : ρ.Twins step step') :
    ρ.Twins (loop ctx c body step) (loop ctx c' body' step') := .label fun _ => .label fun done =>
  .here fun _ => .run (expr_twins ctx c c' h) fun _ => .binds <| .step rfl <|
    .step rfl <| .release <|
  .run hbody fun _ => .run hstep fun _ => .step rfl <| anchor_twin done

theorem createLabels_twin (name : String) : ∀ n, ρ.Twin (Emit.createLabels name n)
  | 0 => .pure rfl
  | n + 1 => .label fun _ => .run (createLabels_twin name n) fun _ => .pure rfl

theorem switchCase_twins (ctx : Context) (discriminant : Register) {v v' : Expr}
    (h : v.Like ρ.nodes.pairs v') (test bodyLabel miss done : LabelId)
    {body body' : Emit InstructionId} (hbody : ρ.Twins body body') :
    ρ.Twins (switchCase ctx discriminant v test bodyLabel miss done body)
      (switchCase ctx discriminant v' test bodyLabel miss done body') := .here fun _ =>
  .run (expr_twins ctx v v' h) fun _ => .binds <| .step rfl <| .step rfl <| .release <|
    .run hbody fun _ =>
  .binds <| plain_twin rfl

mutual

theorem stmt_twins : ∀ s s' : Stmt, s.Like ρ.nodes.pairs s' →
    ∀ ctx : Context, ρ.Twins (stmt ctx s) (stmt ctx s')
  | .declaration _ d, _, h, ctx => by
    obtain ⟨_, d', rfl, hd⟩ := h
    exact declaration_twins ctx hd
  | .assignment _ t v, _, h, ctx => by
    obtain ⟨_, t', v', rfl, -, ht, hv⟩ := h
    exact assignment_twins ctx ht hv
  | .ifElse _ c b none, _, h, ctx => by
    obtain ⟨_, c', b', _, rfl, hc, hb, rfl⟩ := h
    exact .label fun done => .run (branchUnless_twins ctx hc done) fun _ =>
      .run (.discard (block_twins b b' hb ctx)) fun _ => anchor_twin done
  | .ifElse _ c b (some f), _, h, ctx => by
    obtain ⟨_, c', b', _, rfl, hc, hb, f', rfl, hf⟩ := h
    exact .label fun done => .run (expr_twins ctx c c' hc) fun r => .label fun thenLabel =>
      .step rfl <| .release <| .run (.discard (block_twins f f' hf ctx)) fun _ => .step rfl <|
      .run (block_twins b b' hb ctx) fun first => .binds <| anchor_twin done
  | .whileLoop _ c b, _, h, ctx => by
    obtain ⟨_, c', b', rfl, hc, hb⟩ := h
    exact loop_twins ctx hc (.discard (block_twins b b' hb ctx)) (.pure rfl)
  | .doLoop _ b c, _, h, ctx => by
    obtain ⟨_, b', c', rfl, hb, hc⟩ := h
    exact .label fun start => .run (block_twins b b' hb ctx) fun first => .binds <|
      .run (expr_twins ctx c c' hc) fun r => .step rfl <| release_twin r
  | .forLoop _ i c s b, _, h, ctx => by
    obtain ⟨_, i', c', s', b', rfl, hi, hc, hs, hb⟩ := h
    exact .run (optionalStmt_twins i i' hi ctx) fun _ =>
      loop_twins ctx hc (.discard (block_twins b b' hb ctx)) (optionalStmt_twins s s' hs ctx)
  | .block _ b, _, h, ctx => by
    obtain ⟨_, b', rfl, hb⟩ := h
    exact .discard (block_twins b b' hb ctx)
  | .switch _ d cases none, _, h, ctx => by
    obtain ⟨_, d', cases', _, rfl, hd, hcases, rfl⟩ := h
    simp only [stmt, Case.length_likeAll hcases]
    exact .label fun done => .run (createLabels_twin _ _) fun tests =>
      .run (createLabels_twin _ _) fun bodies => .run (expr_twins ctx d d' hd) fun r =>
      .run (switchCases_twins cases cases' hcases ctx r done none (tests.zip bodies)) fun _ =>
      .run (anchor_twin done) fun _ => release_twin r
  | .switch _ d cases (some f), _, h, ctx => by
    obtain ⟨_, d', cases', _, rfl, hd, hcases, f', rfl, hf⟩ := h
    simp only [stmt, Case.length_likeAll hcases]
    exact .label fun done => .run (createLabels_twin _ _) fun tests => .run (createLabels_twin _ _)
      fun bodies => .label fun fallback => .run (expr_twins ctx d d' hd) fun r =>
      .run (switchCases_twins cases cases' hcases ctx r done (some fallback) (tests.zip bodies))
      fun _ => .run (block_twins f f' hf (ctx.withNext none)) fun first => .binds <|
      .run (anchor_twin done) fun _ => release_twin r
  | .next _, _, h, ctx => by
    obtain ⟨_, rfl, -⟩ := h
    simp only [stmt]
    cases ctx.next with
    | some l => exact plain_twin rfl
    | none => exact .throw
  | .return _ v, _, h, ctx => by
    obtain ⟨_, v', rfl, -, hv⟩ := h
    exact returnStatement_twins ctx hv
  | .expression _ e, _, h, ctx => by
    obtain ⟨_, e', rfl, he⟩ := h
    exact .run (expr_twins ctx e e' he) fun r => release_twin r
  | .acquire _ l, _, h, ctx => by
    obtain ⟨_, l', rfl, hl⟩ := h
    exact withLock_twins ctx hl fun _ _ => acquire_twins
  | .release _ l, _, h, ctx => by
    obtain ⟨_, l', rfl, hl⟩ := h
    exact withLock_twins ctx hl fun _ _ => writeShared_twins .zero
termination_by structural s => s

theorem optionalStmt_twins : ∀ s s' : Option Stmt, Stmt.LikeOption ρ.nodes.pairs s s' →
    ∀ ctx : Context,
    ρ.Twins (optionalStmt ctx s) (optionalStmt ctx s')
  | none, _, h, _ => by
    obtain rfl := h
    exact .pure rfl
  | some s, _, h, ctx => by
    obtain ⟨s', rfl, hs⟩ := h
    exact (stmt_twins s s' hs ctx)
termination_by structural s => s

theorem stmts_twins : ∀ ss ss' : List Stmt, Stmt.LikeAll ρ.nodes.pairs ss ss' → ∀ ctx : Context,
    ρ.Twins (stmts ctx ss) (stmts ctx ss')
  | [], _, h, _ => by
    obtain rfl := h
    exact .pure rfl
  | s :: ss, _, h, ctx => by
    obtain ⟨s', ss', rfl, hs, hss⟩ := h
    exact .run (stmt_twins s s' hs ctx) fun _ => stmts_twins ss ss' hss ctx
termination_by structural ss => ss

theorem block_twins : ∀ b b' : Block, b.Like ρ.nodes.pairs b' →
    ∀ ctx : Context, ρ.Twins (block ctx b) (block ctx b')
  | .mk _ ss, _, h, ctx => by
    obtain ⟨_, ss', rfl, hss⟩ := h
    exact nonempty_twins (stmts_twins ss ss' hss ctx)
termination_by structural b => b

theorem switchCases_twins : ∀ cases cases' : List Case, Case.LikeAll ρ.nodes.pairs cases cases' →
    ∀ (ctx : Context) (discriminant : Register) (done : LabelId) (fallback : Option LabelId)
      (labels : List (LabelId × LabelId)),
        ρ.Twins (switchCases ctx discriminant done fallback cases labels)
        (switchCases ctx discriminant done fallback cases' labels)
  | [], _, h, _, _, _, _, _ => by
    obtain rfl := h
    exact .pure rfl
  | .mk _ v b :: cases, _, h, ctx, discriminant, done, fallback, labels => by
    obtain ⟨_, v', b', cases', rfl, -, hv, hb, hcases⟩ := h
    cases labels with
    | nil => exact .pure rfl
    | cons l labels =>
      exact .run (switchCase_twins ctx discriminant hv _ _ _ done (block_twins b b' hb _)) fun _ =>
        switchCases_twins cases cases' hcases ctx discriminant done fallback labels
termination_by structural cases => cases

end

/-! ## Routines -/

theorem bodyCode_twins (ctx : Context) (h : b.Like ρ.nodes.pairs b') :
    ρ.Twins (bodyCode ctx b) (bodyCode ctx b') := by
  cases h with
  | @block b b' h =>
    obtain ⟨_, ss⟩ := b
    obtain ⟨_, ss', rfl, hss⟩ := h
    exact .run (stmts_twins ss ss' hss ctx) fun _ => jumpBack_twin none
  | expression h => exact returnStatement_twins ctx (.some h)

theorem function_twins (f : FunctionId) (h : b.Like ρ.nodes.pairs b') :
    ρ.Twins (function f b) (function f b') := by
  rw [function_eq, function_eq]
  exact .run requireAllFree_twin fun _ => .run (frameScope_twin f) fun scope => .here fun first =>
    .run (bodyCode_twins _ h) fun _ => .run (entry_twin f) fun l => .binds <|
    .run (entryName_twin f) fun _ => comment_twin _ _

theorem initializeFields_twins (scope : ScopeId) {ds ds' : List Declaration}
    (h : List.Forall₂ (Declaration.Like ρ.nodes.pairs) ds ds') :
    ρ.Twins (initializeFields scope ds) (initializeFields scope ds') := by
  induction h with
  | nil => exact .pure rfl
  | @cons d d' ds ds' hd _ ih =>
    have hv := hd.initializer
    unfold initializeFields
    rw [hd.name]
    generalize d.initializer = v, d'.initializer = v' at hv
    cases hv with
    | none => exact ih
    | some he =>
      exact .run (.scopes (·.offset? scope d.name)) fun _ => .run (.expect _ _) fun k =>
        .run (expr_twins {} _ _ he) fun value => .run (loadPlace_twins (.frame 0)) fun object =>
        .run (writeElement_twin object k value) fun _ => .release <| .release ih

theorem initializerRoutine_twins {c c' : ClassDef} (h : c.Like ρ.nodes.pairs c') (l : LabelId) :
    ρ.Twins (initializerRoutine c l) (initializerRoutine c' l) := by
  unfold initializerRoutine
  rw [h.name]
  exact .run requireAllFree_twin fun _ => .run (memberScope_twin _) fun scope => .here fun first =>
    .run (initializeFields_twins scope h.fields) fun _ => .run (jumpBack_twin none) fun _ =>
    .binds <| comment_twin _ _

/-- The end of the code of a core. -/
theorem root_twins {exit : LabelId} (h : ρ.Twins m m') : ρ.Twins
    (do m; let last ← here; endProgram; bind exit last)
    (do m'; let last ← here; endProgram; bind exit last) :=
  .run h fun _ => .here fun last => .step rfl <| bind_twin exit last

theorem threadBody_twins (ctx : Context) (h : b.Like ρ.nodes.pairs b') :
    ρ.Twins (threadBody ctx b) (threadBody ctx b') := by
  cases h with
  | @block b b' h =>
    obtain ⟨_, ss⟩ := b
    obtain ⟨_, ss', rfl, hss⟩ := h
    exact stmts_twins ss ss' hss ctx
  | expression h =>
    exact .run (expr_twins ctx _ _ h) fun r => release_twin r

theorem thread_twins (index : Nat) (f : FunctionId) (h : b.Like ρ.nodes.pairs b') :
    ρ.Twins (thread index f b) (thread index f b') := by
  rw [thread_eq, thread_eq]
  refine .read (.run (entry_twin f) fun l => .allocate fun r => .here fun first => ?_)
  exact .run (readShared_twins (ρ.threadFlag_moves index)) fun _ => .binds <| .step rfl <|
    .step rfl <| .step rfl <| .release <| .run (entryName_twin f) fun _ => .comment <|
    .run (frameScope_twin f) fun scope => .label fun exit => .run (.scopes (·.frameSize scope))
    fun size => .run (enterRootFrame_twin size exit) fun _ => root_twins (threadBody_twins _ h)

theorem mainCode_twins {ss ss' : List Stmt} (h : Stmt.LikeAll ρ.nodes.pairs ss ss') :
    ρ.Twins (mainCode ss) (mainCode ss') := .label fun exit =>
  .run (.scopes (·.frameSize ScopeTree.globalId)) fun size => .here fun _ =>
    .run (enterRootFrame_twin size exit) fun _ => .comment <| root_twins (stmts_twins ss ss' h {})

theorem dispatch_twin : ∀ (fs : List FunctionId) (index : Nat), ρ.Twin (dispatch index fs)
  | [], _ => .pure rfl
  | f :: fs, index =>
    .allocate fun _ => .here fun _ => .step rfl <| .step rfl <|
      .run (entry_twin f) fun _ => .step rfl <|
      .release <| .run (.functionEntry f) fun _ => .comment <| dispatch_twin fs (index + 1)

theorem threads_twins {ps ps' : List (FunctionId × FunctionBody)}
    (h : List.Forall₂ (BodiesLike ρ.nodes) ps ps')
    (index : Nat) : ρ.Twins (Emit.threads index ps) (Emit.threads index ps') := by
  induction h generalizing index with
  | nil => exact .pure rfl
  | @cons p p' _ _ hp _ ih =>
    obtain ⟨f, b⟩ := p
    obtain ⟨f', b'⟩ := p'
    obtain ⟨rfl, hb⟩ := hp
    exact .run (thread_twins index f' hb) fun _ => ih (index + 1)

theorem unit_twins {u u' : SourceUnit} (h : u.Like ρ.nodes.pairs u') :
    ρ.Twins (unit u) (unit u') := by
  have hbodies := definitions_like ρ.like h
  refine .read ?_
  dsimp only [target]
  refine .run (dispatch_twin _ 0) fun _ => .run (mainCode_twins h.statements) fun _ =>
    .run (forM_twins (List.rel_filter (fun p p' hp => ?_) hbodies) (fun p p' hp => ?_)) fun _ =>
    .run (forM_twins h.classes (fun c c' hc => ?_)) fun _ => .run allocatorRoutine_twin fun _ =>
    threads_twins ?_ 0
  · simp only [hp.1]
  · simp only [hp.1]
    exact function_twins p.1 hp.2
  · simp only [hc.name]
    cases ρ.env.initializers.lookup c.name with
    | none => exact .pure rfl
    | some l => exact (initializerRoutine_twins hc l)
  · refine List.rel_filterMap (fun f f' hf => ?_) (List.forall₂_same.2 fun _ _ => rfl)
    subst hf
    have hlookup := lookup_like hbodies f
    generalize (definitions ρ.env.tables.functions u).lookup f = b,
      (definitions ρ.tables.functions u').lookup f = b' at hlookup
    cases hlookup with
    | none => exact .none
    | some hb => exact .some ⟨rfl, hb⟩

end Actions

end Relocation

/-! ## Units -/

section
variable {ν : Renumbering} {u u' : SourceUnit} {t t' : Tables} {globals : Nat} {o o' : Options}

/-- The static words at the end of a memory that holds them. -/
def lastWords (t : Tables) (globals : Nat) (o : Options) : StaticLayout :=
  ⟨o.sharedMemory - StaticLayout.required t.functions.threads.length globals,
    t.functions.threads.length, globals⟩

theorem generate_of_fits (hglobals : t.scopes.frameSize ScopeTree.globalId = .ok globals)
    (ho : StaticLayout.required t.functions.threads.length globals ≤ o.sharedMemory) :
    generate u t o = (do
      let p ← Emit.unit u (startEnv u t o (lastWords t globals o)) (startState u t)
      return {
        program := p.2.program
        layout := lastWords t globals o
        threads := t.functions.threads }) := by
  rw [generate_eq, hglobals]
  show (StaticLayout.place o.sharedMemory t.functions.threads.length globals >>= _) = _
  rw [StaticLayout.place, if_neg (Nat.not_lt.2 ho)]
  rfl

/-- The generator on accepted units that differ in their nodes only, for two memories that are large
enough. -/
theorem generate_abreast (hu : u.Sound t) (hu' : u'.Sound t') (ht : ν.TablesLike t t')
    (h : u.Like ν.pairs u') (hglobals : t.scopes.frameSize ScopeTree.globalId = .ok globals)
    (ho : StaticLayout.required t.functions.threads.length globals ≤ o.sharedMemory)
    (ho' : StaticLayout.required t.functions.threads.length globals ≤ o'.sharedMemory) :
    generate u t o = .error .registersExhausted ∧ generate u' t' o' = .error .registersExhausted ∨
    ∃ p p', generate u t o = .ok ⟨p, lastWords t globals o, t.functions.threads⟩ ∧
      generate u' t' o' = .ok ⟨p', lastWords t globals o', t.functions.threads⟩ ∧
      o.MovesAll o' p p' := by
  have hthreads : t'.functions.threads = t.functions.threads := by
    simp only [FunctionTable.threads, FunctionTable.entries, ht.functions]
  have hclasses := initializedClasses_eq ht h
  have hstate : startState u' t' = startState u t := by
    simp only [startState, hthreads, hclasses, ht.functions]
  let ρ : Relocation := {
    env := startEnv u t o (lastWords t globals o)
    options := o'
    layout := lastWords t globals o'
    tables := t'
    nodes := ν
    like := ht
    base := by
      show o.sharedMemory - _ + o'.sharedMemory = o'.sharedMemory - _ + o.sharedMemory
      omega
    threads := rfl }
  have hwords : lastWords t' globals o' = lastWords t globals o' := by
    rw [lastWords, hthreads, ← lastWords]
  have henv : startEnv u' t' o' (lastWords t globals o') = ρ.target := by
    simp only [ρ, Relocation.target, startEnv, hthreads, hclasses, ht.functions]
  -- Neither of the runs fails in another way than by running out of registers.
  have hsat := unit_sat (E := (· = .registersExhausted)) hu o (lastWords t globals o)
  have hsat' := unit_sat (E := (· = .registersExhausted)) hu' o' (lastWords t globals o')
  have hstart : ρ.States (startState u t) (startState u t) := ⟨rfl, rfl, rfl, rfl, fun k i hi => by
    have hlt : k < (startState u t).here := Slots.lt_of_get? hi
    rw [startState_here] at hlt
    omega⟩
  have hrun : ρ.Outcomes Eq (Emit.unit u (startEnv u t o (lastWords t globals o)) (startState u t))
    _ :=
    Relocation.unit_twins h _ _ hstart
  rw [generate_of_fits hglobals ho, generate_of_fits (by rw [ht.scopes]; exact hglobals)
    (by rw [hthreads]; exact ho'), hwords, henv, hstate, hthreads]
  rw [henv, hstate] at hsat'
  unfold Emit.Sat at hsat hsat'
  generalize Emit.unit u (startEnv u t o (lastWords t globals o)) (startState u t) = x,
    Emit.unit u' ρ.target (startState u t) = x' at hsat hsat' hrun ⊢
  rcases x with e | ⟨_, s⟩ <;> rcases x' with e' | ⟨_, s'⟩
  · obtain rfl : e = .registersExhausted := hsat
    obtain rfl : e' = .registersExhausted := hsat'
    exact .inl ⟨rfl, rfl⟩
  · exact absurd hsat hrun
  · exact absurd hsat' hrun
  · exact .inr ⟨s.program, s'.program, rfl, rfl, hrun.2.program⟩

end

/-- **The options move the static words and add comments, and do nothing else.** A unit is refused
for its memory exactly if the static words do not fit. For any two memories that hold them, the
generator fails with one and the same error, or it gives two programs with the same labels, cores
and opcodes, in which every direct address is at the same distance from the end of the memory. -/
theorem generate_relocated {u : SourceUnit} {t : Tables} (h : u.check = .ok t)
    (hids : (u.nodes.map (·.id)).Nodup) :
    ∃ globals, t.scopes.frameSize ScopeTree.globalId = .ok globals ∧
      (∀ o, (∃ required available, generate u t o = .error
        (.sharedMemoryExhausted required available)) ↔
        o.sharedMemory < 2 + t.functions.threads.length + globals) ∧
      ∀ o o' : Options, 2 + t.functions.threads.length + globals ≤ o.sharedMemory →
        2 + t.functions.threads.length + globals ≤ o'.sharedMemory →
        (∃ e, generate u t o = .error e ∧ generate u t o' = .error e) ∨
        ∃ g g', generate u t o = .ok g ∧ generate u t o' = .ok g' ∧
          o.MovesAll o' g.program g'.program ∧ g'.threads = g.threads := by
  have hu := SourceUnit.check_sound h hids
  obtain ⟨sc, hsc, -, -, howner⟩ := hu.laid.global
  have hglobals := ScopeTree.frameSize_eq hsc (by rw [howner]; exact hsc)
  refine ⟨_, hglobals, fun o => ⟨?_, fun hlt => ?_⟩, fun o o' ho ho' => ?_⟩
  · rintro ⟨required, available, herr⟩
    by_contra hle
    have ho := Nat.not_lt.1 hle
    rcases generate_abreast hu hu (.refl t) (.refl u) hglobals ho ho with ⟨he, -⟩ | ⟨p, -, hg, -⟩
    · exact absurd (he.symm.trans herr) nofun
    · exact absurd (hg.symm.trans herr) nofun
  · refine ⟨StaticLayout.required t.functions.threads.length sc.slots, o.sharedMemory, ?_⟩
    rw [generate_eq, hglobals]
    show (StaticLayout.place o.sharedMemory t.functions.threads.length sc.slots >>= _) = _
    have hlt' : o.sharedMemory < StaticLayout.required t.functions.threads.length sc.slots := hlt
    rw [StaticLayout.place, if_pos hlt']
    rfl
  · rcases generate_abreast hu hu (.refl t) (.refl u) hglobals ho ho' with ⟨he, he'⟩
      | ⟨p, p', hg, hg', hmoves⟩
    · exact .inl ⟨_, he, he'⟩
    · exact .inr ⟨_, _, hg, hg', hmoves, rfl⟩

theorem counterUnit_relocated : ∃ t g g', counterUnit.check = .ok t ∧
    (counterUnit.nodes.map (·.id)).Nodup ∧ generate counterUnit t {} = .ok g ∧
    generate counterUnit t { sharedMemory := 300, comments := false } = .ok g' ∧
    Options.MovesAll {} { sharedMemory := 300, comments := false } g.program g'.program ∧
    ∃ required available, generate counterUnit t { sharedMemory := 1 } =
      .error (.sharedMemoryExhausted required available) := by
  obtain ⟨t, g, ht, hg⟩ := counterUnit_generated
  obtain ⟨globals, -, hfits, hmoves⟩ := generate_relocated ht counterUnit_nodup
  have hbound : 2 + t.functions.threads.length + globals ≤ 256 := by
    by_contra hlt
    obtain ⟨required, available, he⟩ := (hfits {}).2 (Nat.not_le.1 hlt)
    exact absurd (hg.symm.trans he) nofun
  rcases hmoves {} { sharedMemory := 300, comments := false } hbound
    (Nat.le_trans hbound (by decide))
    with ⟨e, he, -⟩ | ⟨g₁, g', hg₁, hg', hall, -⟩
  · exact absurd (hg.symm.trans he) nofun
  · refine ⟨t, g₁, g', ht, counterUnit_nodup, hg₁, hg', hall, (hfits { sharedMemory := 1 }).2 ?_⟩
    show 1 < 2 + t.functions.threads.length + globals
    omega

end Code

end Awl
