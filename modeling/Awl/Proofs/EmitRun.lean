import Awl.Code.Unit
import Awl.Proofs.Scopes

/-!
# Runs of the generator

`Emit.Sat E m env s Q` says that an action ends in a state with `Q` or with an error among `E`. The
small actions are described by what they do to the state: an instruction is added at the end
(`EmitState.emit`), a label is added or bound, a register is taken or given back.

`EmitState.Grows n s s'` is what all of them have in common: code is never taken back, a label that
is bound stays bound, and the labels below `n` are not touched at all.
-/

namespace Awl

open Machine

variable {E : CodeError → Prop} {s s' : EmitState} {t : InstructionId} {l : LabelId} {n : Nat}
  {p : Prop}

/-- The position that a label is bound to, if it is. -/
def Machine.Program.target? (p : Program) (l : LabelId) : Option InstructionId :=
  (p.labels.get? l).bind (·.target)

namespace Code

/-! ## Outcomes -/

/-- An action ends with `Q`, or with an error among `E`. -/
def Emit.Sat {α : Type} (E : CodeError → Prop) (m : Emit α) (env : Env) (s : EmitState)
    (Q : α → EmitState → Prop) : Prop :=
  match m env s with
  | .ok (a, s') => Q a s'
  | .error e => E e

/-- Every error but the one of giving back a register that is not in use. -/
def Unrelated (e : CodeError) : Prop := ∀ r, e ≠ .doubleFree r

/-- A condition that may fail where all errors that have nothing to do with it are among `E`. -/
def Allowed (E : CodeError → Prop) (p : Prop) : Prop := p ∨ ∀ e, Unrelated e → E e

variable {e : CodeError} {q : Prop}

theorem orFault_unrelated {α : Type} {x : Except Fault α} (h : orFault x = .error e) :
    Unrelated e := by
  cases x with
  | ok a => cases h
  | error f =>
    cases h
    exact nofun

theorem Allowed.imp (h : Allowed E p) (hpq : p → q) : Allowed E q := Or.imp_left hpq h

theorem Allowed.and (hp : Allowed E p) (hq : Allowed E q) : Allowed E (p ∧ q) := by
  rcases hp with hp | hall
  · exact hq.imp fun hq => ⟨hp, hq⟩
  · exact .inr hall

theorem Allowed.of (h : p) : Allowed E p := .inl h

namespace Emit

variable {α β : Type} {E : CodeError → Prop} {env : Env} {s s' : EmitState} {f : α → Emit β}
  {m : Emit α} {a : α} {b : β}

theorem bind_run (m : Emit α) (f : α → Emit β) :
    (m >>= f) env s = match m env s with
      | .ok (a, s1) => f a env s1
      | .error e => .error e := by
  show (m env s >>= fun p => f p.1 env p.2) = _
  cases m env s <;> rfl

theorem bind_eq_ok : (m >>= f) env s = .ok (b, s') ↔ ∃ a s1,
    m env s = .ok (a, s1) ∧ f a env s1 = .ok (b, s') := by
  rw [bind_run]
  split
  · rename_i a s1 h
    exact ⟨fun hf => ⟨a, s1, h, hf⟩, fun ⟨a', s1', h', hf⟩ => by
      rw [h] at h'; cases h'; exact hf⟩
  · rename_i e h
    exact ⟨nofun, fun ⟨a', s1', h', _⟩ => by rw [h] at h'; cases h'⟩

theorem pure_eq_ok {b : α} : (pure a : Emit α) env s = .ok (b, s') ↔ b = a ∧ s' = s :=
  ⟨fun h => by cases h; exact ⟨rfl, rfl⟩, fun ⟨h, h'⟩ => by subst h h'; rfl⟩

namespace Sat

variable {Q : β → EmitState → Prop} {R : α → EmitState → Prop} {x : Tables → Except Fault α}
  {what : Missing} {o : Option α}

theorem of_ok (h : Sat E m env s R) (hrun : m env s = .ok (a, s')) : R a s' := by
  unfold Sat at h
  rwa [hrun] at h

theorem bind (hm : Sat E m env s R) (hf : ∀ a s', R a s' → Sat E (f a) env s' Q) :
    Sat E (m >>= f) env s Q := by
  unfold Sat at hm ⊢
  rw [bind_run]
  cases h : m env s with
  | error e => simpa only [h] using hm
  | ok p =>
    rw [h] at hm
    exact hf p.1 p.2 hm

theorem weaken {R' : α → EmitState → Prop} (h : Sat E m env s R)
    (hr : ∀ a s', R a s' → R' a s') : Sat E m env s R' := by
  unfold Sat at h ⊢
  split
  · rename_i hrun
    rw [hrun] at h
    exact hr _ _ h
  · rename_i hrun
    rwa [hrun] at h

theorem pure (h : Q b s) : Sat E (Pure.pure b) env s Q := h

theorem throw (h : E e) : Sat E (MonadExcept.throw e : Emit β) env s Q := h

/-- An action with a known outcome. -/
theorem run (hrun : m env s = .ok (a, s')) (h : Sat E (f a) env s' Q) :
    Sat E (m >>= f) env s Q := by
  unfold Sat at h ⊢
  rw [bind_run, hrun]
  exact h

theorem pure_bind (a : α) (h : Sat E (f a) env s Q) : Sat E (Pure.pure a >>= f) env s Q := h

theorem run_last (hrun : m env s = .ok (a, s')) (h : R a s') : Sat E m env s R := by
  unfold Sat
  rw [hrun]
  exact h

theorem discard {Q : Unit → EmitState → Prop} (h : Sat E m env s fun _ s' => Q () s') :
    Sat E (Functor.discard m : Emit Unit) env s Q :=
  bind (f := fun _ => Pure.pure ()) h fun _ _ hq => hq

theorem get {f : EmitState → Emit β} (h : Sat E (f s) env s Q) :
    Sat E (MonadState.get >>= f) env s Q := h

theorem read {f : Env → Emit β} (h : Sat E (f env) env s Q) :
    Sat E (MonadReader.read >>= f) env s Q := h

theorem orThrow {x : Except CodeError α} (h : ∀ a, x = .ok a → R a s)
    (he : ∀ e, x = .error e → E e) :
    Sat E (Emit.orThrow x) env s R := by
  cases x with
  | ok a => exact h a rfl
  | error e => exact he e rfl

/-- A question to the tables that has an answer. -/
theorem query_last (h : Allowed E (∃ a, x env.tables = .ok a))
    (hr : ∀ a, x env.tables = .ok a → R a s) : Sat E (Emit.query x) env s R := by
  show Sat E (Emit.orThrow (orFault (x env.tables))) env s _
  cases hx : x env.tables with
  | ok a => exact hr a hx
  | error e =>
    rcases h with ⟨a, ha⟩ | hall
    · rw [hx] at ha
      cases ha
    · exact hall _ nofun

theorem query (h : Allowed E (∃ a, x env.tables = .ok a))
    (hf : ∀ a, x env.tables = .ok a → Sat E (f a) env s Q) : Sat E (Emit.query x >>= f) env s Q :=
  bind (query_last h hf) fun _ _ h => h

theorem expect_last (h : Allowed E (∃ a, o = some a))
    (hr : ∀ a, o = some a → R a s) : Sat E (Emit.expect what o) env s R := by
  cases o with
  | some a => exact hr a rfl
  | none =>
    rcases h with ⟨a, ha⟩ | hall
    · cases ha
    · exact hall _ nofun

theorem expect (h : Allowed E (∃ a, o = some a)) (hf : ∀ a, o = some a → Sat E (f a) env s Q) :
    Sat E (Emit.expect what o >>= f) env s Q :=
  bind (expect_last h hf) fun _ _ h => h

/-- The run itself, next to what it leads to. -/
theorem withRun (h : Sat E m env s R) :
    Sat E m env s fun a s' => m env s = .ok (a, s') ∧ R a s' := by
  unfold Sat at h ⊢
  split <;> rename_i hrun
  · rw [hrun] at h
    exact ⟨hrun, h⟩
  · rw [hrun] at h
    exact h

/-- Like `Sat.bind`, for an action whose run is of interest itself. -/
theorem bindRun (hm : Sat E m env s R)
    (hf : ∀ a s', m env s = .ok (a, s') → R a s' → Sat E (f a) env s' Q) :
    Sat E (m >>= f) env s Q := .bind hm.withRun fun a s' h => hf a s' h.1 h.2

end Sat

end Emit

/-! ## Programs that grow -/

/-- The state after one more instruction. -/
def EmitState.emit (s : EmitState) (opcode : OpCode) (operands : List Operand) : EmitState :=
  { s with program := { s.program with
      instructions := s.program.instructions.push { opcode, operands } } }

/-- The position of the next instruction. -/
def EmitState.here (s : EmitState) : Nat := s.program.instructions.size

/-- The number of the next label. -/
def EmitState.labels (s : EmitState) : Nat := s.program.labels.size

/-- Code has been added, and the labels below `n` are as they were. -/
structure EmitState.Grows (n : Nat) (s s' : EmitState) : Prop where
  code : ∀ i ins, s.program.instructions.get? i = some ins →
    ∃ comment, s'.program.instructions.get? i = some { ins with comment }
  here : s.here ≤ s'.here
  labels : s.labels ≤ s'.labels
  kept : ∀ l < n, s'.program.labels.get? l = s.program.labels.get? l
  bound : ∀ l t, s.program.target? l = some t → s'.program.target? l = some t

namespace EmitState

variable {n m : Nat} {s s' s1 s2 s3 : EmitState}

theorem Grows.refl (n : Nat) (s : EmitState) : s.Grows n s :=
  ⟨fun _ ins h => ⟨ins.comment, h⟩, Nat.le_refl _, Nat.le_refl _, fun _ _ => rfl, fun _ _ h => h⟩

theorem Grows.trans (h : s1.Grows n s2) (h' : s2.Grows n s3) : s1.Grows n s3 where
  code i ins hi := by
    obtain ⟨c, hc⟩ := h.code i ins hi
    exact h'.code i { ins with comment := c } hc
  here := Nat.le_trans h.here h'.here
  labels := Nat.le_trans h.labels h'.labels
  kept l hl := (h'.kept l hl).trans (h.kept l hl)
  bound l t hl := h'.bound l t (h.bound l t hl)

theorem Grows.mono (h : s.Grows n s') (hnm : m ≤ n) : s.Grows m s' :=
  ⟨h.code, h.here, h.labels, fun l hl => h.kept l (Nat.lt_of_lt_of_le hl hnm), h.bound⟩

/-- A change of the registers only. -/
theorem Grows.ofProgram (h : s'.program = s.program) : s.Grows n s' := by
  have hhere : s'.here = s.here := congrArg (fun p => p.instructions.size) h
  have hlabels : s'.labels = s.labels := congrArg (fun p => p.labels.size) h
  exact ⟨fun i ins hi => ⟨ins.comment, by rw [h, hi]⟩, Nat.le_of_eq hhere.symm,
    Nat.le_of_eq hlabels.symm, fun l _ => by rw [h], fun l t hl => by rw [h, hl]⟩

theorem emit_get? (s : EmitState) (opcode : OpCode) (operands : List Operand) (i : Nat) :
    (s.emit opcode operands).program.instructions.get? i =
      if i = s.here then some { opcode, operands } else s.program.instructions.get? i :=
  Slots.get?_push ..

@[simp] theorem emit_here (s : EmitState) (opcode : OpCode) (operands : List Operand) :
    (s.emit opcode operands).here = s.here + 1 := Slots.size_push ..

theorem emit_grows (s : EmitState) (opcode : OpCode) (operands : List Operand) :
    s.Grows n (s.emit opcode operands) := by
  refine ⟨fun i ins hi => ⟨ins.comment, ?_⟩, by rw [emit_here]; exact Nat.le_succ _,
    Nat.le_refl _, fun _ _ => rfl, fun _ _ h => h⟩
  have hlt : i < s.here := Slots.lt_of_get? hi
  rw [emit_get?, if_neg (Nat.ne_of_lt hlt), hi]

end EmitState

/-! ## Registers -/

namespace Registers

/-- Every register for values is free or in use, and only once. -/
def WF (r : Registers) : Prop := (r.free ++ r.inUse).Perm generalPurpose

theorem WF.initial : WF {} := .refl _

variable {r : Registers} {x : Register}

theorem WF.nodup (h : r.WF) : (r.free ++ r.inUse).Nodup := h.nodup_iff.2 (by decide)

theorem WF.mem (h : r.WF) (hx : x ∈ r.inUse) : x ∈ generalPurpose :=
  h.mem_iff.1 (List.mem_append_right _ hx)

theorem WF.allocate {free : List Register} (h : r.WF) (hf : r.free = x :: free) :
    WF { free, inUse := r.inUse ++ [x] } := by
  rw [WF, hf] at h
  refine List.Perm.trans ?_ h
  rw [← List.append_assoc]
  exact List.perm_append_singleton _ _

theorem WF.release (h : r.WF) (hx : x ∈ r.inUse) :
    WF { free := r.free ++ [x], inUse := r.inUse.erase x } := by
  refine List.Perm.trans ?_ h
  rw [List.append_assoc]
  exact (List.perm_cons_erase hx).symm.append_left _

end Registers

/-- The registers in use are these, the oldest one first. -/
structure EmitState.Uses (used : List Register) (s : EmitState) : Prop where
  wf : s.registers.WF
  inUse : s.registers.inUse = used

/-- Only the registers in use may have changed. These are the new ones. -/
structure EmitState.Retakes (used : List Register) (s s' : EmitState) : Prop where
  program : s'.program = s.program
  uses : s'.Uses used

variable {used : List Register} {x : Register}

theorem EmitState.Uses.nodup (h : s.Uses used) : used.Nodup :=
  h.inUse ▸ (List.nodup_append.1 h.wf.nodup).2.1

theorem EmitState.Uses.mem (h : s.Uses used) (hx : x ∈ used) : x ∈ generalPurpose :=
  h.wf.mem (h.inUse ▸ hx)

namespace Emit

variable {E : CodeError → Prop} {env : Env} {s : EmitState} {used : List Register}

/-- Code may fail for lack of registers. -/
class Exhausts (E : CodeError → Prop) : Prop where
  registers : E .registersExhausted

instance : Exhausts (· = .registersExhausted) := ⟨rfl⟩

/-- Code that uses `n` registers besides these may fail only if there are not as many. -/
def Spare (E : CodeError → Prop) (used : List Register) (n : Nat) : Prop :=
  generalPurpose.length < used.length + n → E .registersExhausted

section
variable {n k : Nat} {r : Register}

theorem Spare.of [Exhausts E] : Spare E used n := fun _ => Exhausts.registers

theorem Spare.le (h : Spare E used n) (hk : k ≤ n) : Spare E used k := fun hlt => h (by omega)

/-- One of the registers is taken. -/
theorem Spare.take (h : Spare E used n) (hk : k + 1 ≤ n) : Spare E (used ++ [r]) k := fun hlt =>
  h (by rw [List.length_append, List.length_singleton] at hlt; omega)

end

/-- A register that is not in use, or none is left. -/
theorem allocate_sat (h : Spare E used 1) (hs : s.Uses used) :
    Sat E allocate env s fun r s' => s.Retakes (used ++ [r]) s' := by
  obtain ⟨program, free, inUse⟩ := s
  cases free with
  | nil =>
    have hlen : inUse.length = generalPurpose.length := hs.wf.length_eq
    rw [show inUse = used from hs.inUse] at hlen
    exact h (by omega)
  | cons x free =>
    have hin : inUse = used := hs.inUse
    subst hin
    exact ⟨rfl, hs.wf.allocate rfl, rfl⟩

theorem release_sat (env : Env) (hs : s.Uses used) (hx : x ∈ used) :
    Sat E (release x) env s fun _ s' => s.Retakes (used.erase x) s' := by
  have hx' : x ∈ s.registers.inUse := hs.inUse ▸ hx
  unfold release Registers.release
  refine .get ?_
  rw [if_pos hx']
  exact ⟨rfl, hs.wf.release hx', by rw [← hs.inUse]⟩

end Emit

/-! ## Labels and comments -/

/-- A label that is not bound yet. -/
def EmitState.Unbound (s : EmitState) (l : LabelId) : Prop :=
  ∃ name, s.program.labels.get? l = some { name, target := none }

theorem EmitState.Unbound.grows (h : s.Unbound l) (hg : s.Grows n s') (hl : l < n) :
    s'.Unbound l := by
  obtain ⟨name, hn⟩ := h
  exact ⟨name, by rw [hg.kept l hl, hn]⟩

/-- The state after one more label. -/
def EmitState.addLabel (s : EmitState) (name : String) : EmitState :=
  { s with program := (s.program.createLabel name).2 }

namespace EmitState

variable {n : Nat} (s : EmitState) (name : String)

theorem addLabel_get? (l : LabelId) : (s.addLabel name).program.labels.get? l =
    if l = s.labels then some { name := name ++ "_" ++ toString s.labels }
    else s.program.labels.get? l := Slots.get?_push ..

@[simp] theorem addLabel_labels : (s.addLabel name).labels = s.labels + 1 := Slots.size_push ..

theorem addLabel_unbound : (s.addLabel name).Unbound s.labels :=
  ⟨_, by rw [addLabel_get?, if_pos rfl]⟩

theorem addLabel_grows (hn : n ≤ s.labels) : s.Grows n (s.addLabel name) := by
  refine ⟨fun i ins hi => ⟨ins.comment, hi⟩, Nat.le_refl _,
    by rw [addLabel_labels]; exact Nat.le_succ _, fun l hl => ?_, fun l t hl => ?_⟩
  · rw [addLabel_get?, if_neg (Nat.ne_of_lt (Nat.lt_of_lt_of_le hl hn))]
  · have hne : l ≠ s.labels := by
      rintro rfl
      have hnone : s.program.labels.get? s.labels = none :=
        (Slots.get?_eq_none_iff _ _).2 (Nat.le_refl _)
      rw [Program.target?, hnone] at hl
      cases hl
    rw [Program.target?, addLabel_get?, if_neg hne]
    exact hl

end EmitState

/-- A label has been bound. -/
structure EmitState.Binds (l : LabelId) (t : InstructionId) (s s' : EmitState) : Prop where
  instructions : s'.program.instructions = s.program.instructions
  registers : s'.registers = s.registers
  labels : s'.labels = s.labels
  target : s'.program.target? l = some t
  unbound : s.Unbound l
  other : ∀ m, m ≠ l → s'.program.labels.get? m = s.program.labels.get? m

theorem EmitState.Binds.here (h : s.Binds l t s') : s'.here = s.here := by
  rw [EmitState.here, h.instructions]
  rfl

theorem EmitState.Binds.grows (h : s.Binds l t s') (hn : n ≤ l) : s.Grows n s' := by
  refine ⟨fun i ins hi => ⟨ins.comment, by rw [h.instructions, hi]⟩, Nat.le_of_eq h.here.symm,
    Nat.le_of_eq h.labels.symm, fun m hm => h.other m (Nat.ne_of_lt (Nat.lt_of_lt_of_le hm hn)),
    fun m t' hm => ?_⟩
  have hne : m ≠ l := by
    rintro rfl
    obtain ⟨name, hl⟩ := h.unbound
    rw [Program.target?, hl] at hm
    cases hm
  rw [Program.target?, h.other m hne]
  exact hm

/-- At most comments have changed. -/
structure EmitState.Commented (s s' : EmitState) : Prop where
  registers : s'.registers = s.registers
  labels : s'.program.labels = s.program.labels
  here : s'.here = s.here
  code : ∀ i ins, s.program.instructions.get? i = some ins →
    ∃ comment, s'.program.instructions.get? i = some { ins with comment }

theorem EmitState.Commented.refl (s : EmitState) : s.Commented s :=
  ⟨rfl, rfl, rfl, fun _ ins h => ⟨ins.comment, h⟩⟩

theorem EmitState.Commented.grows (h : s.Commented s') : s.Grows n s' := by
  have hlabels : s'.labels = s.labels := congrArg Slots.size h.labels
  refine ⟨h.code, Nat.le_of_eq h.here.symm, Nat.le_of_eq hlabels.symm,
    fun l _ => by rw [h.labels], fun l t hl => ?_⟩
  rw [Program.target?, h.labels]
  exact hl

namespace Emit

variable {E : CodeError → Prop} {env : Env} {s : EmitState}

theorem here_run : here env s = .ok (s.here, s) := rfl

theorem inUse_run : inUse env s = .ok (s.registers.inUse, s) := rfl

theorem createLabel_run (name : String) :
    createLabel name env s = .ok (s.labels, s.addLabel name) := rfl

theorem bind_sat (hl : Allowed E (s.Unbound l)) :
    Sat E (bind l t) env s fun _ s' => s.Binds l t s' := by
  by_cases hun : s.Unbound l
  · obtain ⟨name, hget⟩ := hun
    have hlt : l < s.program.labels.size := Slots.lt_of_get? hget
    have hfetch : s.program.label l = .ok { name, target := none } := by
      rw [Program.label, Slots.fetch_eq_ok_iff.2 hget]
      rfl
    obtain ⟨labels, hrep⟩ : ∃ labels,
        s.program.labels.replace l { name, target := some t } = .ok labels := ⟨_, if_pos hlt⟩
    have hbind : s.program.bind l t = .ok { s.program with labels } := by
      unfold Program.bind
      rw [hfetch]
      show (do
        let labels ← orFault (s.program.labels.replace l { name, target := some t })
        return { s.program with labels } : Except CodeError Program) = _
      rw [hrep]
      rfl
    refine .get ?_
    rw [hbind]
    obtain ⟨-, hsize, hrepl⟩ := Slots.replace_ok hrep
    refine ⟨rfl, rfl, hsize, ?_, ⟨name, hget⟩, fun m hm => ?_⟩
    · show (Slots.get? _ l).bind _ = _
      rw [hrepl, if_pos rfl]
      rfl
    · rw [hrepl, if_neg hm]
  · have hfail : ∀ e, s.program.bind l t = .error e → Unrelated e →
        Sat E (bind l t) env s fun _ s' => s.Binds l t s' := by
      intro e he hrel
      refine .get ?_
      rw [he]
      exact (hl.resolve_left hun) e hrel
    rcases hget : s.program.labels.get? l with _ | ⟨name, _ | t'⟩
    · refine hfail (.fault .outOfRange) ?_ fun r h => by cases h
      simp only [Program.bind, Program.label, Slots.fetch, hget]
      rfl
    · exact absurd ⟨name, hget⟩ hun
    · refine hfail (.labelRebound name) ?_ fun r h => by cases h
      simp only [Program.bind, Program.label, Slots.fetch, hget]
      rfl

theorem comment_sat {id : Nat} {text : String} (h : id < s.here) :
    Sat E (comment id text) env s fun _ s' => s.Commented s' := by
  refine .read ?_
  split
  · refine .get ?_
    obtain ⟨ins, hins⟩ := Slots.exists_of_lt h
    have hfetch : s.program.instruction id = .ok ins := by
      rw [Program.instruction, Slots.fetch_eq_ok_iff.2 hins]
      rfl
    rw [hfetch]
    refine .pure_bind ins ?_
    split
    · obtain ⟨instructions, hrep⟩ : ∃ instructions, s.program.instructions.replace id
          { ins with comment := some text } = .ok instructions := ⟨_, if_pos h⟩
      have hset : s.program.setComment id text = .ok { s.program with instructions } := by
        unfold Program.setComment
        rw [hfetch]
        show (do
          let instructions ← orFault (s.program.instructions.replace id
            { ins with comment := some text })
          return { s.program with instructions } : Except CodeError Program) = _
        rw [hrep]
        rfl
      rw [hset]
      obtain ⟨-, hsize, hget⟩ := Slots.replace_ok hrep
      refine ⟨rfl, rfl, hsize, fun i ins' hi => ?_⟩
      by_cases hid : i = id
      · subst hid
        rw [hins] at hi
        cases hi
        exact ⟨some text, (hget _).trans (if_pos rfl)⟩
      · exact ⟨ins'.comment, ((hget _).trans (if_neg hid)).trans hi⟩
    · exact EmitState.Commented.refl _
  · exact EmitState.Commented.refl _

/-! ## Instructions -/

section
variable {α : Type} {m : Emit Unit} {f : Unit → Emit α} {opcode : OpCode} {operands : List Operand}
  {Q : α → EmitState → Prop} {R : Unit → EmitState → Prop}

/-- An instruction, and then other actions. For each of the actions that add one, the equation holds
by definition. -/
theorem Sat.emit (hrun : m env s = .ok ((), s.emit opcode operands))
    (h : Sat E (f ()) env (s.emit opcode operands) Q) : Sat E (m >>= f) env s Q := .run hrun h

theorem Sat.emit_last (hrun : m env s = .ok ((), s.emit opcode operands))
    (h : R () (s.emit opcode operands)) :
    Sat E m env s R := .run_last hrun h

end

end Emit

/-! ## Pieces of code -/

/-- Code has been added that leaves the labels below `n` alone and these registers in use. -/
structure EmitState.Emits (n : Nat) (used : List Register) (s s' : EmitState) : Prop where
  grows : s.Grows n s'
  uses : s'.Uses used

namespace EmitState.Emits

variable {n : Nat} {used used' : List Register} {s s1 s2 : EmitState}

theorem refl (h : s.Uses used) : s.Emits n used s := ⟨.refl n s, h⟩

theorem emit (h : s.Emits n used s1) (opcode : OpCode) (operands : List Operand) :
    s.Emits n used (s1.emit opcode operands) :=
  ⟨h.grows.trans (emit_grows ..), h.uses.wf, h.uses.inUse⟩

/-- A change of the registers in use. -/
theorem registers (h : s.Emits n used s1) (h' : s1.Retakes used' s2) : s.Emits n used' s2 :=
  ⟨h.grows.trans (.ofProgram h'.program), h'.uses⟩

theorem bind (h : s.Emits n used s1) (h' : s1.Binds l t s2) (hn : n ≤ l) : s.Emits n used s2 :=
  ⟨h.grows.trans (h'.grows hn), by rw [h'.registers]; exact h.uses.wf,
    by rw [h'.registers]; exact h.uses.inUse⟩

theorem comment (h : s.Emits n used s1) (h' : s1.Commented s2) : s.Emits n used s2 :=
  ⟨h.grows.trans h'.grows, by rw [h'.registers]; exact h.uses.wf,
    by rw [h'.registers]; exact h.uses.inUse⟩

end EmitState.Emits

/-- The same, with at least one instruction. -/
structure EmitState.EmitsSome (n : Nat) (used : List Register) (s s' : EmitState) : Prop extends
    EmitState.Emits n used s s' where
  nonempty : s.here < s'.here

namespace EmitState

variable {n : Nat} {used used' : List Register} {s s1 s2 : EmitState}

theorem Emits.emitSome (h : s.Emits n used s1) (opcode : OpCode) (operands : List Operand) :
    s.EmitsSome n used (s1.emit opcode operands) :=
  ⟨h.emit .., by rw [emit_here]; exact Nat.lt_succ_of_le h.grows.here⟩

end EmitState

/-! ## Pushing and popping registers -/

/-- The state after a `push` for each register. -/
def EmitState.pushes (s : EmitState) (l : List Register) : EmitState :=
  l.foldl (fun s r => s.emit .push [.register r]) s

/-- The state after a `pop` for each register. -/
def EmitState.pops (s : EmitState) (l : List Register) : EmitState :=
  l.foldl (fun s r => s.emit .pop [.register r]) s

namespace EmitState

variable {n : Nat} {used : List Register} {s s1 : EmitState}

theorem Emits.pushes (h : s.Emits n used s1) (l : List Register) :
    s.Emits n used (s1.pushes l) := by
  induction l generalizing s1 with
  | nil => exact h
  | cons r l ih => exact ih (h.emit ..)

theorem Emits.pops (h : s.Emits n used s1) (l : List Register) : s.Emits n used (s1.pops l) := by
  induction l generalizing s1 with
  | nil => exact h
  | cons r l ih => exact ih (h.emit ..)

end EmitState

namespace Emit

variable {env : Env} {s : EmitState}

theorem forM_push_run (l : List Register) : l.forM push env s = .ok ((), s.pushes l) := by
  induction l generalizing s with
  | nil => rfl
  | cons r l ih =>
    exact ih

theorem forM_pop_run (l : List Register) : l.forM pop env s = .ok ((), s.pops l) := by
  induction l generalizing s with
  | nil => rfl
  | cons r l ih =>
    exact ih

theorem pushZeros_run (n : Nat) :
    pushZeros n env s = .ok ((), s.pushes (List.replicate n .zero)) := by
  induction n generalizing s with
  | zero => rfl
  | succ n ih =>
    exact ih

end Emit

end Code

end Awl
