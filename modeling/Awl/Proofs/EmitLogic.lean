import Awl.Proofs.EmitRun

/-!
# A logic of the generator's actions

`Emit.Takes E env bound lo used m hi after` describes an action by what it takes and what it leaves:
it starts with the registers `used` in use at a position from `lo` on, binds the labels `bound`,
which are still to be bound, and no others that exist, and ends with the registers `after` in use at
a position from `hi` on. There is a rule for each way of putting actions together, so a derivation
follows the code of an action line by line.
-/

namespace Awl.Code

open Machine

/-- The environment knows the callees of ready code, and the labels of their entries exist. -/
structure Env.Fits (env : Env) (s : EmitState) : Prop where
  frame : ∀ id f, env.tables.function? id = some f → ∃ scope size, f.scope = some scope ∧
    env.tables.scopes.frameSize scope = .ok size ∧ f.signature.arguments.length ≤ size
  entry : ∀ id f, env.tables.function? id = some f → ∃ l,
    env.entries.get? id = some l ∧ l < s.labels
  thread : ∀ id f, env.tables.function? id = some f → f.isThread = true → id ∈ env.threads
  members : ∀ x c, env.tables.types.class? x = some c → ∃ scope size,
    env.tables.types.memberScope? c = some scope ∧ env.tables.scopes.frameSize scope = .ok size

theorem Env.Fits.grows {env : Env} {s s' : EmitState} {n : Nat} (h : env.Fits s)
    (hg : s.Grows n s') : env.Fits s' where
  frame := h.frame
  entry id f hf := by
    obtain ⟨l, hl, hlt⟩ := h.entry id f hf
    exact ⟨l, hl, Nat.lt_of_lt_of_le hlt hg.labels⟩
  thread := h.thread
  members := h.members

/-- Of distinct registers, one that is given back leaves the others. -/
theorem erase_middle {before after : List Register} {r : Register}
    (h : (before ++ r :: after).Nodup) :
    (before ++ r :: after).erase r = before ++ after := by
  have hr : r ∉ before := fun hmem => (List.nodup_append.1 h).2.2 r hmem r (.head _) rfl
  rw [List.erase_append_right _ hr, List.erase_cons_head]

namespace EmitState.Unbound

variable {s s' : EmitState} {l : LabelId}

theorem lt (h : s.Unbound l) : l < s.labels := by
  obtain ⟨_, h⟩ := h
  exact Slots.lt_of_get? h

theorem addLabel (h : s.Unbound l) (name : String) : (s.addLabel name).Unbound l :=
  h.grows (s.addLabel_grows name (Nat.le_refl _)) h.lt

end EmitState.Unbound

/-! ## What an action leaves -/

/-- Code has been added. Of the labels that existed at most these have changed. -/
structure EmitState.Gains (bound : List LabelId) (used : List Register)
    (s s' : EmitState) : Prop where
  grows : s.Grows 0 s'
  others : ∀ l < s.labels, l ∉ bound → s'.program.labels.get? l = s.program.labels.get? l
  uses : s'.Uses used

namespace EmitState

variable {bound bound' : List LabelId} {used used' : List Register}
  {s s1 s2 : EmitState} {l : LabelId}

theorem Emits.gains (h : s.Emits s.labels used s1) : s.Gains [] used s1 :=
  ⟨h.grows.mono (Nat.zero_le _), fun l hl _ => h.grows.kept l hl, h.uses⟩

namespace Gains

theorem emits (h : s.Gains [] used s1) : s.Emits s.labels used s1 :=
  ⟨⟨h.grows.code, h.grows.here, h.grows.labels, fun l hl => h.others l hl List.not_mem_nil,
    h.grows.bound⟩, h.uses⟩

theorem trans (h : s.Gains bound used s1) (h' : s1.Gains bound' used' s2) :
    s.Gains (bound ++ bound') used' s2 where
  grows := h.grows.trans h'.grows
  others l hl hmem := by
    rw [List.mem_append, not_or] at hmem
    exact (h'.others l (Nat.lt_of_lt_of_le hl h.grows.labels) hmem.2).trans (h.others l hl hmem.1)
  uses := h'.uses

theorem unbound (h : s.Gains bound used s1) (hl : s.Unbound l) (hmem : l ∉ bound) :
    s1.Unbound l := by
  obtain ⟨name, hname⟩ := hl
  exact ⟨name, (h.others l (Slots.lt_of_get? hname) hmem).trans hname⟩

end Gains

end EmitState

namespace Emit

variable {α β : Type} {E : CodeError → Prop} {env : Env} {bound bound' : List LabelId}
  {lo hi mid : Nat} {used : List Register} {x r : Register} {s : EmitState} {l : LabelId}

/-- What an action takes and leaves. -/
def Takes (E : CodeError → Prop) (env : Env) (bound : List LabelId) (lo : Nat)
    (used : List Register) (m : Emit α) (hi : Nat) (after : α → List Register) : Prop :=
  ∀ s, s.Uses used → Allowed E (env.Fits s) → lo ≤ s.here →
    Allowed E (bound.Nodup ∧ ∀ l ∈ bound, s.Unbound l) → Sat E m env s fun a s' =>
    s.Gains bound (after a) s' ∧ hi ≤ s'.here

/-- The action computes a value into a fresh register. -/
def Fresh (E : CodeError → Prop) (env : Env) (m : Emit Register) : Prop :=
  ∀ s used, s.Uses used → Allowed E (env.Fits s) → Sat E m env s fun r s' =>
    s.EmitsSome s.labels (used ++ [r]) s'

/-- The action leaves the registers in use as they are. -/
def Steady (E : CodeError → Prop) (env : Env) (m : Emit Unit) : Prop :=
  ∀ s used, s.Uses used → Allowed E (env.Fits s) → Sat E m env s fun _ s' =>
    s.Emits s.labels used s'

/-- Giving back the register that was taken last. -/
theorem release_last (hs : s.Uses (used ++ [r])) :
    Sat E (release r) env s fun _ s' => s.Retakes used s' := by
  have h := release_sat (E := E) env hs (x := r) (by simp)
  rwa [erase_middle hs.nodup, List.append_nil] at h

/-- Giving back the register that was taken before the last one. -/
theorem release_second (hs : s.Uses (used ++ [r] ++ [x])) :
    Sat E (release r) env s fun _ s' => s.Retakes (used ++ [x]) s' := by
  rw [List.append_assoc, List.singleton_append] at hs
  have h := release_sat (E := E) env hs (x := r) (by simp)
  rwa [erase_middle hs.nodup] at h

namespace Takes

variable {m : Emit α} {f : α → Emit β} {after : α → List Register} {after' : β → List Register}
  {operands : List Operand} {t : InstructionId} {opcode : OpCode}

/-! ## The logic and the descriptions of runs -/

theorem ofEmits (h : ∀ s, s.Uses used → Allowed E (env.Fits s) → Sat E m env s fun a s' =>
    s.Emits s.labels (after a) s') : Takes E env [] lo used m lo after := fun s hs hfit hlo _ =>
  (h s hs hfit).weaken fun _ _ h' => ⟨h'.gains, Nat.le_trans hlo h'.grows.here⟩

theorem ofEmitsSome (h : ∀ s, s.Uses used → Allowed E (env.Fits s) → Sat E m env s fun a s' =>
    s.EmitsSome s.labels (after a) s') : Takes E env [] lo used m (lo + 1) after :=
      fun s hs hfit hlo _ =>
  (h s hs hfit).weaken fun _ _ h' =>
    ⟨h'.toEmits.gains, Nat.succ_le_of_lt (Nat.lt_of_le_of_lt hlo h'.nonempty)⟩

theorem emits (h : Takes E env [] 0 used m hi after) (hs : s.Uses used)
    (hfit : Allowed E (env.Fits s)) :
    Sat E m env s fun a s' => s.Emits s.labels (after a) s' :=
  (h s hs hfit (Nat.zero_le _) (.of ⟨.nil, nofun⟩)).weaken fun _ _ h' => h'.1.emits

theorem emitsSome (h : ∀ lo, Takes E env [] lo used m (lo + 1) after) (hs : s.Uses used)
    (hfit : Allowed E (env.Fits s)) : Sat E m env s fun a s' => s.EmitsSome s.labels (after a) s' :=
  (h s.here s hs hfit (Nat.le_refl _) (.of ⟨.nil, nofun⟩)).weaken fun _ _ h' => ⟨h'.1.emits, h'.2⟩

/-! ## Putting actions together -/

theorem bind (hm : Takes E env bound lo used m mid after)
    (hf : ∀ a, Takes E env bound' mid (after a) (f a) hi after') :
    Takes E env (bound ++ bound') lo used (m >>= f) hi after' := by
  intro s hs hfit hlo hl
  refine .bind (hm s hs hfit hlo (hl.imp fun h => ⟨(List.nodup_append.1 h.1).1, fun l hl =>
    h.2 l (List.mem_append_left _ hl)⟩)) fun a s1 h1 => ?_
  refine (hf a s1 h1.1.uses (hfit.imp (·.grows h1.1.grows)) h1.2 (hl.imp fun h => ?_)).weaken
    fun b s2 h2 => ⟨h1.1.trans h2.1, h2.2⟩
  obtain ⟨-, hnodup, hapart⟩ := List.nodup_append.1 h.1
  exact ⟨hnodup, fun l hl => h1.1.unbound (h.2 l (List.mem_append_right _ hl)) fun hmem =>
    hapart l hmem l hl rfl⟩

/-- An action that binds no label, and then another one. -/
theorem seq (hm : Takes E env [] lo used m mid after)
    (hf : ∀ a, Takes E env bound mid (after a) (f a) hi after') :
    Takes E env bound lo used (m >>= f) hi after' := hm.bind hf

/-- Like `seq`, for an action whose run is of interest itself. -/
theorem seqRun (hm : Takes E env [] lo used m mid after)
    (hf : ∀ a s s', m env s = .ok (a, s') → Takes E env bound mid (after a) (f a) hi after') :
    Takes E env bound lo used (m >>= f) hi after' := fun s hs hfit hlo hl =>
  .bindRun (hm s hs hfit hlo (.of ⟨.nil, nofun⟩)) fun a s1 hrun h1 => (hf a s s1 hrun s1 h1.1.uses
      (hfit.imp (·.grows h1.1.grows)) h1.2 (hl.imp fun h => ⟨h.1, fun l hl =>
      h1.1.unbound (h.2 l hl) List.not_mem_nil⟩)).weaken fun _ _ h2 => ⟨h1.1.trans h2.1, h2.2⟩

theorem le (h : Takes E env bound lo used m mid after) (hle : hi ≤ mid) :
    Takes E env bound lo used m hi after := fun s hs hfit hlo hl =>
  (h s hs hfit hlo hl).weaken fun _ _ h' => ⟨h'.1, Nat.le_trans hle h'.2⟩

theorem perm (hp : bound.Perm bound') (h : Takes E env bound' lo used m hi after) :
    Takes E env bound lo used m hi after := fun s hs hfit hlo hl =>
  (h s hs hfit hlo (hl.imp fun h =>
    ⟨hp.nodup_iff.1 h.1, fun l hl => h.2 l (hp.mem_iff.2 hl)⟩)).weaken fun _ _ h' => ⟨⟨h'.1.grows,
      fun l hl hmem => h'.1.others l hl fun hmem' => hmem (hp.mem_iff.2 hmem'), h'.1.uses⟩, h'.2⟩

theorem pure (a : α) (h : after a = used) : Takes E env bound lo used (Pure.pure a) lo after :=
    fun s hs _ hlo _ =>
  ⟨⟨.refl 0 s, fun _ _ _ => rfl, h ▸ hs⟩, hlo⟩

theorem pure_bind (a : α) (h : Takes E env bound lo used (f a) hi after') :
    Takes E env bound lo used (Pure.pure a >>= f) hi after' := h

theorem discard (h : Takes E env bound lo used m hi fun _ => used) :
    Takes E env bound lo used (Functor.discard m : Emit Unit) hi fun _ => used :=
      fun s hs hfit hlo hl =>
  .discard (h s hs hfit hlo hl)

theorem throw {e : CodeError} (h : E e) :
    Takes E env bound lo used (MonadExcept.throw e : Emit α) hi after := fun _ _ _ _ _ => h

theorem read {f : Env → Emit β} (h : Takes E env bound lo used (f env) hi after') :
    Takes E env bound lo used (MonadReader.read >>= f) hi after' := h

theorem query {x : Tables → Except Fault α} (h : Allowed E (∃ a, x env.tables = .ok a))
    (hf : ∀ a, x env.tables = .ok a → Takes E env bound lo used (f a) hi after') :
    Takes E env bound lo used (Emit.query x >>= f) hi after' :=
      fun s hs hfit hlo hl => .query h fun a ha =>
  hf a ha s hs hfit hlo hl

theorem expect {what : Missing} {o : Option α} (h : Allowed E (∃ a, o = some a))
    (hf : ∀ a, o = some a → Takes E env bound lo used (f a) hi after') :
    Takes E env bound lo used (Emit.expect what o >>= f) hi after' :=
      fun s hs hfit hlo hl => .expect h fun a ha =>
  hf a ha s hs hfit hlo hl

theorem here {f : InstructionId → Emit β} (h : ∀ i, Takes E env bound lo used (f i) hi after') :
    Takes E env bound lo used (Emit.here >>= f) hi after' := fun s hs hfit hlo hl =>
  .run here_run (h s.here s hs hfit hlo hl)

/-- The position of the next instruction, for code that describes this instruction later. -/
theorem mark {f : InstructionId → Emit β}
    (h : ∀ i : Nat, lo ≤ i → Takes E env bound i used (f i) hi after') :
    Takes E env bound lo used (Emit.here >>= f) hi after' := fun s hs hfit hlo hl =>
  .run here_run (h s.here hlo s hs hfit (Nat.le_refl _) hl)

/-- A new label is one more label to bind. -/
theorem label {name : String} {f : LabelId → Emit β}
    (h : ∀ l, Takes E env (l :: bound) lo used (f l) hi after') :
    Takes E env bound lo used (createLabel name >>= f) hi after' := by
  intro s hs hfit hlo hl
  have hg := s.addLabel_grows name (Nat.le_refl _)
  have hl' : Allowed E ((s.labels :: bound).Nodup ∧
      ∀ l ∈ s.labels :: bound, (s.addLabel name).Unbound l) := by
    refine hl.imp fun h =>
      ⟨List.nodup_cons.2 ⟨fun hmem => Nat.lt_irrefl _ (h.2 _ hmem).lt, h.1⟩, fun l hl => ?_⟩
    rcases List.mem_cons.1 hl with rfl | hl
    · exact s.addLabel_unbound name
    · exact (h.2 l hl).addLabel name
  refine .run (createLabel_run name)
    ((h s.labels (s.addLabel name) ⟨hs.wf, hs.inUse⟩ (hfit.imp (·.grows hg))
    hlo hl').weaken fun b s1 h1 => ⟨⟨?_, fun l hl hmem => ?_, h1.1.uses⟩, h1.2⟩)
  · exact (hg.mono (Nat.zero_le _)).trans h1.1.grows
  · refine (h1.1.others l (Nat.lt_of_lt_of_le hl hg.labels) fun hmem' => ?_).trans (hg.kept l hl)
    rcases List.mem_cons.1 hmem' with rfl | hmem'
    · exact Nat.lt_irrefl _ hl
    · exact hmem hmem'

/-! ## The small actions -/

theorem emit {m : Emit Unit} (hrun : ∀ {s}, m env s = .ok ((), s.emit opcode operands)) :
    Takes E env [] lo used m (lo + 1) fun _ => used := .ofEmitsSome fun _ hs _ =>
  .run_last hrun ((EmitState.Emits.refl hs).emitSome ..)

theorem step {m : Emit Unit} {k : Emit β} (hrun : ∀ {s}, m env s = .ok ((), s.emit opcode operands))
    (hk : Takes E env bound (lo + 1) used k hi after') :
    Takes E env bound lo used (m >>= fun _ => k) hi after' := .seq (.emit hrun) fun _ => hk

theorem allocate (h : Spare E used 1) :
    Takes E env [] lo used Emit.allocate lo fun r => used ++ [r] := .ofEmits fun _ hs _ =>
  (allocate_sat h hs).weaken fun _ _ hr => (EmitState.Emits.refl hs).registers hr

theorem release : Takes E env [] lo (used ++ [r]) (Emit.release r) lo fun _ => used :=
    .ofEmits fun _ hs _ =>
  (release_last hs).weaken fun _ _ hr => (EmitState.Emits.refl hs).registers hr

theorem releaseSecond :
    Takes E env [] lo (used ++ [r] ++ [x]) (Emit.release r) lo fun _ => used ++ [x] :=
      .ofEmits fun _ hs _ =>
  (release_second hs).weaken fun _ _ hr => (EmitState.Emits.refl hs).registers hr

theorem comment {i : Nat} {text : String} (h : i < lo) :
    Takes E env [] lo used (Emit.comment i text) lo fun _ => used := fun _ hs _ hlo _ =>
  (comment_sat (Nat.lt_of_lt_of_le h hlo)).weaken fun _ _ hcom =>
    ⟨((EmitState.Emits.refl hs).comment hcom).gains, Nat.le_trans hlo (Nat.le_of_eq hcom.here.symm)⟩

theorem bindLabel :
    Takes E env [l] lo used (Emit.bind l t) lo fun _ => used := fun _ hs _ hlo hl =>
  (bind_sat (hl.imp fun h => h.2 l (.head _))).weaken fun _ _ hb =>
    ⟨⟨hb.grows (Nat.zero_le _), fun m _ hm => hb.other m fun heq => hm (heq ▸ .head _),
      ((EmitState.Emits.refl (n := 0) hs).bind hb (Nat.zero_le _)).uses⟩,
      Nat.le_trans hlo (Nat.le_of_eq hb.here.symm)⟩

theorem anchor : Takes E env [l] lo used (Emit.anchor l) (lo + 1) fun _ => used := .here fun _ =>
  .seq (.emit rfl) fun _ => .bindLabel

/-- Binding a label, and then another action. -/
theorem binds {f : Unit → Emit β} (h : Takes E env bound lo used (f ()) hi after') :
    Takes E env (l :: bound) lo used (Emit.bind l t >>= f) hi after' :=
  (bindLabel).bind fun _ => h

theorem anchored {f : Unit → Emit β} (h : Takes E env bound (lo + 1) used (f ()) hi after') :
    Takes E env (l :: bound) lo used (Emit.anchor l >>= f) hi after' :=
  (anchor).bind fun _ => h

theorem pushZeros (n : Nat) : Takes E env [] lo used (Emit.pushZeros n) lo fun _ => used :=
    .ofEmits fun _ hs _ =>
  .run_last (pushZeros_run n) ((EmitState.Emits.refl hs).pushes _)

/-- The registers in use are pushed before a jump and popped after it. -/
theorem inUse {f : List Register → Emit β}
    (h : ∀ saved, Takes E env bound lo used (f saved) hi after') :
    Takes E env bound lo used (Emit.inUse >>= f) hi after' := fun s hs hfit hlo hl =>
  .run inUse_run (h s.registers.inUse s hs hfit hlo hl)

theorem pushes (l : List Register) : Takes E env [] lo used (l.forM push) lo fun _ => used :=
    .ofEmits fun _ hs _ =>
  .run_last (forM_push_run l) ((EmitState.Emits.refl hs).pushes l)

theorem pops (l : List Register) : Takes E env [] lo used (l.forM pop) lo fun _ => used :=
    .ofEmits fun _ hs _ =>
  .run_last (forM_pop_run l) ((EmitState.Emits.refl hs).pops l)

end Takes

variable {m : Emit Register} {code : Emit Unit}

theorem Fresh.of (h : ∀ lo used, Takes E env [] lo used m (lo + 1) (used ++ [·])) : Fresh E env m :=
  fun _ used hs hfit => Takes.emitsSome (fun lo => h lo used) hs hfit

theorem Fresh.takes (h : Fresh E env m) : Takes E env [] lo used m (lo + 1) (used ++ [·]) :=
    .ofEmitsSome fun s =>
  h s used

theorem Steady.of (h : ∀ lo used, Takes E env [] lo used code lo fun _ => used) :
    Steady E env code :=
  fun _ used hs hfit => (h 0 used).emits hs hfit

theorem Steady.takes (h : Steady E env code) : Takes E env [] lo used code lo fun _ => used :=
    .ofEmits fun s =>
  h s used

end Emit

end Awl.Code
