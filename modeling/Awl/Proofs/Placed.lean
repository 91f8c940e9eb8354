import Awl.Proofs.EmitStmt

/-!
# Where code lies

`Emit.Placed env P m used first a last` says that an action was run while the program `P` was
generated: its code lies at the positions from `first` up to `last`, `a` is its result, and the
registers `used` were in use before it. For each construct of the language there is a lemma that
says which instructions its code consists of and where the code of its parts lies.
-/

namespace Awl

open Machine

variable {ctx : Context} {s : EmitState} {l : LabelId} {used : List Register} {n : Node}
  {p : Place} {r : Register} {x : String}

/-- A program with at least the instructions of another one, comments aside, and with its labels
bound in the same way. -/
structure Machine.Program.Within (p P : Program) : Prop where
  code : ∀ i ins, p.instructions.get? i = some ins →
    ∃ comment, P.instructions.get? i = some { ins with comment }
  bound : ∀ l t, p.target? l = some t → P.target? l = some t

/-- The instruction at a position, without its comment. -/
def Machine.Program.Has (P : Program) (i : Nat) (opcode : OpCode)
    (operands : List Operand) : Prop :=
  ∃ comment, P.instructions.get? i = some { opcode, operands, comment }

/-- An opcode with its operands. -/
abbrev Machine.Ins := OpCode × List Operand

namespace Machine.Ins

abbrev const (v : Int) (r : Register) : Ins := (.const, [.immediate (.value v), .register r])

abbrev constLabel (l : LabelId) (r : Register) : Ins :=
  (.const, [.immediate (.label l), .register r])

abbrev compute (op : Operator) (x y z : Register) : Ins :=
  (.compute, [.operator op, .register x, .register y, .register z])

abbrev load (a : Address) (r : Register) : Ins := (.load, [.address a, .register r])

abbrev store (r : Register) (a : Address) : Ins := (.store, [.register r, .address a])

abbrev push (r : Register) : Ins := (.push, [.register r])

abbrev pop (r : Register) : Ins := (.pop, [.register r])

abbrev read (a : Address) : Ins := (.read, [.address a])

abbrev receive (r : Register) : Ins := (.receive, [.register r])

abbrev write (r : Register) (a : Address) : Ins := (.write, [.register r, .address a])

abbrev testAndSet (a : Address) : Ins := (.testAndSet, [.address a])

abbrev branch (r : Register) (l : LabelId) : Ins := (.branch, [.register r, .target (.label l)])

abbrev jump (t : Target) : Ins := (.jump, [.target t])

abbrev nop : Ins := (.nop, [])

end Machine.Ins

/-- The instructions from a position on. -/
def Machine.Program.HasAll (P : Program) : Nat → List Ins → Prop
  | _, [] => True
  | i, x :: code => P.Has i x.1 x.2 ∧ P.HasAll (i + 1) code

theorem Machine.Program.HasAll.append {P : Program} {code code' : List Ins} {i : Nat} :
    P.HasAll i (code ++ code') ↔ P.HasAll i code ∧ P.HasAll (i + code.length) code' := by
  induction code generalizing i with
  | nil => simp [HasAll]
  | cons x code ih =>
    simp only [List.cons_append, HasAll, ih, List.length_cons, and_assoc]
    rw [Nat.add_right_comm i 1, Nat.add_assoc]

namespace Code

/-- The code so far is part of a program. -/
def EmitState.Into (P : Program) (s : EmitState) : Prop := s.program.Within P

/-- A register that may be taken. -/
structure Free (used : List Register) (r : Register) : Prop where
  general : r ∈ generalPurpose
  unused : r ∉ used

theorem EmitState.Uses.free (h : s.Uses (used ++ [r])) : Free used r where
  general := h.mem (by simp)
  unused hr := (List.nodup_append.1 h.nodup).2.2 r hr r (by simp) rfl

variable {t : InstructionId} {operands : List Operand} {opcode : OpCode}

namespace EmitState

variable {P : Program} {s s' : EmitState} {n : Nat}

theorem Into.of_grows (h : s'.Into P) (hg : s.Grows n s') : s.Into P where
  code i ins hi := by
    obtain ⟨c, hc⟩ := hg.code i ins hi
    obtain ⟨c', hc'⟩ := h.code i _ hc
    exact ⟨c', hc'⟩
  bound l t hl := h.bound l t (hg.bound l t hl)

theorem Retakes.here (h : s.Retakes used s') : s'.here = s.here :=
  congrArg (fun p => p.instructions.size) h.program

theorem Retakes.into (h : s.Retakes used s') (hP : s'.Into P) : s.Into P :=
  hP.of_grows (n := 0) (.ofProgram h.program)

theorem Into.has (h : (s.emit opcode operands).Into P) : P.Has s.here opcode operands := by
  obtain ⟨c, hc⟩ := h.code s.here { opcode, operands } (by rw [emit_get?, if_pos rfl])
  exact ⟨c, hc⟩

theorem Binds.into (h : s.Binds l t s') (hP : s'.Into P) : s.Into P ∧ P.target? l = some t :=
  ⟨hP.of_grows (h.grows (Nat.zero_le _)), hP.bound l t h.target⟩

end EmitState

/-- These instructions have been added, and these registers are in use now. -/
structure EmitState.Adds (code : List Ins) (used : List Register) (s s' : EmitState) : Prop where
  lays : ∀ P, s'.Into P → s.Into P ∧ P.HasAll s.here code
  here : s'.here = s.here + code.length
  uses : s'.Uses used

namespace EmitState.Adds

variable {code code' : List Ins} {used used' : List Register} {s s1 s2 : EmitState}

theorem refl (hs : s.Uses used) : s.Adds [] used s := ⟨fun _ h => ⟨h, trivial⟩, rfl, hs⟩

theorem append (h : s.Adds code used s1) (h' : s1.Adds code' used' s2) :
    s.Adds (code ++ code') used' s2 where
  lays P hP := by
    obtain ⟨hP1, hcode'⟩ := h'.lays P hP
    obtain ⟨hP0, hcode⟩ := h.lays P hP1
    exact ⟨hP0, Program.HasAll.append.2 ⟨hcode, h.here ▸ hcode'⟩⟩
  here := by rw [h'.here, h.here, List.length_append, Nat.add_assoc]
  uses := h'.uses

theorem emit (h : s.Adds code used s1) (opcode : OpCode) (operands : List Operand) :
    s.Adds (code ++ [(opcode, operands)]) used (s1.emit opcode operands) := by
  refine h.append ⟨fun P hP => ⟨hP.of_grows (n := 0) (emit_grows ..), hP.has, trivial⟩,
    emit_here .., h.uses.wf, h.uses.inUse⟩

theorem registers (h : s.Adds code used s1) (hr : s1.Retakes used' s2) : s.Adds code used' s2 :=
  ⟨fun P hP => h.lays P (hr.into hP), hr.here.trans h.here, hr.uses⟩

theorem bind (h : s.Adds code used s1) (hb : s1.Binds l t s2) : s.Adds code used s2 :=
  ⟨fun P hP => h.lays P (hb.into hP).1, hb.here.trans h.here, by rw [hb.registers]; exact h.uses.wf,
    by rw [hb.registers]; exact h.uses.inUse⟩

theorem addLabel (h : s.Adds code used s1) (name : String) : s.Adds code used (s1.addLabel name) :=
  ⟨fun P hP => h.lays P (hP.of_grows (addLabel_grows _ _ (Nat.zero_le _))), h.here,
    h.uses.wf, h.uses.inUse⟩

theorem comment (h : s.Adds code used s1) (hc : s1.Commented s2) : s.Adds code used s2 :=
  ⟨fun P hP => h.lays P (hP.of_grows (n := 0) hc.grows), hc.here.trans h.here,
    by rw [hc.registers]; exact h.uses.wf, by rw [hc.registers]; exact h.uses.inUse⟩

end EmitState.Adds

/-- The instructions that read a place into a register. -/
def Place.loadCode (r : Register) : Place → List Ins
  | .frame k => [.const (k + 1) r, .compute .add .arp r r, .load (.indirect r) r]
  | .global a => [.read (.direct a), .receive r]
  | .shared x => [.read (.indirect x), .receive r]

/-- The instructions that write a register to a place, with another one for the address. -/
def Place.storeCode (value r : Register) : Place → List Ins
  | .frame k => [.const (k + 1) r, .compute .add .arp r r, .store value (.indirect r)]
  | .global a => [.write value (.direct a)]
  | .shared x => [.write value (.indirect x)]

/-- The instructions that turn an object into the address of its field at `k`. -/
def fieldCode (object r : Register) (k : Nat) : List Ins :=
  if k = 0 then [] else [.const k r, .compute .add object r object]

/-- The place of a name with offset `k` in a scope of this kind, and the instructions that compute
it. The receiver is loaded for a field. -/
inductive NameCode (env : Env) (function : Option ScopeId) (used : List Register) (k : Nat) :
    ScopeKind → Place → List Ins → Prop
  | global : NameCode env function used k .global (.global (env.layout.global k)) []
  | function : NameCode env function used k .function (.frame k) []
  | block : NameCode env function used k .block (.frame k) []
  | members {F : ScopeId} {k' : Nat} {object r : Register} : function = some F →
      env.tables.scopes.offset? F receiverName = .ok (some k') → Free used object →
      (k ≠ 0 → Free (used ++ [object]) r) →
      NameCode env function used k .members (.shared object)
      ((Place.frame k').loadCode object ++ fieldCode object r k)

/-- What the tables say about a name, and the code that follows from it. -/
structure NameAt (env : Env) (function : Option ScopeId) (used : List Register) (node : NodeId)
    (x : String) (id : ScopeId) (k : Nat) (kind : ScopeKind) (p : Place)
        (code : List Ins) : Prop where
  scope : env.tables.annotations.scope? node = some id
  offset : env.tables.scopes.offset? id x = .ok (some k)
  isKind : env.tables.scopes.kind id = .ok kind
  code : NameCode env function used k kind p code

namespace Emit

/-- Every error is admitted: all that is said is said about runs that succeed. -/
abbrev Any : CodeError → Prop := fun _ => True

instance : Exhausts Any := ⟨trivial⟩

theorem any (p : Prop) : Allowed Any p := .inr fun _ _ => trivial

variable {α β : Type} {env : Env} {P : Program} {used : List Register} {first last : Nat}
  {m : Emit α} {a : α}

/-- An action was run for a program, with these registers in use. -/
def Placed (env : Env) (P : Program) (m : Emit α) (used : List Register) (first : Nat) (a : α)
    (last : Nat) : Prop :=
  ∃ s s', m env s = .ok (a, s') ∧ s.Uses used ∧ s.here = first ∧ s'.here = last ∧ s'.Into P

theorem Placed.of_run {s' : EmitState} (h : m env s = .ok (a, s'))
    (hs : s.Uses used) (hP : s'.Into P) : Placed env P m used s.here a s'.here :=
  ⟨s, s', h, hs, rfl, rfl, hP⟩

/-- The code of an action lies between two positions as `C` says, and the registers in use are
`used` before it and `used'` after it. -/
def Lies (env : Env) (m : Emit α) (used : List Register) (used' : α → List Register)
    (C : Program → Nat → α → Nat → Prop) : Prop :=
  ∀ s, s.Uses used → Sat Any m env s fun a s' => s'.Uses (used' a) ∧ ∀ P, s'.Into P →
    s.Into P ∧ C P s.here a s'.here

/-- Like `Lies`, for one program and for code after which the registers in use do not matter. -/
def Walks (env : Env) (P : Program) (m : Emit α) (used : List Register)
    (C : Nat → α → Nat → Prop) : Prop :=
  ∀ s, s.Uses used → Sat Any m env s fun a s' => s'.Into P → s.Into P ∧ C s.here a s'.here

/-- What all runs of an action say about its code. -/
@[elab_as_elim]
theorem Placed.walk {C : Nat → α → Nat → Prop} (h : Placed env P m used first a last)
    (hm : Walks env P m used C) : C first a last := by
  obtain ⟨s, s', hrun, hs, rfl, rfl, hP⟩ := h
  exact ((hm s hs).of_ok hrun hP).2

/-! ## Actions that succeed -/

variable {s : EmitState} {e : Expr} {target : Awl.Target} {text : String} {node : NodeId}
  {y : Register} {id : Nat}

theorem bind_done : Sat Any (bind l t) env s fun _ s' => s.Binds l t s' := bind_sat (any _)

theorem anchor_done :
    Sat Any (anchor l) env s fun _ s' => (s.emit .nop []).Binds l s.here s' :=
  .run here_run (.emit rfl bind_done)

theorem comment_done : Sat Any (comment id text) env s fun _ s' => s.Commented s' := by
  by_cases h : id < s.here
  · exact comment_sat h
  · refine .read ?_
    split
    · refine .get ?_
      have hfail : s.program.instruction id = .error (.fault .outOfRange) := by
        have hnone : s.program.instructions.get? id = none :=
          (Slots.get?_eq_none_iff _ _).2 (Nat.not_lt.1 h)
        simp only [Program.instruction, Slots.fetch, hnone]
        rfl
      rw [hfail]
      trivial
    · exact EmitState.Commented.refl _

theorem release_done {x : Register} (hs : s.Uses used) :
    Sat Any (release x) env s fun _ s' => x ∈ used ∧ s.Retakes (used.erase x) s' := by
  by_cases hx : x ∈ used
  · exact (release_sat env hs hx).weaken fun _ _ h => ⟨hx, h⟩
  · have hx' : x ∉ s.registers.inUse := hs.inUse ▸ hx
    unfold release Registers.release
    refine .get ?_
    rw [if_neg hx']
    trivial

/-! ## Rules for code

A derivation follows the code of an action. Each rule hands on what its own part says about the
program: `C` is what remains to be shown when the part before is known. -/

section
variable {m : Emit α} {f : α → Emit β} {used1 : α → List Register}
  {D : Program → Nat → α → Nat → Prop} {bound : List LabelId} {hi : Nat}

theorem Lies.weaken {D' : Program → Nat → α → Nat → Prop} (hm : Lies env m used used1 D)
    (h : ∀ P i a j, D P i a j → D' P i a j) : Lies env m used used1 D' := fun s hs =>
  (hm s hs).weaken fun a _ h' => ⟨h'.1, fun P hP => ⟨(h'.2 P hP).1, h P _ a _ (h'.2 P hP).2⟩⟩

theorem Lies.free {m : Emit Register} {D : Program → Nat → Register → Nat → Prop}
    (hm : Lies env m used (used ++ [·]) D) :
    Lies env m used (used ++ [·]) fun P i r j => D P i r j ∧ Free used r := fun s hs =>
  (hm s hs).weaken fun _ _ h => ⟨h.1, fun P hP => ⟨(h.2 P hP).1, (h.2 P hP).2, h.1.free⟩⟩

theorem Takes.lies (h : Takes Any env bound 0 used m hi used1) :
    Lies env m used used1 fun P i a j => Placed env P m used i a j := fun s hs =>
  (h s hs (any _) (Nat.zero_le _) (any _)).withRun.weaken fun _ _ h' =>
    ⟨h'.2.1.uses, fun _ hP => ⟨hP.of_grows h'.2.1.grows, .of_run h'.1 hs hP⟩⟩

theorem Steady.le {m : Emit Unit} (hm : Steady Any env m) (h : Placed env P m used first () last) :
    first ≤ last := by
  obtain ⟨s, s', hrun, hs, rfl, rfl, -⟩ := h
  exact ((hm s used hs (any _)).of_ok hrun).grows.here

/-- The registers that an action leaves, and what its code is like. -/
theorem Lies.of (h : Takes Any env bound 0 used m hi used1)
    (hw : ∀ P, Walks env P m used (D P)) : Lies env m used used1 D := fun s hs =>
  (h.lies s hs).withRun.weaken fun _ _ h' => ⟨h'.2.1, fun P hP => (hw P s hs).of_ok h'.1 hP⟩

namespace Walks

variable {C : Nat → β → Nat → Prop} {name : String}

theorem seq (hm : Lies env m used used1 D)
    (hf : ∀ a, Walks env P (f a) (used1 a) fun k b j => ∀ i, D P i a k → C i b j) :
    Walks env P (m >>= f) used C := by
  intro s hs
  refine .bind (hm s hs) fun a s1 h1 => (hf a s1 h1.1).weaken fun b s2 h2 hP => ?_
  obtain ⟨hP1, hC⟩ := h2 hP
  obtain ⟨hP0, hD⟩ := h1.2 P hP1
  exact ⟨hP0, hC _ hD⟩

theorem ends {C : Nat → α → Nat → Prop} (hm : Lies env m used used1 D)
    (h : ∀ i a j, D P i a j → C i a j) : Walks env P m used C := fun s hs =>
  (hm s hs).weaken fun _ _ h' hP => ⟨(h'.2 P hP).1, h _ _ _ (h'.2 P hP).2⟩

theorem pure {C : Nat → α → Nat → Prop} (h : ∀ i, C i a i) : Walks env P (Pure.pure a) used C :=
  fun _ _ hP => ⟨hP, h _⟩

theorem pure_bind (a : α) (hf : Walks env P (f a) used C) :
    Walks env P (Pure.pure a >>= f) used C := hf

/-- The last action of a sequence is followed by nothing. -/
theorem close {C : Nat → α → Nat → Prop} (h : Walks env P (m >>= Pure.pure) used C) :
    Walks env P m used C := by
  rwa [bind_pure] at h

theorem read {f : Env → Emit β} (hf : Walks env P (f env) used C) :
    Walks env P (MonadReader.read >>= f) used C := hf

theorem query {x : Tables → Except Fault α}
    (hf : ∀ a, x env.tables = .ok a → Walks env P (f a) used C) :
    Walks env P (Emit.query x >>= f) used C := fun s hs => .query (any _) fun a ha => hf a ha s hs

theorem expect {what : Missing} {o : Option α} (hf : ∀ a, o = some a → Walks env P (f a) used C) :
    Walks env P (Emit.expect what o >>= f) used C :=
  fun s hs => .expect (any _) fun a ha => hf a ha s hs

theorem here {f : Nat → Emit β} (hf : ∀ i, Walks env P (f i) used fun k b j => k = i → C k b j) :
    Walks env P (Emit.here >>= f) used C :=
      fun s hs => .run here_run ((hf s.here s hs).weaken fun _ _ h hP =>
  ⟨(h hP).1, (h hP).2 rfl⟩)

/-- An action without code. -/
theorem still {Q : α → Prop}
    (hm : ∀ s, s.Uses used → Sat Any m env s fun a s' => Q a ∧ s.Adds [] (used1 a) s')
    (hf : ∀ a, Q a → Walks env P (f a) (used1 a) C) : Walks env P (m >>= f) used C := by
  intro s hs
  refine .bind (hm s hs) fun a s1 h1 => (hf a h1.1 s1 h1.2.uses).weaken fun b s2 h2 hP => ?_
  obtain ⟨hP1, hC⟩ := h2 hP
  have hhere : s1.here = s.here := h1.2.here
  exact ⟨(h1.2.lays P hP1).1, hhere ▸ hC⟩

theorem label {f : LabelId → Emit β} (hf : ∀ l, Walks env P (f l) used C) :
    Walks env P (createLabel name >>= f) used C := .still (Q := fun _ => True) (fun _ hs =>
  .run_last (createLabel_run name)
    ⟨trivial, (EmitState.Adds.refl hs).addLabel name⟩) fun l _ => hf l

theorem labels : ∀ (n : Nat) {f : List LabelId → Emit β},
    (∀ ls, ls.length = n → Walks env P (f ls) used C) →
    Walks env P (createLabels name n >>= f) used C
  | 0, _, hf => hf [] rfl
  | n + 1, f, hf => by
    simp only [createLabels, bind_assoc]
    exact .label fun l => .labels n fun ls hls => hf (l :: ls) (by rw [List.length_cons, hls])

theorem allocate {f : Register → Emit β}
    (hf : ∀ r, Free used r → Walks env P (f r) (used ++ [r]) C) :
    Walks env P (Emit.allocate >>= f) used C := .still (fun _ hs =>
  (allocate_sat .of hs).weaken fun _ _ hr =>
    ⟨hr.uses.free, (EmitState.Adds.refl hs).registers hr⟩) hf

theorem release {f : Unit → Emit β} (hf : Walks env P (f ()) used C) :
    Walks env P (Emit.release r >>= f) (used ++ [r]) C := .still (Q := fun _ => True) (fun _ hs =>
  (release_last hs).weaken fun _ _ hr =>
    ⟨trivial, (EmitState.Adds.refl hs).registers hr⟩) fun _ _ => hf

theorem releaseSecond {f : Unit → Emit β} (hf : Walks env P (f ()) (used ++ [y]) C) :
    Walks env P (Emit.release r >>= f) (used ++ [r] ++ [y]) C :=
      .still (Q := fun _ => True) (fun _ hs =>
  (release_second hs).weaken fun _ _ hr =>
    ⟨trivial, (EmitState.Adds.refl hs).registers hr⟩) fun _ _ => hf

theorem releaseAny {f : Unit → Emit β} (hf : Walks env P (f ()) (used.erase r) C) :
    Walks env P (Emit.release r >>= f) used C :=
      .still (fun _ hs => (release_done hs).weaken fun _ _ hr =>
    ⟨hr.1, (EmitState.Adds.refl hs).registers hr.2⟩) fun _ _ => hf

/-- Code whose last action at most adds a comment. -/
theorem commented {m : Emit Unit} {C : Nat → Unit → Nat → Prop}
    (hm : ∀ s, Sat Any m env s fun _ s' => s.Commented s') (h : ∀ i, C i () i) :
    Walks env P m used C := fun s _ =>
  (hm s).weaken fun _ _ hc hP => ⟨hP.of_grows (n := 0) hc.grows, hc.here ▸ h _⟩

theorem comment {f : Unit → Emit β} (hf : Walks env P (f ()) used C) :
    Walks env P (Emit.comment id text >>= f) used C := .still (Q := fun _ => True) (fun _ hs =>
  comment_done.weaken fun _ _ hc =>
    ⟨trivial, (EmitState.Adds.refl hs).comment hc⟩) fun _ _ => hf

theorem emit {m : Emit Unit} {f : Unit → Emit β}
    (hrun : ∀ {s}, m env s = .ok ((), s.emit opcode operands))
    (hf : Walks env P (f ()) used fun k b j => ∀ i, k = i + 1 → P.Has i opcode operands → C i b j) :
    Walks env P (m >>= f) used C := fun s hs =>
  .run hrun ((hf (s.emit opcode operands) ⟨hs.wf, hs.inUse⟩).weaken fun _ _ h hP =>
    ⟨(h hP).1.of_grows (n := 0) (EmitState.emit_grows ..),
      (h hP).2 _ (EmitState.emit_here ..) (h hP).1.has⟩)

theorem binds {f : Unit → Emit β}
    (hf : Walks env P (f ()) used fun k b j => P.target? l = some t → C k b j) :
    Walks env P (Emit.bind l t >>= f) used C := by
  intro s hs
  refine .bind bind_done fun _ s1 h1 => ?_
  refine (hf s1 ((EmitState.Adds.refl hs).bind h1).uses).weaken fun b s2 h2 hP => ?_
  obtain ⟨hP1, hC⟩ := h2 hP
  exact ⟨(h1.into hP1).1, h1.here ▸ hC (h1.into hP1).2⟩

theorem anchor {f : Unit → Emit β} (hf : Walks env P (f ()) used fun k b j => ∀ i, k = i + 1 →
      P.HasAll i [.nop] → P.target? l = some i → C i b j) :
    Walks env P (Emit.anchor l >>= f) used C := by
  simp only [Emit.anchor, bind_assoc]
  refine .here fun _ =>
    .emit rfl (.binds fun s hs => (hf s hs).weaken fun _ _ h hP => ⟨(h hP).1, ?_⟩)
  rintro hl i hi hnop rfl
  exact (h hP).2 i hi ⟨hnop, trivial⟩ hl

end Walks

end

/-! ## Values and places -/

theorem constantRegister_adds (v : Int) (hs : s.Uses used) :
    Sat Any (constantRegister v) env s fun r s' => s.Adds [.const v r] (used ++ [r]) s' :=
  .bind (allocate_sat .of hs) fun _ _ hr =>
    .emit rfl (((EmitState.Adds.refl hs).registers hr).emit ..)

theorem slotAddress_adds (k : Nat) (hs : s.Uses used) : Sat Any (slotAddress k) env s
      fun r s' => s.Adds [.const (k + 1) r, .compute .add .arp r r] (used ++ [r]) s' :=
  .bind (allocate_sat .of hs) fun _ _ hr => .emit rfl
    (.emit rfl ((((EmitState.Adds.refl hs).registers hr).emit ..).emit ..))

theorem loadPlace_adds (p : Place) (hs : s.Uses (used ++ p.held)) :
    Sat Any (loadPlace p) env s fun r s' => s.Adds (p.loadCode r) (used ++ [r]) s' := by
  cases p with
  | frame k =>
    rw [Place.held, List.append_nil] at hs
    exact .bind (slotAddress_adds k hs) fun r s1 h => .emit rfl (h.emit ..)
  | global a =>
    rw [Place.held, List.append_nil] at hs
    exact .bind (allocate_sat .of hs) fun r s1 hr => .emit rfl
      (.emit rfl ((((EmitState.Adds.refl hs).registers hr).emit ..).emit ..))
  | shared x =>
    exact .emit rfl (.emit rfl
      (((EmitState.Adds.refl hs).emit ..).emit ..))

theorem storePlace_adds (value : Register) (p : Place) (hs : s.Uses used)
    (hp : ∀ r ∈ p.held, r ∈ used) :
    Sat Any (storePlace value p) env s fun _ s' => ∃ r, (∀ k, p = .frame k → Free used r) ∧
      s.Adds (p.storeCode value r) (p.giveBack used) s' := by
  cases p with
  | frame k =>
    refine .bind (slotAddress_adds k hs) fun r s1 h => .emit rfl ?_
    exact (release_last (h.emit ..).uses).weaken fun _ s2 hr =>
      ⟨r, fun _ _ => h.uses.free, (h.emit ..).registers hr⟩
  | global a =>
    have h := (EmitState.Adds.refl hs).emit .write [.register value, .address (.direct a)]
    exact Sat.emit_last rfl ⟨.zero, fun _ h => Place.noConfusion h, h⟩
  | shared x =>
    refine .emit rfl ?_
    have h := (EmitState.Adds.refl hs).emit .write [.register value, .address (.indirect x)]
    exact (release_sat env h.uses (hp x (.head _))).weaken fun _ s2 hr =>
      ⟨.zero, fun _ h => Place.noConfusion h, h.registers hr⟩

theorem fieldPlace_adds {object : Register} (k : Nat) (hs : s.Uses (used ++ [object])) :
    Sat Any (fieldPlace object k) env s fun p s' => p = .shared object ∧
      ∃ r, (k ≠ 0 → Free (used ++ [object]) r) ∧
      s.Adds (fieldCode object r k) (used ++ [object]) s' := by
  unfold fieldPlace
  split
  · rename_i hk
    refine .bind (constantRegister_adds _ hs) fun r s1 h => .emit rfl ?_
    refine .bind (release_last (h.emit ..).uses) fun _ s2 hr => ⟨rfl, r, fun _ => h.uses.free, ?_⟩
    rw [fieldCode, if_neg hk]
    exact (h.emit ..).registers hr
  · rename_i hk
    refine ⟨rfl, .zero, fun h => absurd h hk, ?_⟩
    rw [fieldCode, if_pos (Decidable.not_not.1 hk)]
    exact .refl hs

theorem elementPlace_adds {array index : Register} (hs : s.Uses (used ++ [array] ++ [index])) :
    Sat Any (elementPlace array index) env s fun p s' => p = .shared index ∧
      s.Adds [.compute .add array index index] (used ++ [index]) s' := by
  refine .emit rfl ?_
  have h := (EmitState.Adds.refl hs).emit .compute
    [.operator .add, .register array, .register index, .register index]
  exact .bind (release_second h.uses) fun _ s2 hr => ⟨rfl, h.registers hr⟩

theorem namePlace_adds (hs : s.Uses used) :
    Sat Any (namePlace ctx node x) env s fun p s' => ∃ id k kind code,
      NameAt env ctx.function used node x id k kind p code ∧ s.Adds code (used ++ p.held) s' := by
  refine .read (.expect (any _) fun id hid => .query (any _) fun o ho => .expect (any _) fun k hk =>
    .query (any _) fun kind hkind => ?_)
  subst hk
  have hdone : s.Adds [] (used ++ []) s := by
    rw [List.append_nil]
    exact .refl hs
  cases kind with
  | global => exact ⟨id, k, .global, [], ⟨hid, ho, hkind, .global⟩, hdone⟩
  | function => exact ⟨id, k, .function, [], ⟨hid, ho, hkind, .function⟩, hdone⟩
  | block => exact ⟨id, k, .block, [], ⟨hid, ho, hkind, .block⟩, hdone⟩
  | members =>
    cases hf : ctx.function with
    | none => exact .pure_bind none trivial
    | some F =>
      refine .query (any _) fun o' ho' => .expect (any _) fun k' hk' => ?_
      subst hk'
      refine .bind (loadPlace_adds (.frame k') (by rwa [Place.held, List.append_nil]))
        fun object s1 h1 => (fieldPlace_adds k h1.uses).weaken fun p s2 h2 => ?_
      obtain ⟨rfl, r, hr, h2⟩ := h2
      exact ⟨id, k, .members, _, ⟨hid, ho, hkind, .members rfl ho' h1.uses.free hr⟩, h1.append h2⟩

theorem fieldOffset_done {object : NodeId} :
    Sat Any (fieldOffset object x) env s fun k s' => s' = s ∧ ∃ id,
      ((env.tables.annotations.type? object).bind (·.class?)).bind env.tables.types.memberScope? =
        some id ∧ env.tables.scopes.offset? id x = .ok (some k) := by
  refine .read ?_
  dsimp only
  split
  · trivial
  · rename_i id hid
    refine .query (any _) fun o ho => .expect_last (any _) fun k hk => ?_
    subst hk
    exact ⟨rfl, id, hid, ho⟩

/-! ## Expressions -/

theorem expr_lies : Lies env (expr ctx e) used (used ++ [·]) fun P i r j =>
    Placed env P (expr ctx e) used i r j ∧ Free used r :=
  ((expr_fresh e (any _)).takes.lies).free

theorem constantRegister_lies (v : Int) :
    Lies env (constantRegister v) used (used ++ [·]) fun P i r j =>
    (P.HasAll i [.const v r] ∧ j = i + 1) ∧ Free used r := .free fun _ hs =>
  (constantRegister_adds v hs).weaken fun _ _ h =>
    ⟨h.uses, fun P hP => ⟨(h.lays P hP).1, (h.lays P hP).2, h.here⟩⟩

theorem loadPlace_lies (p : Place) :
    Lies env (loadPlace p) (used ++ p.held) (used ++ [·]) fun P i r j =>
    Free used r ∧ P.HasAll i (p.loadCode r) ∧ j = i + (p.loadCode r).length := fun _ hs =>
  (loadPlace_adds p hs).weaken fun _ _ h =>
    ⟨h.uses, fun P hP => ⟨(h.lays P hP).1, h.uses.free, (h.lays P hP).2, h.here⟩⟩

theorem namePlace_lies : Lies env (namePlace ctx node x) used (fun p => used ++ p.held)
    fun P i p j =>
    ∃ id k kind code, NameAt env ctx.function used node x id k kind p code ∧
        P.HasAll i code ∧ j = i + code.length := fun _ hs =>
        (namePlace_adds hs).weaken fun _ _ h => by
  obtain ⟨id, k, kind, code, hname, h⟩ := h
  exact ⟨h.uses, fun P hP => ⟨(h.lays P hP).1, id, k, kind, code, hname, (h.lays P hP).2, h.here⟩⟩

theorem Placed.name (h : Placed env P (expr ctx (.name n x)) used first r last) :
    ∃ id k kind p code, NameAt env ctx.function used n.id x id k kind p code ∧ Free used r ∧
      P.HasAll first (code ++ p.loadCode r) ∧ last = first + (code ++ p.loadCode r).length := by
  refine h.walk ?_
  refine .here fun _ => .seq namePlace_lies fun p => .seq (loadPlace_lies p) fun r =>
    .comment (.pure ?_)
  rintro _ _ ⟨hr, hload, rfl⟩ i ⟨id, k, kind, code, hname, hcode, rfl⟩ -
  refine ⟨id, k, kind, p, code, hname, hr, Program.HasAll.append.2 ⟨hcode, hload⟩, ?_⟩
  rw [List.length_append, Nat.add_assoc]

theorem Placed.literal {l : Literal} (h : Placed env P (expr ctx (.literal n l)) used first r last)
    {v : Int} (hl : ∀ s, literal l env s = constantRegister v env s) :
    Free used r ∧ P.HasAll first [.const v r] ∧
    last = first + 1 := by
  have hlies : Lies env (expr ctx (.literal n l)) used (used ++ [·]) fun P i r j =>
      (P.HasAll i [.const v r] ∧ j = i + 1) ∧ Free used r := by
    intro s hs
    simp only [expr]
    unfold Sat
    rw [hl]
    exact constantRegister_lies v s hs
  exact h.walk (.ends hlies fun i r j h => ⟨h.2, h.1⟩)

theorem Placed.enumValue {member : String}
    (h : Placed env P (expr ctx (.enumValue n x member)) used first r last) :
    ∃ e, env.tables.types.enum? x = some e ∧ Free used r ∧
      P.HasAll first [.const (e.ordinal member) r] ∧ last = first + 1 := by
  refine h.walk ?_
  exact .read (.expect fun e he => .ends (constantRegister_lies _) fun i r j h => ⟨e, he, h.2, h.1⟩)

theorem Placed.unary {op : UnaryOp}
    (h : Placed env P (expr ctx (.unary n op e)) used first r last) :
    ∃ i, Placed env P (expr ctx e) used first r i ∧ Free used r ∧
      P.HasAll i [.compute (unaryOperator op) .zero r r] ∧ last = i + 1 := by
  refine h.walk ?_
  refine .seq expr_lies fun r => .emit rfl (.pure ?_)
  rintro _ j rfl hcode i ⟨he, hr⟩
  exact ⟨j, he, hr, ⟨hcode, trivial⟩, rfl⟩

theorem Placed.binary {op : BinaryOp} {l r : Expr}
    (h : Placed env P (expr ctx (.binary n op l r)) used first y last) :
    ∃ x i j, Placed env P (expr ctx l) used first x i ∧
      Placed env P (expr ctx r) (used ++ [x]) i y j ∧ Free used x ∧
      Free (used ++ [x]) y ∧ P.HasAll j [.compute (binaryOperator op) x y y] ∧ last = j + 1 := by
  refine h.walk ?_
  refine .seq expr_lies fun x => .seq expr_lies fun y => .emit rfl (.releaseSecond (.pure ?_))
  rintro _ j rfl hcode k ⟨hr, hy⟩ i ⟨hl, hx⟩
  exact ⟨x, k, j, hl, hr, hx, hy, ⟨hcode, trivial⟩, rfl⟩

/-! ## Elements and fields -/

theorem targetPlace_lies : Lies env (targetPlace ctx target) used
    (fun p => used ++ p.held) fun P i p j => Placed env P (targetPlace ctx target) used i p j :=
  (targetPlace_takes (any _)).lies

theorem Placed.nameTarget (h : Placed env P (targetPlace ctx (.name n x)) used first p last) :
    ∃ id k kind code, NameAt env ctx.function used n.id x id k kind p code ∧
      P.HasAll first code ∧ last = first + code.length :=
  h.walk (.ends namePlace_lies fun _ _ _ h => h)

theorem Placed.indexTarget {a i : Expr}
    (h : Placed env P (targetPlace ctx (.index n a i)) used first p last) :
    ∃ x y j k, Placed env P (expr ctx a) used first x j ∧
      Placed env P (expr ctx i) (used ++ [x]) j y k ∧
      p = .shared y ∧ Free used x ∧ Free (used ++ [x]) y ∧ P.HasAll k [.compute .add x y y] ∧
      last = k + 1 := by
  refine h.walk (.seq expr_lies fun x => .seq expr_lies fun y => .emit rfl
    (.releaseSecond (.pure ?_)))
  rintro _ j rfl hcode k ⟨hi, hy⟩ i ⟨ha, hx⟩
  exact ⟨x, y, k, j, ha, hi, rfl, hx, hy, ⟨hcode, trivial⟩, rfl⟩

/-- The offset of a field of an object whose node has a class as its type. -/
def FieldAt (t : Tables) (object : NodeId) (x : String) (k : Nat) : Prop :=
  ∃ id, ((t.annotations.type? object).bind (·.class?)).bind t.types.memberScope? = some id ∧
    t.scopes.offset? id x = .ok (some k)

theorem Placed.fieldTarget {o : Expr}
    (h : Placed env P (targetPlace ctx (.field n o x)) used first p last) :
    ∃ k y j r, FieldAt env.tables o.id x k ∧ Placed env P (expr ctx o) used first y j ∧
      p = .shared y ∧ Free used y ∧
      (k ≠ 0 → Free (used ++ [y]) r) ∧ P.HasAll j (fieldCode y r k) ∧
      last = j + (fieldCode y r k).length := by
  have hplace : ∀ k y, Lies env (fieldPlace y k) (used ++ [y]) (fun _ => used ++ [y]) fun P i p j =>
      p = .shared y ∧ ∃ r, (k ≠ 0 → Free (used ++ [y]) r) ∧ P.HasAll i (fieldCode y r k) ∧
        j = i + (fieldCode y r k).length := fun k y _ hs =>
        (fieldPlace_adds k hs).weaken fun _ _ h => by
    obtain ⟨hp, r, hr, h⟩ := h
    exact ⟨h.uses, fun P hP => ⟨(h.lays P hP).1, hp, r, hr, (h.lays P hP).2, h.here⟩⟩
  refine h.walk (.still (fun s hs => fieldOffset_done.weaken fun k s1 hk =>
    ⟨hk.2, hk.1.symm ▸ .refl hs⟩) fun k hk => .seq expr_lies fun y => .ends (hplace k y) ?_)
  rintro j p _ ⟨hp, r, hr, hcode, hlast⟩ i ⟨ho, hy⟩
  exact ⟨k, y, j, r, hk, ho, hp, hy, hr, hcode, hlast⟩

theorem index_eq (ctx : Context) (n : Node) (a i : Expr) :
    expr ctx (.index n a i) = targetPlace ctx (.index n a i) >>= loadPlace := by
  simp only [expr, targetPlace, bind_assoc]

theorem field_eq (ctx : Context) (n : Node) (o : Expr) (x : String) :
    expr ctx (.field n o x) = targetPlace ctx (.field n o x) >>= loadPlace := by
  simp only [expr, targetPlace, bind_assoc]

theorem Placed.loadTarget
    (h : Placed env P (targetPlace ctx target >>= loadPlace) used first r last) :
    ∃ p i, Placed env P (targetPlace ctx target) used first p i ∧ Free used r ∧
      P.HasAll i (p.loadCode r) ∧ last = i + (p.loadCode r).length :=
  h.walk (.seq targetPlace_lies fun p => .ends (loadPlace_lies p) fun i _ _ h _ hp => ⟨p, i, hp, h⟩)

end Emit

end Code

end Awl
