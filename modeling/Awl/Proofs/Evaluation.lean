import Awl.Proofs.Convention
import Awl.Proofs.Meaning

/-!
# Expressions compute their values

The frame of a routine and the shared memory hold a store (`Scene.Holds`). The code of an expression
that neither calls nor allocates puts the value of the expression in that store into its register,
and leaves everything else as it was (`Calm`). The code of a target computes the place of its
location (`Place.Is`), from which the location can be read and to which it can be written.
-/

namespace Awl

open Machine Code ScopeTree

variable {e : Expr} {v : Int} {n : Node}

/-! ## Stores in frames -/

namespace Scene

/-- Slot `k` of the frame is the one of a variable. -/
def Slot (c : Scene) (k : Nat) (id : ScopeId) (x : String) : Prop :=
  ∃ s b, c.tables.scopes.scopes.get? id = some s ∧ (s.kind = .function ∨ s.kind = .block) ∧
    s.owner = frameOwner c.frame ∧ s.bindings.lookup x = some b ∧ b.offset = some k

/-- What is known about the tables of an accepted unit: no two variables share a slot, and the frame
of a routine counts its own slots. -/
structure Formed (c : Scene) : Prop where
  laid : c.tables.scopes.Laid
  frame : ∀ F, c.frame = some F → ∃ s, c.tables.scopes.scopes.get? F = some s ∧
    s.kind = .function ∧ s.owner = F

/-- A core and the shared memory hold a store. -/
structure Holds (c : Scene) (σ : Store) (core : Core) (m : Memory) : Prop where
  shared : m = σ.shared
  locals : ∀ k id x, c.Slot k id x → core.memory (core.value .arp + (k + 1)) = σ.locals id x

variable {c : Scene} {σ : Store} {core core' : Core} {m m' : Memory} {k k' : Nat} {id id' : ScopeId}
  {x x' : String}

theorem Slot.unique (h : c.Slot k id x) (h' : c.Slot k' id x) : k = k' := by
  obtain ⟨s, b, hs, -, -, hb, hk⟩ := h
  obtain ⟨s', b', hs', -, -, hb', hk'⟩ := h'
  obtain rfl := Option.mem_unique hs hs'
  obtain rfl := Option.mem_unique hb hb'
  exact Option.some.inj (hk.symm.trans hk')

theorem Slot.apart (hc : c.Formed) (h : c.Slot k id x) (h' : c.Slot k id' x') :
    id = id' ∧ x = x' := by
  obtain ⟨s, b, hs, -, ho, hb, hk⟩ := h
  obtain ⟨s', b', hs', -, ho', hb', hk'⟩ := h'
  exact hc.laid.apart id s x b id' s' x' b' k hs hs' hb hb' hk hk' (ho.trans ho'.symm)

/-- The slot of the receiver. -/
theorem Formed.receiver (h : c.Formed) {F : ScopeId} (hF : c.frame = some F)
    (hk : c.tables.scopes.offset? F receiverName = .ok (some k)) : c.Slot k F receiverName := by
  obtain ⟨s, hs, hkind, howner⟩ := h.frame F hF
  have hb : (s.bindings.lookup receiverName).bind (·.offset) = some k :=
    Except.ok.inj ((offset?_eq hs receiverName).symm.trans hk)
  obtain ⟨b, hb, hk⟩ := Option.bind_eq_some_iff.1 hb
  exact ⟨s, b, hs, .inl hkind, by rw [howner, hF]; rfl, hb, hk⟩

theorem Holds.congr (h : c.Holds σ core m) (hm : m' = m) (hmemory : core'.memory = core.memory)
    (harp : core'.value .arp = core.value .arp) : c.Holds σ core' m' := by
  refine ⟨hm.trans h.shared, fun k id x hk => ?_⟩
  rw [hmemory, harp]
  exact h.locals k id x hk

theorem Holds.writeWord (h : c.Holds σ core m) (a v : Int) :
    c.Holds (σ.write (.word a) v) core (m.write a v) :=
  ⟨by rw [h.shared]; rfl, h.locals⟩

theorem Holds.writeSlot (hc : c.Formed) (h : c.Holds σ core m) (hk : c.Slot k id x) (v : Int) :
    c.Holds (σ.write (.local id x) v) (core.store (core.value .arp + (k + 1)) v) m := by
  refine ⟨h.shared, fun k' id' x' hk' => ?_⟩
  rw [Core.value_store, Core.store_memory]
  show _ = if id' = id ∧ x' = x then v else σ.locals id' x'
  by_cases heq : id' = id ∧ x' = x
  · obtain ⟨rfl, rfl⟩ := heq
    obtain rfl := hk.unique hk'
    rw [if_pos ⟨rfl, rfl⟩, Memory.write_same]
  · have hne : k' ≠ k := fun hkk => heq (Slot.apart hc (hkk ▸ hk') hk)
    rw [if_neg heq, Memory.write_of_ne _ _ (by omega), h.locals k' id' x' hk']

end Scene

namespace Code

/-- The routine that code with this environment belongs to. -/
def Env.scene (env : Env) (frame : Option ScopeId) : Scene := ⟨env.tables, env.layout, frame⟩

/-! ## Steps that only compute -/

/-- A core at a position that has received all replies of the shared memory. -/
structure Stands (i : Nat) (c : Core) : Prop where
  pc : c.pc = i
  replies : c.replies = []

/-- A core has come to the position `last`, and only registers that are not in use have changed. -/
structure Calm (used : List Register) (last : Nat) (c : Core) (m : Memory) (c' : Core)
    (m' : Memory) : Prop where
  stands : Stands last c'
  shared : m' = m
  memory : c'.memory = c.memory
  sp : c'.value .sp = c.value .sp
  arp : c'.value .arp = c.value .arp
  registers : ∀ r ∈ used, c'.value r = c.value r

variable {σ : Store} {k : Nat}

section
variable {P : Program} {used used' : List Register} {i last : Nat} {c c1 c2 : Core}
  {m m1 m2 : Memory} {r : Register}

theorem Calm.refl (hc : Stands i c) : Calm used i c m c m :=
  ⟨hc, rfl, rfl, rfl, rfl, fun _ _ => rfl⟩

theorem Calm.trans (h : Calm used i c m c1 m1) (h' : Calm used' last c1 m1 c2 m2)
    (hsub : ∀ r ∈ used, r ∈ used') :
    Calm used last c m c2 m2 where
  stands := h'.stands
  shared := h'.shared.trans h.shared
  memory := h'.memory.trans h.memory
  sp := h'.sp.trans h.sp
  arp := h'.arp.trans h.arp
  registers r hr := (h'.registers r (hsub r hr)).trans (h.registers r hr)

theorem Calm.mono (h : Calm used' last c m c1 m1) (hsub : ∀ r ∈ used, r ∈ used') :
    Calm used last c m c1 m1 :=
  ⟨h.stands, h.shared, h.memory, h.sp, h.arp, fun r hr => h.registers r (hsub r hr)⟩

theorem Calm.holds {scene : Scene} (h : Calm used last c m c1 m1) (hσ : scene.Holds σ c m) :
    scene.Holds σ c1 m1 := hσ.congr h.shared h.memory h.arp

variable (hused : ∀ r ∈ used, r ∈ generalPurpose) {l : LabelId} {t : Nat}
include hused

/-- Only the position changes. -/
theorem Calm.move (hc : c.replies = []) (hregisters : c1.registers = c.registers)
    (hmemory : c1.memory = c.memory)
    (hreplies : c1.replies = c.replies) (hpc : c1.pc = last) : Calm used last c m c1 m where
  stands := ⟨hpc, hreplies.trans hc⟩
  shared := rfl
  memory := hmemory
  sp := Core.value_congr hregisters (by decide)
  arp := Core.value_congr hregisters (by decide)
  registers r hr := Core.value_congr hregisters (ne_of_general (hused r hr)).2.2.1

theorem Calm.set (hc : Stands i c) (hr : Free used r) (v : Int) :
    Calm used (i + 1) c m (c.next.set r v) m ∧ (c.next.set r v).value r = v := by
  obtain ⟨hz, hsp, hpc, harp⟩ := ne_of_general hr.general
  have hvalue : ∀ x, x ≠ r → x ≠ .pc → (c.next.set r v).value x = c.value x := by
    intro x hx hp
    rw [Core.value_set_of_ne _ _ hx, Core.value_next _ hp]
  refine ⟨⟨⟨?_, hc.replies⟩, rfl, rfl, hvalue _ hsp.symm (by decide),
    hvalue _ harp.symm (by decide), fun x hx => ?_⟩, Core.value_set_self _ _ hz hpc⟩
  · rw [Core.set_pc, Core.next_pc, hc.pc]
    rfl
  · exact hvalue x (fun heq => hr.unused (heq ▸ hx)) (ne_of_general (hused x hx)).2.2.1

/-- An instruction that puts a word into a register which may be taken. -/
theorem reach_set {opcode : OpCode} {operands : List Operand} (h : P.Has i opcode operands)
    (hc : Stands i c)
    (hr : Free used r) (he : exec P opcode operands c m = some (c.next.set r v, m)) :
    Reach P (fun c' m' => Calm used (i + 1) c m c' m' ∧ c'.value r = v) c m :=
  .next ((fetch?_of_has h hc.pc).trans he) (.here (Calm.set hused hc hr v))

theorem reach_const (h : P.HasAll i [.const v r]) (hc : Stands i c) (hr : Free used r) :
    Reach P (fun c' m' => Calm used (i + 1) c m c' m' ∧ c'.value r = v) c m :=
  reach_set hused h.1 hc hr rfl

theorem reach_compute {op : Operator} {x y : Register} (h : P.HasAll i [.compute op x y r])
    (hc : Stands i c) (hr : Free used r) (hv : op.apply (c.value x) (c.value y) = some v) :
    Reach P (fun c' m' => Calm used (i + 1) c m c' m' ∧ c'.value r = v) c m := by
  refine reach_set hused h.1 hc hr ?_
  rw [exec, hv]
  rfl

/-- An address next to the frame pointer is computed. -/
theorem reach_address (op : Operator) {a : Int} (h : P.HasAll i [.const v r, .compute op .arp r r])
    (hc : Stands i c) (hr : Free used r) (ha : op.apply (c.value .arp) v = some a) :
    Reach P (fun c' m' => Calm used (i + 2) c m c' m' ∧ c'.value r = a) c m := by
  refine (reach_const hused ⟨h.1, trivial⟩ hc hr).bind fun c1 m1 h1 => ?_
  refine (reach_compute hused (v := a) h.2 h1.1.stands hr ?_).mono fun c2 m2 h2 => ?_
  · rw [h1.1.arp, h1.2, ha]
  · exact ⟨h1.1.trans h2.1 fun _ h => h, h2.2⟩

/-- A word of the shared memory is read. -/
theorem reach_read {a : Address} (h : P.HasAll i [.read a, .receive r]) (hc : Stands i c)
    (hr : Free used r) :
    Reach P (fun c' m' => Calm used (i + 2) c m c' m' ∧ c'.value r = m (c.address a)) c m := by
  have hread : step P c m = some (c.next.reply (m (c.address a)), m) := fetch?_of_has h.1 hc.pc
  have hreceive : step P (c.next.reply (m (c.address a))) m = some
      (c.next.next.set r (m (c.address a)), m) := by
    rw [fetch?_of_has h.2.1 (by rw [Core.reply_pc, Core.next_pc, hc.pc]; rfl)]
    simp only [exec, Core.reply_replies, Core.next_replies, hc.replies, List.nil_append,
      List.head?_cons, Option.map_some, List.tail_cons]
    rw [← hc.replies]
    rfl
  have hnext : Calm used (i + 1) c m c.next m :=
    Calm.move hused hc.replies rfl rfl rfl (by rw [Core.next_pc, hc.pc]; rfl)
  obtain ⟨hset, hv⟩ := Calm.set hused hnext.stands hr (m (c.address a))
  exact .next hread (.next hreceive (.here ⟨hnext.trans hset fun _ h => h, hv⟩))

/-- A branch on a register that is zero or not. -/
theorem reach_branch (h : P.HasAll i [.branch r l]) (hc : Stands i c) (ht : P.target? l = some t) :
    Reach P (fun c' m' => Calm used (if c.value r = 0 then i + 1 else t) c m c' m') c m := by
  by_cases hr : c.value r = 0
  · have hstep : step P c m = some (c.next, m) := by
      rw [fetch?_of_has h.1 hc.pc, exec, if_pos hr]
    rw [if_pos hr]
    exact .next hstep
      (.here (Calm.move hused hc.replies rfl rfl rfl (by rw [Core.next_pc, hc.pc]; rfl)))
  · have hstep : step P c m = some (c.goto t, m) := by
      rw [fetch?_of_has h.1 hc.pc, exec, if_neg hr, Program.goal?, ht]
      rfl
    rw [if_neg hr]
    exact .next hstep (.here (Calm.move hused hc.replies rfl rfl rfl rfl))

theorem reach_jump (h : P.HasAll i [.jump (.label l)]) (hc : Stands i c)
    (ht : P.target? l = some t) : Reach P (fun c' m' => Calm used t c m c' m') c m := by
  have hstep : step P c m = some (c.goto t, m) := by
    rw [fetch?_of_has h.1 hc.pc, exec, Program.goal?, ht]
    rfl
  exact .next hstep (.here (Calm.move hused hc.replies rfl rfl rfl rfl))

theorem reach_nop (h : P.HasAll i [.nop]) (hc : Stands i c) :
    Reach P (fun c' m' => Calm used (i + 1) c m c' m') c m :=
  .next (fetch?_of_has h.1 hc.pc) (.here (Calm.move hused hc.replies rfl rfl rfl
    (by rw [Core.next_pc, hc.pc]; rfl)))

end

/-! ## Places -/

/-- A place is the one of a location. -/
def Place.Is (scene : Scene) (c : Core) : Place → Location → Prop
  | .frame k, .local id x => scene.Slot k id x
  | .global a, .word b => b = a
  | .shared r, .word b => b = c.value r
  | _, _ => False

section
variable {P : Program} {scene : Scene} {used : List Register} {i last : Nat} {c c' : Core}
  {m m' : Memory} {r : Register} {σ : Store} {p : Place} {l : Location}

theorem Place.Is.calm (h : p.Is scene c l) (hc : Calm used last c m c' m')
    (hp : ∀ r ∈ p.held, r ∈ used) :
    p.Is scene c' l := by
  match p, l, h with
  | .frame _, .local .., h => exact h
  | .global _, .word _, h => exact h
  | .shared x, .word _, h => exact h.trans (hc.registers x (hp x (.head _))).symm

variable (hused : ∀ r ∈ used, r ∈ generalPurpose)
include hused

theorem reach_load (h : P.HasAll i (p.loadCode r)) (hc : Stands i c) (hr : Free used r)
    (hσ : scene.Holds σ c m) (hp : p.Is scene c l) :
    Reach P (fun c' m' => Calm used (i + (p.loadCode r).length) c m c' m' ∧
      c'.value r = σ.read l) c m := by
  match p, l, hp with
  | .frame k, .local id x, hp =>
    refine (reach_address hused .add ⟨h.1, h.2.1, trivial⟩ hc hr rfl).bind fun c1 m1 h1 => ?_
    refine (reach_set hused h.2.2.1 h1.1.stands hr rfl).mono fun c2 m2 h2 =>
      ⟨h1.1.trans h2.1 fun _ h => h, ?_⟩
    rw [h2.2, Core.address, h1.2, h1.1.memory]
    exact hσ.locals k id x hp
  | .global a, .word _, rfl =>
    refine (reach_read hused h hc hr).mono fun c1 m1 h1 => ⟨h1.1, ?_⟩
    rw [h1.2, hσ.shared]
    rfl
  | .shared y, .word _, rfl =>
    refine (reach_read hused h hc hr).mono fun c1 m1 h1 => ⟨h1.1, ?_⟩
    rw [h1.2, hσ.shared]
    rfl

/-- The address of a field is computed from the object. -/
theorem reach_field {object : Register} (h : P.HasAll i (fieldCode object r k)) (hc : Stands i c)
    (hobject : Free used object) (hr : k ≠ 0 → Free (used ++ [object]) r) :
    Reach P (fun c' m' => Calm used (i + (fieldCode object r k).length) c m c' m' ∧
      c'.value object = c.value object + k) c m := by
  unfold fieldCode at h ⊢
  by_cases hk : k = 0
  · rw [if_pos hk]
    exact .here ⟨.refl hc, by simp [hk]⟩
  · rw [if_neg hk] at h ⊢
    have hused' : ∀ r ∈ used ++ [object], r ∈ generalPurpose := by
      simpa [or_imp, forall_and] using ⟨hused, hobject.general⟩
    refine (reach_const hused' ⟨h.1, trivial⟩ hc (hr hk)).bind fun c1 m1 h1 => ?_
    refine (reach_compute hused h.2 h1.1.stands hobject ?_).mono
      fun c2 m2 h2 => ⟨(h1.1.mono (by simp +contextual)).trans h2.1 fun _ h => h, h2.2⟩
    rw [h1.2, h1.1.registers object (by simp)]
    rfl

end

/-! ## Names -/

section
variable {env : Env} {P : Program} {frame : Option ScopeId} {used : List Register} {node : NodeId}
  {x : String} {id : ScopeId} {k : Nat} {kind : ScopeKind} {p : Place} {code : List Ins}

theorem NameAt.slot (h : NameAt env frame used node x id k kind p code)
    (hname : env.tables.HasName frame node x)
    (hkind : kind = .function ∨ kind = .block) : (env.scene frame).Slot k id x := by
  obtain ⟨id', s, k', ⟨hscope, hs, b, hb, hk'⟩, hreach⟩ := hname
  obtain rfl := Option.mem_unique h.scope hscope
  have hk : (s.bindings.lookup x).bind (·.offset) = some k :=
    Except.ok.inj ((offset?_eq hs x).symm.trans h.offset)
  have hs' : s.kind = kind := Except.ok.inj ((kind_eq hs).symm.trans h.isKind)
  refine ⟨s, b, hs, hs' ▸ hkind, ?_, hb, by simpa [hb] using hk⟩
  unfold Reaches at hreach
  rcases hkind with rfl | rfl <;> (rw [hs'] at hreach; exact hreach)

/-- The code for a name computes the place of its location. -/
theorem NameAt.reach (h : NameAt env frame used node x id k kind p code)
    (hscene : (env.scene frame).Formed) (hname : env.tables.HasName frame node x)
    (hused : ∀ r ∈ used, r ∈ generalPurpose) {i : Nat} {c : Core}
    {m : Memory} {l : Location} (hl : (env.scene frame).locate σ node x = some l)
    (hcode : P.HasAll i code) (hc : Stands i c) (hσ : (env.scene frame).Holds σ c m) : Reach P
      (fun c' m' => Calm used (i + code.length) c m c' m' ∧ p.Is (env.scene frame) c' l) c m := by
  have hlocate : (match kind with
      | .global => some (.word (env.layout.global k))
      | .members => frame.map fun F => .word (σ.locals F receiverName + k)
      | .function | .block => some (.local id x)) = some l := by
    rw [← hl]
    simp only [Scene.locate, Env.scene, h.scope, h.offset, h.isKind, Except.toOption,
      Option.bind_eq_bind, Option.bind_some]
    cases kind <;> cases frame <;> rfl
  cases h.code with
  | global =>
    obtain rfl := Option.some.inj hlocate
    exact .here ⟨.refl hc, rfl⟩
  | function =>
    obtain rfl := Option.some.inj hlocate
    exact .here ⟨.refl hc, h.slot hname (.inl rfl)⟩
  | block =>
    obtain rfl := Option.some.inj hlocate
    exact .here ⟨.refl hc, h.slot hname (.inr rfl)⟩
  | @members F k' object r hF hk' hobject hr =>
    subst hF
    obtain rfl := Option.some.inj hlocate
    obtain ⟨hload, hfield⟩ := Program.HasAll.append.1 hcode
    have hreceiver : (Place.frame k').Is (env.scene (some F)) c (.local F receiverName) :=
      hscene.receiver rfl hk'
    refine (reach_load hused hload hc hobject hσ hreceiver).bind fun c1 m1 h1 => ?_
    refine (reach_field hused hfield h1.1.stands hobject hr).mono fun c2 m2 h2 => ⟨?_, ?_⟩
    · rw [List.length_append, ← Nat.add_assoc]
      exact h1.1.trans h2.1 fun _ h => h
    · show _ = c2.value object
      rw [h2.2, h1.2]
      rfl

end

/-! ## Expressions and targets -/

namespace Emit

variable {env : Env} {P : Program} {ctx : Context} {x : String}

theorem Placed.general {α : Type} {act : Emit α} {used : List Register} {first last : Nat} {a : α}
    (h : Placed env P act used first a last) : ∀ r ∈ used, r ∈ generalPurpose := by
  obtain ⟨s, _, _, hs, _⟩ := h
  exact fun r hr => hs.mem hr

/-- The code of an expression puts its value into its register. -/
def Computes (env : Env) (P : Program) (ctx : Context) (e : Expr) : Prop :=
  ∀ {used : List Register} {first last : Nat} {r : Register} {c : Core} {m : Memory} {σ : Store}
    {v : Int},
    Placed env P (expr ctx e) used first r last → e.Ready env.tables ctx.function →
    e.value (env.scene ctx.function) σ = some v → Stands first c →
    (env.scene ctx.function).Holds σ c m →
    Reach P (fun c' m' => Calm used last c m c' m' ∧ c'.value r = v) c m

/-- The code of a target computes the place of its location. -/
def Locates (env : Env) (P : Program) (ctx : Context) (target : Awl.Target) : Prop :=
  ∀ {used : List Register} {first last : Nat} {p : Place} {c : Core} {m : Memory} {σ : Store}
    {l : Location},
    Placed env P (targetPlace ctx target) used first p last → target.Ready env.tables ctx.function →
    target.location (env.scene ctx.function) σ = some l → Stands first c →
    (env.scene ctx.function).Holds σ c m →
    Reach P (fun c' m' => Calm used last c m c' m' ∧ p.Is (env.scene ctx.function) c' l) c m

theorem locates_index {a i : Expr} (ha : Computes env P ctx a) (hi : Computes env P ctx i) :
    Locates env P ctx (.index n a i) := by
  intro used first last p c m σ l h hready hl hc hσ
  obtain ⟨x, y, j, k, hpa, hpi, rfl, hx, hy, hcode, rfl⟩ := h.indexTarget
  obtain ⟨array, harray, hl⟩ := Option.bind_eq_some_iff.1 hl
  obtain ⟨index, hindex, hl⟩ := Option.bind_eq_some_iff.1 hl
  obtain rfl := Option.some.inj hl
  refine (ha hpa hready.1 harray hc hσ).bind fun c1 m1 h1 => ?_
  refine (hi hpi hready.2 hindex h1.1.stands (h1.1.holds hσ)).bind fun c2 m2 h2 => ?_
  have hsum : Operator.apply .add (c2.value x) (c2.value y) = some (array + index) := by
    rw [h2.1.registers x (by simp), h1.2, h2.2]
    rfl
  refine (reach_compute h.general hcode h2.1.stands ⟨hy.general, fun hr =>
    hy.unused (by simp [hr])⟩ hsum).mono
    fun c3 m3 h3 => ⟨?_, h3.2.symm⟩
  exact (h1.1.trans h2.1 (by simp +contextual)).trans h3.1 fun _ h => h

theorem fieldOffset_eq {t : Tables} {layout : StaticLayout} {frame : Option ScopeId}
    {object : NodeId}
    (h : FieldAt t object x k) : Scene.fieldOffset ⟨t, layout, frame⟩ object x = some k := by
  obtain ⟨id, hid, hk⟩ := h
  obtain ⟨class?, hclass, hid⟩ := Option.bind_eq_some_iff.1 hid
  obtain ⟨type, htype, hclass⟩ := Option.bind_eq_some_iff.1 hclass
  simp only [Scene.fieldOffset, htype, hclass, hid, hk, Option.bind_eq_bind, Option.bind_some]
  rfl

theorem locates_field {o : Expr} (ho : Computes env P ctx o) :
    Locates env P ctx (.field n o x) := by
  intro used first last p c m σ l h hready hl hc hσ
  obtain ⟨k, y, j, r, hk, hpo, rfl, hy, hr, hcode, rfl⟩ := h.fieldTarget
  obtain ⟨object, hobject, hl⟩ := Option.bind_eq_some_iff.1 hl
  obtain ⟨k', hk', hl⟩ := Option.bind_eq_some_iff.1 hl
  obtain rfl := Option.some.inj hl
  obtain rfl : k = k' := Option.some.inj ((fieldOffset_eq hk).symm.trans hk')
  refine (ho hpo hready.2 hobject hc hσ).bind fun c1 m1 h1 => ?_
  refine (reach_field h.general hcode h1.1.stands hy hr).mono fun c2 m2 h2 =>
    ⟨h1.1.trans h2.1 fun _ h => h, ?_⟩
  show _ = c2.value y
  rw [h2.2, h1.2]

/-- An expression that is read from the location of a target. -/
theorem computes_load {target : Awl.Target}
    (heq : expr ctx e = targetPlace ctx target >>= loadPlace)
    (hready : e.Ready env.tables ctx.function → target.Ready env.tables ctx.function)
    (hvalue : ∀ σ, e.value (env.scene ctx.function) σ =
      (target.location (env.scene ctx.function) σ).map σ.read) (ht : Locates env P ctx target) :
      Computes env P ctx e := by
  intro used first last r c m σ v h he hv hc hσ
  rw [hvalue] at hv
  obtain ⟨l, hl, rfl⟩ := Option.map_eq_some_iff.1 hv
  obtain ⟨p, i, hp, hr, hcode, rfl⟩ := (heq ▸ h).loadTarget
  refine (ht hp (hready he) hl hc hσ).bind fun c1 m1 h1 => ?_
  exact (reach_load h.general hcode h1.1.stands hr (h1.1.holds hσ) h1.2).mono fun c2 m2 h2 =>
    ⟨h1.1.trans h2.1 fun _ h => h, h2.2⟩

theorem computes_name (hscene : (env.scene ctx.function).Formed) (n : Node) (x : String) :
    Computes env P ctx (.name n x) := by
  intro used first last r c m σ v h hready hv hc hσ
  obtain ⟨id, k, kind, p, code, hname, hr, hcode, rfl⟩ := h.name
  obtain ⟨l, hl, hv⟩ := Option.bind_eq_some_iff.1 hv
  obtain rfl := Option.some.inj hv
  obtain ⟨hcode, hload⟩ := Program.HasAll.append.1 hcode
  refine (hname.reach hscene hready h.general hl hcode hc hσ).bind fun c1 m1 h1 => ?_
  refine (reach_load h.general hload h1.1.stands hr (h1.1.holds hσ) h1.2).mono
    fun c2 m2 h2 => ⟨?_, h2.2⟩
  rw [List.length_append, ← Nat.add_assoc]
  exact h1.1.trans h2.1 fun _ h => h

theorem computes_literal (n : Node) (l : Literal) : Computes env P ctx (.literal n l) := by
  intro used first last r c m σ v h _ hv hc _
  have hcode : ∀ s, literal l env s = constantRegister v env s := by
    cases l <;> cases hv <;> exact fun _ => rfl
  obtain ⟨hr, hcode, rfl⟩ := h.literal hcode
  exact reach_const h.general hcode hc hr

theorem computes_enumValue (n : Node) (x member : String) :
    Computes env P ctx (.enumValue n x member) := by
  intro used first last r c m σ v h _ hv hc _
  obtain ⟨e, he, hr, hcode, rfl⟩ := h.enumValue
  obtain ⟨e', he', hv⟩ := Option.bind_eq_some_iff.1 hv
  obtain rfl := Option.mem_unique he he'
  obtain rfl := Option.some.inj hv
  exact reach_const h.general hcode hc hr

/-- Nothing is said about expressions without a value. -/
theorem computes_none (he : ∀ σ, e.value (env.scene ctx.function) σ = none) :
    Computes env P ctx e := by
  intro used first last r c m σ v _ _ hv
  rw [he] at hv
  cases hv

theorem unaryOperator_apply (op : UnaryOp) (v : Int) :
    (unaryOperator op).apply 0 v = some (op.apply v) := by
  cases op <;> simp [unaryOperator, Operator.apply, UnaryOp.apply, eq_comm]

theorem binaryOperator_apply (op : BinaryOp) (x y : Int) :
    (binaryOperator op).apply x y = op.apply x y := by
  cases op <;> rfl

theorem computes_unary {op : UnaryOp} (he : Computes env P ctx e) :
    Computes env P ctx (.unary n op e) := by
  intro used first last r c m σ v h hready hv hc hσ
  obtain ⟨i, hp, hr, hcode, rfl⟩ := h.unary
  obtain ⟨w, hw, hv⟩ := Option.bind_eq_some_iff.1 hv
  obtain rfl := Option.some.inj hv
  refine (he hp hready hw hc hσ).bind fun c1 m1 h1 => ?_
  refine (reach_compute h.general hcode h1.1.stands hr ?_).mono fun c2 m2 h2 =>
    ⟨h1.1.trans h2.1 fun _ h => h, h2.2⟩
  rw [Core.value_zero, h1.2, unaryOperator_apply]

theorem computes_binary {op : BinaryOp} {l r : Expr} (hl : Computes env P ctx l)
    (hr : Computes env P ctx r) : Computes env P ctx (.binary n op l r) := by
  intro used first last y c m σ v h hready hv hc hσ
  obtain ⟨x, i, j, hpl, hpr, hx, hy, hcode, rfl⟩ := h.binary
  obtain ⟨left, hleft, hv⟩ := Option.bind_eq_some_iff.1 hv
  obtain ⟨right, hright, hv⟩ := Option.bind_eq_some_iff.1 hv
  refine (hl hpl hready.1 hleft hc hσ).bind fun c1 m1 h1 => ?_
  refine (hr hpr hready.2 hright h1.1.stands (h1.1.holds hσ)).bind fun c2 m2 h2 => ?_
  refine (reach_compute h.general hcode h2.1.stands ⟨hy.general, fun hr => hy.unused (by simp [hr])⟩
    ?_).mono
    fun c3 m3 h3 => ⟨(h1.1.trans h2.1 (by simp +contextual)).trans h3.1 fun _ h => h, h3.2⟩
  rw [h2.1.registers x (by simp), h1.2, h2.2, binaryOperator_apply, hv]

/-- **Expressions compute their values.** -/
theorem computes (hscene : (env.scene ctx.function).Formed) : ∀ e : Expr, Computes env P ctx e
  | .literal n l => computes_literal n l
  | .name n x => computes_name hscene n x
  | .enumValue n x member => computes_enumValue n x member
  | .index n a i => computes_load (index_eq ctx n a i) (fun h => h)
      (fun σ => by
        simp only [Expr.value, Target.location]
        cases a.value _ σ <;> cases i.value _ σ <;> rfl)
      (locates_index (computes hscene a) (computes hscene i))
  | .field n o x => computes_load (field_eq ctx n o x) (fun h => h)
      (fun σ => by
        simp only [Expr.value, Target.location]
        cases o.value _ σ <;> cases (env.scene ctx.function).fieldOffset o.id x <;> rfl)
      (locates_field (computes hscene o))
  | .unary _ _ e => computes_unary (computes hscene e)
  | .binary _ _ l r => computes_binary (computes hscene l) (computes hscene r)
  | .arrayLiteral .. | .newArray .. | .call .. | .methodCall .. | .new .. =>
    computes_none fun _ => rfl

theorem locates (hscene : (env.scene ctx.function).Formed) (target : Awl.Target) :
    Locates env P ctx target := by
  cases target with
  | name n x =>
    intro used first last p c m σ l h hready hl hc hσ
    obtain ⟨id, k, kind, code, hname, hcode, rfl⟩ := h.nameTarget
    exact hname.reach hscene hready h.general hl hcode hc hσ
  | index n a i => exact locates_index (computes hscene a) (computes hscene i)
  | field n o x => exact locates_field (computes hscene o)

end Emit

end Code

end Awl
