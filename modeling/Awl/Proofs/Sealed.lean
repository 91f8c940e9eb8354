import Mathlib.Data.Set.Insert
import Awl.Proofs.Flow

/-!
# The shape of the code of statements

The code of a statement is a row of chunks: code of expressions, stores into the frame, branches and
jumps, and returns (`Tiled`). Control enters it at the start of a chunk only, so that what holds at
the start of each chunk holds whenever a statement begins or ends.

`Sealed N B i j` says this of the code between two positions: it jumps to the starts `B` of its own
chunks or to the positions `N`, which lie elsewhere. The main result is that the code of every
statement is sealed but for the position that `next` goes on with (`Emit.stmt_seals`).
-/

namespace Awl

open Machine

variable {b : Block} {c lock value : Expr} {code : List Ins} {n : Node} {p : Place} {P : Program}
  {r : Register}

/-- A label for one of these positions. -/
def Machine.Program.Leads (P : Program) (l : LabelId) (N : Set Nat) : Prop :=
  ∃ t ∈ N, P.target? l = some t

theorem Machine.Program.Leads.mono {l : LabelId} {N N' : Set Nat} (h : P.Leads l N) (hN : N ⊆ N') :
    P.Leads l N' := by
  obtain ⟨t, ht, hl⟩ := h
  exact ⟨t, hN ht, hl⟩

namespace Code

/-! ## Positions -/

section
variable {env : Env} {P : Program}

mutual

theorem Flow.le {keep : List Register} {i j : Nat} : Flow env P keep i j → i ≤ j
  | .nil => Nat.le_refl _
  | .quiet _ _ h => Nat.le_of_succ_le h.le
  | .call s _ _ _ hp h => by
    have hp := hp.le
    have h := h.le
    simp only [CallSite.last, CallSite.anchor] at h
    omega

theorem Pushes.le {saved : List Register} {as : List Argument} {i j : Nat} :
    Pushes env P saved as i j → i ≤ j
  | .nil => Nat.le_refl _
  | .cons hp _ hf _ => Nat.le_succ_of_le (Nat.le_trans hp.le hf.le)

end

end

/-! ## Frames -/

/-- The instruction that sets the frame pointer to a frame on top of the stack. -/
abbrev setFrame : Ins := .compute .add .sp .arp .arp

section
variable {P : Program} {i k : Nat} {operands : List Operand} {opcode : OpCode}

theorem has_unique {opcode' : OpCode} {operands' : List Operand} (h : P.Has i opcode operands)
    (h' : P.Has i opcode' operands') : opcode = opcode' ∧ operands = operands' := by
  obtain ⟨_, h⟩ := h
  obtain ⟨_, h'⟩ := h'
  obtain ⟨⟩ := Option.some.inj (h.symm.trans h')
  exact ⟨rfl, rfl⟩

theorem has_of_hasAll (h : P.HasAll i code) (hi : i ≤ k) (hk : k < i + code.length) :
    ∃ x ∈ code, P.Has k x.1 x.2 := by
  induction code generalizing i with
  | nil => exact absurd hk (Nat.not_lt.2 hi)
  | cons x code ih =>
    rcases Nat.eq_or_lt_of_le hi with rfl | hi
    · exact ⟨x, .head _, h.1⟩
    · rw [List.length_cons] at hk
      obtain ⟨y, hy, hhas⟩ := ih h.2 hi (by omega)
      exact ⟨y, .tail _ hy, hhas⟩

theorem not_setFrame (h : P.HasAll i code) (hx : setFrame ∉ code) (hi : i ≤ k)
    (hk : k < i + code.length) : ¬ P.Has k setFrame.1 setFrame.2 := fun hset => by
  obtain ⟨x, hmem, hhas⟩ := has_of_hasAll h hi hk
  obtain ⟨hop, hargs⟩ := has_unique hhas hset
  exact hx (Prod.ext hop hargs ▸ hmem)

theorem Quiet.ne_setFrame {keep : List Register} {x : Ins} (h : Quiet keep x) : x ≠ setFrame := by
  rintro rfl
  cases h with
  | compute hz => exact absurd hz.general (by decide)

/-- The instruction before a position does not set the frame pointer, so that what is at the
position is not the jump of a call. -/
def Clean (P : Program) (i : Nat) : Prop := ∀ k, k + 1 = i → ¬ P.Has k setFrame.1 setFrame.2

theorem Clean.after (h : P.Has i opcode operands) (hx : (opcode, operands) ≠ setFrame) :
    Clean P (i + 1) := by
  intro k hk hset
  obtain rfl : k = i := Nat.succ.inj hk
  obtain ⟨hop, hargs⟩ := has_unique h hset
  exact hx (Prod.ext hop hargs)

theorem Clean.afterAll (h : P.HasAll i code) (hx : setFrame ∉ code) (hi : Clean P i) :
    Clean P (i + code.length) := by
  intro k hk
  rcases Nat.lt_or_ge k i with hlt | hge
  · exact hi k (by omega)
  · exact not_setFrame h hx hge (by omega)

end

variable {env : Env}

/-- The last instruction of a call does not set the frame pointer. -/
theorem CallSite.At.clean_last {s : CallSite} (h : s.At env P) : Clean P s.last := by
  have hlen : s.last = s.anchor + (leaveCode s.saved s.size s.result).length := by
    rw [length_leaveCode]
    exact Nat.add_assoc ..
  have hnot : setFrame ∉ leaveCode s.saved s.size s.result := by simp [leaveCode, Register.arp]
  have hafter : s.last = s.anchor + s.saved.length + 6 + 1 := rfl
  intro k hk
  exact not_setFrame h.leaves hnot (by omega) (by omega)

theorem Flow.clean {keep : List Register} {i j : Nat} (h : Flow env P keep i j) :
    Clean P i → Clean P j := by
  -- The arguments of a call have flows of their own, of which nothing is needed.
  refine @Flow.rec env P (fun _ i j _ => Clean P i → Clean P j) (fun _ _ _ _ _ => True)
    ?nil ?quiet ?call ?none ?push keep i j h
  case nil => exact fun hi => hi
  case quiet =>
    intro _ i _ x hx hq _ ih _
    exact ih (.after hx hq.ne_setFrame)
  case call =>
    intro _ _ _ s _ hs _ _ _ _ ih _
    exact ih hs.clean_last
  case none => exact trivial
  case push => exact fun _ _ _ _ _ _ => trivial

/-! ## Chunks -/

section
variable (env : Env) (P : Program) (slots : Nat) (T : Set Nat)

/-- Code in the routine with a frame of `slots` slots that is entered at its first instruction only.
Its jumps lead to positions in `T`. -/
inductive Chunk : Nat → Nat → Prop
  | flow {i j : Nat} : Flow env P [] i j → Chunk i j
  | store {i k : Nat} {value r : Register} : P.HasAll i ((Place.frame k).storeCode value r) →
      k < slots → Free [] r → Chunk i (i + 3)
  | branch {i t : Nat} {r : Register} {l : LabelId} :
      P.Has i .branch [.register r, .target (.label l)] → P.target? l = some t → t ∈ T →
      Chunk i (i + 1)
  | jump {i t : Nat} {l : LabelId} : P.Has i .jump [.target (.label l)] → P.target? l = some t →
      t ∈ T → Chunk i (i + 1)
  | back {i : Nat} {r : Register} {result : Option Register} : P.HasAll i (returnCode r result) →
      Free result.toList r → Chunk i (i + (returnCode r result).length)

/-- Chunks from one position to another. -/
inductive Tiled : Nat → Nat → Prop
  | nil {i : Nat} : Tiled i i
  | cons {i j k : Nat} : Chunk env P slots T i j → Tiled j k → Tiled i k

end

section
variable {env : Env} {P : Program} {slots : Nat} {T T' : Set Nat} {i j k : Nat}

theorem Chunk.mono (h : Chunk env P slots T i j) (hT : T ⊆ T') : Chunk env P slots T' i j := by
  cases h with
  | flow h => exact .flow h
  | store h hk hr => exact .store h hk hr
  | branch h hl ht => exact .branch h hl (hT ht)
  | jump h hl ht => exact .jump h hl (hT ht)
  | back h hr => exact .back h hr

theorem Tiled.mono (h : Tiled env P slots T i j) (hT : T ⊆ T') : Tiled env P slots T' i j := by
  induction h with
  | nil => exact .nil
  | cons hc _ ih => exact .cons (hc.mono hT) ih

theorem Tiled.append (h : Tiled env P slots T i j) (h' : Tiled env P slots T j k) :
    Tiled env P slots T i k := by
  induction h with
  | nil => exact h'
  | cons hc _ ih => exact .cons hc (ih h')

theorem Chunk.le (h : Chunk env P slots T i j) : i ≤ j := by
  cases h with
  | flow h => exact h.le
  | store => omega
  | branch => omega
  | jump => omega
  | back => omega

theorem Tiled.le (h : Tiled env P slots T i j) : i ≤ j := by
  induction h with
  | nil => exact Nat.le_refl _
  | cons hc _ ih => exact Nat.le_trans hc.le ih

theorem Chunk.clean (h : Chunk env P slots T i j) (hi : Clean P i) : Clean P j := by
  cases h with
  | flow h => exact h.clean hi
  | store h _ _ => exact .afterAll h (by simp [Place.storeCode, Register.arp]) hi
  | branch h _ _ => exact .after h (by simp)
  | jump h _ _ => exact .after h (by simp)
  | @back r result h _ => exact .afterAll h (by cases result <;> simp [returnCode]) hi

theorem Tiled.clean (h : Tiled env P slots T i j) (hi : Clean P i) : Clean P j := by
  induction h with
  | nil => exact hi
  | cons hc _ ih => exact ih (hc.clean hi)

end

/-! ## Sealed code -/

/-- Code that is entered at its start and at the positions `B`, and left at its end and for the
positions `N`. -/
structure Sealed (env : Env) (P : Program) (slots : Nat) (N B : Set Nat) (i j : Nat) : Prop where
  tiled : Tiled env P slots (B ∪ N) i j
  inside : ∀ t ∈ B, i ≤ t ∧ t < j ∧ Tiled env P slots (B ∪ N) t j
  clean : Clean P i → ∀ t ∈ B, Clean P t

namespace Sealed

variable {env : Env} {P : Program} {slots : Nat} {N N' N1 N2 B B1 B2 : Set Nat} {i j k : Nat}

theorem ofTiled (h : Tiled env P slots N i j) : Sealed env P slots N ∅ i j :=
  ⟨h.mono Set.subset_union_right, fun _ ht => absurd ht (Set.notMem_empty _), fun _ _ ht =>
    absurd ht (Set.notMem_empty _)⟩

theorem mono (h : Sealed env P slots N B i j) (hN : N ⊆ N') : Sealed env P slots N' B i j :=
  ⟨h.tiled.mono (Set.union_subset_union_right B hN), fun t ht =>
    ⟨(h.inside t ht).1, (h.inside t ht).2.1,
      (h.inside t ht).2.2.mono (Set.union_subset_union_right B hN)⟩, h.clean⟩

/-- Two pieces of code that may lead to each other. -/
theorem append (h1 : Sealed env P slots N1 B1 i j) (h2 : Sealed env P slots N2 B2 j k)
    (hN1 : N1 ⊆ B2 ∪ N) (hN2 : N2 ⊆ B1 ∪ N) : Sealed env P slots N (B1 ∪ B2) i k := by
  have hsub1 : B1 ∪ N1 ⊆ B1 ∪ B2 ∪ N := by
    rw [Set.union_assoc]
    exact Set.union_subset_union_right B1 hN1
  have hsub2 : B2 ∪ N2 ⊆ B1 ∪ B2 ∪ N := by
    rw [Set.union_comm B1 B2, Set.union_assoc]
    exact Set.union_subset_union_right B2 hN2
  refine ⟨(h1.tiled.mono hsub1).append (h2.tiled.mono hsub2), fun t ht => ?_, fun hi t ht =>
    ht.elim (h1.clean hi t) (h2.clean (h1.tiled.clean hi) t)⟩
  rcases ht with ht | ht
  · obtain ⟨hle, hlt, htiled⟩ := h1.inside t ht
    exact ⟨hle, Nat.lt_of_lt_of_le hlt h2.tiled.le,
      (htiled.mono hsub1).append (h2.tiled.mono hsub2)⟩
  · obtain ⟨hle, hlt, htiled⟩ := h2.inside t ht
    exact ⟨Nat.le_trans h1.tiled.le hle, hlt, htiled.mono hsub2⟩

/-- One piece of code after another. -/
theorem seq (h1 : Sealed env P slots N B1 i j) (h2 : Sealed env P slots N B2 j k) :
    Sealed env P slots N (B1 ∪ B2) i k :=
  h1.append h2 Set.subset_union_right Set.subset_union_right

/-- Code with jumps to its start. -/
theorem start (h : Sealed env P slots (insert i N) B i j) (hlt : i < j) :
    Sealed env P slots N (insert i B) i j := by
  have hsub : B ∪ insert i N ⊆ insert i B ∪ N := by
    intro t ht
    rcases ht with ht | rfl | ht
    · exact .inl (.inr ht)
    · exact .inl (.inl rfl)
    · exact .inr ht
  refine ⟨h.tiled.mono hsub, fun t ht => ?_, fun hi t ht =>
    ht.elim (fun heq => heq ▸ hi) (h.clean hi t)⟩
  rcases ht with rfl | ht
  · exact ⟨Nat.le_refl _, hlt, h.tiled.mono hsub⟩
  · obtain ⟨hle, hlt, htiled⟩ := h.inside t ht
    exact ⟨hle, hlt, htiled.mono hsub⟩

theorem chunk (h : Chunk env P slots N i j) : Sealed env P slots N ∅ i j := .ofTiled (.cons h .nil)

theorem flow (h : Flow env P [] i j) : Sealed env P slots N ∅ i j := .chunk (.flow h)

theorem nop (h : P.HasAll i [.nop]) : Sealed env P slots N ∅ i (i + 1) :=
  .flow (.quiet h.1 .nop .nil)

/-- Code with jumps to an instruction without effect at its end. -/
theorem anchor (h : Sealed env P slots (insert j N) B i j) (hj : P.HasAll j [.nop]) :
    Sealed env P slots N (B ∪ {j}) i (j + 1) := by
  have h2 := (nop hj : Sealed env P slots (insert j N) ∅ j (j + 1)).start (Nat.lt_succ_self j)
  rw [insert_empty_eq] at h2
  exact h.append h2 (Set.insert_subset_iff.2 ⟨.inl rfl, Set.subset_union_right⟩)
    Set.subset_union_right

end Sealed

/-! ## Slots of the frame -/

/-- What the code of a statement depends on: the routine has a frame of `slots` slots, and `next`
leads to a position in `N`. -/
structure Room (env : Env) (P : Program) (slots : Nat) (N : Set Nat) (ctx : Context) : Prop where
  methods : env.tables.MethodsRun
  laid : env.tables.scopes.Laid
  size : env.tables.scopes.frameSize (ScopeTree.frameOwner ctx.function) = .ok slots
  next : ∀ l, ctx.next = some l → P.Leads l N

variable {next : Option LabelId} {target : Awl.Target} {kind : ScopeKind} {node : NodeId}
  {id : ScopeId} {x : String}

section
variable {env : Env} {P : Program} {slots : Nat} {N N' : Set Nat} {ctx : Context}
  {used : List Register}

theorem Room.mono (h : Room env P slots N ctx) (hN : N ⊆ N') : Room env P slots N' ctx :=
  ⟨h.methods, h.laid, h.size, fun l hl => (h.next l hl).mono hN⟩

theorem Room.withNext (h : Room env P slots N ctx) (hnext : ∀ l, next = some l → P.Leads l N') :
    Room env P slots N' (ctx.withNext next) := ⟨h.methods, h.laid, h.size, hnext⟩

/-- The slot of a name is one of the frame. -/
theorem Room.slot_lt (h : Room env P slots N ctx) {k slot : Nat}
    (hname : env.tables.HasName ctx.function node x)
    (hat : NameAt env ctx.function used node x id k kind (.frame slot) code) : slot < slots := by
  obtain ⟨id', s, k', hplaces, hreach⟩ := hname
  obtain rfl := Option.mem_unique hplaces.scope hat.scope
  obtain ⟨b, hb, hk'⟩ := hplaces.slot
  have hk : k' = k := by
    have := hat.offset
    rw [ScopeTree.offset?_eq hplaces.isScope, hb, Option.bind_some, hk'] at this
    exact Option.some.inj (Except.ok.inj this)
  have hkind : s.kind = kind :=
    Except.ok.inj ((ScopeTree.kind_eq hplaces.isScope).symm.trans hat.isKind)
  have howner : s.owner = ScopeTree.frameOwner ctx.function ∧ k = slot := by
    have hcode := hat.code
    unfold ScopeTree.Reaches at hreach
    rw [hkind] at hreach
    cases hcode with
    | function => exact ⟨hreach, rfl⟩
    | block => exact ⟨hreach, rfl⟩
  obtain ⟨o, ho, hoo⟩ := h.laid.owner id' s hplaces.isScope
  have hslots : o.slots = slots := by
    have := h.size
    rw [← howner.1, ScopeTree.frameSize_eq ho (by rw [hoo]; exact ho)] at this
    exact Except.ok.inj this
  rw [← hslots, ← howner.2, ← hk]
  exact h.laid.bound id' s o x b k' hplaces.isScope ho hb hk'

theorem Room.target_slot (h : Room env P slots N ctx) {first last : Nat}
    (hr : target.Ready env.tables ctx.function)
    (hp : Emit.Placed env P (Emit.targetPlace ctx target) used first p last) :
    ∀ k, p = .frame k → k < slots := by
  intro k hk
  subst hk
  cases target with
  | name n x =>
    obtain ⟨id, k', kind, code, hat, -⟩ := hp.nameTarget
    exact h.slot_lt hr hat
  | index n a i =>
    obtain ⟨_, _, _, _, _, _, hshared, _⟩ := hp.indexTarget
    cases hshared
  | field n o x =>
    obtain ⟨_, _, _, _, _, _, hshared, _⟩ := hp.fieldTarget
    cases hshared

end

/-! ## Statements -/

namespace Emit

variable {env : Env} {P : Program} {slots : Nat} {N : Set Nat} {ctx : Context}
  {used : List Register} {first last i : Nat} {step : Option Stmt} {cases : List Case}
  {done : LabelId} {body : Block}

theorem Placed.flow {e : Expr} (ht : env.tables.MethodsRun) (hr : e.Ready env.tables ctx.function)
    (h : Placed env P (expr ctx e) used first r last) : Flow env P [] first last :=
  (h.lies (expr_flows ht e hr used)).mono (List.nil_subset _)

theorem Placed.targetFlow (target : Awl.Target) (ht : env.tables.MethodsRun)
    (hr : target.Ready env.tables ctx.function)
    (h : Placed env P (targetPlace ctx target) used first p last) : Flow env P [] first last :=
  (h.lies (targetPlace_flows ht hr used)).mono (List.nil_subset _)

theorem Placed.lockFlow (ht : env.tables.MethodsRun) (hr : lock.LockReady env.tables ctx.function)
    (h : Placed env P (exprPlace ctx lock) used first p last) : Flow env P [] first last := by
  cases lock with
  | name n x =>
    obtain ⟨id, s, k, hp, hk⟩ := hr
    refine Placed.targetFlow (.name n x) ht ⟨id, s, k, hp, ?_⟩ h
    unfold ScopeTree.Reaches
    rw [hk]
    trivial
  | index n a i => exact Placed.targetFlow (.index n a i) ht hr h
  | field n o x => exact Placed.targetFlow (.field n o x) ht hr h
  | _ => exact hr.elim

theorem store_sealed {value : Register} (hp : ∀ k, p = .frame k → k < slots)
    (hr : ∀ k, p = .frame k → Free used r) (h : P.HasAll i (p.storeCode value r)) :
    Sealed env P slots N ∅ i (i + (p.storeCode value r).length) := by
  cases p with
  | frame k => exact .chunk (.store h (hp k rfl) ((hr k rfl).mono (List.nil_subset _)))
  | global a => exact .flow (.quiet h.1 .write .nil)
  | shared x => exact .flow (.quiet h.1 .write .nil)

section
variable (hroom : Room env P slots N ctx)
include hroom

/-- The address of a name, and a store to it. -/
theorem nameStore_sealed {k : Nat} {value : Register}
    (hname : env.tables.HasName ctx.function node x)
    (hat : NameAt env ctx.function used node x id k kind p code)
    (hr : ∀ k, p = .frame k → Free used r) (h : P.HasAll i (code ++ p.storeCode value r)) : ∃ B,
    Sealed env P slots N B i (i + (code ++ p.storeCode value r).length) := by
  obtain ⟨hcode, hstore⟩ := Program.HasAll.append.1 h
  have h1 : Flow env P [] i (i + code.length) := .ofCode hcode fun y hy =>
    (hat.code.quiet y hy).mono (List.nil_subset _)
  rw [List.length_append, ← Nat.add_assoc]
  exact ⟨_,
    Sealed.seq (.flow h1) (store_sealed (fun k hk => hroom.slot_lt hname (hk ▸ hat)) hr hstore)⟩

theorem declaration_sealed {d : Declaration}
    (hd : Expr.ReadyOption env.tables ctx.function d.initializer)
    (hname : env.tables.HasName ctx.function d.node.id d.name)
    (h : Placed env P (stmt ctx (.declaration n d)) used first () last) :
    ∃ B, Sealed env P slots N B first last := by
  cases hi : d.initializer with
  | none =>
    obtain ⟨id, k, kind, p, code, r, hat, hr, hcode, rfl⟩ := h.declareNone hi
    exact nameStore_sealed hroom hname hat hr hcode
  | some e =>
    rw [hi] at hd
    obtain ⟨x, i, id, k, kind, p, code, r, he, -, hat, hr, hcode, rfl⟩ := h.declareSome hi
    obtain ⟨B, hstore⟩ := nameStore_sealed hroom hname hat hr hcode
    exact ⟨_, Sealed.seq (.flow (he.flow hroom.methods hd)) hstore⟩

theorem assignment_sealed
    (ht : target.Ready env.tables ctx.function) (hv : value.Ready env.tables ctx.function)
    (h : Placed env P (stmt ctx (.assignment n target value)) used first () last) :
    ∃ B, Sealed env P slots N B first last := by
  obtain ⟨p, i, x, j, r, hp, hx, -, hr, hcode, rfl⟩ := h.assignment
  exact ⟨_, Sealed.seq
    (.flow ((Placed.targetFlow target hroom.methods ht hp).append (hx.flow hroom.methods hv)))
    (store_sealed (hroom.target_slot ht hp) hr hcode)⟩

theorem return_sealed {value : Option Expr} (hv : Expr.ReadyOption env.tables ctx.function value)
    (h : Placed env P (stmt ctx (.return n value)) used first () last) :
    ∃ B, Sealed env P slots N B first last := by
  cases value with
  | none =>
    obtain ⟨r, hr, hcode, rfl⟩ := h.returnNone
    exact ⟨_, .chunk (.back hcode (hr.mono (List.nil_subset _)))⟩
  | some e =>
    obtain ⟨x, i, r, hx, -, hr, hcode, rfl⟩ := h.returnSome
    have hr' : Free [x] r := hr.mono (List.subset_append_right ..)
    exact ⟨_, Sealed.seq (.flow (hx.flow hroom.methods hv)) (.chunk (.back hcode hr'))⟩

theorem acquire_sealed (hl : lock.LockReady env.tables ctx.function)
    (h : Placed env P (stmt ctx (.acquire n lock)) used first () last) :
    ∃ B, Sealed env P slots N B first last := by
  obtain ⟨p, a, i, hp, ha, -⟩ := h.withLock fun a => acquire_steady a
  obtain ⟨r, retry, acquired, hr, hretry, hcode, hacquired, rfl⟩ := ha.acquire
  obtain ⟨htest, hreceive, hbranch, hjump, hnop, -⟩ := hcode
  -- The test is repeated from its start, and left for the instruction without effect.
  have hloop : Sealed env P slots (insert i (insert (i + 4) N)) ∅ i (i + 4) := by
    refine .ofTiled (.cons (.flow (.quiet htest .testAndSet (.quiet hreceive ?_ .nil))) (.cons
      (.branch hbranch hacquired ?_) (.cons (.jump hjump hretry ?_) .nil)))
    · exact .receive (hr.mono (List.nil_subset _))
    · exact .inr (.inl rfl)
    · exact .inl rfl
  have h := (hloop.start (Nat.lt_add_of_pos_right (by decide))).anchor ⟨hnop, trivial⟩
  exact ⟨_, Sealed.seq (.flow (hp.lockFlow hroom.methods hl)) h⟩

theorem release_sealed (hl : lock.LockReady env.tables ctx.function)
    (h : Placed env P (stmt ctx (.release n lock)) used first () last) :
    ∃ B, Sealed env P slots N B first last := by
  obtain ⟨p, a, i, hp, ha, -⟩ := h.withLock fun a s used hs _ =>
    Sat.emit_last rfl ((EmitState.Emits.refl hs).emit ..)
  obtain ⟨hcode, rfl⟩ := ha.writeShared
  exact ⟨_, .flow ((hp.lockFlow hroom.methods hl).append (.quiet hcode.1 .write .nil))⟩

end

/-! ## Blocks, branches and loops -/

/-- The code of an action is sealed wherever it lies. -/
def Seals {α : Type} (env : Env) (P : Program) (slots : Nat) (N : Set Nat) (used : List Register)
    (m : Emit α) : Prop :=
  ∀ {N' : Set Nat} {i j : Nat} {a : α}, N ⊆ N' → Placed env P m used i a j →
    ∃ B, Sealed env P slots N' B i j

theorem Placed.block_lt {a : InstructionId}
    (h : Placed env P (Emit.block ctx b) used first a last) : first < last := by
  obtain ⟨-, i, -, ⟨rfl, hlt⟩ | ⟨rfl, -, rfl⟩⟩ := h.block
  · exact hlt
  · exact Nat.lt_succ_self _

theorem block_seals_of (h : Seals env P slots N used (stmts ctx b.statements)) :
    Seals env P slots N used (block ctx b) := by
  intro N' i j a hN hb
  obtain ⟨-, k, hss, ⟨rfl, -⟩ | ⟨rfl, hnop, rfl⟩⟩ := hb.block
  · exact h hN hss
  · exact ⟨_, .nop hnop⟩

section
variable (ht : env.tables.MethodsRun) (hc : c.Ready env.tables ctx.function)
include ht hc

/-- The test of a condition, which leads away if it fails. -/
theorem unless_sealed (h : Placed env P (expr ctx c) used first r i) (hr : Free used r)
    (hcode : P.HasAll i [.compute .equal .zero r r, .branch r done]) (hdone : P.Leads done N) :
    Sealed env P slots N ∅ first (i + 2) := by
  obtain ⟨t, hmem, hl⟩ := hdone
  have hflow := (h.flow ht hc).append
    (.quiet hcode.1 (.compute (hr.mono (List.nil_subset _))) .nil)
  exact .ofTiled (.cons (.flow hflow) (.cons (.branch hcode.2.1 hl hmem) .nil))

theorem ifThen_seals (hb : Seals env P slots N used (block ctx b)) :
    Seals env P slots N used (stmt ctx (.ifElse n c b none)) := by
  intro N' first last _ hN h
  obtain ⟨r, i, done, j, hcond, hr, hcode, hblock, hdone, hnop, rfl⟩ := h.ifThen
  have hN' := hN.trans (Set.subset_insert j N')
  obtain ⟨B, hB⟩ := hb hN' hblock
  have hlead : P.Leads done (insert j N') := ⟨j, .inl rfl, hdone⟩
  have htest : Sealed env P slots _ ∅ first (i + 2) := unless_sealed ht hc hcond hr hcode hlead
  exact ⟨_, (htest.seq hB).anchor hnop⟩

theorem ifElse_seals {b' : Block} (hb : Seals env P slots N used (block ctx b))
    (hb' : Seals env P slots N used (block ctx b')) :
    Seals env P slots N used (stmt ctx (.ifElse n c b (some b'))) := by
  intro N' first last _ hN h
  obtain ⟨r, i, thenLabel, done, j, k, hcond, hr, hbranch, helse, hjump, hthen, hthenLabel, hdone,
    hnop, rfl⟩ := h.ifElse
  have hN' : N ⊆ insert (j + 1) (insert k N') :=
    (hN.trans (Set.subset_insert k N')).trans (Set.subset_insert ..)
  obtain ⟨B, hB⟩ := hb hN' hthen
  obtain ⟨B', hB'⟩ := hb' hN' helse
  -- The code of the condition, the second block and the jump over the first one.
  have hhead : Sealed env P slots (insert (j + 1) (insert k N')) ∅ first (i + 1) := .ofTiled
    (.cons (.flow (hcond.flow ht hc)) (.cons (.branch hbranch.1 hthenLabel (.inl rfl)) .nil))
  have hskip : Sealed env P slots (insert (j + 1) (insert k N')) ∅ j (j + 1) :=
    .chunk (.jump hjump.1 hdone (.inr (.inl rfl)))
  have hboth := ((hhead.seq hB').seq hskip).append (hB.start hthen.block_lt)
    (Set.insert_subset_iff.2 ⟨.inl (.inl rfl), Set.subset_union_right⟩) Set.subset_union_right
  exact ⟨_, hboth.anchor hnop⟩

theorem loop_seals (hb : Seals env P slots N used (block ctx b))
    (hs : Seals env P slots N used (optionalStmt ctx step)) :
    Seals env P slots N used (loopCode ctx c b step) := by
  intro N' first last _ hN h
  obtain ⟨r, i, test, done, j, k, hcond, hr, htest, hcode, hblock, hstep, hjump, hdone, rfl⟩ :=
    h.loopBlock
  have hN' : N ⊆ insert first (insert (k + 1) N') :=
    (hN.trans (Set.subset_insert ..)).trans (Set.subset_insert ..)
  obtain ⟨B, hB⟩ := hb hN' hblock
  obtain ⟨B', hB'⟩ := hs hN' hstep
  have hlead : P.Leads done (insert first (insert (k + 1) N')) := ⟨k + 1, .inr (.inl rfl), hdone⟩
  have hhead : Sealed env P slots _ ∅ first (i + 2) := unless_sealed ht hc hcond hr hcode hlead
  have hback : Sealed env P slots (insert first (insert (k + 1) N')) ∅ k (k + 1) :=
    .chunk (.jump hjump.1 htest (.inl rfl))
  have hpass := ((hhead.seq hB).seq hB').seq hback
  have hlt : first < k + 1 := by
    have := hhead.tiled.le
    have := hB.tiled.le
    have := hB'.tiled.le
    omega
  exact ⟨_, (hpass.start hlt).anchor hjump.2⟩

theorem doLoop_seals (hb : Seals env P slots N used (block ctx b)) :
    Seals env P slots N used (stmt ctx (.doLoop n b c)) := by
  intro N' first last _ hN h
  obtain ⟨i, start, r, j, hblock, hstart, hcond, hr, hbranch, rfl⟩ := h.doLoop
  obtain ⟨B, hB⟩ := hb (hN.trans (Set.subset_insert first N')) hblock
  have htest : Sealed env P slots (insert first N') ∅ i (j + 1) :=
    .ofTiled (.cons (.flow (hcond.flow ht hc)) (.cons (.branch hbranch.1 hstart (.inl rfl)) .nil))
  exact ⟨_, (hB.seq htest).start (Nat.lt_of_lt_of_le hblock.block_lt htest.tiled.le)⟩

end

theorem stmts_nil_seals : Seals env P slots N used (stmts ctx []) := by
  intro N' first last _ hN h
  obtain rfl := h.stmts_nil
  exact ⟨_, .ofTiled .nil⟩

theorem stmts_cons_seals {st : Stmt} {ss : List Stmt} (hs : Seals env P slots N used (stmt ctx st))
    (hss : Seals env P slots N used (stmts ctx ss)) :
    Seals env P slots N used (stmts ctx (st :: ss)) := by
  intro N' first last _ hN h
  obtain ⟨i, h1, h2⟩ := h.stmts_cons
  obtain ⟨B1, hB1⟩ := hs hN h1
  obtain ⟨B2, hB2⟩ := hss hN h2
  exact ⟨_, hB1.seq hB2⟩

theorem optional_none_seals : Seals env P slots N used (optionalStmt ctx none) := by
  intro N' first last _ hN h
  obtain rfl := h.optional_none
  exact ⟨_, .ofTiled .nil⟩

theorem forLoop_seals {initializer : Option Stmt}
    (hi : Seals env P slots N used (optionalStmt ctx initializer))
    (hloop : Seals env P slots N used (loopCode ctx c b step)) :
    Seals env P slots N used (stmt ctx (.forLoop n initializer c step b)) := by
  intro N' first last _ hN h
  obtain ⟨i, h1, h2⟩ := h.forLoop
  obtain ⟨B1, hB1⟩ := hi hN h1
  obtain ⟨B2, hB2⟩ := hloop hN h2
  exact ⟨_, hB1.seq hB2⟩

theorem next_seals (hroom : Room env P slots N ctx) :
    Seals env P slots N used (stmt ctx (.next n)) := by
  intro N' first last _ hN h
  obtain ⟨l, hl, hjump, rfl⟩ := h.next
  obtain ⟨t, ht, htarget⟩ := hroom.next l hl
  exact ⟨_, .chunk (.jump hjump.1 htarget (hN ht))⟩

/-! ## Switches -/

/-- A case is entered at its test, and at its body by `next`. -/
theorem case_sealed {x : Register} {test bodyLabel miss : LabelId}
    (ht : env.tables.MethodsRun) (hv : value.Ready env.tables ctx.function) (hmiss : P.Leads miss N)
    (hdone : P.Leads done N) (hbody : Seals env P slots N used (block (ctx.withNext next) body))
    (h : CaseAt env P ctx used x value body next test bodyLabel miss done first last) :
    ∃ B, Sealed env P slots N B first last ∧ P.Leads test B ∧ P.Leads bodyLabel B := by
  obtain ⟨r, i, j, hvalue, hr, htest, hcode, hblock, hbodyLabel, hjump, rfl⟩ := h.parts
  obtain ⟨tmiss, htmiss, hmiss⟩ := hmiss
  obtain ⟨tdone, htdone, hdone⟩ := hdone
  obtain ⟨B, hB⟩ := hbody (Set.subset_insert (i + 2) N) hblock
  have hflow := (hvalue.flow ht hv).append
    (.quiet hcode.1 (.compute (hr.mono (List.nil_subset _))) .nil)
  have hhead : Sealed env P slots N ∅ first (i + 2) :=
    .ofTiled (.cons (.flow hflow) (.cons (.branch hcode.2.1 hmiss htmiss) .nil))
  have hleave : Sealed env P slots N ∅ j (j + 1) := .chunk (.jump hjump.1 hdone htdone)
  have hall := (hhead.seq (hB.start hblock.block_lt)).seq hleave
  have hlt : first < j + 1 := by
    have := hhead.tiled.le
    have := hB.tiled.le
    omega
  refine ⟨_, (hall.mono (Set.subset_insert first N)).start hlt, ⟨first, .inl rfl, htest⟩,
    ⟨i + 2, ?_, hbodyLabel⟩⟩
  exact .inr (.inl (.inr (.inl rfl)))

/-- The cases of a switch are sealed, and the labels of the first one lead into them. -/
def CasesSealed (env : Env) (P : Program) (slots : Nat) (ctx : Context)
    (cases : List Case) : Prop :=
  ∀ {N : Set Nat} {used : List Register} {labels : List (LabelId × LabelId)} {x : Register}
    {done : LabelId} {fallback : Option LabelId} {first last : Nat}, labels.length = cases.length →
    P.Leads done N → (∀ l, fallback = some l → P.Leads l N) →
    Placed env P (switchCases ctx x done fallback cases labels) used first () last →
    ∃ B, Sealed env P slots N B first last ∧ ∀ l, labels.head? = some l →
    P.Leads l.1 B ∧ P.Leads l.2 B

theorem cases_nil_sealed : CasesSealed env P slots ctx [] := by
  intro N used labels x done fallback first last hlen _ _ h
  obtain rfl := h.switchCases_nil
  obtain rfl := List.length_eq_zero_iff.1 hlen
  exact ⟨_, .ofTiled .nil, nofun⟩

theorem cases_cons_sealed (ht : env.tables.MethodsRun) (hv : value.Ready env.tables ctx.function)
    (hbody : ∀ {N : Set Nat} {used : List Register} {next : Option LabelId},
      (∀ l, next = some l → P.Leads l N) →
      Seals env P slots N used (block (ctx.withNext next) body))
    (hcases : CasesSealed env P slots ctx cases) :
    CasesSealed env P slots ctx (.mk n value body :: cases) := by
  intro N used labels x done fallback first last hlen hdone hfallback h
  cases labels with
  | nil => cases hlen
  | cons l labels =>
    obtain ⟨i, hcase, hrest⟩ := h.switchCases_cons
    obtain ⟨B, hB, hhead⟩ := hcases (Nat.succ.inj hlen) hdone hfallback hrest
    -- A failed test and `next` lead to the following case, to the fallback or out of the switch.
    have hmiss : P.Leads (((labels.head?.map (·.1)).or fallback).getD done) (B ∪ N) := by
      cases hl : labels.head? with
      | some l => exact (hhead l hl).1.mono Set.subset_union_left
      | none =>
        cases fallback with
        | some l => exact (hfallback l rfl).mono Set.subset_union_right
        | none => exact hdone.mono Set.subset_union_right
    have hnext : ∀ l, (labels.head?.map (·.2)).or fallback = some l → P.Leads l (B ∪ N) := by
      intro l hl
      cases hhd : labels.head? with
      | some l' =>
        rw [hhd] at hl
        cases hl
        exact (hhead l' hhd).2.mono Set.subset_union_left
      | none =>
        rw [hhd] at hl
        exact (hfallback l hl).mono Set.subset_union_right
    obtain ⟨B', hB', htest, hlabel⟩ := case_sealed ht hv hmiss (hdone.mono Set.subset_union_right)
      (hbody hnext) hcase
    refine ⟨_, hB'.append hB (Set.Subset.refl _) Set.subset_union_right, fun l hl => ?_⟩
    cases hl
    exact ⟨htest.mono Set.subset_union_left, hlabel.mono Set.subset_union_left⟩

theorem switch_seals {d : Expr} {fallback : Option Block} (ht : env.tables.MethodsRun)
    (hd : d.Ready env.tables ctx.function) (hcases : CasesSealed env P slots ctx cases)
    (hb : ∀ {used : List Register} (b), fallback = some b →
      Seals env P slots ∅ used (block (ctx.withNext none) b)) :
    Seals env P slots N used (stmt ctx (.switch n d cases fallback)) := by
  intro N' first last _ hN h
  obtain ⟨x, i, done, labels, l, j, k, hlen, hplaced, -, hrest, hfallback, hdone, hnop, rfl⟩ :=
    h.switch
  have hhead := hplaced.flow ht hd
  cases hfallback with
  | none =>
    have hnone : ∀ l, (none : Option LabelId) = some l → P.Leads l (insert j N') := nofun
    obtain ⟨B, hB, -⟩ := hcases hlen ⟨j, .inl rfl, hdone⟩ hnone hrest
    exact ⟨_, (Sealed.seq (.flow hhead) hB).anchor hnop⟩
  | some hl hblock =>
    obtain ⟨B, hB, -⟩ := hcases (N := insert j (insert k N')) hlen ⟨k, .inr (.inl rfl), hdone⟩
      (fun l' hl' => Option.some.inj hl' ▸ ⟨j, .inl rfl, hl⟩) hrest
    obtain ⟨B', hB'⟩ := hb _ rfl (Set.empty_subset (insert j (insert k N'))) hblock
    have hboth := hB.append (hB'.start hblock.block_lt)
      (Set.insert_subset_iff.2 ⟨.inl (.inl rfl), Set.subset_union_right⟩) Set.subset_union_right
    exact ⟨_, (Sealed.seq (.flow hhead) hboth).anchor hnop⟩

/-! ## All statements -/

mutual

/-- The code of a statement is sealed but for the position that `next` goes on with. -/
theorem stmt_seals {slots : Nat} {N : Set Nat} {ctx : Context} {b : Bool} {used : List Register} :
    ∀ (st : Stmt), Room env P slots N ctx → st.Ready env.tables ctx.function b →
    Seals env P slots N used (stmt ctx st)
  | .declaration n d, hroom, h => fun hN hp => declaration_sealed (hroom.mono hN) h.1 h.2 hp
  | .assignment n target value, hroom, h =>
    fun hN hp => assignment_sealed (hroom.mono hN) h.1 h.2 hp
  | .ifElse n c b none, hroom, h => ifThen_seals hroom.methods h.1 (block_seals b hroom h.2.1)
  | .ifElse n c b (some b'), hroom, h =>
    ifElse_seals hroom.methods h.1 (block_seals b hroom h.2.1) (block_seals b' hroom h.2.2)
  | .whileLoop n c b, hroom, h =>
    fun hN hp =>
      loop_seals hroom.methods h.1 (block_seals b hroom h.2) optional_none_seals hN hp.whileLoop
  | .doLoop n b c, hroom, h => doLoop_seals hroom.methods h.2 (block_seals b hroom h.1)
  | .forLoop n initializer c step b, hroom, h =>
    forLoop_seals (optional_seals initializer hroom h.1) (loop_seals hroom.methods h.2.1
      (block_seals b hroom h.2.2.2) (optional_seals step hroom h.2.2.1))
  | .block n b, hroom, h => fun hN hp => block_seals b hroom h hN hp.blockStmt
  | .switch n d cases fallback, hroom, h =>
    switch_seals hroom.methods h.1 (cases_sealed cases hroom h.2.1) fun b' hb' =>
      fallback_seals fallback (hroom.withNext nofun) h.2.2 b' hb'
  | .next n, hroom, _ => next_seals hroom
  | .return n value, hroom, h => fun hN hp => return_sealed (hroom.mono hN) h hp
  | .expression n e, hroom, h => by
    intro _ hp
    obtain ⟨r, hp⟩ := hp.expression
    exact ⟨_, .flow (hp.flow hroom.methods h)⟩
  | .acquire n lock, hroom, h => fun hN hp => acquire_sealed (hroom.mono hN) h hp
  | .release n lock, hroom, h => fun hN hp => release_sealed (hroom.mono hN) h hp

theorem optional_seals {slots : Nat} {N : Set Nat} {ctx : Context} {b : Bool}
    {used : List Register} : ∀ (st : Option Stmt), Room env P slots N ctx →
    Stmt.ReadyOption env.tables ctx.function b st → Seals env P slots N used (optionalStmt ctx st)
  | none, _, _ => optional_none_seals
  | some st, hroom, h => fun hN hp => stmt_seals st hroom h hN hp.optional_some

theorem stmts_seals {slots : Nat} {N : Set Nat} {ctx : Context} {b : Bool} {used : List Register} :
    ∀ (ss : List Stmt), Room env P slots N ctx →
    Stmt.ReadyAll env.tables ctx.function b ss → Seals env P slots N used (stmts ctx ss)
  | [], _, _ => stmts_nil_seals
  | st :: ss, hroom, h => stmts_cons_seals (stmt_seals st hroom h.1) (stmts_seals ss hroom h.2)

theorem block_seals {slots : Nat} {N : Set Nat} {ctx : Context} {next : Bool}
    {used : List Register} : ∀ (b : Block), Room env P slots N ctx →
    b.Ready env.tables ctx.function next →
    Seals env P slots N used (block ctx b)
  | .mk _ ss, hroom, h => block_seals_of (stmts_seals ss hroom h)

theorem fallback_seals {slots : Nat} {ctx : Context} {used : List Register} :
    ∀ (b : Option Block), Room env P slots ∅ (ctx.withNext none) →
    Block.ReadyOption env.tables ctx.function false b → ∀ b', b = some b' →
    Seals env P slots ∅ used (block (ctx.withNext none) b')
  | none, _, _ => nofun
  | some b, hroom, h => by
    intro b' hb'
    cases hb'
    exact block_seals b hroom h

theorem cases_sealed {slots : Nat} {N : Set Nat} {ctx : Context} {b : Bool} : ∀ (cs : List Case),
    Room env P slots N ctx → Case.ReadyAll env.tables ctx.function b cs →
    CasesSealed env P slots ctx cs
  | [], _, _ => cases_nil_sealed
  | .mk _ _ body :: cs, hroom, h =>
    cases_cons_sealed hroom.methods h.1 (fun hnext => block_seals body (hroom.withNext hnext) h.2.1)
      (cases_sealed cs hroom h.2.2)

end

end Emit

end Code

end Awl
