import Awl.Proofs.Activation

/-!
# The calling convention

The two sides of a call. A routine that is entered with a record on the stack comes to its return
with the stack pointer and the frame pointer as they were, has written to nothing but its own frame,
its result and the stack below, and goes to the return address (`generate_returns`). A call builds
such a record, and finds everything that it needs afterwards if the callee has kept to this
(`generate_calls`).

The code of a routine is made of chunks that control enters at their first instructions (`Sealed`),
so that a run through the routine is a sequence of runs through chunks.
-/

namespace Awl.Code

open Machine

variable {c' : Core} {last i j k : Nat} {P : Program} {r : Register} {keep : List Register}
  {result : Option Register} {rs : List Routine} {c : Call}

/-! ## Code without returns -/

section
variable {env : Env} {P : Program}

theorem not_returns_of_hasAll {code : List Ins} (h : P.HasAll i code)
    (hx : ∀ r, Ins.jump (.indirect r) ∉ code)
    (hi : i ≤ k) (hk : k < i + code.length) : ¬ Returns P k := by
  rintro ⟨r, hr⟩
  obtain ⟨x, hmem, hhas⟩ := has_of_hasAll h hi hk
  obtain ⟨hop, hargs⟩ := has_unique hhas hr
  obtain rfl : x = Ins.jump (.indirect r) := Prod.ext hop hargs
  exact hx r hmem

theorem not_returns_of_has {opcode : OpCode} {operands : List Operand} (h : P.Has k opcode operands)
    (hx : ∀ r, (opcode, operands) ≠ Ins.jump (.indirect r)) : ¬ Returns P k := by
  rintro ⟨r, hr⟩
  obtain ⟨hop, hargs⟩ := has_unique h hr
  exact hx r (Prod.ext hop hargs)

theorem Quiet.ne_return {x : Ins} (h : Quiet keep x) (r : Register) :
    x ≠ Ins.jump (.indirect r) := by
  rintro rfl
  cases h

theorem Flow.not_returns {j : Nat} (h : Flow env P keep i j) (k : Nat) (hi : i ≤ k) (hk : k < j) :
    ¬ Returns P k := by
  cases h.part k ⟨hi, hk⟩ with
  | quiet hx hq => exact not_returns_of_has hx hq.ne_return
  | push hpush => exact not_returns_of_has hpush (by simp)
  | call s hs _ _ hge hlt =>
    have hanchor : s.anchor = s.enter + s.saved.length + 7 := rfl
    have hlast : s.last = s.anchor + s.saved.length + 7 := rfl
    rcases Nat.lt_or_ge k s.anchor with hlt' | hge'
    · exact not_returns_of_hasAll hs.site.enters (by simp [enterCode]) hge
        (by rw [length_enterCode]; omega)
    · exact not_returns_of_hasAll hs.site.leaves (by simp [leaveCode]) hge'
        (by rw [length_leaveCode]; omega)

end

/-! ## Returns -/

/-- The instructions of a return before its jump. -/
def backCode (r : Register) : Option Register → List Ins
  | none => [.const 1 r, .compute .sub .arp r r, .load (.indirect r) r]
  | some value => [.const 2 r, .compute .sub .arp r r, .store value (.indirect r), .const 1 r,
      .compute .sub .arp r r, .load (.indirect r) r]

theorem returnCode_eq (r : Register) (result : Option Register) :
    returnCode r result = backCode r result ++ [.jump (.indirect r)] := by
  cases result <;> rfl

section
variable {P : Program} {c : Core} {m : Memory} {r : Register}

theorem backCode_private (result : Option Register) : ∀ x ∈ backCode r result, x.Private := by
  cases result <;> simp only [backCode] <;>
    simp [Ins.Private, Ins.Plain]

/-- An address next to the frame pointer is computed. -/
theorem exec_address (hr : r ∈ generalPurpose) (op : Operator) (v : Int) {a : Int}
    (ha : op.apply (c.value .arp) v = some a) :
    ∃ x, execAll P [.const v r, .compute op .arp r r] c m = some (x, m) ∧
      x.value r = a ∧ (∀ r', r' ≠ r → r' ≠ .pc → x.value r' = c.value r') ∧
      x.memory = c.memory := by
  obtain ⟨hz, -, hpc, harp⟩ := ne_of_general hr
  refine ⟨(c.next.set r v).next.set r a, ?_, Core.value_set_self _ _ hz hpc,
    fun r' hne hp => ?_, rfl⟩
  · have hconst : exec P .const [.immediate (.value v), .register r] c m =
      some (c.next.set r v, m) := rfl
    have hcompute : exec P .compute [.operator op, .register .arp, .register r, .register r]
        (c.next.set r v) m =
        some ((c.next.set r v).next.set r a, m) := by
      rw [exec, Core.value_set_self _ _ hz hpc, Core.value_set_of_ne _ _ harp.symm,
        Core.value_next _ (by decide), ha]
      rfl
    simp only [execAll, hconst, hcompute, Option.bind_some]
  · rw [Core.value_set_of_ne _ _ hne, Core.value_next _ hp, Core.value_set_of_ne _ _ hne,
      Core.value_next _ hp]

theorem execAll_store (hr : r ∈ generalPurpose) (k : Nat) (value : Register) : ∃ x v,
    execAll P ((Place.frame k).storeCode value r) c m = some (x, m) ∧ x.value .sp = c.value .sp ∧
      x.value .arp = c.value .arp ∧ x.memory = c.memory.write (c.value .arp + (k + 1)) v := by
  obtain ⟨-, hsp, -, harp⟩ := ne_of_general hr
  obtain ⟨y, hy, hyr, hkept, hmemory⟩ := exec_address hr .add (k + 1) rfl
  refine ⟨y.next.store (y.value r) (y.value value), y.value value, ?_, ?_, ?_, ?_⟩
  · show execAll P ([.const (k + 1) r, .compute .add .arp r r] ++
      [.store value (.indirect r)]) c m = _
    rw [execAll_append, hy]
    rfl
  · rw [Core.value_store, Core.value_next _ (by decide), hkept _ hsp.symm (by decide)]
  · rw [Core.value_store, Core.value_next _ (by decide), hkept _ harp.symm (by decide)]
  · rw [Core.store_memory, Core.next_memory, hmemory, hyr]

/-- The return address is fetched. -/
theorem execAll_fetch (hr : r ∈ generalPurpose) : ∃ x,
    execAll P (backCode r none) c m = some (x, m) ∧ x.value .sp = c.value .sp ∧
      x.value .arp = c.value .arp ∧
      x.memory = c.memory ∧ x.value r = c.memory (c.value .arp - 1) := by
  obtain ⟨hz, hsp, hpc, harp⟩ := ne_of_general hr
  obtain ⟨y, hy, hyr, hkept, hmemory⟩ := exec_address hr .sub 1 rfl
  have hload : exec P .load [.address (.indirect r), .register r] y m =
      some (y.next.set r (c.memory (c.value .arp - 1)), m) := by
    rw [exec, Core.address, hyr, hmemory]
  have hvalue : ∀ x, x ≠ r → x ≠ .pc →
    (y.next.set r (c.memory (c.value .arp - 1))).value x = c.value x :=
    fun x hne hp => by rw [Core.value_set_of_ne _ _ hne, Core.value_next _ hp, hkept x hne hp]
  refine ⟨_, ?_, hvalue _ hsp.symm (by decide), hvalue _ harp.symm (by decide), hmemory,
    Core.value_set_self _ _ hz hpc⟩
  show execAll P ([.const 1 r, .compute .sub .arp r r] ++ [.load (.indirect r) r]) c m = _
  rw [execAll_append, hy, Option.bind_some, execAll, hload]
  rfl

theorem execAll_back (hr : Free result.toList r) : ∃ x,
    execAll P (backCode r result) c m = some (x, m) ∧ x.value .sp = c.value .sp ∧
      x.value .arp = c.value .arp ∧
      (∀ a, a ≠ c.value .arp - 2 → x.memory a = c.memory a) ∧
      x.value r = c.memory (c.value .arp - 1) ∧
      ∀ value, result = some value → value ≠ .pc → x.memory (c.value .arp - 2) = c.value value := by
  cases result with
  | none =>
    obtain ⟨x, hx, hsp, harp, hmemory, hxr⟩ := execAll_fetch hr.general
    exact ⟨x, hx, hsp, harp, fun a _ => by rw [hmemory], hxr, fun _ h => by cases h⟩
  | some value =>
    obtain ⟨-, hsp, hpc, harp⟩ := ne_of_general hr.general
    have hne : value ≠ r := fun heq => hr.unused (by simp [heq])
    obtain ⟨y, hy, hyr, hkept, hmemory⟩ := exec_address hr.general .sub 2 rfl
    let z := y.next.store (c.value .arp - 2) (y.value value)
    have hstore : exec P .store [.register value, .address (.indirect r)] y m = some (z, m) := by
      rw [exec, Core.address, hyr]
    have hz : ∀ x, x ≠ r → x ≠ .pc → z.value x = c.value x := fun x hx hp => by
      rw [Core.value_store, Core.value_next _ hp, hkept x hx hp]
    have hzm : z.memory = c.memory.write (c.value .arp - 2) (y.value value) := by
      rw [← hmemory]
      rfl
    obtain ⟨x, hx, hxsp, hxarp, hxm, hxr⟩ := execAll_fetch (P := P) hr.general
    refine ⟨x, ?_, by rw [hxsp, hz _ hsp.symm (by decide)],
      by rw [hxarp, hz _ harp.symm (by decide)], fun a ha => ?_, ?_, fun v hv hp => ?_⟩
    · show execAll P ([.const 2 r, .compute .sub .arp r r] ++
        (.store value (.indirect r) :: backCode r none)) c m = _
      rw [execAll_append, hy, Option.bind_some, execAll, hstore]
      exact hx
    · rw [hxm, hzm, Memory.write_of_ne _ _ ha]
    · rw [hxr, hzm, hz _ harp.symm (by decide), Memory.write_of_ne _ _ (by omega)]
    · cases hv
      rw [hxm, hzm, Memory.write_same, hkept value hne hp]

end

/-! ## Runs through chunks -/

/-- What a routine that was entered with `c₀` has kept to so far. -/
structure Held (slots : Nat) (c0 c : Core) : Prop where
  sp : c.value .sp = c0.value .sp
  arp : c.value .arp = c0.value .arp
  memory : ∀ a, ¬ c0.Owns slots a → c.memory a = c0.memory a

section
variable {env : Env} {P : Program} {slots : Nat} {T : Set Nat} {i j : Nat} {c0 c d : Core}

theorem Held.refl (slots : Nat) (c : Core) : Held slots c c := ⟨rfl, rfl, fun _ _ => rfl⟩

theorem Held.kept (h : Held slots c0 c) (hk : Kept keep c c') : Held slots c0 c' := by
  refine ⟨hk.sp.trans h.sp, hk.arp.trans h.arp, fun a ha => ?_⟩
  rw [hk.memory a, h.memory a ha]
  rw [h.sp]
  unfold Core.Owns at ha
  omega

/-- A routine may write to its own addresses. -/
theorem Held.write {b : Int} (h : Held slots c0 c) (hsp : c'.value .sp = c.value .sp)
    (harp : c'.value .arp = c.value .arp) (hb : c0.Owns slots b)
    (hm : ∀ a, a ≠ b → c'.memory a = c.memory a) :
    Held slots c0 c' := by
  refine ⟨hsp.trans h.sp, harp.trans h.arp, fun a ha => ?_⟩
  rw [hm a fun heq => ha (heq ▸ hb), h.memory a ha]

/-- A jump or a branch, which may go to itself. -/
theorem Run.jumps (hmove : ∀ c c' : Core, c.pc = i → Move env P c c' → Kept [] c c' ∧
    (c'.pc = ((i + 1 : Nat) : Int) ∨ ∃ t ∈ T, c'.pc = (t : Nat)))
    (hrun : Run env P i (i + 1) c d) (hpc : c.pc = i) (hout : ¬ At i (i + 1) d) :
    Kept [] c d ∧ (d.pc = ((i + 1 : Nat) : Int) ∨ ∃ t ∈ T, d.pc = (t : Nat)) := by
  induction hrun using Relation.ReflTransGen.head_induction_on with
  | refl => exact absurd (by unfold At; omega) hout
  | @head c c' hstep hrest ih =>
    obtain ⟨hk, hpc'⟩ := hmove c c' hpc hstep.2
    by_cases hi : c'.pc = i
    · obtain ⟨hk', hpcd⟩ := ih hi
      exact ⟨hk.trans hk', hpcd⟩
    · obtain rfl : d = c' := Run.eq_of_not_at hrest (by unfold At; omega)
      exact ⟨hk, hpc'⟩

theorem CallSite.At.has_setFrame {s : CallSite} (h : s.At env P) :
    P.Has (s.enter + s.saved.length + 5) setFrame.1 setFrame.2 := by
  obtain ⟨-, hset, -⟩ := Program.HasAll.append.1 (enterCode_setFrame .. ▸ h.enters)
  simpa [Nat.add_assoc] using hset

theorem goto_kept (a : Int) : Kept [] c (c.goto a) := .ofRegisters (by simp) rfl rfl

/-- A run through the code of a return comes to its jump and not further. -/
theorem Run.back (h : P.HasAll i (returnCode r result)) (hpc : c.pc = i)
    (hrun : Run env P i (i + (returnCode r result).length) c d)
    (hd : ¬ At i (i + (backCode r result).length) d) :
    execAll P (backCode r result) c (fun _ => 0) =
      some (d, fun _ => 0) ∧ d.pc = ((i + (backCode r result).length : Nat) : Int) ∧
      P.Has (i + (backCode r result).length) .jump [.target (.indirect r)] := by
  rw [returnCode_eq, Program.HasAll.append] at h
  obtain ⟨x, hx, hpcx, -, hrun⟩ := hrun.straight _ h.1 (backCode_private result) hpc hd
  rcases Relation.ReflTransGen.cases_head hrun with rfl | ⟨c1, ⟨-, hmove⟩, -⟩
  · exact ⟨hx _, hpcx, h.2.1⟩
  · -- The jump of a return is not a move of the routine.
    cases hmove with
    | step _ hno _ => exact absurd ⟨r, h.2.1⟩ (hno _ hpcx)
    | call s hs hjump _ _ =>
      have hposition : s.jump = i + (backCode r result).length := by omega
      have hhas := hs.site.has_jump
      rw [hposition] at hhas
      have := (has_unique hhas h.2.1).2
      simp at this

theorem Chunk.run (hsizes : SizesAgree env P) (h : Chunk env P slots T i j) (hclean : Clean P i)
    (hpc : c.pc = i) (hheld : Held slots c0 c) (hrun : Run env P i j c d) (hout : ¬ At i j d) :
    Held slots c0 d ∧ (d.pc = j ∨ ∃ t ∈ T, d.pc = (t : Nat)) := by
  cases h with
  | flow h =>
    obtain ⟨x, hpcx, -, hrun, hk⟩ := h.run hsizes (by simp) hpc hrun hout
    obtain rfl : d = x := hrun.eq_of_not_at (by unfold At; omega)
    exact ⟨hheld.kept hk, .inl hpcx⟩
  | @store k value r hcode hk hr =>
    obtain ⟨x, hx, hpcx, -, hrun⟩ := hrun.straight _ hcode
      (by simp [Place.storeCode, Ins.Private, Ins.Plain]) hpc hout
    change x.pc = ((i + 3 : Nat) : Int) at hpcx
    obtain rfl : d = x := hrun.eq_of_not_at (by unfold At; omega)
    obtain ⟨y, v, hy, hsp, harp, hmemory⟩ := execAll_store (m := fun _ => 0) hr.general k value
    rw [hx] at hy
    cases hy
    refine ⟨hheld.write hsp harp (b := c.value .arp + (k + 1)) ?_ fun a ha => ?_, .inl hpcx⟩
    · rw [hheld.arp]
      unfold Core.Owns
      omega
    · rw [hmemory, Memory.write_of_ne _ _ ha]
  | @branch t r l hcode hl ht =>
    obtain ⟨hk, hd⟩ := Run.jumps (fun c c' hpc hmove => by
      obtain ⟨m, m', hexec⟩ := hmove.exec (x := .branch r l) hcode hpc (by simp)
      simp only [exec, Program.goal?, hl] at hexec
      split at hexec <;> cases hexec
      · exact ⟨.ofRegisters (by simp) rfl rfl, .inl (by rw [Core.next_pc, hpc]; rfl)⟩
      · exact ⟨goto_kept _, .inr ⟨t, ht, rfl⟩⟩) hrun hpc hout
    exact ⟨hheld.kept hk, hd⟩
  | @jump t l hcode hl ht =>
    obtain ⟨hk, hd⟩ := Run.jumps (fun c c' hpc hmove => by
      cases hmove with
      | step h _ _ =>
        obtain ⟨m, m', h⟩ := h
        rw [fetch?_of_has hcode hpc] at h
        simp only [exec, Program.goal?, hl] at h
        cases h
        exact ⟨goto_kept _, .inr ⟨t, ht, rfl⟩⟩
      | call s hs hjump _ _ =>
        -- The frame pointer is set before the jump of a call.
        have hposition : s.enter + s.saved.length + 5 + 1 = i := by
          have : s.jump = s.enter + s.saved.length + 6 := rfl
          omega
        exact absurd hs.site.has_setFrame (hclean _ hposition)) hrun hpc hout
    exact ⟨hheld.kept hk, hd⟩
  | @back r result hcode hr =>
    have hlen : (returnCode r result).length = (backCode r result).length + 1 := by
      rw [returnCode_eq, List.length_append, List.length_singleton]
    obtain ⟨-, hpcd, -⟩ := hrun.back hcode hpc fun hat => hout (by unfold At at *; omega)
    exact absurd (by unfold At; omega) hout

/-! ## Runs through routines -/

/-- Where a run through a routine is: in a chunk that it has entered with everything kept, or at the
end. -/
inductive Underway (env : Env) (P : Program) (slots : Nat) (T : Set Nat) (last : Nat)
    (c0 c : Core) : Prop
  | ended : c.pc = last → Underway env P slots T last c0 c
  | chunk {i j : Nat} {x : Core} : Chunk env P slots T i j → Tiled env P slots T j last →
      Clean P i → x.pc = i →
      Held slots c0 x → Run env P i j x c → At i j c → Underway env P slots T last c0 c

theorem Tiled.enter (h : Tiled env P slots T i last) (hclean : Clean P i) (hpc : c.pc = i)
    (hheld : Held slots c0 c) : Underway env P slots T last c0 c := by
  induction h with
  | nil => exact .ended hpc
  | @cons i j k hc hrest ih =>
    -- A chunk may be empty.
    rcases Nat.eq_or_lt_of_le hc.le with rfl | hlt
    · exact ih hclean hpc
    · exact .chunk hc hrest hclean hpc hheld .refl (by unfold At; omega)

section
variable {first last : Nat} {B : Set Nat} (hsizes : SizesAgree env P)
  (h : Sealed env P slots ∅ B first last) (hclean : Clean P first)
include hsizes h hclean

theorem Sealed.move (hc : Underway env P slots (B ∪ ∅) last c0 c) (hat : At first last c)
    (hmove : Move env P c c') :
    Underway env P slots (B ∪ ∅) last c0 c' := by
  cases hc with
  | ended hpc => exact absurd hat.2 (by omega)
  | @chunk i j x hchunk hrest hi hpc hheld hrun hin =>
    have hrun' : Run env P i j x c' := hrun.tail ⟨hin, hmove⟩
    by_cases hin' : At i j c'
    · exact .chunk hchunk hrest hi hpc hheld hrun' hin'
    obtain ⟨hheld', hpc' | ⟨t, ht, hpc'⟩⟩ := hchunk.run hsizes hi hpc hheld hrun' hin'
    · exact hrest.enter (hchunk.clean hi) hpc' hheld'
    · have ht : t ∈ B := ht.elim id fun h => absurd h (Set.notMem_empty _)
      exact (h.inside t ht).2.2.enter (h.clean hclean t ht) hpc' hheld'

theorem Sealed.run (hpc : c0.pc = first) (hrun : Run env P first last c0 c) :
    Underway env P slots (B ∪ ∅) last c0 c := by
  induction hrun with
  | refl => exact h.tiled.enter hclean hpc (.refl slots c0)
  | tail _ hstep ih => exact h.move hsizes hclean ih hstep.1 hstep.2

/-- A core in front of the jump of a return has kept to the convention. -/
theorem Sealed.held (hpc : c0.pc = first) (hrecord : c0.value .sp + 2 ≤ c0.value .arp)
    (hrun : Run env P first last c0 d) (hd : d.pc = k) (hlt : k < last) (hk : Returns P k) :
    Held slots c0 d ∧
      ∃ r, P.Has k .jump [.target (.indirect r)] ∧ d.value r = c0.memory (c0.value .arp - 1) := by
  cases h.run hsizes hclean hpc hrun with
  | ended hpc => omega
  | @chunk i j x hchunk _ _ hpcx hheld hrun hin =>
    have hi : i ≤ k ∧ k < j := by
      unfold At at hin
      omega
    cases hchunk with
    | flow h => exact absurd hk (h.not_returns k hi.1 hi.2)
    | store h _ _ => exact absurd hk (not_returns_of_hasAll h (by simp [Place.storeCode]) hi.1 hi.2)
    | branch h _ _ =>
      obtain rfl : k = i := by omega
      exact absurd hk (not_returns_of_has h (by simp))
    | jump h _ _ =>
      obtain rfl : k = i := by omega
      exact absurd hk (not_returns_of_has h (by simp))
    | @back r result hcode hr =>
      have hfirst : ¬ At i (i + (backCode r result).length) d := fun hat => by
        have hparts := hcode
        rw [returnCode_eq, Program.HasAll.append] at hparts
        refine not_returns_of_hasAll hparts.1 (fun r' hmem => ?_) hi.1
          (by unfold At at hat; omega) hk
        exact absurd rfl (backCode_private result _ hmem).1.2
      obtain ⟨hexec, hpcd, hjump⟩ := hrun.back hcode hpcx hfirst
      obtain ⟨y, hy, hsp, harp, hmemory, hyr, -⟩ := execAll_back hr
      rw [hexec] at hy
      cases hy
      have hposition : k = i + (backCode r result).length := by omega
      rw [hposition]
      refine ⟨hheld.write hsp harp (.inr (.inl (by rw [hheld.arp]))) hmemory, r, hjump, ?_⟩
      rw [hyr, hheld.arp, hheld.memory]
      unfold Core.Owns
      omega

/-- A routine comes back as its callers expect. -/
theorem Sealed.returned (hpc : c0.pc = first) (hrecord : c0.value .sp + 2 ≤ c0.value .arp)
    (hrun : Run env P first last c0 d) (hd : d.pc = k) (hlt : k < last) (hk : Returns P k) :
    ∃ d', (∀ m, step P d m = some (d', m)) ∧
      c0.Returned slots d' := by
  obtain ⟨hheld, r, hhas, hr⟩ := h.held hsizes hclean hpc hrecord hrun hd hlt hk
  refine ⟨d.goto (d.value r), fun m => ?_, hr, ?_, ?_, hheld.memory⟩
  · rw [fetch?_of_has hhas hd]
    rfl
  · rw [Core.value_goto _ _ (by decide), hheld.sp]
  · rw [Core.value_goto _ _ (by decide), hheld.arp]

end

end

/-! ## The routines of a unit -/

section
variable {u : SourceUnit} {t : Tables} {options : Options} {layout : StaticLayout}
  {env : Env} {P : Program}

theorem Routine.Frame.size_eq {r : Routine} {n n' : Nat} (h : r.Frame t n)
    (h' : r.Frame t n') : n = n' := by
  cases r with
  | function f body =>
    obtain ⟨fn, scope, hfn, hscope, hn⟩ := h
    obtain ⟨fn', scope', hfn', hscope', hn'⟩ := h'
    obtain rfl := Option.mem_unique hfn hfn'
    obtain rfl := Option.mem_unique hscope hscope'
    exact Except.ok.inj (hn.symm.trans hn')
  | initializer | allocator => exact Eq.trans h h'.symm
  | thread => exact h.elim

/-- Routines have different labels, so that a label tells the size of a frame. -/
theorem sizes_agree (hu : u.Sound t) : SizesAgree (startEnv u t options layout) P := by
  intro s s' hs hs' heq
  obtain ⟨r, hr, hl, hframe⟩ := Call.Goes.routine hu hs.goes
  obtain ⟨r', hr', hl', hframe'⟩ := Call.Goes.routine hu hs'.goes
  have hnodup : (((startEnv u t options layout).routines u).map
      fun r => r.label? (startEnv u t options layout)).Nodup :=
    List.pairwise_map.2 (routines_apart hu options layout)
  obtain rfl : r = r' := List.inj_on_of_nodup_map hnodup hr hr' (by rw [hl, hl', heq])
  exact hframe.size_eq hframe'

theorem Stops.clean {first : Nat} (h : Stops P first last) : Clean P last := by
  obtain ⟨i, -, rfl, h | ⟨r, h⟩⟩ := h
  · exact .after h (by simp)
  · exact .after h (by simp)

theorem Emit.RoutinesAt.clean {i j : Nat} (ht : env.tables.MethodsRun)
    (hlaid : env.tables.scopes.Laid) (hframes : env.tables.Framed)
    (hready : ∀ r ∈ rs, r.Ready env.tables)
    (h : Emit.RoutinesAt env P rs i j) (hi : Clean P i) {x : Routine} (hx : x ∈ rs) :
    ∃ first last, Emit.Placed env P x.code [] first () last ∧ Clean P first := by
  induction h with
  | nil => cases hx
  | cons hr _ ih =>
    rcases List.mem_cons.1 hx with rfl | hx
    · exact ⟨_, _, hr, hi⟩
    · exact ih (fun r' hr' => hready r' (.tail _ hr'))
        (Routine.tame ht hlaid hframes (hready _ (.head _)) hr).2.clean hx

theorem generate_routine {g : Generated} (hu : u.Sound t) (hg : generate u t options = .ok g)
    {r : Routine} (hr : r ∈ (startEnv u t options g.layout).routines u) : ∃ first last,
      Emit.Placed (startEnv u t options g.layout) g.program r.code [] first () last ∧
      Clean g.program first := by
  obtain ⟨i, j, -, hmain, hroutines⟩ := (generate_at hg).2.parts
  obtain ⟨size, -, hroot⟩ := hmain.mainCode
  obtain ⟨exit, last, -, -, hend, -, rfl⟩ := hroot.parts
  exact hroutines.clean (sound_methodsRun hu) hu.laid (framed_of_sound hu)
    (fun r hr => (routines_ready hu options g.layout hr).1) (.after hend (by simp)) hr

/-- A routine that is not a thread has a frame. -/
theorem routine_frame (hu : u.Sound t) {r : Routine}
    (hr : r ∈ (startEnv u t options layout).routines u)
    (hthread : ∀ index f body, r ≠ .thread index f body) : ∃ slots, r.Frame t slots := by
  cases r with
  | function f body =>
    obtain ⟨fn, scope, hfn, hscope, -⟩ := (routines_ready hu options layout hr).1
    obtain ⟨scope', n, hscope', hn⟩ := framed_of_sound hu f fn hfn
    exact ⟨n, fn, scope', hfn, hscope', hn⟩
  | initializer => exact ⟨1, rfl⟩
  | allocator => exact ⟨1, rfl⟩
  | thread index f body => exact absurd rfl (hthread index f body)

end

section
variable {u : SourceUnit} {t : Tables} {options : Options} {g : Generated}

/-- **Routines keep to the convention.** Whatever a routine does between its entry and a return, the
stack pointer and the frame pointer are as they were, and it has written only to its frame, to the
slot of its result and below the stack pointer. The return goes to the return address. -/
theorem generate_returns (h : u.check = .ok t) (hids : (u.nodes.map (·.id)).Nodup)
    (hg : generate u t options = .ok g) :
    ∀ r ∈ (startEnv u t options g.layout).routines u, (∀ index f body, r ≠ .thread index f body) →
      ∃ slots label first last, r.Frame t slots ∧
        r.label? (startEnv u t options g.layout) = some label ∧
        g.program.target? label = some first ∧
        Emit.Placed (startEnv u t options g.layout) g.program r.code [] first () last ∧
        ∀ (c d : Core) (k : Nat), c.pc = first → c.value .sp + 2 ≤ c.value .arp →
          Run (startEnv u t options g.layout) g.program first last c d → d.pc = k → k < last →
          Returns g.program k → Held slots c d ∧ ∃ d', (∀ m, step g.program d m = some (d', m)) ∧
            c.Returned slots d' := by
  have hu := SourceUnit.check_sound h hids
  intro r hr hthread
  obtain ⟨hready, label, hlabel, -⟩ := routines_ready hu options g.layout hr
  obtain ⟨slots, hframe⟩ := routine_frame hu hr hthread
  obtain ⟨first, last, hplaced, hclean⟩ := generate_routine hu hg hr
  have hentry := Routine.entry_at (sound_methodsRun hu) hready hlabel hplaced
  obtain ⟨⟨B, hB⟩, -⟩ := Routine.sealed (sound_methodsRun hu) hu.laid hready hframe hplaced
  refine ⟨slots, label, first, last, hframe, hlabel, hentry, hplaced,
    fun c d k hpc hrecord hrun hd hlt hk => ?_⟩
  exact ⟨(hB.held (sizes_agree hu) hclean hpc hrecord hrun hd hlt hk).1,
    hB.returned (sizes_agree hu) hclean hpc hrecord hrun hd hlt hk⟩

theorem counterUnit_returns : ∃ t g, counterUnit.check = .ok t ∧
    (counterUnit.nodes.map (·.id)).Nodup ∧ generate counterUnit t {} = .ok g ∧
    .allocator ∈ (startEnv counterUnit t {} g.layout).routines counterUnit ∧
    ∃ slots label first last, Routine.Frame t .allocator slots ∧
      Routine.label? (startEnv counterUnit t {} g.layout) .allocator = some label ∧
      g.program.target? label = some first ∧
      Emit.Placed (startEnv counterUnit t {} g.layout) g.program (Routine.code .allocator) [] first
      () last ∧
      ∀ (c d : Core) (k : Nat), c.pc = first → c.value .sp + 2 ≤ c.value .arp →
        Run (startEnv counterUnit t {} g.layout) g.program first last c d → d.pc = k → k < last →
        Returns g.program k → Held slots c d ∧ ∃ d', (∀ m, step g.program d m = some (d', m)) ∧
          c.Returned slots d' := by
  obtain ⟨t, g, ht, hg⟩ := counterUnit_generated
  have hmem : Routine.allocator ∈ (startEnv counterUnit t {} g.layout).routines counterUnit :=
    List.mem_append_right _ (.head _)
  exact ⟨t, g, ht, counterUnit_nodup, hg, hmem,
    generate_returns ht counterUnit_nodup hg .allocator hmem fun _ _ _ heq => by cases heq⟩

end

/-! ## Calls -/

/-- The function that is called, with the receiver or the new object as its first argument. -/
def Call.function? : Call → Option FunctionId
  | .function _ f _ | .method _ f _ _ | .constructor _ f _ => some f
  | .initializer _ | .allocation => none

/-- What a call does to the core of the caller. -/
structure CallSite.Works (env : Env) (P : Program) (s : CallSite) (entry : Nat) : Prop where
  /-- The callee is entered with its record. -/
  enters : ∀ c d : Core, c.pc = s.first → Run env P s.first s.jump c d → d.pc = s.jump →
    (∀ m, step P d m = some (d.goto entry, m)) ∧ ∃ vs, s.Entered vs c (d.goto entry) ∧
      List.Forall₂ (Argument.Evaluated env P s.first s.jump c d) s.arguments vs
  /-- Once the callee has come back, the caller is as it was, with the result in a register of its
  own. -/
  leaves : ∀ (vs : List Int) (c e f : Core), s.Entered vs c e → e.Returned s.size f →
    f.pc = s.anchor ∧
    ∃ x : Core, (∀ m, Reach P (fun c' m' => c' = x ∧ m' = m) f m) ∧ x.pc = s.last ∧
      Kept s.saved c x ∧
      x.value s.result = f.memory (f.value .arp - 2)
  result : Free s.saved s.result

section
variable {env : Env} {P : Program} {s : CallSite} {entry : Nat}

theorem CallSite.Full.works (hsizes : SizesAgree env P) (hs : s.Full env P)
    (hentry : P.target? s.entry = some entry) :
    s.Works env P entry := by
  have hple := hs.pushes.le
  have hjump : s.jump = s.enter + s.saved.length + 6 := rfl
  refine ⟨fun c d hpc hrun hd => ⟨fun m => ?_, ?_⟩, fun vs c e f he hf => ?_, hs.site.free⟩
  · rw [fetch?_of_has hs.site.has_jump hd]
    simp only [exec, Program.goal?, hentry]
    rfl
  · obtain ⟨c1, hpc1, hrun1, hrun, hstack1, hregs1⟩ :=
      CallSite.zeros_run hs.site hpc hrun (by unfold Code.At; omega)
    obtain ⟨c2, vs, hpc2, hrun2, hrun, hstack2, harp2, hregs2, hvs⟩ :=
      hs.pushes.run hsizes hs.site.general hpc1 hrun
      (by unfold Code.At; omega)
    obtain ⟨e, hpce, hrun3, hrun, hstack3, harp⟩ :=
      CallSite.record_run hs.site hpc2 hrun (by unfold Code.At; omega)
    obtain rfl : d = e := hrun.eq_of_not_at (by unfold Code.At; omega)
    have hentered := CallSite.entered_of_parts hs.site hvs.length_eq.symm hstack1 hregs1 hstack2
      harp2 hregs2 hstack3 harp
    refine ⟨vs, hentered.goto entry, hvs.imp fun a v ha => ?_⟩
    obtain ⟨x, hpcx, hx1, hx2, hxv⟩ := ha
    exact ⟨x, hpcx, hrun1.trans hx1, hx2.trans hrun3, hxv⟩
  · have hpcf : f.pc = s.anchor := hf.pc.trans he.back
    obtain ⟨x, hx, hkept, hresult⟩ := he.leave hs.site hf
    have hprivate := leaveCode_private s.saved s.size s.result
    have hlen : s.anchor + (leaveCode s.saved s.size s.result).length = s.last := by
      rw [length_leaveCode]
      exact (Nat.add_assoc ..).symm
    have hall := fun m => execAll_of_private hprivate hx m
    have hpcx : x.pc = s.last := by
      rw [execAll_pc (fun y hy => (hprivate y hy).1) hx, hpcf, ← hlen]
      rfl
    refine ⟨hpcf, x, fun m => ?_, hpcx, hkept, hresult⟩
    exact Reach.straight hs.site.leaves (fun y hy => (hprivate y hy).1) hpcf (hall m) fun _ =>
      .here ⟨rfl, rfl⟩

end

/-! ## New objects -/

namespace Emit

/-- A call lies between two positions. It saves these registers, and its first argument is the value
of `object`. -/
abbrev CalledAt (env : Env) (c : Call) (saved : List Register) (object : Register) :
    Program → Nat → Register → Nat → Prop :=
  SiteAt env c saved fun as => as.head?.map (·.register) = some object

variable {env : Env} {used : List Register} {ctx : Context} {es : List Expr}

theorem SiteAt.called {Q : List Argument → Prop} {object r : Register}
    (h : SiteAt env c used Q P i r j) (hQ : ∀ as, Q as → as.head?.map (·.register) = some object) :
    CalledAt env c used object P i r j := by
  obtain ⟨s, hs, hc, hsaved, hfirst, hlast, hr, has⟩ := h
  exact ⟨s, hs, hc, hsaved, hfirst, hlast, hr, hQ _ has⟩

/-- A call whose result is given back. -/
theorem Lies.released {m : Emit Register} {C : Program → Nat → Register → Nat → Prop}
    (h : Lies env m used (used ++ [·]) C) :
    Lies env (m >>= release) used (fun _ => used) fun P i _ j => ∃ r, C P i r j := by
  refine (h.bind fun r => Lies.ofAdds (fun _ => []) (fun _ => used) fun _ hs =>
    (release_last hs).weaken fun _ _ hr => (EmitState.Adds.refl hs).registers hr).weaken
    fun _ _ _ _ h => ?_
  obtain ⟨r, k, hcall, -, rfl⟩ := h
  exact ⟨r, hcall⟩

theorem alloc_called (size : Register) : Lies env (alloc size) (used ++ [size]) (used ++ [·])
    (CalledAt env .allocation used size) :=
  (alloc_site size).weaken fun _ _ _ _ h => h.called fun _ h => h.elim fun _ h => h ▸ rfl

theorem runInitializer_called (x : String) (object : Register) :
    Lies env (runInitializer x object) used (fun _ => used) fun P i _ j =>
      ∀ l, env.initializers.lookup x = some l → ∃ r,
          CalledAt env (.initializer x) used object P i r j := by
  refine .read ?_
  cases hx : env.initializers.lookup x with
  | none => exact Lies.pure (fun _ => used) fun _ _ l hl => by cases hl
  | some entry =>
    refine (initializer_site hx object).released.weaken fun P i _ j h _ _ => ?_
    obtain ⟨r, hsite⟩ := h
    exact ⟨r, hsite.called fun _ h => h.elim fun _ h => h ▸ rfl⟩

theorem runConstructor_called {node : NodeId} (ht : env.tables.MethodsRun)
    (hnew : env.tables.HasConstructor node es.length)
    (hes : Expr.ReadyAll env.tables ctx.function es) (object : Register) :
    Lies env (runConstructor node es.length (pushAll ctx es) object) used (fun _ => used)
      fun P i _ j =>
      ∀ f, env.tables.functions.lookup node = some f →
        ∃ r, CalledAt env (.constructor ctx f es) used object P i r j := by
  refine .read ?_
  cases hf : env.tables.functions.lookup node with
  | none => exact Lies.pure (fun _ => used) fun _ _ l hl => by cases hl
  | some f =>
    refine (constructor_site ht hnew hf (pushAll_flows ht es hes used) object).released.weaken
      fun P i _ j h f' hf' => ?_
    obtain ⟨r, hsite⟩ := h
    cases hf'
    refine ⟨r, hsite.called fun as h => ?_⟩
    obtain ⟨_, _, rfl, -⟩ := h
    rfl

theorem Placed.kept {e : Expr} (ht : env.tables.MethodsRun) (hsizes : SizesAgree env P)
    (he : e.Ready env.tables ctx.function) (h : Placed env P (expr ctx e) used i r j) :
    Free used r ∧
      ∀ c d : Core, c.pc = i → Run env P i j c d → d.pc = j → Kept used c d := by
  have hgeneral : ∀ x ∈ used, x ∈ generalPurpose := by
    obtain ⟨s, _, _, hs, _⟩ := h
    exact fun x hx => hs.mem hx
  obtain ⟨hflow, hfree⟩ := h.lies (expr_flows ht e he used).free
  refine ⟨hfree, fun c d hpc hrun hd => ?_⟩
  obtain ⟨x, hpcx, -, hrun, hk⟩ := hflow.run hsizes hgeneral hpc hrun (by unfold At; omega)
  obtain rfl : d = x := hrun.eq_of_not_at (by unfold At; omega)
  exact hk

/-- The calls that make an object: it is allocated, its fields are initialized, and its constructor
is called. The register of the result holds it from the first call on. -/
structure Creates (env : Env) (P : Program) (ctx : Context) (node : NodeId) (x : String)
    (es : List Expr) (used : List Register) (r : Register) (last : Nat) : Prop where
  calls : ∃ (size : Register) (i j k : Nat), CalledAt env .allocation used size P i r j ∧
    (∀ l, env.initializers.lookup x = some l →
      ∃ r', CalledAt env (.initializer x) (used ++ [r]) r P j r' k) ∧
    ∀ f, env.tables.functions.lookup node = some f →
      ∃ r', CalledAt env (.constructor ctx f es) (used ++ [r]) r P k r' last

theorem newObject_creates {n : Node} {x : String} (ht : env.tables.MethodsRun)
    (he : (Expr.new n x es).Ready env.tables ctx.function) :
    Lies env (expr ctx (.new n x es)) used (used ++ [·]) fun P _ r j =>
      Creates env P ctx n.id x es used r j := by
  simp only [expr, newObject_eq]
  refine .memberScope fun scope => .query fun words _ => .here fun _ => Lies.weaken
    ((constantRegister_flows _).bind fun size => (alloc_called size).bind fun object => .comment
      ((runInitializer_called x object).bind fun _ =>
        (runConstructor_called ht he.2.1 he.2.2 object).bind fun _ => Lies.pure
          (D := fun _ i y j => y = object ∧ i = j) (used ++ [·]) fun _ _ => ⟨rfl, rfl⟩))
    fun P i r j h => ?_
  obtain ⟨size, _, -, object, _, halloc, _, _, hinit, _, _, hconstructor, rfl, rfl⟩ := h
  exact ⟨size, _, _, _, halloc, hinit, hconstructor⟩

/-- The calls in the code of an expression, apart from the calls in the code of its parts. -/
def CallsAt (env : Env) (ctx : Context) (used : List Register) (P : Program) (i : Nat)
    (r : Register) (j : Nat) : Expr → Prop
  | .call n _ es => ∃ f fn, env.tables.functions.lookup n.id = some f ∧
      env.tables.function? f = some fn ∧
      (fn.isThread = false → SiteAt env (.function ctx f es) used (Evaluated ctx es) P i r j)
  | .methodCall n o _ es => ∃ f, env.tables.functions.lookup n.id = some f ∧
      SiteAt env (.method ctx f o es) used (Evaluated ctx (o :: es)) P i r j
  | .new n x es => Creates env P ctx n.id x es used r j
  | .arrayLiteral .. | .newArray .. | .literal _ (.string _) =>
      ∃ size k l, CalledAt env .allocation used size P k r l
  | _ => True

theorem expr_calls (ht : env.tables.MethodsRun) (e : Expr) (he : e.Ready env.tables ctx.function) :
    Lies env (expr ctx e) used (used ++ [·]) fun P i r j => CallsAt env ctx used P i r j e := by
  cases e with
  | call n x es =>
    refine (functionCall_site he.1 (pushAll_flows ht es he.2 used)).weaken fun P i r j h => ?_
    obtain ⟨f, fn, hf, hfn, h⟩ := h
    exact ⟨f, fn, hf, hfn, fun hthread => by simpa [hthread] using h⟩
  | methodCall n o x es =>
    exact methodCall_site ht he.1 (pushValue_flows (expr_flows ht o he.2.1)
      (pushAll_flows ht es he.2.2 used))
  | new n x es => exact newObject_creates ht he
  | arrayLiteral n es =>
    refine Lies.weaken ((constantRegister_flows _).bind fun size =>
      (alloc_called size).bind fun block =>
      (elements_flows ht es he block 0 _).bind fun _ => Lies.pure (D := fun _ _ y _ => y = block)
        (used ++ [·]) fun _ _ => rfl) fun P i r j h => ?_
    obtain ⟨size, k, -, block, l, halloc, _, _, -, rfl⟩ := h
    exact ⟨size, k, l, halloc⟩
  | newArray n t length =>
    refine ((expr_flows ht length he used).bind fun size => alloc_called size).weaken
      fun P i r j h => ?_
    obtain ⟨size, k, -, halloc⟩ := h
    exact ⟨size, k, j, halloc⟩
  | literal n l =>
    cases l with
    | string str =>
      refine Lies.weaken ((constantRegister_flows _).bind fun size => .here fun _ =>
        (alloc_called size).bind fun block => .comment ((writeChars_flows block str.toList 0).bind
          fun _ => (writeElement_flows block .zero str.length).bind fun _ =>
          Lies.pure (D := fun _ _ y _ => y = block)
          (used ++ [·]) fun _ _ => rfl)) fun P i r j h => ?_
      obtain ⟨size, k, -, block, l, halloc, _, _, -, _, _, -, rfl⟩ := h
      exact ⟨size, k, l, halloc⟩
    | int | bool | char => exact expr_lies.weaken fun _ _ _ _ _ => trivial
  | name | enumValue | index | field | unary | binary =>
    exact expr_lies.weaken fun _ _ _ _ _ => trivial

end Emit

/-! ## The calls of a unit -/

theorem Emit.RoutinesAt.covers {env : Env} (h : Emit.RoutinesAt env P rs i j) (hi : i ≤ k)
    (hk : k < j) : ∃ r ∈ rs,
    ∃ first last, Emit.Placed env P r.code [] first () last ∧ k ∈ Set.Ico first last := by
  induction h with
  | nil => exact absurd hk (Nat.not_lt.2 hi)
  | @cons r rs i j l hr _ ih =>
    rcases Nat.lt_or_ge k j with hlt | hge
    · exact ⟨r, .head _, i, j, hr, hi, hlt⟩
    · obtain ⟨r', hr', hplaced⟩ := ih hge hk
      exact ⟨r', .tail _ hr', hplaced⟩

/-- The frame pointer is set by calls, and once at the beginning of a core's work. -/
inductive SetsFrame (env : Env) (P : Program) (k : Nat) : Prop
  | call (s : CallSite) : s.Full env P → s.jump = k + 1 → SetsFrame env P k
  | root {first slots : Nat} {exit : LabelId} : P.HasAll first (Emit.rootCode slots exit) →
      k = first + slots + 5 → SetsFrame env P k

/-- The definition of a function with this entry: the size of its frame, and its parameters at the
first offsets of it. -/
def Defined (u : SourceUnit) (t : Tables) (env : Env) (f : FunctionId) (entry : LabelId)
    (size arity : Nat) : Prop :=
  ∃ d fn scope parent sc, u.definitions[f]? = some d ∧ t.function? f = some fn ∧
    fn.scope = some scope ∧ env.entries.get? f = some entry ∧
    t.scopes.FrameAt scope parent d.names sc ∧
    t.scopes.frameSize scope = .ok size ∧ d.names.length = arity

/-- The callee of a call: a routine of the unit, whose frame has the size of the record, and whose
parameters have the offsets of the arguments. -/
structure CallSite.Reaches (u : SourceUnit) (t : Tables) (env : Env) (P : Program) (s : CallSite)
    (entry : Nat) : Prop where
  routine : ∃ r ∈ env.routines u, r.label? env = some s.entry ∧ r.Frame t s.size ∧
    ∃ last, Emit.Placed env P r.code [] entry () last
  position : P.target? s.entry = some entry
  parameters : ∀ f, s.call.function? = some f → Defined u t env f s.entry s.size s.arguments.length

/-- What the calls of a generated program are like. -/
structure CallsWork (u : SourceUnit) (t : Tables) (env : Env) (P : Program) : Prop where
  frames : ∀ k, P.Has k setFrame.1 setFrame.2 → SetsFrame env P k
  calls : ∀ s : CallSite, s.Full env P → ∃ entry, s.Reaches u t env P entry ∧ s.Works env P entry
  /-- The registers in use keep their values while an expression is evaluated, and its result is in
  another one. The calls that it stands for are calls in the program. -/
  expressions : ∀ (ctx : Context) (e : Expr) (used : List Register) (i j : Nat) (r : Register),
    e.Ready t ctx.function → Emit.Placed env P (Emit.expr ctx e) used i r j →
      Emit.CallsAt env ctx used P i r j e ∧ Free used r ∧
      ∀ c d : Core, c.pc = i → Run env P i j c d → d.pc = j → Kept used c d

section
variable {u : SourceUnit} {t : Tables} {options : Options} {layout : StaticLayout} {P : Program}
  {g : Generated}

theorem Call.Goes.definition (hu : u.Sound t) {l : LabelId} {size : Nat} {f : FunctionId}
    (h : c.Goes (startEnv u t options layout) l size) (hf : c.function? = some f) :
    Defined u t (startEnv u t options layout) f l size c.sources.length := by
  have hentry : ∀ {f n}, FunctionEntry (startEnv u t options layout) f n l size →
      n = c.sources.length →
      Defined u t (startEnv u t options layout) f l size c.sources.length := by
    rintro f n ⟨fn, scope, hfn, -, hlen, hscope, hsize, hl⟩ rfl
    obtain ⟨d, hd⟩ : ∃ d, u.definitions[f]? = some d :=
      ⟨_, List.getElem?_eq_getElem (hu.functions f fn hfn)⟩
    obtain ⟨fn', scope', parent, sc, hfn', hscope', hlen', -, hframe, -⟩ :=
      (hu.definitions f d hd).ready
    obtain rfl := Option.mem_unique hfn' hfn
    obtain rfl := Option.mem_unique hscope' hscope
    exact ⟨d, fn', scope', parent, sc, hd, hfn', hscope', hl, hframe, hsize, hlen'.symm.trans hlen⟩
  cases h with
  | function h | method h | constructor h =>
    cases hf
    exact hentry h (by simp [Call.sources])
  | initializer | allocation => cases hf

theorem generate_setsFrame (hu : u.Sound t) (hg : generate u t options = .ok g)
    (hset : g.program.Has k setFrame.1 setFrame.2) :
    SetsFrame (startEnv u t options g.layout) g.program k := by
  obtain ⟨i, j, hdispatch, hmain, hroutines⟩ := (generate_at hg).2.parts
  rcases Nat.lt_or_ge k j with hlt | hge
  · obtain ⟨-, -, ⟨exit, hroot⟩, -, hbuilt⟩ :=
      main_storage hu (generate_spacious hu hg) hdispatch hmain
    rcases hbuilt k ⟨Nat.zero_le k, hlt⟩ hset with hk | ⟨s, hs, hk⟩
    · exact .root hroot hk
    · exact .call s hs hk
  · obtain ⟨r, hr, first, last, hplaced, hk⟩ :=
      hroutines.covers hge (Slots.lt_of_get? hset.choose_spec)
    obtain ⟨slots, hslots⟩ := routine_slots hu hr
    rcases Routine.builds (sound_methodsRun hu) hu.laid
      (routines_ready hu options g.layout hr).1 hslots hplaced hk
      hset with ⟨s, hs, hk⟩ | ⟨-, hk, exit, hroot⟩
    · exact .call s hs hk
    · exact .root hroot hk

/-- **Calls keep to the convention.** A call enters a routine with the arguments and zeros in its
frame, and with its own frame pointer and return address below it. When the routine has come back,
the caller goes on with its stack and its registers as they were, and with the result in a free
register. -/
theorem generate_calls (h : u.check = .ok t) (hids : (u.nodes.map (·.id)).Nodup)
    (hg : generate u t options = .ok g) :
    CallsWork u t (startEnv u t options g.layout) g.program := by
  have hu := SourceUnit.check_sound h hids
  have ht := sound_methodsRun hu
  refine ⟨fun k hk => generate_setsFrame hu hg hk, fun s hs => ?_, fun ctx e used i j r he hp =>
    ⟨hp.lies (Emit.expr_calls ht e he), hp.kept ht (sizes_agree hu) he⟩⟩
  obtain ⟨r, hr, hl, hframe⟩ := Call.Goes.routine hu hs.site.goes
  obtain ⟨first, last, hplaced, -⟩ := generate_routine hu hg hr
  have hentry := Routine.entry_at ht (routines_ready hu options g.layout hr).1 hl hplaced
  refine ⟨first, ⟨⟨r, hr, hl, hframe, last, hplaced⟩, hentry, fun f hf => ?_⟩,
    hs.works (sizes_agree hu) hentry⟩
  have hdefined := hs.site.goes.definition hu hf
  rwa [← hs.site.sources, List.length_map] at hdefined

theorem counterUnit_calls : ∃ t g, counterUnit.check = .ok t ∧
    (counterUnit.nodes.map (·.id)).Nodup ∧ generate counterUnit t {} = .ok g ∧
    CallsWork counterUnit t (startEnv counterUnit t {} g.layout) g.program := by
  obtain ⟨t, g, ht, hg⟩ := counterUnit_generated
  exact ⟨t, g, ht, counterUnit_nodup, hg, generate_calls ht counterUnit_nodup hg⟩

end

end Awl.Code
