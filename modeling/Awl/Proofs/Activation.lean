import Awl.Proofs.Containment
import Awl.Proofs.Requests

/-!
# Activations of routines

What a routine does between its entry and its return, apart from what its callees do. A `Move` is an
instruction of the routine itself, or a whole call: the callee may have done anything, as long as it
comes back as a routine has to (`Core.Returned`). In particular it may have used other cores, so
that the contents of the shared memory are not known from one instruction to the next (`Core.Step`).

A `Run` that goes through the code of an expression comes out with the stack pointer, the frame
pointer, the registers in use and the stack as they were (`Flow.run`). For a call this holds because
of the record that it builds (`CallSite.Entered`) and takes down again (`CallSite.Entered.leave`).
-/

namespace Awl

variable {c3 c1 c2 d : Core} {x : Ins} {vs : List Int} {keep : List Register} {m' m : Memory}
  {i j : Nat} {r : Register}

namespace Machine

/-! ## Words of the memory -/

/-- The words from an address on. -/
def words (m : Memory) : Int → Nat → List Int
  | _, 0 => []
  | a, n + 1 => m a :: words m (a + 1) n

@[simp] theorem length_words (m : Memory) (a : Int) (n : Nat) : (words m a n).length = n := by
  induction n generalizing a with
  | zero => rfl
  | succ n ih => rw [words, List.length_cons, ih]

theorem words_add (m : Memory) (a : Int) (n k : Nat) :
    words m a (n + k) = words m a n ++ words m (a + n) k := by
  induction n generalizing a with
  | zero => simp [words]
  | succ n ih =>
    rw [Nat.add_right_comm, words, words, ih, List.cons_append, Int.natCast_add, Int.natCast_one,
      Int.add_assoc, Int.add_comm 1]

theorem words_congr {a : Int} {n : Nat} (h : ∀ b, a ≤ b → b < a + n → m' b = m b) :
    words m' a n = words m a n := by
  induction n generalizing a with
  | zero => rfl
  | succ n ih =>
    rw [words, words, h a (Int.le_refl a) (by omega), ih fun b hb hlt => h b (by omega) (by omega)]

/-! ## Instructions without requests -/

/-- An instruction that is followed by the next one and has nothing to do with the shared memory. -/
def Ins.Private (x : Ins) : Prop := x.Plain ∧ x.1 ≠ .read ∧ x.1 ≠ .write ∧ x.1 ≠ .testAndSet

instance (x : Ins) : Decidable x.Private := inferInstanceAs (Decidable (_ ∧ _ ∧ _ ∧ _))

section
variable {P : Program} {c c' : Core} {m m' : Memory} {code : List Ins}

theorem Ins.Private.request? (h : x.Private) : c.request? x.1 x.2 = none := by
  unfold Core.request?
  split
  · exact absurd ‹_› h.2.1
  · exact absurd ‹_› h.2.2.1
  · exact absurd ‹_› h.2.2.2
  · rfl

theorem Ins.Private.exec (h : x.Private) (he : Machine.exec P x.1 x.2 c m = some (c', m'))
    (m1 : Memory) :
    Machine.exec P x.1 x.2 c m1 = some (c', m1) := by
  rw [exec_of_request?_eq_none m h.request?, he]
  rfl

theorem execAll_append (code code' : List Ins) : execAll P (code ++ code') c m =
    (execAll P code c m).bind fun s => execAll P code' s.1 s.2 := by
  induction code generalizing c m with
  | nil => rfl
  | cons x code ih =>
    simp only [execAll, Option.bind_assoc]
    exact congrArg _ (funext fun s => ih)

/-- The shared memory plays no part in such code. -/
theorem execAll_of_private (hp : ∀ x ∈ code, x.Private) (h : execAll P code c m = some (c', m'))
    (m1 : Memory) : execAll P code c m1 = some (c', m1) := by
  induction code generalizing c m with
  | nil =>
    cases h
    rfl
  | cons x code ih =>
    obtain ⟨⟨c1, m2⟩, hx, h⟩ := Option.bind_eq_some_iff.1 h
    rw [execAll, (hp x (.head _)).exec hx m1]
    exact ih (fun y hy => hp y (.tail _ hy)) h

theorem execAll_pc (hp : ∀ x ∈ code, x.Plain) (h : execAll P code c m = some (c', m')) :
    c'.pc = c.pc + code.length := by
  induction code generalizing c m with
  | nil =>
    cases h
    simp
  | cons x code ih =>
    obtain ⟨⟨c1, m1⟩, hx, h⟩ := Option.bind_eq_some_iff.1 h
    rw [ih (fun y hy => hp y (.tail _ hy)) h, exec_pc (hp x (.head _)) hx, List.length_cons]
    omega

/-! ## Pushes and pops -/

/-- The words `vs` have been pushed, the first one first. -/
structure Stacked (vs : List Int) (c c' : Core) : Prop where
  sp : c'.value .sp = c.value .sp - vs.length
  above : ∀ a, c.value .sp ≤ a → c'.memory a = c.memory a
  words : words c'.memory (c'.value .sp) vs.length = vs.reverse

theorem Stacked.refl (c : Core) : Stacked [] c c :=
  ⟨by simp, fun _ _ => rfl, rfl⟩

theorem Stacked.trans {ws : List Int} (h : Stacked vs c1 c2) (h' : Stacked ws c2 c3) :
    Stacked (vs ++ ws) c1 c3 := by
  have hsp := h.sp
  have hsp' := h'.sp
  refine ⟨?_, fun a ha => ?_, ?_⟩
  · rw [List.length_append]
    omega
  · rw [h'.above a (by omega), h.above a ha]
  · have hlow : c3.value .sp + ws.length = c2.value .sp := by omega
    rw [List.length_append, Nat.add_comm, words_add, h'.words, hlow, words_congr fun b hb _ =>
      h'.above b hb, h.words, List.reverse_append]

theorem Stacked.set (h : Stacked vs c c') (hr : r ≠ .sp) (v : Int) :
    Stacked vs c (c'.next.set r v) := by
  have hsp : (c'.next.set r v).value .sp = c'.value .sp := by
    rw [Core.value_set_of_ne _ _ hr.symm, Core.value_next _ (by decide)]
  exact ⟨hsp.trans h.sp, h.above, by rw [hsp]; exact h.words⟩

theorem exec_push (r : Register) : ∃ x, exec P .push [.register r] c m = some (x, m) ∧
    Stacked [c.value r] c x ∧ ∀ r', r' ≠ .sp → r' ≠ .pc → x.value r' = c.value r' := by
  refine ⟨_, rfl, ?_, fun x hx hxp => ?_⟩
  · have hsp : ((c.next.set .sp (c.value .sp - 1)).store (c.value .sp - 1) (c.value r)).value .sp =
        c.value .sp - 1 := by
      rw [Core.value_store, Core.value_set_self _ _ (by decide) (by decide)]
    refine ⟨hsp, fun a ha => Memory.write_of_ne _ _ (by omega), ?_⟩
    rw [hsp, List.length_singleton, Machine.words, Core.store_memory, Memory.write_same]
    rfl
  · rw [Core.value_store, Core.value_set_of_ne _ _ hx, Core.value_next _ hxp]

theorem execAll_pushes (rs : List Register) (hrs : ∀ r ∈ rs, r ≠ .sp ∧ r ≠ .pc) :
    ∃ x, execAll P (rs.map .push) c m = some (x, m) ∧ Stacked (rs.map c.value) c x ∧
      ∀ r', r' ≠ .sp → r' ≠ .pc → x.value r' = c.value r' := by
  induction rs generalizing c with
  | nil => exact ⟨c, rfl, .refl c, fun _ _ _ => rfl⟩
  | cons r rs ih =>
    obtain ⟨x, hx, hpushed, hkept⟩ := exec_push r
    obtain ⟨y, hy, hrest, hkept'⟩ := ih fun r' hr' => hrs r' (.tail _ hr')
    have hvalues : rs.map x.value = rs.map c.value := List.map_congr_left fun r' hr' =>
      hkept r' (hrs r' (.tail _ hr')).1 (hrs r' (.tail _ hr')).2
    refine ⟨y, ?_, ?_, fun r' hs hp => (hkept' r' hs hp).trans (hkept r' hs hp)⟩
    · rw [List.map_cons, execAll, hx]
      exact hy
    · rw [hvalues] at hrest
      exact hpushed.trans hrest

/-- The words at the top of the stack go into registers. -/
structure Popped (rs : List Register) (c c' : Core) : Prop where
  sp : c'.value .sp = c.value .sp + rs.length
  memory : c'.memory = c.memory
  others : ∀ r, r ∉ rs → r ≠ .sp → r ≠ .pc → c'.value r = c.value r
  values : rs.map c'.value = words c.memory (c.value .sp) rs.length

theorem execAll_pops (rs : List Register) (hrs : ∀ r ∈ rs, r ∈ Code.generalPurpose)
    (hnodup : rs.Nodup) :
    ∃ x, execAll P (rs.map .pop) c m = some (x, m) ∧ Popped rs c x := by
  induction rs generalizing c with
  | nil => exact ⟨c, rfl, by simp, rfl, fun _ _ _ _ => rfl, rfl⟩
  | cons r rs ih =>
    have hne : r ≠ .zero ∧ r ≠ .pc ∧ r ≠ .sp := by
      have := hrs r (.head _)
      refine ⟨?_, ?_, ?_⟩ <;> rintro rfl <;> exact absurd this (by decide)
    obtain ⟨x, hx, h⟩ := ih (c := (c.next.set .sp (c.value .sp + 1)).set r (c.memory (c.value .sp)))
      (fun r' hr' => hrs r' (.tail _ hr')) (List.nodup_cons.1 hnodup).2
    have hsp : ((c.next.set .sp (c.value .sp + 1)).set r (c.memory (c.value .sp))).value .sp =
        c.value .sp + 1 := by
      rw [Core.value_set_of_ne _ _ hne.2.2.symm, Core.value_set_self _ _ (by decide) (by decide)]
    have hr : x.value r = c.memory (c.value .sp) := by
      rw [h.others r (List.nodup_cons.1 hnodup).1 hne.2.2 hne.2.1,
        Core.value_set_self _ _ hne.1 hne.2.1]
    refine ⟨x, hx, ?_, h.memory, fun y hy hys hyp => ?_, ?_⟩
    · rw [h.sp, List.length_cons]
      omega
    · rw [h.others y (fun hmem => hy (.tail _ hmem)) hys hyp, Core.value_set_of_ne _ _ fun heq =>
        hy (List.mem_cons.2 (.inl heq)), Core.value_set_of_ne _ _ hys, Core.value_next _ hyp]
    · rw [List.map_cons, h.values, hr, hsp]
      rfl

end

/-! ## Returns -/

/-- One instruction, for some contents of the shared memory. -/
def Core.Step (P : Program) (c c' : Core) : Prop := ∃ m m', step P c m = some (c', m')

/-- The addresses that belong to a routine which is entered with this core: the slots of its frame,
its result and what is below the stack pointer. -/
def Core.Owns (size : Nat) (c : Core) (a : Int) : Prop :=
  (c.value .arp < a ∧ a ≤ c.value .arp + size) ∨ a = c.value .arp - 2 ∨ a < c.value .sp

/-- A routine that was entered with `c` has come back. -/
structure Core.Returned (size : Nat) (c c' : Core) : Prop where
  pc : c'.pc = c.memory (c.value .arp - 1)
  sp : c'.value .sp = c.value .sp
  arp : c'.value .arp = c.value .arp
  memory : ∀ a, ¬ c.Owns size a → c'.memory a = c.memory a

end Machine

namespace Code

open Machine

/-! ## Records -/

section
variable {P : Program} {c : Core} {m : Memory} {saved : List Register}

/-- The instructions of a call between its arguments and its jump. -/
def recordCode (saved : List Register) (returnLabel : LabelId) : List Ins :=
  [.push .arp, .constLabel returnLabel .arp, .push .arp, .push .zero] ++ saved.map .push ++
    [.const (saved.length + 2) .arp, .compute .add .sp .arp .arp]

theorem length_recordCode (returnLabel : LabelId) :
    (recordCode saved returnLabel).length = saved.length + 6 := by
  simp [recordCode]

theorem ne_of_general (h : r ∈ generalPurpose) : r ≠ .zero ∧ r ≠ .sp ∧ r ≠ .pc ∧ r ≠ .arp := by
  refine ⟨?_, ?_, ?_, ?_⟩ <;> rintro rfl <;> exact absurd h (by decide)

theorem execAll_record {l : LabelId} {anchor : Nat} (hl : P.target? l = some anchor)
    (hsaved : ∀ r ∈ saved, r ∈ generalPurpose) :
    ∃ x, execAll P (recordCode saved l) c m = some (x, m) ∧
      Stacked ([c.value .arp, (anchor : Int), 0] ++ saved.map c.value) c x ∧
      x.value .arp = x.value .sp + (saved.length + 2) ∧ ∀ r ∈ generalPurpose,
      x.value r = c.value r := by
  obtain ⟨x1, h1, hs1, hr1⟩ := exec_push (P := P) (m := m) .arp
  obtain ⟨x2, h2, hs2, hr2⟩ := exec_push (P := P) (c := x1.next.set .arp anchor) (m := m) .arp
  obtain ⟨x3, h3, hs3, hr3⟩ := exec_push (P := P) (m := m) .zero
  obtain ⟨x4, h4, hs4, hr4⟩ := execAll_pushes (P := P) (m := m) saved fun r hr =>
    ⟨(ne_of_general (hsaved r hr)).2.1, (ne_of_general (hsaved r hr)).2.2.1⟩
  have hgeneral : ∀ r ∈ generalPurpose, x3.value r = c.value r := fun r hr => by
    obtain ⟨-, hsp, hpc, harp⟩ := ne_of_general hr
    rw [hr3 r hsp hpc, hr2 r hsp hpc, Core.value_set_of_ne _ _ harp, Core.value_next _ hpc,
      hr1 r hsp hpc]
  have hvalues : saved.map x3.value = saved.map c.value :=
    List.map_congr_left fun r hr => hgeneral r (hsaved r hr)
  rw [hvalues] at hs4
  have hstack := ((((hs1.set (by decide) anchor).trans hs2).trans hs3).trans hs4).set (r := .arp)
    (by decide)
    (saved.length + 2 : Int) |>.set (r := .arp) (by decide)
    (x4.value .sp + (saved.length + 2 : Int))
  have hconst : exec P .const [.immediate (.label l), .register .arp] x1 m =
      some (x1.next.set .arp anchor, m) := by
    rw [exec, Program.immediate?, hl]
    rfl
  have hadd : exec P .compute [.operator .add, .register .sp, .register .arp, .register .arp]
      (x4.next.set .arp (saved.length + 2)) m = some
        ((x4.next.set .arp (saved.length + 2 : Int)).next.set .arp
        (x4.value .sp + (saved.length + 2 : Int)), m) := by
    rfl
  refine ⟨_, ?_, hstack, ?_, fun r hr => ?_⟩
  · rw [recordCode, execAll_append, execAll_append]
    simp only [execAll, h1, hconst, h2, h3, h4, Option.bind_some]
    rw [exec, Program.immediate?, Option.map_some, Option.bind_some, hadd, Option.bind_some]
  · rw [Core.value_set_self _ _ (by decide) (by decide), Core.value_set_of_ne _ _ (by decide),
      Core.value_next _ (by decide), Core.value_set_of_ne _ _ (by decide),
      Core.value_next _ (by decide)]
  · obtain ⟨-, hsp, hpc, harp⟩ := ne_of_general hr
    rw [Core.value_set_of_ne _ _ harp, Core.value_next _ hpc, Core.value_set_of_ne _ _ harp,
      Core.value_next _ hpc, hr4 r hsp hpc, hgeneral r hr]

theorem execAll_leave (size : Nat) {result : Register} (hgeneral : ∀ r ∈ saved, r ∈ generalPurpose)
    (hnodup : saved.Nodup) (hresult : Free saved result) :
    ∃ x, execAll P (leaveCode saved size result) c m = some (x, m) ∧
      x.value .sp = c.value .arp + (size + 1) ∧
      x.value .arp = c.memory (c.value .arp) ∧ x.value result = c.memory (c.value .arp - 2) ∧
      x.memory = c.memory ∧
      saved.reverse.map x.value = words c.memory (c.value .sp) saved.length := by
  obtain ⟨y, hy, h⟩ := execAll_pops saved.reverse
    (fun r hr => hgeneral r (List.mem_reverse.1 hr)) (List.nodup_reverse.2 hnodup)
  obtain ⟨hz, hsp, hpc, harp⟩ := ne_of_general hresult.general
  have hy_arp : y.value .arp = c.value .arp := by
    rw [h.others .arp (fun hmem => (ne_of_general (hgeneral _ (List.mem_reverse.1 hmem))).2.2.2 rfl)
      (by decide)
      (by decide), Core.value_next _ (by decide)]
  have hnext : ∀ {x : Core} {r r' : Register} {v : Int}, r' ≠ r → r' ≠ .pc →
      (x.next.set r v).value r' = x.value r' := fun hne hp => by
    rw [Core.value_set_of_ne _ _ hne, Core.value_next _ hp]
  have hself : ∀ {x : Core} {v : Int}, (x.next.set result v).value result = v :=
    Core.value_set_self _ _ hz hpc
  -- The stack pointer is set first, and the frame pointer last, when it is no longer needed.
  let y1 := y.next.set result (size + 1)
  let y2 := y1.next.set .sp (c.value .arp + (size + 1))
  let y3 := y2.next.set result 2
  let y4 := y3.next.set result (c.value .arp - 2)
  let y5 := y4.next.set result (c.memory (c.value .arp - 2))
  let y6 := y5.next.set .arp (c.memory (c.value .arp))
  have hmemory : y.memory = c.memory := h.memory
  have h2 : exec P .compute [.operator .add, .register .arp, .register result, .register .sp] y1 m =
      some (y2, m) := by
    rw [exec, hself, hnext harp.symm (by decide), hy_arp]
    rfl
  have h4 : exec P .compute [.operator .sub, .register .arp, .register result,
      .register result] y3 m =
      some (y4, m) := by
    rw [exec, hself, hnext harp.symm (by decide), hnext (by decide) (by decide),
      hnext harp.symm (by decide), hy_arp]
    rfl
  have h5 : exec P .load [.address (.indirect result), .register result] y4 m = some (y5, m) := by
    rw [exec, Core.address, hself, show y4.memory = c.memory from hmemory]
  have hy5 : y5.value .arp = c.value .arp := by
    rw [hnext harp.symm (by decide), hnext harp.symm (by decide), hnext harp.symm (by decide),
      hnext (by decide) (by decide), hnext harp.symm (by decide), hy_arp]
  have h6 : exec P .load [.address (.indirect .arp), .register .arp] y5 m = some (y6, m) := by
    rw [exec, Core.address, hy5, show y5.memory = c.memory from hmemory]
  refine ⟨y6, ?_, ?_, ?_, ?_, hmemory, ?_⟩
  · have h1 : exec P .const [.immediate (.value (size + 1)), .register result] y m =
      some (y1, m) := rfl
    have h3 : exec P .const [.immediate (.value 2), .register result] y2 m = some (y3, m) := rfl
    have h0 : exec P .nop [] c m = some (c.next, m) := rfl
    rw [leaveCode, List.cons_append, execAll, h0, Option.bind_some, execAll_append, hy]
    simp only [execAll, h1, h2, h3, h4, h5, h6, Option.bind_some]
  · rw [hnext (by decide) (by decide), hnext hsp.symm (by decide), hnext hsp.symm (by decide),
      hnext hsp.symm (by decide), Core.value_set_self _ _ (by decide) (by decide)]
  · exact Core.value_set_self _ _ (by decide) (by decide)
  · rw [hnext harp hpc, hself]
  · rw [← List.length_reverse, ← Core.next_memory, ← Core.value_next c (by decide), ← h.values]
    refine List.map_congr_left fun r hr => ?_
    have hr' := List.mem_reverse.1 hr
    obtain ⟨-, hrsp, hrpc, hrarp⟩ := ne_of_general (hgeneral r hr')
    have hne : r ≠ result := fun heq => hresult.unused (heq ▸ hr')
    rw [hnext hrarp hrpc, hnext hne hrpc, hnext hne hrpc, hnext hne hrpc, hnext hrsp hrpc,
      hnext hne hrpc]

end

theorem leaveCode_private (saved : List Register) (size : Nat) (result : Register) :
    ∀ x ∈ leaveCode saved size result, x.Private := by
  simp only [leaveCode, List.cons_append, List.mem_append, List.mem_cons, List.mem_map,
    List.not_mem_nil, or_false]
  rintro x (rfl | ⟨r, -, rfl⟩ | rfl | rfl | rfl | rfl | rfl | rfl) <;>
    exact ⟨⟨by simp, by simp⟩, by simp, by simp, by simp⟩

/-! ## Moves -/

/-- The instruction at a position goes to the return address. -/
def Returns (P : Program) (i : Nat) : Prop := ∃ r, P.Has i .jump [.target (.indirect r)]

/-- What happens next in an activation: an instruction that neither calls nor returns, or a whole
call. -/
inductive Move (env : Env) (P : Program) (c c' : Core) : Prop
  | step : c.Step P c' → (∀ i : Nat, c.pc = i → ¬ Returns P i) →
      (∀ s : CallSite, s.Full env P → c.pc ≠ s.jump) → Move env P c c'
  | call (s : CallSite) {entry : Nat} : s.Full env P → c.pc = s.jump →
      P.target? s.entry = some entry →
      (c.goto entry).Returned s.size c' → Move env P c c'

/-- The next instruction is between two positions. -/
def At (i j : Nat) (c : Core) : Prop := (i : Int) ≤ c.pc ∧ c.pc < j

/-- Moves that begin between two positions. -/
def Run (env : Env) (P : Program) (i j : Nat) : Core → Core → Prop :=
  Relation.ReflTransGen fun c c' => At i j c ∧ Move env P c c'

section
variable {env : Env} {P : Program} {i j k : Nat} {c c' d : Core}

theorem Move.exec {x : Ins} (h : Move env P c c') (hx : P.Has k x.1 x.2) (hpc : c.pc = k)
    (hop : x.1 ≠ .jump) :
    ∃ m m', Machine.exec P x.1 x.2 c m = some (c', m') := by
  cases h with
  | step h _ _ =>
    obtain ⟨m, m', h⟩ := h
    exact ⟨m, m', (fetch?_of_has hx hpc).symm.trans h⟩
  | call s hs hjump _ _ =>
    obtain rfl : s.jump = k := by omega
    exact absurd (has_unique hx hs.site.has_jump).1 hop

/-- A run that goes on makes a first move. -/
theorem Run.head (h : Run env P i j c d) (hne : d.pc ≠ c.pc) :
    ∃ c1, At i j c ∧ Move env P c c1 ∧ Run env P i j c c1 ∧ Run env P i j c1 d := by
  rcases Relation.ReflTransGen.cases_head h with rfl | ⟨c1, h1, h⟩
  · exact absurd rfl hne
  · exact ⟨c1, h1.1, h1.2, .single h1, h⟩

theorem Run.eq_of_not_at (h : Run env P i j c d) (hc : ¬ At i j c) : d = c := by
  rcases Relation.ReflTransGen.cases_head h with rfl | ⟨c1, h1, _⟩
  · rfl
  · exact absurd h1.1 hc

/-- A run goes through straight-line code. -/
theorem Run.straight (code : List Ins) (h : P.HasAll k code) (hp : ∀ x ∈ code, x.Private)
    (hpc : c.pc = k) (hrun : Run env P i j c d) (hout : ¬ At k (k + code.length) d) :
    ∃ x, (∀ m, execAll P code c m = some (x, m)) ∧ x.pc = ((k + code.length : Nat) : Int) ∧
      Run env P i j c x ∧ Run env P i j x d := by
  induction code generalizing k c with
  | nil => exact ⟨c, fun _ => rfl, hpc, .refl, hrun⟩
  | cons x code ih =>
    have hx := hp x (.head _)
    have hne : d.pc ≠ c.pc := fun heq => hout (by unfold At; rw [List.length_cons]; omega)
    obtain ⟨c1, -, hmove, hrun1, hrun⟩ := hrun.head hne
    obtain ⟨m, m', hexec⟩ := hmove.exec h.1 hpc hx.1.2
    have hpc1 : c1.pc = ((k + 1 : Nat) : Int) := by rw [exec_pc hx.1 hexec, hpc, Int.natCast_succ]
    obtain ⟨y, hy, hpcy, hrun2, hrun⟩ := ih h.2 (fun z hz => hp z (.tail _ hz)) hpc1 hrun
      fun hat => hout (by unfold At at hat ⊢; rw [List.length_cons]; omega)
    refine ⟨y, fun m1 => ?_, ?_, hrun1.trans hrun2, hrun⟩
    · rw [execAll, hx.exec hexec m1]
      exact hy m1
    · rw [List.length_cons]
      omega

/-! ## What expressions keep -/

/-- The stack and the registers `keep` are as they were. -/
structure Kept (keep : List Register) (c c' : Core) : Prop where
  sp : c'.value .sp = c.value .sp
  arp : c'.value .arp = c.value .arp
  registers : ∀ r ∈ keep, c'.value r = c.value r
  memory : ∀ a, c.value .sp ≤ a → c'.memory a = c.memory a

namespace Kept

variable {keep : List Register}

theorem refl (c : Core) : Kept keep c c := ⟨rfl, rfl, fun _ _ => rfl, fun _ _ => rfl⟩

theorem trans (h : Kept keep c1 c2) (h' : Kept keep c2 c3) : Kept keep c1 c3 where
  sp := h'.sp.trans h.sp
  arp := h'.arp.trans h.arp
  registers r hr := (h'.registers r hr).trans (h.registers r hr)
  memory a ha := (h'.memory a (by rw [h.sp]; exact ha)).trans (h.memory a ha)

theorem mono {keep' : List Register} (h : Kept keep c c') (hk : ∀ r ∈ keep', r ∈ keep) :
    Kept keep' c c' :=
  ⟨h.sp, h.arp, fun r hr => h.registers r (hk r hr), h.memory⟩

/-- A register that may be taken is written. -/
theorem set (hkeep : ∀ r ∈ keep, r ∈ generalPurpose) (hr : Free keep r) (v : Int) :
    Kept keep c (c.next.set r v) := by
  obtain ⟨-, hsp, -, harp⟩ := ne_of_general hr.general
  have hvalue : ∀ x, x ≠ r → x ≠ .pc → (c.next.set r v).value x = c.value x := fun x hx hp => by
    rw [Core.value_set_of_ne _ _ hx, Core.value_next _ hp]
  exact ⟨hvalue _ hsp.symm (by decide), hvalue _ harp.symm (by decide), fun x hx =>
    hvalue x (fun heq => hr.unused (heq ▸ hx)) (ne_of_general (hkeep x hx)).2.2.1, fun _ _ => rfl⟩

/-- Nothing is written but the position and the replies. -/
theorem ofRegisters (hkeep : ∀ r ∈ keep, r ∈ generalPurpose) (hr : c'.registers = c.registers)
    (hm : c'.memory = c.memory) : Kept keep c c' :=
  ⟨Core.value_congr hr (by decide), Core.value_congr hr (by decide), fun x hx =>
    Core.value_congr hr (ne_of_general (hkeep x hx)).2.2.1, fun _ _ => by rw [hm]⟩

end Kept

theorem Quiet.plain (h : Quiet keep x) : x.Plain := by
  cases h <;> exact ⟨by simp, by simp⟩

theorem Quiet.kept (hkeep : ∀ r ∈ keep, r ∈ generalPurpose) (h : Quiet keep x)
    (he : Machine.exec P x.1 x.2 c m = some (c', m')) : Kept keep c c' := by
  cases h with
  | const hr =>
    cases he
    exact .set hkeep hr _
  | compute hr =>
    obtain ⟨v, -, hv⟩ := Option.map_eq_some_iff.1 he
    cases hv
    exact .set hkeep hr _
  | load hr =>
    cases he
    exact .set hkeep hr _
  | receive hr =>
    obtain ⟨v, -, hv⟩ := Option.map_eq_some_iff.1 he
    cases hv
    have hreply : Kept keep c { c with replies := c.replies.tail } := .ofRegisters hkeep rfl rfl
    exact hreply.trans (.set hkeep hr v)
  | testAndSet =>
    simp only [Machine.exec] at he
    split at he <;> cases he <;> exact .ofRegisters hkeep rfl rfl
  | read | write | nop =>
    cases he
    exact .ofRegisters hkeep rfl rfl

end

/-! ## Calls -/

namespace CallSite

/-- The callee is entered: `c` is the core before the call, `e` the one at the entry, and `vs` are
the values of the arguments. -/
structure Entered (s : CallSite) (vs : List Int) (c e : Core) : Prop where
  arp : e.value .arp = c.value .sp - s.size - 1
  sp : e.value .sp = e.value .arp - 2 - s.saved.length
  frame : words e.memory (e.value .arp + 1) s.size = vs ++ .replicate s.rest 0
  link : e.memory (e.value .arp) = c.value .arp
  back : e.memory (e.value .arp - 1) = s.anchor
  saved : words e.memory (e.value .sp) s.saved.length = (s.saved.map c.value).reverse
  above : ∀ a, c.value .sp ≤ a → e.memory a = c.memory a

variable {env : Env} {P : Program} {s : CallSite} {vs : List Int} {c e f : Core}

theorem entered_of_stacked {arp : Int} {saved : List Int} (hfits : s.arguments.length ≤ s.size)
    (hvs : vs.length = s.arguments.length) (hlen : saved.length = s.saved.length)
    (h : Stacked (.replicate s.rest 0 ++ vs.reverse ++ ([arp, (s.anchor : Int), 0] ++ saved)) c e)
    (harp : e.value .arp = e.value .sp + (s.saved.length + 2)) (hc : c.value .arp = arp)
    (hsaved : s.saved.map c.value = saved) : s.Entered vs c e := by
  have hrest : s.rest = s.size - s.arguments.length := rfl
  have hsp := h.sp
  have hwords := h.words
  simp only [List.length_append, List.length_replicate, List.length_reverse, List.length_cons,
    List.length_nil, hvs, hlen] at hsp hwords
  have hcount : s.rest + s.arguments.length + (0 + 1 + 1 + 1 + s.saved.length) =
      s.saved.length + (3 + s.size) := by
    omega
  -- The stack at the entry: saved registers, result, return address and link, then the frame.
  rw [hcount, words_add, words_add] at hwords
  simp only [List.reverse_append, List.reverse_reverse, List.reverse_cons, List.reverse_nil,
    List.nil_append, List.reverse_replicate, List.append_assoc] at hwords
  obtain ⟨h1, hwords⟩ := List.append_inj hwords (by simp [hlen])
  simp only [words, List.cons_append, List.nil_append, List.cons.injEq] at hwords
  obtain ⟨-, hback, hlink, hframe⟩ := hwords
  have hback' : e.value .arp - 1 = e.value .sp + s.saved.length + 1 := by omega
  have hlink' : e.value .arp = e.value .sp + s.saved.length + 1 + 1 := by omega
  have hframe' : e.value .arp + 1 = e.value .sp + s.saved.length + (3 : Nat) := by omega
  refine ⟨by omega, by omega, ?_, ?_, ?_, ?_, h.above⟩
  · rw [hframe', hframe]
  · rw [hlink', hlink, hc]
  · rw [hback', hback]
  · rw [h1, hsaved]

/-- The zeros for the slots that no argument is for. -/
theorem zeros_run (hs : s.At env P) (hpc : c.pc = s.first) (hrun : Run env P i j c d)
    (hout : ¬ Code.At s.first (s.first + s.rest) d) :
    ∃ x : Core, x.pc = ((s.first + s.rest : Nat) : Int) ∧
      Run env P i j c x ∧ Run env P i j x d ∧ Stacked (.replicate s.rest 0) c x ∧
      ∀ r, r ≠ .sp → r ≠ .pc → x.value r = c.value r := by
  have hcode := hs.zeros
  rw [← List.map_replicate] at hcode
  obtain ⟨x, hx, hpcx, h1, h2⟩ := hrun.straight _ hcode (fun y hy => by
    obtain ⟨r, -, rfl⟩ := List.mem_map.1 hy
    exact ⟨⟨by simp, by simp⟩, by simp, by simp, by simp⟩) hpc (by simpa using hout)
  obtain ⟨x', hx', hstack, hkept⟩ := execAll_pushes (m := fun _ => 0) (.replicate s.rest .zero)
    fun r hr => by
      rw [List.eq_of_mem_replicate hr]
      exact ⟨by decide, by decide⟩
  rw [hx] at hx'
  cases hx'
  refine ⟨x, by simpa using hpcx, h1, h2, ?_, hkept⟩
  simpa using hstack

/-- The rest of the record, from the end of the arguments to the jump. -/
theorem record_run (hs : s.At env P) (hpc : c.pc = s.enter) (hrun : Run env P i j c d)
    (hout : ¬ Code.At s.enter s.jump d) :
    ∃ x : Core, x.pc = s.jump ∧ Run env P i j c x ∧ Run env P i j x d ∧
      Stacked ([c.value .arp, (s.anchor : Int), 0] ++ s.saved.map c.value) c x ∧
      x.value .arp = x.value .sp + (s.saved.length + 2) := by
  have hcode := hs.enters
  rw [enterCode_eq, Program.HasAll.append] at hcode
  have hlen : s.enter + (recordCode s.saved s.returnLabel).length = s.jump := by
    rw [length_recordCode]
    exact (Nat.add_assoc ..).symm
  obtain ⟨x, hx, hpcx, h1, h2⟩ := hrun.straight (recordCode s.saved s.returnLabel) hcode.1
      (fun y hy => by
    simp only [recordCode, List.mem_append, List.mem_cons, List.mem_map, List.not_mem_nil,
      or_false] at hy
    rcases hy with ((rfl | rfl | rfl | rfl) | ⟨r, -, rfl⟩) | rfl | rfl <;>
      exact ⟨⟨by simp, by simp⟩, by simp, by simp, by simp⟩) hpc (by rwa [hlen])
  obtain ⟨x', hx', hstack, harp, -⟩ := execAll_record (m := fun _ => 0) hs.returns hs.general
  rw [hx] at hx'
  cases hx'
  exact ⟨x, by rw [hpcx, hlen], h1, h2, hstack, harp⟩

theorem Entered.goto (he : s.Entered vs c e) (a : Int) : s.Entered vs c (e.goto a) := by
  have hsp : (e.goto a).value .sp = e.value .sp := Core.value_goto _ _ (by decide)
  have harp : (e.goto a).value .arp = e.value .arp := Core.value_goto _ _ (by decide)
  refine ⟨?_, ?_, ?_, ?_, ?_, ?_, he.above⟩
  · rw [harp, he.arp]
  · rw [hsp, harp, he.sp]
  · rw [harp, Core.goto_memory, he.frame]
  · rw [harp, Core.goto_memory, he.link]
  · rw [harp, Core.goto_memory, he.back]
  · rw [hsp, Core.goto_memory, he.saved]

/-- The zeros, the arguments and the rest of the record make up the record. -/
theorem entered_of_parts (hs : s.At env P) (hvs : vs.length = s.arguments.length)
    (h1 : Stacked (.replicate s.rest 0) c c1)
    (hr1 : ∀ r, r ≠ .sp → r ≠ .pc → c1.value r = c.value r)
    (h2 : Stacked vs.reverse c1 c2) (harp2 : c2.value .arp = c1.value .arp)
    (hr2 : ∀ r ∈ s.saved, c2.value r = c1.value r)
    (h3 : Stacked ([c2.value .arp, (s.anchor : Int), 0] ++ s.saved.map c2.value) c2 e)
    (harp : e.value .arp = e.value .sp + (s.saved.length + 2)) : s.Entered vs c e := by
  refine entered_of_stacked hs.fits hvs (List.length_map _) ((h1.trans h2).trans h3) harp ?_ ?_
  · rw [harp2, hr1 _ (by decide) (by decide)]
  · refine List.map_congr_left fun r hr => ?_
    obtain ⟨-, hsp, hpc, -⟩ := ne_of_general (hs.general r hr)
    rw [hr2 r hr, hr1 r hsp hpc]

theorem leave_run (hs : s.At env P) (hpc : c.pc = s.anchor) (hrun : Run env P i j c d)
    (hout : ¬ Code.At s.anchor s.last d) : ∃ x : Core,
      execAll P (leaveCode s.saved s.size s.result) c (fun _ => 0) = some (x, fun _ => 0) ∧
      x.pc = s.last ∧
      Run env P i j c x ∧ Run env P i j x d := by
  have hlen : s.anchor + (leaveCode s.saved s.size s.result).length = s.last := by
    rw [length_leaveCode]
    exact (Nat.add_assoc ..).symm
  obtain ⟨x, hx, hpcx, h1, h2⟩ := hrun.straight _ hs.leaves (leaveCode_private _ _ _) hpc
    (by rwa [hlen])
  exact ⟨x, hx _, by rw [hpcx, hlen], h1, h2⟩

/-- What the callee leaves alone is enough to restore the caller. -/
theorem Entered.leave (he : s.Entered vs c e) (hs : s.At env P) (hf : e.Returned s.size f) :
    ∃ g, execAll P (leaveCode s.saved s.size s.result) f (fun _ => 0) = some (g, fun _ => 0) ∧
      Kept s.saved c g ∧
      g.value s.result = f.memory (f.value .arp - 2) := by
  obtain ⟨g, hg, hsp, harp, hresult, hmemory, hsaved⟩ :=
    execAll_leave s.size hs.general hs.nodup hs.free
  have harp' := he.arp
  have hsp' := he.sp
  refine ⟨g, hg, ⟨?_, ?_, ?_, fun a ha => ?_⟩, hresult⟩
  · rw [hsp, hf.arp]
    omega
  · rw [harp, hf.arp, hf.memory _ (by unfold Core.Owns; omega), he.link]
  · -- The saved registers lie between the stack pointer and the result.
    rw [hf.sp, words_congr fun b hb hlt => hf.memory b (by unfold Core.Owns; omega), he.saved,
      ← List.map_reverse] at hsaved
    exact fun r hr => List.map_inj_left.1 hsaved r (List.mem_reverse.2 hr)
  · rw [hmemory, hf.memory a (by unfold Core.Owns; omega), he.above a ha]

end CallSite

/-- The frame that a call builds depends on its callee only. -/
def SizesAgree (env : Env) (P : Program) : Prop :=
  ∀ s s' : CallSite, s.At env P → s'.At env P → s.entry = s'.entry → s.size = s'.size

/-- A run from `c` to `d` comes to the end of an argument's code with this value. -/
def Argument.Evaluated (env : Env) (P : Program) (i j : Nat) (c d : Core) (a : Argument)
    (v : Int) : Prop :=
  ∃ x : Core, x.pc = a.last ∧ Run env P i j c x ∧ Run env P i j x d ∧ x.value a.register = v

section
variable {env : Env} {P : Program} {lo hi : Nat} {c d : Core}

theorem stacked_of_kept {x y : Core} (h : Stacked vs c x) (hk : Kept keep x y) :
    Stacked vs c y := by
  have hsp := h.sp
  refine ⟨hk.sp.trans hsp, fun a ha => ?_, ?_⟩
  · rw [hk.memory a (by omega), h.above a ha]
  · rw [hk.sp, words_congr fun b hb _ => hk.memory b hb, h.words]

/-- The jump of a call is made by a call. -/
theorem Move.returned {s : CallSite} {c' : Core} (hsizes : SizesAgree env P)
    (hs : s.Full env P) (hpc : c.pc = s.jump) (h : Move env P c c') :
    ∃ entry : Nat, P.target? s.entry = some entry ∧ (c.goto entry).Returned s.size c' := by
  cases h with
  | step _ _ hno => exact absurd hpc (hno s hs)
  | @call s' entry hs' hpc' hentry hret =>
    have hjump : s.jump = s'.jump := by omega
    have hhas := hs.site.has_jump
    rw [hjump] at hhas
    have heq := (has_unique hhas hs'.site.has_jump).2
    have hlabel : s.entry = s'.entry := by simpa using heq
    rw [hsizes s s' hs.site hs'.site hlabel, hlabel]
    exact ⟨entry, hentry, hret⟩

mutual

/-- A run through the code of an expression keeps the stack and the registers in use. -/
theorem Flow.run (hsizes : SizesAgree env P) {keep : List Register} {i j : Nat} {c : Core} :
    Flow env P keep i j → (∀ r ∈ keep, r ∈ generalPurpose) → c.pc = i → Run env P lo hi c d →
      ¬ Code.At i j d →
    ∃ x : Core, x.pc = j ∧ Run env P lo hi c x ∧ Run env P lo hi x d ∧ Kept keep c x
  | .nil, _, hpc, hrun, _ => ⟨c, hpc, .refl, hrun, .refl c⟩
  | .quiet hx hq h, hkeep, hpc, hrun, hout => by
    have hle := h.le
    obtain ⟨c1, -, hmove, hrun1, hrun⟩ := hrun.head fun heq => hout (by unfold Code.At; omega)
    obtain ⟨m, m', hexec⟩ := hmove.exec hx hpc hq.plain.2
    have hpc1 : c1.pc = ((i + 1 : Nat) : Int) := by
      rw [exec_pc hq.plain hexec, hpc, Int.natCast_succ]
    obtain ⟨y, hpcy, hrun2, hrun, hk⟩ := h.run hsizes hkeep hpc1 hrun fun hat =>
      hout (by unfold Code.At at *; omega)
    exact ⟨y, hpcy, hrun1.trans hrun2, hrun, (hq.kept hkeep hexec).trans hk⟩
  | .call s hi hs hsaved hp h, hkeep, hpc, hrun, hout => by
    have hle := h.le
    have hple := hp.le
    have hjump : s.jump = s.enter + s.saved.length + 6 := rfl
    have hanchor : s.anchor = s.jump + 1 := rfl
    have hlast : s.last = s.anchor + s.saved.length + 7 := rfl
    obtain ⟨c1, hpc1, hrun1, hrun, hstack1, hregs1⟩ := CallSite.zeros_run hs (by rw [hpc, hi]) hrun
      fun hat => hout (by unfold Code.At at *; omega)
    obtain ⟨c2, vs, hpc2, hrun2, hrun, hstack2, harp2, hregs2, hvs⟩ :=
      hp.run hsizes hs.general (by rw [hpc1, hi]) hrun
      fun hat => hout (by unfold Code.At at *; omega)
    obtain ⟨e, hpce, hrun3, hrun, hstack3, harpe⟩ := CallSite.record_run hs hpc2 hrun
      fun hat => hout (by unfold Code.At at *; omega)
    -- The callee comes back to the anchor.
    obtain ⟨f, -, hmove, hrun4, hrun⟩ := hrun.head fun heq => hout (by unfold Code.At; omega)
    obtain ⟨entry, -, hret⟩ := hmove.returned hsizes ⟨hs, by rw [hi]; exact hp⟩ hpce
    have hentered := CallSite.entered_of_parts hs hvs.length_eq.symm hstack1 hregs1 hstack2 harp2
      hregs2 hstack3 harpe
    have hpcf : f.pc = s.anchor := hret.pc.trans (hentered.goto entry).back
    obtain ⟨g, hg, hpcg, hrun5, hrun⟩ := CallSite.leave_run hs hpcf hrun
      fun hat => hout (by unfold Code.At at *; omega)
    obtain ⟨g', hg', hkept, -⟩ := (hentered.goto entry).leave hs hret
    rw [hg] at hg'
    cases hg'
    obtain ⟨x, hpcx, hrun6, hrun, hkept'⟩ := h.run hsizes hkeep hpcg hrun
      fun hat => hout (by unfold Code.At at *; omega)
    exact ⟨x, hpcx, ((((hrun1.trans hrun2).trans hrun3).trans hrun4).trans hrun5).trans hrun6, hrun,
      (hkept.mono hsaved).trans hkept'⟩

theorem Pushes.run (hsizes : SizesAgree env P) {saved : List Register} :
    ∀ {as : List Argument} {i j : Nat} {c : Core}, Pushes env P saved as i j →
    (∀ r ∈ saved, r ∈ generalPurpose) → c.pc = i → Run env P lo hi c d →
    ¬ Code.At i j d → ∃ (x : Core) (vs : List Int), x.pc = j ∧ Run env P lo hi c x ∧
      Run env P lo hi x d ∧
      Stacked vs.reverse c x ∧ x.value .arp = c.value .arp ∧ (∀ r ∈ saved, x.value r = c.value r) ∧
      List.Forall₂ (Argument.Evaluated env P lo hi c x) as vs
  | [], _, _, c, .nil, _, hpc, hrun, _ =>
    ⟨c, [], hpc, .refl, hrun, .refl c, rfl, fun _ _ => rfl, .nil⟩
  | a :: as, i, _, c, .cons hp ha hf hpush, hsaved, hpc, hrun, hout => by
    have hple := hp.le
    have hfle := hf.le
    obtain ⟨c1, vs, hpc1, hrun1, hrun, hstack1, harp1, hregs1, hvs⟩ := hp.run hsizes hsaved hpc hrun
      fun hat => hout (by unfold Code.At at *; omega)
    obtain ⟨c2, hpc2, hrun2, hrun, hk⟩ := hf.run hsizes hsaved hpc1 hrun
      fun hat => hout (by unfold Code.At at *; omega)
    obtain ⟨c3, hexec, hpc3, hrun3, hrun⟩ := hrun.straight [.push a.register] ⟨hpush, trivial⟩
      (fun y hy => by
        rw [List.mem_singleton.1 hy]
        exact ⟨⟨by simp, by simp⟩, by simp, by simp, by simp⟩) hpc2
      fun hat => hout (by unfold Code.At at *; simp only [List.length_singleton] at hat; omega)
    obtain ⟨x, hx, hstack3, hregs3⟩ := exec_push a.register
    obtain rfl : x = c3 := by
      have := hexec fun _ => 0
      rw [execAll, hx] at this
      cases this
      rfl
    refine ⟨x, c2.value a.register :: vs, hpc3, (hrun1.trans hrun2).trans hrun3, hrun, ?_, ?_,
      fun r hr => ?_,
      .cons ⟨c2, hpc2, hrun1.trans hrun2, hrun3, rfl⟩ (hvs.imp fun b v hb => ?_)⟩
    · rw [List.reverse_cons]
      exact (stacked_of_kept hstack1 hk).trans hstack3
    · rw [hregs3 _ (by decide) (by decide), hk.arp, harp1]
    · obtain ⟨-, hsp, hpcr, -⟩ := ne_of_general (hsaved r hr)
      rw [hregs3 r hsp hpcr, hk.registers r hr, hregs1 r hr]
    · obtain ⟨y, hpcy, hy1, hy2, hyv⟩ := hb
      exact ⟨y, hpcy, hy1, (hy2.trans hrun2).trans hrun3, hyv⟩

end

end

end Code

end Awl
