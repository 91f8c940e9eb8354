import Mathlib.Data.Set.Defs
import Mathlib.Logic.Function.Basic
import Mathlib.Tactic.IntervalCases
import Awl.Proofs.Confined
import Awl.Proofs.Requests

/-!
# The allocator on several cores

Any number of cores run the allocator, each at its own pace. Their requests to the shared memory
take effect later, those of one core in the order in which it made them. `System` is the state of
all cores with the requests that are on their way; it also notes which allocations have given the
lock back and which have returned. Outside of the allocator a core may do anything, as long as it
leaves the heap pointer and the lock alone.

At any time at most one core is between its successful request for the lock and the moment in which
its release takes effect, the owner (`Inv`). It alone reads and writes the heap pointer, so that
blocks follow one another (`generate_allocates_apart`).
-/

namespace Awl.Code

open Machine

variable {P : Program} {layout : StaticLayout} {c c' : Core} {T heap v : Int} {l : List Sent}
  {i k : Nat} {x : Sent} {rel : List Request}

/-! ## The routine -/

/-- The allocator of a program, and the registers that it uses. -/
structure Allocator (P : Program) (layout : StaticLayout) where
  first : Nat
  base : Register
  size : Register
  r : Register
  base_free : Free [] base
  size_free : Free [base] size
  r_free : Free [base] r
  code : ∃ entry locked, P.HasAll first (Emit.allocatorCode layout base size r entry locked) ∧
    P.target? entry = some first ∧ P.target? locked = some (first + 4)

theorem hasAll_get {code : List Ins} {x : Ins} (h : P.HasAll i code)
    (hk : code[k]? = some x) : P.Has (i + k) x.1 x.2 := by
  induction code generalizing i k with
  | nil => cases hk
  | cons y code ih =>
    cases k with
    | zero =>
      cases hk
      exact h.1
    | succ k =>
      have := ih h.2 hk
      rwa [Nat.add_right_comm, Nat.add_assoc] at this

variable (A : Allocator P layout)

/-- What the instruction of the allocator at an offset does to a core, and the request that it
makes. -/
def allocatorStep : Nat → Core → Option (Core × Option Request)
  | 0, c => some (c.next, some (.testAndSet layout.allocatorLock))
  | 1, c | 5, c =>
    c.replies.head?.map fun v => ({ c.next with replies := c.replies.tail }.set A.base v, none)
  | 2, c => some (if c.value A.base = 0 then c.next else c.goto ((A.first + 4 : Nat) : Int), none)
  | 3, c => some (c.goto (A.first : Int), none)
  | 4, c => some (c.next, some (.read layout.heapPointer))
  | 6, c => some (c.next.set A.size 1, none)
  | 7, c => some (c.next.set A.size (c.value .arp + c.value A.size), none)
  | 8, c => some (c.next.set A.size (c.memory (c.value A.size)), none)
  | 9, c => some (c.next.set A.size (c.value A.base + c.value A.size), none)
  | 10, c => some (c.next, some (.write layout.heapPointer (c.value A.size)))
  | 11, c => some (c.next, some (.write layout.allocatorLock 0))
  | 12, c => some (c.next.set A.r 2, none)
  | 13, c | 16, c => some (c.next.set A.r (c.value .arp - c.value A.r), none)
  | 14, c => some (c.next.store (c.value A.r) (c.value A.base), none)
  | 15, c => some (c.next.set A.r 1, none)
  | 17, c => some (c.next.set A.r (c.memory (c.value A.r)), none)
  | 18, c => some (c.goto (c.value A.r), none)
  | _, _ => none

theorem Allocator.start_eq (hk : k < 19) (hpc : c.pc = ((A.first + k : Nat) : Int)) :
    c.start P = allocatorStep A k c := by
  obtain ⟨entry, locked, hcode, hentry, hlocked⟩ := A.code
  have hstart : ∀ x, (Emit.allocatorCode layout A.base A.size A.r entry locked)[k]? = some x →
      c.start P = (c.issue P x.1 x.2).map fun c' => (c', c.request? x.1 x.2) := fun x hx =>
    start_of_has (hasAll_get hcode hx) hpc
  -- Only the branch and the jump back depend on where the labels are.
  interval_cases k <;> rw [hstart _ rfl] <;> first
    | rfl
    | (simp only [Core.issue, Core.request?, exec, Option.map_map]
       rfl)
    | (simp only [Core.issue, Core.request?, exec, Program.goal?, hlocked, allocatorStep]
       split <;> rfl)
    | (simp only [Core.issue, exec, Program.goal?, hentry]
       rfl)

/-! ## Frames of the routine -/

section
variable (first : Nat)

/-- The core is in the routine. -/
def Inside (c : Core) : Prop := (first : Int) ≤ c.pc ∧ c.pc < (first : Int) + 19

instance (c : Core) : Decidable (Inside first c) := inferInstanceAs (Decidable (_ ∧ _))

end

/-- The core has given the lock back and is about to return. -/
def Returning (c : Core) : Prop := (A.first : Int) + 12 ≤ c.pc ∧ c.pc < (A.first : Int) + 19

/-- The number of words that a call of the allocator asks for. -/
def argument (c : Core) : Int := c.memory (c.value .arp + 1)

def returnAddress (c : Core) : Int := c.memory (c.value .arp - 1)

/-- The word that a call returns. -/
def result (c : Core) : Int := c.memory (c.value .arp - 2)

/-- A call of the allocator: the size is not negative, and the caller is not the allocator. -/
structure Entered (first : Nat) (c : Core) : Prop where
  size : 0 ≤ argument c
  caller : ¬ Inside first (c.goto (returnAddress c))

/-- Only the slot of the result may have changed. -/
structure SameFrame (c c' : Core) : Prop where
  arp : c'.value .arp = c.value .arp
  memory : ∀ a, a ≠ c.value .arp - 2 → c'.memory a = c.memory a

namespace SameFrame

theorem argument_eq (h : SameFrame c c') : argument c' = argument c := by
  rw [argument, argument, h.arp, h.memory _ (by omega)]

theorem returnAddress_eq (h : SameFrame c c') : returnAddress c' = returnAddress c := by
  rw [returnAddress, returnAddress, h.arp, h.memory _ (by omega)]

theorem entered {first : Nat} (h : SameFrame c c') (he : Entered first c) : Entered first c' := by
  refine ⟨h.argument_eq ▸ he.size, ?_⟩
  rw [h.returnAddress_eq]
  exact he.caller

/-- The memory stays as it is. -/
theorem of_memory (ha : c'.value .arp = c.value .arp) (hm : c'.memory = c.memory) :
    SameFrame c c' :=
  ⟨ha, fun _ _ => by rw [hm]⟩

end SameFrame

theorem value_set_next {x y : Register} (hx : x ≠ y) (hp : x ≠ .pc) :
    (c.next.set y v).value x = c.value x := by
  rw [Core.value_set_of_ne _ _ hx, Core.value_next _ hp]

theorem value_set_next_self {x : Register} (hx : x ∈ generalPurpose) :
    (c.next.set x v).value x = v := by
  refine Core.value_set_self _ _ ?_ ?_ <;> rintro rfl <;> exact absurd hx (by decide)

theorem ne_pc_of_mem {x : Register} (h : x ∈ generalPurpose) : x ≠ .pc := by
  rintro rfl
  exact absurd h (by decide)

theorem sameFrame_set {x : Register} (hx : x ∈ generalPurpose) : SameFrame c (c.next.set x v) :=
  .of_memory (value_set_next (ne_arp_of_mem hx).symm (by decide)) rfl

/-! ## Phases -/

/-- The last part of the routine, by the number of its instructions that were executed: the address
is stored as the result, and the return address is fetched. -/
def Back : Nat → Core → Prop
  | 0, _ => True
  | 1, c => c.value A.r = 2
  | 2, c => c.value A.r = c.value .arp - 2
  | 3, c => result c = c.value A.base
  | 4, c => c.value A.r = 1 ∧ result c = c.value A.base
  | 5, c => c.value A.r = c.value .arp - 1 ∧ result c = c.value A.base
  | 6, c => c.value A.r = returnAddress c ∧ result c = c.value A.base
  | _, _ => False

/-- The part of the routine between the two requests for the heap pointer, where `T` is its
value. -/
def Bump (T : Int) : Nat → Core → Prop
  | 0, _ => True
  | 1, c => c.value A.size = 1
  | 2, c => c.value A.size = c.value .arp + 1
  | 3, c => c.value A.size = argument c
  | 4, c => c.value A.size = T + argument c
  | _, _ => False

/-- A core without the lock, with its requests about the lock and the heap pointer. -/
inductive Waiting (c : Core) : List Request → Prop
  | out : ¬ Inside A.first c → Waiting c []
  | start : c.pc = A.first → c.replies = [] → Waiting c []
  | asked : c.pc = A.first + 1 → c.replies = [] → Waiting c [.testAndSet layout.allocatorLock]
  | refused : c.pc = A.first + 1 → c.replies = [0] → Waiting c []
  | failed : c.pc = A.first + 2 → c.replies = [] → c.value A.base = 0 → Waiting c []
  | retry : c.pc = A.first + 3 → c.replies = [] → Waiting c []
  | back (k : Nat) : c.pc = A.first + 12 + k → c.replies = [] → Back A k c → Waiting c []

/-- The core with the lock, before it gives the lock back. `T` is the end of the blocks so far, and
`heap` is the heap pointer. -/
inductive Critical (T heap : Int) (c : Core) : List Request → Prop
  | won : c.pc = A.first + 1 → c.replies = [1] → heap = T → Critical T heap c []
  | branch : c.pc = A.first + 2 → c.replies = [] → c.value A.base = 1 → heap = T →
      Critical T heap c []
  | locked : c.pc = A.first + 4 → c.replies = [] → heap = T → Critical T heap c []
  | reading : c.pc = A.first + 5 → c.replies = [] → heap = T →
      Critical T heap c [.read layout.heapPointer]
  | read : c.pc = A.first + 5 → c.replies = [T] → heap = T → Critical T heap c []
  | bump (k : Nat) : c.pc = A.first + 6 + k → c.replies = [] → c.value A.base = T → Bump A T k c →
      heap = T →
      Critical T heap c []
  | writing : c.pc = A.first + 11 → c.replies = [] → c.value A.base = T → heap = T →
      Critical T heap c [.write layout.heapPointer (T + argument c)]
  | written : c.pc = A.first + 11 → c.replies = [] → c.value A.base = T → heap = T + argument c →
      Critical T heap c []

/-- The requests of a core whose release has not taken effect yet. -/
inductive Releasing (layout : StaticLayout) (T heap words : Int) : List Request → Prop
  | both : heap = T → Releasing layout T heap words
      [.write layout.heapPointer (T + words), .write layout.allocatorLock 0]
  | one : heap = T + words → Releasing layout T heap words [.write layout.allocatorLock 0]

variable {A}

theorem Back.lt (h : Back A k c) : k < 7 := by
  unfold Back at h
  split at h <;> first | omega | exact h.elim

theorem Bump.lt (h : Bump A T k c) : k < 5 := by
  unfold Bump at h
  split at h <;> first | omega | exact h.elim

theorem Critical.inside (h : Critical A T heap c rel) : Inside A.first c ∧ ¬ Returning A c := by
  unfold Inside Returning
  cases h with
  | bump k hpc _ _ hk _ =>
    have := hk.lt
    omega
  | _ => omega

/-! ## Steps of the routine -/

/-- The block of a call that is about to return. -/
def blockOf (A : Allocator P layout) (c : Core) : Int × Int := (c.value A.base, argument c)

section
variable {q : Option Request}

/-- A receive without a reply blocks. -/
theorem Allocator.not_receive (hk : k = 1 ∨ k = 5) (hpc : c.pc = ((A.first + k : Nat) : Int))
    (hr : c.replies = []) :
    c.start P = none := by
  rw [A.start_eq (by omega) hpc]
  rcases hk with rfl | rfl <;> simp [allocatorStep, hr]

/-- The routine changes nothing in private memory but its result. -/
theorem Back.run (h : Back A k c) (hpc : c.pc = A.first + 12 + k) (hr : c.replies = [])
    (hs : c.start P = some (c', q)) : q = none ∧ SameFrame c c' ∧ c'.replies = [] ∧ (k = 6 ∧
      c'.pc = returnAddress c ∧ result c = c.value A.base ∨ c'.pc = A.first + 12 + (k + 1 : Nat) ∧
      Back A (k + 1) c' ∧ c'.value A.base = c.value A.base) := by
  have hlt := h.lt
  have hpc' : c.pc = ((A.first + (12 + k) : Nat) : Int) := by omega
  rw [A.start_eq (by omega) hpc'] at hs
  have hbase : ∀ v, (c.next.set A.r v).value A.base = c.value A.base := fun v => value_set_next
    (fun heq => A.r_free.unused (heq ▸ List.mem_singleton.2 rfl)) (ne_pc_of_mem A.base_free.general)
  have harp : ∀ v, (c.next.set A.r v).value .arp = c.value .arp := fun v =>
    value_set_next (ne_arp_of_mem A.r_free.general).symm (by decide)
  have hself : ∀ v, (c.next.set A.r v).value A.r = v := fun v =>
    value_set_next_self A.r_free.general
  have hframe : ∀ v, SameFrame c (c.next.set A.r v) := fun v => sameFrame_set A.r_free.general
  have hresult : ∀ v, result (c.next.set A.r v) = result c := fun v => by
    rw [result, result, harp, Core.set_memory, Core.next_memory]
  interval_cases k <;> simp only [allocatorStep] at hs <;>
    obtain ⟨rfl, rfl⟩ := hs <;> simp only [Back] at h
  · exact ⟨rfl, hframe _, hr, .inr ⟨by simp [hpc], hself _, hbase _⟩⟩
  · refine ⟨rfl, hframe _, hr, .inr ⟨by simp [hpc]; omega, ?_, hbase _⟩⟩
    show (c.next.set A.r _).value A.r = (c.next.set A.r _).value .arp - 2
    rw [hself, harp, h]
  · -- The address is stored below the frame pointer.
    have hvalue : ∀ x, x ≠ .pc → (c.next.store (c.value A.r) (c.value A.base)).value x =
        c.value x := fun x hx => by
      rw [Core.value_store, Core.value_next _ hx]
    have hstored : result (c.next.store (c.value A.r) (c.value A.base)) = c.value A.base := by
      rw [result, hvalue _ (by decide), Core.store_memory, h, Memory.write_same]
    refine ⟨rfl, ⟨hvalue _ (by decide), fun a ha => Memory.write_of_ne _ _ (by rwa [h])⟩, hr,
      .inr ⟨by simp [hpc]; omega, ?_, hvalue _ (ne_pc_of_mem A.base_free.general)⟩⟩
    show result _ = Core.value _ A.base
    rw [hstored, hvalue _ (ne_pc_of_mem A.base_free.general)]
  · refine ⟨rfl, hframe _, hr, .inr ⟨by simp [hpc]; omega, ⟨hself _, ?_⟩, hbase _⟩⟩
    rw [hresult, hbase, h]
  · refine ⟨rfl, hframe _, hr, .inr ⟨by simp [hpc]; omega, ⟨?_, ?_⟩, hbase _⟩⟩
    · rw [hself, harp, h.1]
    · rw [hresult, hbase, h.2]
  · refine ⟨rfl, hframe _, hr, .inr ⟨by simp [hpc]; omega, ⟨?_, ?_⟩, hbase _⟩⟩
    · rw [hself, (hframe _).returnAddress_eq, h.1, returnAddress]
    · rw [hresult, hbase, h.2]
  · exact ⟨rfl, .of_memory (Core.value_goto _ _ (by decide)) rfl, hr, .inl ⟨rfl, h.1, h.2⟩⟩

/-- What a core without the lock does in the routine. It returns with its block, or goes on without
the lock. -/
theorem Waiting.run (h : Waiting A c rel) (hin : Inside A.first c)
    (he : Entered A.first c) (hs : c.start P = some (c', q)) :
    Waiting A c' (rel ++ q.toList) ∧ SameFrame c c' ∧
      (∀ x, q = some x → x = .testAndSet layout.allocatorLock) ∧
      (Returning A c' → Returning A c ∧ blockOf A c' = blockOf A c) ∧
      (¬ Inside A.first c' → Returning A c ∧ (result c, argument c) = blockOf A c) := by
  -- Before the lock is taken, the core stays in the first part of the routine.
  have early : ∀ k : Nat, k < 12 → c'.pc = A.first + k →
      (Returning A c' → Returning A c ∧ blockOf A c' = blockOf A c) ∧
      (¬ Inside A.first c' → Returning A c ∧ (result c, argument c) = blockOf A c) := by
    unfold Returning Inside
    intro k hk hpc
    exact ⟨by omega, by omega⟩
  cases h with
  | out hout => exact absurd hin hout
  | start hpc hr =>
    rw [A.start_eq (k := 0) (by omega) (by simpa using hpc)] at hs
    cases hs
    refine ⟨.asked (by simp [hpc]) hr, .of_memory (Core.value_next _ (by decide)) rfl,
      fun x hx => ?_,
      early 1 (by omega) (by simp [hpc])⟩
    cases hx
    rfl
  | asked hpc hr => cases (A.not_receive (.inl rfl) (by simpa using hpc) hr).symm.trans hs
  | refused hpc hr =>
    rw [A.start_eq (k := 1) (by omega) (by simpa using hpc), allocatorStep, hr] at hs
    cases hs
    refine ⟨.failed (by simp [hpc]; omega) rfl ?_, ?_,
      by simp, early 2 (by omega) (by simp [hpc]; omega)⟩
    · exact value_set_next_self A.base_free.general
    · exact .of_memory (value_set_next (ne_arp_of_mem A.base_free.general).symm
        (by decide)) rfl
  | failed hpc hr hb =>
    rw [A.start_eq (k := 2) (by omega) (by simpa using hpc), allocatorStep, if_pos hb] at hs
    cases hs
    exact ⟨.retry (by simp [hpc]; omega) hr, .of_memory (Core.value_next _ (by decide)) rfl,
      by simp,
      early 3 (by omega) (by simp [hpc]; omega)⟩
  | retry hpc hr =>
    rw [A.start_eq (k := 3) (by omega) (by simpa using hpc)] at hs
    cases hs
    exact ⟨.start rfl hr, .of_memory (Core.value_goto _ _ (by decide)) rfl,
      by simp, early 0 (by omega) (by simp)⟩
  | back k hpc hr hk =>
    have hlt := hk.lt
    have hback : Returning A c := by
      unfold Returning
      omega
    obtain ⟨rfl, hframe, hr', hnext⟩ := hk.run hpc hr hs
    rcases hnext with ⟨rfl, hpc', hresult⟩ | ⟨hpc', hk', hbase⟩
    · have hout : ¬ Inside A.first c' := by
        have := he.caller
        simp only [Inside, hpc'] at this ⊢
        exact this
      refine ⟨.out hout, hframe, by simp, fun hret => absurd ?_ hout, fun _ => ⟨hback, ?_⟩⟩
      · unfold Returning at hret
        unfold Inside
        omega
      · rw [blockOf, hresult]
    · refine ⟨.back (k + 1) hpc' hr' hk', hframe,
        by simp, fun _ => ⟨hback, ?_⟩, fun hout => absurd ?_ hout⟩
      · rw [blockOf, blockOf, hbase, hframe.argument_eq]
      · have := hk'.lt
        unfold Inside
        omega

/-- What the core with the lock does: it goes on, or it asks for the release and has its block. -/
theorem Critical.run (h : Critical A T heap c rel)
    (hs : c.start P = some (c', q)) : SameFrame c c' ∧ (Critical A T heap c' (rel ++ q.toList) ∧
        (∀ x, q = some x → x.address = layout.heapPointer) ∨
      q = some (.write layout.allocatorLock 0) ∧ Inside A.first c' ∧ Waiting A c' [] ∧
        blockOf A c' = (T, argument c) ∧
        Releasing layout T heap (argument c) (rel ++ q.toList)) := by
  have hbase : ∀ v, (c.next.set A.size v).value A.base = c.value A.base := fun v =>
    value_set_next (fun heq => A.size_free.unused (heq ▸ List.mem_singleton.2 rfl))
    (ne_pc_of_mem A.base_free.general)
  have harp : ∀ v, (c.next.set A.size v).value .arp = c.value .arp := fun v =>
    value_set_next (ne_arp_of_mem A.size_free.general).symm (by decide)
  have hself : ∀ v, (c.next.set A.size v).value A.size = v :=
    fun v => value_set_next_self A.size_free.general
  have hframe : ∀ v, SameFrame c (c.next.set A.size v) := fun v => sameFrame_set A.size_free.general
  have hnext : SameFrame c c.next := .of_memory (Core.value_next _ (by decide)) rfl
  have hkeep : c.next.value A.base = c.value A.base :=
    Core.value_next _ (ne_pc_of_mem A.base_free.general)
  cases h with
  | won hpc hr hheap =>
    rw [A.start_eq (k := 1) (by omega) (by simpa using hpc), allocatorStep, hr] at hs
    cases hs
    refine ⟨.of_memory (value_set_next (ne_arp_of_mem A.base_free.general).symm
        (by decide)) rfl, .inl ⟨.branch (by simp [hpc]; omega) rfl ?_ hheap, by simp⟩⟩
    exact value_set_next_self A.base_free.general
  | branch hpc hr hb hheap =>
    rw [A.start_eq (k := 2) (by omega) (by simpa using hpc), allocatorStep, if_neg (by omega)] at hs
    cases hs
    exact ⟨.of_memory (Core.value_goto _ _ (by decide)) rfl,
      .inl ⟨.locked (by simp) hr hheap, by simp⟩⟩
  | locked hpc hr hheap =>
    rw [A.start_eq (k := 4) (by omega) (by simpa using hpc)] at hs
    cases hs
    refine ⟨hnext, .inl ⟨.reading (by simp [hpc]; omega) hr hheap, fun x hx => ?_⟩⟩
    cases hx
    rfl
  | reading hpc hr hheap => cases (A.not_receive (.inr rfl) (by simpa using hpc) hr).symm.trans hs
  | read hpc hr hheap =>
    rw [A.start_eq (k := 5) (by omega) (by simpa using hpc), allocatorStep, hr] at hs
    cases hs
    refine ⟨.of_memory (value_set_next (ne_arp_of_mem A.base_free.general).symm
        (by decide)) rfl, .inl ⟨.bump 0 (by simp [hpc]; omega) rfl ?_ trivial hheap, by simp⟩⟩
    exact value_set_next_self A.base_free.general
  | bump k hpc hr hb hk hheap =>
    have hlt := hk.lt
    have hpc' : c.pc = ((A.first + (6 + k) : Nat) : Int) := by omega
    rw [A.start_eq (by omega) hpc'] at hs
    interval_cases k <;> simp only [allocatorStep] at hs <;>
      obtain ⟨rfl, rfl⟩ := hs <;> simp only [Bump] at hk
    · exact ⟨hframe _,
        .inl ⟨.bump 1 (by simp [hpc]) hr (by rw [hbase, hb]) (hself _) hheap, by simp⟩⟩
    · refine ⟨hframe _,
        .inl ⟨.bump 2 (by simp [hpc]; omega) hr (by rw [hbase, hb]) ?_ hheap, by simp⟩⟩
      show Core.value _ A.size = Core.value _ .arp + 1
      rw [hself, harp, hk]
    · refine ⟨hframe _,
        .inl ⟨.bump 3 (by simp [hpc]; omega) hr (by rw [hbase, hb]) ?_ hheap, by simp⟩⟩
      show Core.value _ A.size = argument _
      rw [hself, (hframe _).argument_eq, hk, argument]
    · refine ⟨hframe _,
        .inl ⟨.bump 4 (by simp [hpc]; omega) hr (by rw [hbase, hb]) ?_ hheap, by simp⟩⟩
      show Core.value _ A.size = T + argument _
      rw [hself, (hframe _).argument_eq, hk, hb]
    · refine ⟨hnext, .inl ⟨?_, fun x hx => ?_⟩⟩
      · rw [hk]
        exact .writing (by simp [hpc]; omega) hr (by rw [hkeep, hb]) hheap
      · cases hx
        rfl
  | writing hpc hr hb hheap =>
    rw [A.start_eq (k := 11) (by omega) (by simpa using hpc)] at hs
    cases hs
    refine ⟨hnext, .inr ⟨rfl,
      by simp [Inside]; omega, .back 0 (by simp [hpc]; omega) hr trivial, ?_, .both hheap⟩⟩
    rw [blockOf, hkeep, hb, hnext.argument_eq]
  | written hpc hr hb hheap =>
    rw [A.start_eq (k := 11) (by omega) (by simpa using hpc)] at hs
    cases hs
    refine ⟨hnext, .inr ⟨rfl,
      by simp [Inside]; omega, .back 0 (by simp [hpc]; omega) hr trivial, ?_, .one hheap⟩⟩
    rw [blockOf, hkeep, hb, hnext.argument_eq]

end

/-! ## Systems -/

/-- A request on its way, with the size that the call had asked for that made it. -/
structure Sent where
  request : Request
  size : Int

/-- The state of all cores. -/
structure System (ι : Type) where
  core : ι → Core
  /-- The requests of each core that have not taken effect yet, the oldest one first. -/
  sent : ι → List Sent
  shared : Memory
  /-- The sizes of the allocations that have given the lock back. -/
  released : List Int
  /-- The blocks that calls have returned, with their sizes. -/
  completed : List (Int × Int)

/-- The heap pointer or the lock of the allocator is meant. -/
def Touches (layout : StaticLayout) (q : Request) : Prop :=
  q.address = layout.heapPointer ∨ q.address = layout.allocatorLock

instance (layout : StaticLayout) (q : Request) : Decidable (Touches layout q) :=
  inferInstanceAs (Decidable (_ ∨ _))

/-- A core comes to the allocator with a call. It waits for no reply. -/
structure Enters (first : Nat) (c : Core) (sent : List Sent) : Prop where
  entry : c.pc = first
  replies : c.replies = []
  unanswered : ∀ x ∈ sent, x.request.isAnswered = false
  entered : Entered first c

section
variable {ι : Type} [DecidableEq ι]

/-- One core with other contents and requests. -/
def System.put (s : System ι) (i : ι) (c : Core) (sent : List Sent) : System ι :=
  { s with core := Function.update s.core i c, sent := Function.update s.sent i sent }

/-- A core executes an instruction of the allocator, maybe the last one of a call. -/
def System.run (s : System ι) (first : Nat) (i : ι) (c : Core) (q : Option Request) : System ι :=
  { s.put i c (s.sent i ++ q.toList.map fun x => ⟨x, argument (s.core i)⟩) with
    completed := if Inside first c then s.completed
      else s.completed ++ [(result (s.core i), argument (s.core i))] }

/-- The oldest request of a core takes effect. -/
def System.serve (s : System ι) (layout : StaticLayout) (i : ι) (x : Sent)
    (rest : List Sent) : System ι :=
  { s.put i ((s.core i).get (x.request.serve s.shared).1) rest with
    shared := (x.request.serve s.shared).2
    released := if x.request = .write layout.allocatorLock 0 then s.released ++
      [x.size] else s.released }

/-- One step of a system. -/
inductive System.Step (P : Program) (layout : StaticLayout) (first : Nat) :
    System ι → System ι → Prop
  | run {s : System ι} (i : ι) {c : Core} {q : Option Request} : Inside first (s.core i) →
      (s.core i).start P = some (c, q) → Step P layout first s (s.run first i c q)
  | serve {s : System ι} (i : ι) {x : Sent} {rest : List Sent} : s.sent i = x :: rest →
      Step P layout first s (s.serve layout i x rest)
  /-- A core does something else. -/
  | other {s : System ι} (i : ι) {c : Core} {new : List Sent} : ¬ Inside first (s.core i) →
      (∀ x ∈ new, ¬ Touches layout x.request) →
      (Inside first c → Enters first c (s.sent i ++ new)) →
      Step P layout first s (s.put i c (s.sent i ++ new))
  /-- Another part of the shared memory changes. -/
  | elsewhere {s : System ι} {m : Memory} : m layout.heapPointer = s.shared layout.heapPointer →
      m layout.allocatorLock = s.shared layout.allocatorLock →
      Step P layout first s { s with shared := m }

/-- Nothing has been allocated. -/
structure System.Initial (layout : StaticLayout) (first : Nat) (s : System ι) : Prop where
  heap : s.shared layout.heapPointer = 0
  lock : s.shared layout.allocatorLock = 0
  cores : ∀ i, Inside first (s.core i) → Enters first (s.core i) (s.sent i)
  sent : ∀ i, ∀ x ∈ s.sent i, ¬ Touches layout x.request
  released : s.released = []
  completed : s.completed = []

/-! ## The invariant -/

/-- One block ends before the other one begins. -/
def Apart (b b' : Int × Int) : Prop := b.1 + b.2 ≤ b'.1 ∨ b'.1 + b'.2 ≤ b.1

/-- The requests about the allocator's own words. -/
def own (layout : StaticLayout) (sent : List Sent) : List Request :=
  (sent.map (·.request)).filter (Touches layout)

variable (A)

/-- The core that has the lock. `T` is the sum of the sizes that have been released, and `E` the end
of the blocks that calls have got. -/
inductive Owns (T E heap : Int) (c : Core) (sent : List Sent) : Prop
  | critical : Critical A T heap c (own layout sent) → E = T → Owns T E heap c sent
  | releasing {words : Int} {now later : List Request} : Releasing layout T heap words now →
      Waiting A c later → own layout sent = now ++ later →
      (∀ x ∈ sent, x.request = .write layout.allocatorLock 0 → x.size = words) → E = T + words →
      Owns T E heap c sent

/-- What a core in the routine keeps: its call, and that every reply which it waits for is from the
allocator's own words. -/
def Calling (c : Core) (sent : List Sent) : Prop :=
  Inside A.first c → Entered A.first c ∧ ∀ x ∈ sent, x.request.isAnswered = true →
    Touches layout x.request

/-- At most one core has the lock. -/
structure Mutex (s : System ι) (owner : Option ι) (T E : Int) : Prop where
  lock : s.shared layout.allocatorLock = if owner = none then 0 else 1
  free : owner = none → s.shared layout.heapPointer = T ∧ E = T
  waits : ∀ i, owner ≠ some i → Waiting A (s.core i) (own layout (s.sent i))
  owns : ∀ i, owner = some i → Owns A T E (s.shared layout.heapPointer) (s.core i) (s.sent i)
  calling : ∀ i, Calling A (s.core i) (s.sent i)

/-- The blocks that calls have got, whether they have returned or not, lie apart and end before
`E`. -/
structure Blocks (core : ι → Core) (completed : List (Int × Int)) (E : Int) : Prop where
  below : ∀ b ∈ completed, b.1 + b.2 ≤ E
  apart : completed.Pairwise Apart
  returning : ∀ i, Returning A (core i) → (blockOf A (core i)).1 + (blockOf A (core i)).2 ≤ E ∧
    ∀ b ∈ completed, Apart b (blockOf A (core i))
  distinct : ∀ i j, i ≠ j → Returning A (core i) → Returning A (core j) →
    Apart (blockOf A (core i)) (blockOf A (core j))

/-- What holds of a system at any time. -/
def System.Invariant (s : System ι) : Prop :=
  ∃ owner E, Mutex A s owner s.released.sum E ∧ Blocks A s.core s.completed E

section
variable {A} {rest : List Sent} {m : Memory} {E : Int}

theorem Returning.inside (h : Returning A c) : Inside A.first c := by
  unfold Returning at h
  unfold Inside
  omega

theorem own_cons_of_touches (h : Touches layout x.request) :
    own layout (x :: l) = x.request :: own layout l := by
  simp [own, h]

theorem own_append (l l' : List Sent) : own layout (l ++ l') = own layout l ++ own layout l' := by
  simp [own]

theorem own_eq_nil (h : ∀ x ∈ l, ¬ Touches layout x.request) : own layout l = [] := by
  simp only [own, List.filter_eq_nil_iff, List.mem_map, decide_eq_true_eq]
  rintro q ⟨x, hx, rfl⟩
  exact h x hx

theorem mem_own (hx : x ∈ l) (h : Touches layout x.request) : x.request ∈ own layout l :=
  List.mem_filter.2 ⟨List.mem_map_of_mem hx, decide_eq_true h⟩

omit [DecidableEq ι] in
theorem System.Initial.invariant {s : System ι} (h : s.Initial layout A.first) : s.Invariant A := by
  have hret : ∀ i, ¬ Returning A (s.core i) := fun i hr => by
    have := (h.cores i hr.inside).entry
    unfold Returning at hr
    omega
  rw [System.Invariant, h.released, h.completed]
  refine ⟨none, 0, ⟨h.lock, fun _ => ⟨h.heap, rfl⟩, fun i _ => ?_, fun i hi => ?_, fun i hin => ?_⟩,
    ?_⟩
  · rw [own_eq_nil (h.sent i)]
    by_cases hin : Inside A.first (s.core i)
    · exact .start (h.cores i hin).entry (h.cores i hin).replies
    · exact .out hin
  · cases hi
  · refine ⟨(h.cores i hin).entered, fun x hx ha => ?_⟩
    rw [(h.cores i hin).unanswered x hx] at ha
    cases ha
  · exact ⟨by simp, .nil, fun i hi => absurd hi (hret i), fun i _ _ hi => absurd hi (hret i)⟩

/-! ## One core changes -/

section
variable {s : System ι} {owner : Option ι} {T E : Int} {completed : List (Int × Int)}
  {released : List Int} {j i : ι}

@[simp] theorem System.put_core_self (i : ι) (c : Core) (l : List Sent) :
    (s.put i c l).core i = c :=
  Function.update_self ..

@[simp] theorem System.put_sent_self (i : ι) (c : Core) (l : List Sent) :
    (s.put i c l).sent i = l :=
  Function.update_self ..

theorem System.put_core_of_ne (h : j ≠ i) (c : Core) (l : List Sent) :
    (s.put i c l).core j = s.core j := Function.update_of_ne h ..

theorem System.put_sent_of_ne (h : j ≠ i) (c : Core) (l : List Sent) :
    (s.put i c l).sent j = s.sent j := Function.update_of_ne h ..

/-- Only one core takes part in a step, so that only it gets or loses the lock. -/
theorem Mutex.put (h : Mutex A s owner T E) {owner' : Option ι} {T' E' : Int}
    (hothers : ∀ j, j ≠ i → (owner' = some j ↔ owner = some j))
    (hsame : ∀ j, j ≠ i → owner = some j → m layout.heapPointer = s.shared layout.heapPointer ∧
      T' = T ∧ E' = E) (hlock : m layout.allocatorLock = if owner' = none then 0 else 1)
    (hfree : owner' = none → m layout.heapPointer = T' ∧ E' = T')
    (hwait : owner' ≠ some i → Waiting A c (own layout l))
    (hown : owner' = some i → Owns A T' E' (m layout.heapPointer) c l) (hcall : Calling A c l) :
    Mutex A { s.put i c l with shared := m, released := released, completed := completed }
      owner' T' E' := by
  refine ⟨hlock, hfree, fun j hj => ?_, fun j hj => ?_, fun j => ?_⟩
  · by_cases hji : j = i
    · subst hji
      rw [System.put_core_self, System.put_sent_self]
      exact hwait hj
    · rw [System.put_core_of_ne hji, System.put_sent_of_ne hji]
      exact h.waits j fun ho => hj ((hothers j hji).2 ho)
  · show Owns A T' E' (m layout.heapPointer) ((s.put i c l).core j) ((s.put i c l).sent j)
    by_cases hji : j = i
    · subst hji
      rw [System.put_core_self, System.put_sent_self]
      exact hown hj
    · have ho := (hothers j hji).1 hj
      obtain ⟨hheap, rfl, rfl⟩ := hsame j hji ho
      rw [System.put_core_of_ne hji, System.put_sent_of_ne hji, hheap]
      exact h.owns j ho
  · by_cases hji : j = i
    · subst hji
      rw [System.put_core_self, System.put_sent_self]
      exact hcall
    · rw [System.put_core_of_ne hji, System.put_sent_of_ne hji]
      exact h.calling j

/-- Neither the owner nor the allocator's words change. -/
theorem Mutex.keep (h : Mutex A s owner T E)
    (hheap : m layout.heapPointer = s.shared layout.heapPointer)
    (hlock : m layout.allocatorLock = s.shared layout.allocatorLock)
    (hwait : owner ≠ some i → Waiting A c (own layout l))
    (hown : owner = some i → Owns A T E (s.shared layout.heapPointer) c l)
    (hcall : Calling A c l) :
    Mutex A { s.put i c l with shared := m, released := released, completed := completed }
      owner T E :=
  h.put (fun _ _ => Iff.rfl) (fun _ _ _ => ⟨hheap, rfl, rfl⟩) (hlock.trans h.lock)
    (fun ho => ⟨hheap.trans (h.free ho).1, (h.free ho).2⟩) hwait (fun ho => hheap ▸ hown ho) hcall

variable {completed : List (Int × Int)}

theorem Blocks.keep (h : Blocks A s.core completed E) (l : List Sent)
    (hret : Returning A c → Returning A (s.core i) ∧ blockOf A c = blockOf A (s.core i)) :
    Blocks A (s.put i c l).core completed E := by
  have hblock : ∀ j, Returning A ((s.put i c l).core j) → Returning A (s.core j) ∧
      blockOf A ((s.put i c l).core j) = blockOf A (s.core j) := fun j hj => by
    by_cases hji : j = i
    · subst hji
      rw [System.put_core_self] at hj ⊢
      exact hret hj
    · rw [System.put_core_of_ne hji] at hj ⊢
      exact ⟨hj, rfl⟩
  refine ⟨h.below, h.apart, fun j hj => ?_, fun j k hjk hj hk => ?_⟩
  · rw [(hblock j hj).2]
    exact h.returning j (hblock j hj).1
  · rw [(hblock j hj).2, (hblock k hk).2]
    exact h.distinct j k hjk (hblock j hj).1 (hblock k hk).1

/-- A call gets the block at the end. -/
theorem Blocks.grant (h : Blocks A s.core completed E) (l : List Sent) {words : Int}
    (hw : 0 ≤ words)
    (hblock : blockOf A c = (E, words)) : Blocks A (s.put i c l).core completed (E + words) := by
  have hbelow : ∀ j, j ≠ i → Returning A (s.core j) →
      (blockOf A (s.core j)).1 + (blockOf A (s.core j)).2 ≤ E := fun j _ hj => (h.returning j hj).1
  refine ⟨fun b hb => ?_, h.apart, fun j hj => ?_, fun j k hjk hj hk => ?_⟩
  · have := h.below b hb
    omega
  · by_cases hji : j = i
    · subst hji
      rw [System.put_core_self, hblock]
      exact ⟨Int.le_refl _, fun b hb => .inl (h.below b hb)⟩
    · rw [System.put_core_of_ne hji] at hj ⊢
      refine ⟨?_, (h.returning j hj).2⟩
      have := (h.returning j hj).1
      omega
  · by_cases hji : j = i
    · subst hji
      rw [System.put_core_of_ne (Ne.symm hjk)] at hk ⊢
      rw [System.put_core_self, hblock]
      exact .inr (hbelow k (Ne.symm hjk) hk)
    · rw [System.put_core_of_ne hji] at hj ⊢
      by_cases hki : k = i
      · subst hki
        rw [System.put_core_self, hblock]
        exact .inl (hbelow j hji hj)
      · rw [System.put_core_of_ne hki] at hk ⊢
        exact h.distinct j k hjk hj hk

/-- A call returns its block. -/
theorem Blocks.complete (h : Blocks A s.core completed E) (hret : Returning A (s.core i))
    (hout : ¬ Returning A c) :
    Blocks A (s.put i c l).core (completed ++ [blockOf A (s.core i)]) E := by
  have hother : ∀ j, Returning A ((s.put i c l).core j) → j ≠ i ∧ Returning A (s.core j) ∧
      blockOf A ((s.put i c l).core j) = blockOf A (s.core j) := fun j hj => by
    by_cases hji : j = i
    · subst hji
      rw [System.put_core_self] at hj
      exact absurd hj hout
    · rw [System.put_core_of_ne hji] at hj ⊢
      exact ⟨hji, hj, rfl⟩
  refine ⟨fun b hb => ?_, ?_, fun j hj => ?_, fun j k hjk hj hk => ?_⟩
  · rcases List.mem_append.1 hb with hb | hb
    · exact h.below b hb
    · rw [List.mem_singleton.1 hb]
      exact (h.returning i hret).1
  · refine List.pairwise_append.2 ⟨h.apart, List.pairwise_singleton .., fun b hb b' hb' => ?_⟩
    rw [List.mem_singleton.1 hb']
    exact (h.returning i hret).2 b hb
  · obtain ⟨hji, hj', hblock⟩ := hother j hj
    rw [hblock]
    refine ⟨(h.returning j hj').1, fun b hb => ?_⟩
    rcases List.mem_append.1 hb with hb | hb
    · exact (h.returning j hj').2 b hb
    · rw [List.mem_singleton.1 hb]
      exact h.distinct i j (Ne.symm hji) hret hj'
  · rw [(hother j hj).2.2, (hother k hk).2.2]
    exact h.distinct j k hjk (hother j hj).2.1 (hother k hk).2.1

end

/-! ## Requests take effect -/

section
variable {c : Core} {q : Request}

theorem get_nil : c.get [] = c := by
  simp [Core.get]

theorem heapPointer_ne_allocatorLock : (layout.heapPointer : Int) ≠ layout.allocatorLock := by
  simp [StaticLayout.heapPointer, StaticLayout.allocatorLock]

/-- A core that still waits for the lock has asked for nothing else. -/
theorem Waiting.cons_inv {l : List Request} (h : Waiting A c (q :: l)) :
    q = .testAndSet layout.allocatorLock ∧ l = [] ∧ c.pc = A.first + 1 ∧ c.replies = [] := by
  cases h with
  | asked hpc hr => exact ⟨rfl, rfl, hpc, hr⟩

/-- A core outside of the routine has no requests about the lock. -/
theorem Waiting.eq_nil {l : List Request} (h : Waiting A c l)
    (hout : ¬ Inside A.first c) : l = [] := by
  cases h with
  | asked hpc _ => exact absurd (by unfold Inside; omega) hout
  | _ => rfl

theorem Critical.cons_inv {l : List Request} (h : Critical A T heap c (q :: l)) :
    l = [] ∧ c.replies = [] ∧ heap = T ∧
      (q = .read layout.heapPointer ∧ c.pc = A.first + 5 ∨
        q = .write layout.heapPointer (T + argument c) ∧ c.pc = A.first + 11 ∧
        c.value A.base = T) := by
  cases h with
  | reading hpc hr hheap => exact ⟨rfl, hr, hheap, .inl ⟨rfl, hpc⟩⟩
  | writing hpc hr hb hheap => exact ⟨rfl, hr, hheap, .inr ⟨rfl, hpc, hb⟩⟩

theorem Critical.address {T heap : Int} {l : List Request}
    (h : Critical A T heap c l) (hq : q ∈ l) : q.address = layout.heapPointer := by
  cases h with
  | reading | writing =>
    rw [List.mem_singleton.1 hq]
    rfl
  | _ => cases hq

/-- A request of the owner takes effect: it keeps the lock, or that was its release. -/
theorem Owns.serve {T : Int} {x : Sent}
    (h : Owns A T E (m layout.heapPointer) c (x :: rest)) (ht : Touches layout x.request) :
    (x.request ≠ .write layout.allocatorLock 0 ∧
      (x.request.serve m).2 layout.allocatorLock = m layout.allocatorLock ∧
      Owns A T E ((x.request.serve m).2 layout.heapPointer)
        (c.get (x.request.serve m).1) rest) ∨
    (x.request = .write layout.allocatorLock 0 ∧ m layout.heapPointer = E ∧ T + x.size = E ∧
      Waiting A c (own layout rest)) := by
  have hne : (layout.heapPointer : Int) ≠ layout.allocatorLock := heapPointer_ne_allocatorLock
  cases h with
  | critical hcrit hE =>
    rw [own_cons_of_touches ht] at hcrit
    obtain ⟨hrest, hr, hheap, ⟨hq, hpc⟩ | ⟨hq, hpc, hb⟩⟩ := hcrit.cons_inv
    · refine .inl ⟨by simp [hq], by simp [hq, Request.serve], .critical ?_ hE⟩
      rw [hrest, hq]
      refine .read hpc ?_ hheap
      show c.replies ++ [m layout.heapPointer] = [T]
      rw [hr, hheap]
      rfl
    · refine .inl ⟨by simp [hq, hne], ?_, .critical ?_ hE⟩
      · rw [hq]
        exact Memory.write_of_ne m _ (Ne.symm hne)
      · rw [hrest, hq]
        show Critical A T (m.write layout.heapPointer (T + argument c) layout.heapPointer)
          (c.get []) []
        rw [get_nil, Memory.write_same]
        exact .written hpc hr hb rfl
  | releasing hrel hwait heq htag hE =>
    rw [own_cons_of_touches ht] at heq
    cases hrel with
    | both hheap =>
      obtain ⟨hq, hrest⟩ := List.cons.inj heq
      refine .inl ⟨by simp [hq, hne], ?_, ?_⟩
      · rw [hq]
        exact Memory.write_of_ne m _ (Ne.symm hne)
      · refine .releasing (.one ?_) ?_ hrest (fun y hy => htag y (List.mem_cons_of_mem _ hy)) hE
        · rw [hq]
          exact Memory.write_same ..
        · rw [hq]
          exact get_nil ▸ hwait
    | one hheap =>
      obtain ⟨hq, hrest⟩ := List.cons.inj heq
      refine .inr ⟨hq, by rw [hheap, hE], ?_, by rw [hrest]; exact hwait⟩
      rw [htag x (List.mem_cons_self ..) hq, hE]

end

section
variable {s : System ι} {i : ι}

omit [DecidableEq ι] in
theorem Calling.get (h : Calling A c (x :: rest)) (replies : List Int) :
    Calling A (c.get replies) rest := fun hin =>
  ⟨⟨(h hin).1.size, (h hin).1.caller⟩, fun y hy => (h hin).2 y (List.mem_cons_of_mem _ hy)⟩

theorem System.Invariant.serve (h : s.Invariant A)
    (hs : s.sent i = x :: rest) : (s.serve layout i x rest).Invariant A := by
  obtain ⟨owner, E, hm, hb⟩ := h
  have hcall := hm.calling i
  rw [hs] at hcall
  have hb' : Blocks A (s.serve layout i x rest).core s.completed E :=
    hb.keep rest fun hr => ⟨hr, rfl⟩
  have hsum : x.request ≠ .write layout.allocatorLock 0 →
      (s.serve layout i x rest).released.sum = s.released.sum := fun hq => by
    simp only [System.serve, if_neg hq]
  by_cases ht : Touches layout x.request
  · by_cases ho : owner = some i
    · have hothers : ∀ j, j ≠ i → owner ≠ some j := fun j hji hj =>
        hji (Option.some.inj (hj.symm.trans ho))
      have hown := hm.owns i ho
      rw [hs] at hown
      rcases hown.serve ht with ⟨hq, hlock, hown'⟩ | ⟨hq, hheap, hsize, hwait⟩
      · refine ⟨owner, E, ?_, hb'⟩
        rw [hsum hq]
        exact hm.put (fun _ _ => Iff.rfl) (fun j hji hj => absurd hj (hothers j hji))
          (hlock.trans hm.lock)
          (fun hnone => absurd (hnone.symm.trans ho) (by simp)) (fun hne => absurd ho hne)
          (fun _ => hown') (hcall.get _)
      · have hsum' : (s.serve layout i x rest).released.sum = E := by
          simp only [System.serve, if_pos hq, List.sum_append, List.sum_singleton, hsize]
        refine ⟨none, E, ?_, hb'⟩
        rw [hsum']
        refine hm.put (fun j hji => ?_) (fun j hji hj => absurd hj (hothers j hji)) ?_
          (fun _ => ⟨?_, rfl⟩)
          (fun _ => ?_) (fun hne => by cases hne) (hcall.get _)
        · simp [hothers j hji]
        · rw [hq]
          exact Memory.write_same ..
        · rw [Request.serve_of_ne, hheap]
          rw [hq]
          exact heapPointer_ne_allocatorLock.symm
        · rw [hq]
          exact get_nil ▸ hwait
    · have hwait := hm.waits i ho
      rw [hs, own_cons_of_touches ht] at hwait
      obtain ⟨hq, hrest, hpc, hr⟩ := hwait.cons_inv
      have hne : x.request ≠ .write layout.allocatorLock 0 := by simp [hq]
      have hheap : (x.request.serve s.shared).2 layout.heapPointer =
          s.shared layout.heapPointer := by
        rw [Request.serve_of_ne]
        rw [hq]
        exact heapPointer_ne_allocatorLock.symm
      cases howner : owner with
      | none =>
        -- The lock is free, and the core gets it.
        have hlock : s.shared layout.allocatorLock = 0 := by
          rw [hm.lock, if_pos howner]
        have hserve : x.request.serve s.shared = ([1], s.shared.write layout.allocatorLock 1) := by
          rw [hq, Request.serve, if_pos hlock]
        refine ⟨some i, E, ?_, hb'⟩
        rw [hsum hne]
        refine hm.put (fun j hji => ?_) (fun j _ hj => ?_) ?_ (fun hnone => by cases hnone)
          (fun hsome => absurd rfl hsome) (fun _ => ?_) (hcall.get _)
        · simp [howner, Ne.symm hji]
        · rw [howner] at hj
          cases hj
        · rw [hserve]
          exact Memory.write_same ..
        · rw [hheap, hserve, (hm.free howner).1]
          refine .critical ?_ (hm.free howner).2
          rw [hrest]
          exact .won hpc (by rw [Core.get, hr]; rfl) rfl
      | some j =>
        have hlock : s.shared layout.allocatorLock = 1 := by
          rw [hm.lock, if_neg (by simp [howner])]
        have hserve : x.request.serve s.shared = ([0], s.shared) := by
          rw [hq, Request.serve, if_neg (by omega)]
        refine ⟨owner, E, ?_, hb'⟩
        rw [hsum hne]
        refine hm.keep hheap (by rw [hserve]) (fun _ => ?_)
          (fun hsome => absurd hsome ho) (hcall.get _)
        rw [hserve, hrest]
        exact .refused hpc (by rw [Core.get, hr]; rfl)
  · have hne : x.request ≠ .write layout.allocatorLock 0 := fun hq => ht (.inr (by rw [hq]; rfl))
    -- A core in the routine gets no reply.
    have hget : Inside A.first (s.core i) →
        (s.core i).get (x.request.serve s.shared).1 = s.core i := fun hin => by
      rw [Request.serve_replies, get_nil]
      by_contra ha
      exact ht ((hcall hin).2 x (List.mem_cons_self ..) (by simpa using ha))
    have hwait : ∀ l, Waiting A (s.core i) l →
        Waiting A ((s.core i).get (x.request.serve s.shared).1) l := fun l hl => by
      by_cases hin : Inside A.first (s.core i)
      · rwa [hget hin]
      · rw [hl.eq_nil hin]
        exact .out hin
    have hown : own layout (s.sent i) = own layout rest := by simp [hs, own, ht]
    refine ⟨owner, E, ?_, hb'⟩
    rw [hsum hne]
    refine hm.keep (Request.serve_of_ne fun ha => ht (.inl ha))
      (Request.serve_of_ne fun ha => ht (.inr ha))
      (fun ho => hown ▸ hwait _ (hm.waits i ho)) (fun ho => ?_) (hcall.get _)
    cases hm.owns i ho with
    | critical hcrit hE =>
      rw [hget hcrit.inside.1]
      exact .critical (hown ▸ hcrit) hE
    | releasing hrel hw heq htag hE =>
      exact .releasing hrel (hwait _ hw) (hown ▸ heq) (fun y hy =>
        htag y (hs ▸ List.mem_cons_of_mem _ hy)) hE

/-! ## Instructions are executed -/

section
variable {c : Core} {q : Option Request}

/-- The requests of a core after it has executed an instruction. -/
abbrev System.sentWith (s : System ι) (i : ι) (q : Option Request) : List Sent :=
  s.sent i ++ q.toList.map fun x => ⟨x, argument (s.core i)⟩

omit [DecidableEq ι] in
theorem own_sentWith (hq : ∀ x, q = some x → Touches layout x) :
    own layout (s.sentWith i q) = own layout (s.sent i) ++ q.toList := by
  rw [own_append]
  cases q with
  | none => rfl
  | some x => simp [own, hq x rfl]

omit [DecidableEq ι] in
theorem mem_sentWith : x ∈ s.sentWith i q ↔ x ∈ s.sent i ∨ q = some x.request ∧
    x.size = argument (s.core i) := by
  cases q with
  | none => simp
  | some y =>
    obtain ⟨y', n⟩ := x
    simp [eq_comm]

omit [DecidableEq ι] in
theorem Calling.run (h : Calling A (s.core i) (s.sent i)) (hin : Inside A.first (s.core i))
    (hframe : SameFrame (s.core i) c) (hq : ∀ x, q = some x → Touches layout x) :
    Calling A c (s.sentWith i q) := fun _ => by
  refine ⟨hframe.entered (h hin).1, fun x hx ha => ?_⟩
  rcases mem_sentWith.1 hx with hx | ⟨hx, -⟩
  · exact (h hin).2 x hx ha
  · exact hq _ hx

theorem Blocks.run (h : Blocks A s.core s.completed E)
    (hret : Returning A c → Returning A (s.core i) ∧ blockOf A c = blockOf A (s.core i))
    (hout : ¬ Inside A.first c → Returning A (s.core i) ∧
      (result (s.core i), argument (s.core i)) = blockOf A (s.core i)) :
    Blocks A (s.run A.first i c q).core (s.run A.first i c q).completed E := by
  show Blocks A (s.put i c (s.sentWith i q)).core (if Inside A.first c then s.completed
    else s.completed ++ [(result (s.core i), argument (s.core i))]) E
  by_cases hin : Inside A.first c
  · rw [if_pos hin]
    exact h.keep _ hret
  · rw [if_neg hin, (hout hin).2]
    exact h.complete (hout hin).1 fun hr => hin hr.inside

theorem System.Invariant.run (h : s.Invariant A) (hin : Inside A.first (s.core i))
    (hs : (s.core i).start P = some (c, q)) : (s.run A.first i c q).Invariant A := by
  obtain ⟨owner, E, hm, hb⟩ := h
  have hcall := hm.calling i
  have hlock : ∀ x, q = some x → x = .testAndSet layout.allocatorLock → Touches layout x :=
    fun x _ hx => .inr (by rw [hx]; rfl)
  by_cases ho : owner = some i
  · cases hm.owns i ho with
    | critical hcrit hE =>
      obtain ⟨hframe, ⟨hcrit', hq⟩ | ⟨rfl, hin', hwait, hblock, hrel⟩⟩ := hcrit.run hs
      · have ht : ∀ x, q = some x → Touches layout x := fun x hx => .inl (hq x hx)
        refine ⟨owner, E, hm.keep rfl rfl (fun hne => absurd ho hne) (fun _ => .critical ?_ hE)
          (hcall.run hin hframe ht), hb.run (fun hr => absurd hr hcrit'.inside.2) fun hout =>
          absurd hcrit'.inside.1 hout⟩
        rw [own_sentWith ht]
        exact hcrit'
      · -- The release is asked for. From now on the block belongs to the call.
        have ht : ∀ x, some (Request.write layout.allocatorLock 0) = some x → Touches layout x :=
          fun x hx => .inr (by rw [← Option.some.inj hx]; rfl)
        have hothers : ∀ j, j ≠ i → owner ≠ some j := fun j hji hj =>
          hji (Option.some.inj (hj.symm.trans ho))
        refine ⟨owner, E + argument (s.core i), hm.put (fun _ _ => Iff.rfl)
          (fun j hji hj => absurd hj (hothers j hji)) hm.lock
          (fun hnone => absurd (hnone.symm.trans ho) (by simp)) (fun hne => absurd ho hne)
          (fun _ => .releasing hrel hwait ?_ (fun x hx hq => ?_) (by rw [hE]; rfl))
          (hcall.run hin hframe ht), ?_⟩
        · rw [own_sentWith ht, List.append_nil]
        · rcases mem_sentWith.1 hx with hx | ⟨-, hx⟩
          · -- The core has asked for no other release.
            have := hcrit.address (mem_own hx (.inr (by rw [hq]; rfl)))
            rw [hq] at this
            exact absurd this heapPointer_ne_allocatorLock.symm
          · exact hx
        · have hblock' : blockOf A c = (E, argument (s.core i)) := by rw [hblock, hE]
          have hkeep : (s.run A.first i c (some (.write layout.allocatorLock 0))).completed =
            s.completed := if_pos hin'
          rw [hkeep]
          exact hb.grant (s.sentWith i (some (.write layout.allocatorLock 0)))
            (hcall hin).1.size hblock'
    | releasing hrel hwait heq htag hE =>
      obtain ⟨hwait', hframe, hq, hret, hout⟩ := hwait.run hin (hcall hin).1 hs
      have ht : ∀ x, q = some x → Touches layout x := fun x hx => hlock x hx (hq x hx)
      refine ⟨owner, E, hm.keep rfl rfl (fun hne => absurd ho hne)
        (fun _ => .releasing hrel hwait' ?_ (fun x hx hx' => ?_) hE) (hcall.run hin hframe ht),
        hb.run hret hout⟩
      · rw [own_sentWith ht, heq, List.append_assoc]
      · rcases mem_sentWith.1 hx with hx | ⟨hx, -⟩
        · exact htag x hx hx'
        · cases hx'.symm.trans (hq _ hx)
  · obtain ⟨hwait, hframe, hq, hret, hout⟩ := (hm.waits i ho).run hin (hcall hin).1 hs
    have ht : ∀ x, q = some x → Touches layout x := fun x hx => hlock x hx (hq x hx)
    refine ⟨owner, E, hm.keep rfl rfl (fun _ => ?_) (fun hsome => absurd hsome ho)
      (hcall.run hin hframe ht),
      hb.run hret hout⟩
    rw [own_sentWith ht]
    exact hwait

/-- Every step keeps the invariant. -/
theorem System.Step.invariant {s s' : System ι} (h : System.Step P layout A.first s s')
    (hs : s.Invariant A) : s'.Invariant A := by
  cases h with
  | run i hin hstart => exact hs.run hin hstart
  | serve i hsent => exact hs.serve hsent
  | @other i c new hout hnew henter =>
    obtain ⟨owner, E, hm, hb⟩ := hs
    have hown : own layout (s.sent i ++ new) = own layout (s.sent i) := by
      rw [own_append, own_eq_nil hnew, List.append_nil]
    -- The core comes to the first instruction, or stays outside.
    have hwait : ∀ l, Waiting A (s.core i) l → Waiting A c l := fun l hl => by
      obtain rfl := hl.eq_nil hout
      by_cases hin : Inside A.first c
      · exact .start (henter hin).entry (henter hin).replies
      · exact .out hin
    have hret : ¬ Returning A c := fun hr => by
      have := (henter hr.inside).entry
      unfold Returning at hr
      omega
    refine ⟨owner, E, hm.keep rfl rfl (fun ho => hown ▸ hwait _ (hm.waits i ho)) (fun ho => ?_)
      fun hin => ⟨(henter hin).entered, fun x hx ha => ?_⟩, hb.keep _ fun hr => absurd hr hret⟩
    · cases hm.owns i ho with
      | critical hcrit _ => exact absurd hcrit.inside.1 hout
      | releasing hrel hw heq htag hE =>
        refine .releasing hrel (hwait _ hw) (hown ▸ heq) (fun x hx hq => ?_) hE
        rcases List.mem_append.1 hx with hx | hx
        · exact htag x hx hq
        · exact absurd (.inr (by rw [hq]; rfl)) (hnew x hx)
    · rw [(henter hin).unanswered x hx] at ha
      cases ha
  | @elsewhere m hheap hlock =>
    obtain ⟨owner, E, hm, hb⟩ := hs
    refine ⟨owner, E,
      ⟨hlock.trans hm.lock, fun ho => ⟨hheap.trans (hm.free ho).1, (hm.free ho).2⟩, hm.waits,
      fun i ho => ?_, hm.calling⟩, hb⟩
    show Owns A s.released.sum E (m layout.heapPointer) (s.core i) (s.sent i)
    rw [hheap]
    exact hm.owns i ho

theorem System.Initial.reaches {s0 s : System ι} (h0 : s0.Initial layout A.first)
    (h : Relation.ReflTransGen (System.Step P layout A.first) s0 s) : s.Invariant A := by
  induction h with
  | refl => exact h0.invariant
  | tail _ hstep ih => exact hstep.invariant ih

end

end

end

end

/-! ## The allocator of a program -/

section
variable {u : SourceUnit} {t : Tables} {options : Options} {g : Generated}

theorem Emit.RoutinesAt.placed {env : Env} {rs : List Routine} {j : Nat}
    (h : Emit.RoutinesAt env P rs i j)
    {x : Routine} (hx : x ∈ rs) : ∃ first last, Emit.Placed env P x.code [] first () last := by
  induction h with
  | nil => cases hx
  | cons hr _ ih =>
    rcases List.mem_cons.1 hx with rfl | hx
    · exact ⟨_, _, hr⟩
    · exact ih hx

theorem generate_allocator (hg : generate u t options = .ok g) : ∃ A : Allocator g.program g.layout,
    g.program.target? (startEnv u t options g.layout).allocator = some A.first := by
  obtain ⟨i, j, -, -, hroutines⟩ := (generate_at hg).2.parts
  obtain ⟨first, last, hplaced⟩ := hroutines.placed (List.mem_append_right _ (.head _))
  obtain ⟨base, size, r, locked, hsize, hbase, hr, hcode, hentry, hlocked, -⟩ :=
    Emit.Placed.allocatorRoutine hplaced
  exact ⟨⟨first, base, size, r, hbase, hsize, hr, _, locked, hcode, hentry, hlocked⟩, hentry⟩

/-- The addresses of a block. -/
def addresses (b : Int × Int) : Set Int := {a | b.1 ≤ a ∧ a < b.1 + b.2}

theorem Apart.disjoint {b b' : Int × Int} (h : Apart b b') :
    ∀ a ∈ addresses b, a ∉ addresses b' := by
  rintro a ⟨h1, h2⟩ ⟨h3, h4⟩
  rcases h with h | h <;> omega

/-- The blocks of completed allocations are disjoint, whatever the cores do in between. While the
lock is free, the heap pointer is the sum of the sizes that have been released. -/
theorem generate_allocates_apart (hg : generate u t options = .ok g) : ∃ first,
    g.program.target? (startEnv u t options g.layout).allocator = some first ∧
    ∀ (ι : Type) [DecidableEq ι] (s₀ s : System ι), s₀.Initial g.layout first →
      Relation.ReflTransGen (System.Step g.program g.layout first) s₀ s →
      s.completed.Pairwise (fun b b' => ∀ a ∈ addresses b, a ∉ addresses b') ∧
      (s.shared g.layout.allocatorLock = 0 → s.shared g.layout.heapPointer = s.released.sum) := by
  obtain ⟨A, hentry⟩ := generate_allocator hg
  refine ⟨A.first, hentry, fun ι _ s₀ s h₀ hreach => ?_⟩
  obtain ⟨owner, E, hm, hb⟩ := h₀.reaches hreach
  refine ⟨hb.apart.imp Apart.disjoint, fun hlock => ?_⟩
  by_cases ho : owner = none
  · exact (hm.free ho).1
  · rw [hm.lock, if_neg ho] at hlock
    cases hlock

/-- Two cores that call the allocator at the same time. -/
def twoCalls (first : Nat) : System Bool where
  core b := { registers := fun _ => 0, memory := fun a =>
    if a = 1 then (if b then 3 else 5) else -1, replies := [], pc := first }
  sent _ := []
  shared _ := 0
  released := []
  completed := []

theorem twoCalls_initial (layout : StaticLayout) (first : Nat) :
    (twoCalls first).Initial layout first where
  heap := rfl
  lock := rfl
  cores b _ := by
    refine ⟨rfl, rfl, fun x hx => absurd hx List.not_mem_nil, ?_, ?_⟩
    · have : argument ((twoCalls first).core b) = if b then 3 else 5 := rfl
      cases b <;> rw [this] <;> decide
    · have : returnAddress ((twoCalls first).core b) = -1 := rfl
      simp only [Inside, Core.goto_pc]
      omega
  sent _ x hx := absurd hx List.not_mem_nil
  released := rfl
  completed := rfl

theorem counterUnit_allocates_apart : ∃ t g first, counterUnit.check = .ok t ∧
    generate counterUnit t {} = .ok g ∧ (twoCalls first).Initial g.layout first ∧
    g.program.target? (startEnv counterUnit t {} g.layout).allocator = some first ∧
    ∀ s, Relation.ReflTransGen (System.Step g.program g.layout first) (twoCalls first) s →
      s.completed.Pairwise (fun b b' => ∀ a ∈ addresses b, a ∉ addresses b') ∧
      (s.shared g.layout.allocatorLock = 0 → s.shared g.layout.heapPointer = s.released.sum) := by
  obtain ⟨t, g, ht, hg⟩ := counterUnit_generated
  obtain ⟨first, hentry, happly⟩ := generate_allocates_apart hg
  have h₀ := twoCalls_initial g.layout first
  exact ⟨t, g, first, ht, hg, h₀, hentry, fun s hs => happly Bool _ s h₀ hs⟩

end

end Awl.Code
