import Mathlib.Data.List.Nodup
import Awl.Symbol

/-!
# Interning by several callers

Callers share one table of symbols. A call looks its string up, and if the string has no symbol the
call inserts it. Between these two steps other callers may take any of theirs. A `Schedule` says
which caller takes the next step, and `Interning.run` is the state after the steps of a schedule. A
symbol is never taken from its string (`SymbolTable.Extends`), so the symbols and the strings of a
table correspond to each other under every schedule (`intern_exact`).
-/

namespace Awl

namespace SymbolTable

variable {t t' t'' : SymbolTable}

/-- A string has a symbol exactly if the symbol stands for it. -/
def Exact (t : SymbolTable) : Prop :=
  ∀ s symbol, t.lookup s = some symbol ↔ t.value? symbol = some s

/-- What a symbol stands for in `t`, it stands for in `t'`. -/
def Extends (t t' : SymbolTable) : Prop :=
  ∀ symbol s, t.value? symbol = some s → t'.value? symbol = some s

theorem Extends.trans (h : t.Extends t') (h' : t'.Extends t'') : t.Extends t'' := fun symbol s hs =>
  h' symbol s (h symbol s hs)

theorem Exact.nodup (h : t.Exact) : t.strings.toList.Nodup := by
  refine List.nodup_iff_getElem?_ne_getElem?.2 fun i j hij hj heq => ?_
  have hvalue : ∀ k : Nat, t.value? ⟨k⟩ = t.strings.toList[k]? := fun k => by
    simp [value?, Slots.get?, Slots.toList]
  have hi := (h _ ⟨i⟩).2 ((hvalue i).trans (heq.trans (List.getElem?_eq_getElem hj)))
  have hj := (h _ ⟨j⟩).2 ((hvalue j).trans (List.getElem?_eq_getElem hj))
  have hsame : (⟨i⟩ : Symbol) = ⟨j⟩ := Option.some.inj (hi.symm.trans hj)
  exact Nat.ne_of_lt hij (congrArg Symbol.index hsame)

/-- The answer of an insertion stands for the string, also if another caller has inserted the string
before. -/
theorem Exact.insert (h : t.Exact) (s : String) :
    (t.insert s).2.Exact ∧ t.Extends (t.insert s).2 ∧
      (t.insert s).2.value? (t.insert s).1 = some s := by
  cases hs : t.lookup s with
  | some symbol =>
    have hinsert : t.insert s = (symbol, t) := by simp [SymbolTable.insert, hs]
    rw [hinsert]
    exact ⟨h, fun _ _ hv => hv, (h s symbol).1 hs⟩
  | none =>
    have hinsert : t.insert s = (⟨t.strings.nextId⟩,
        { strings := t.strings.push s, indices := (s, ⟨t.strings.nextId⟩) :: t.indices }) := by
      simp [SymbolTable.insert, hs]
    have hvalue : ∀ symbol, (t.insert s).2.value? symbol =
        if symbol = (t.insert s).1 then some s else t.value? symbol := fun ⟨i⟩ => by
      simp only [hinsert, Symbol.mk.injEq]
      exact Slots.get?_push ..
    have hfree : t.value? (t.insert s).1 = none := by
      rw [hinsert]
      exact (Slots.get?_eq_none_iff ..).2 (Nat.le_refl _)
    have hlookup : ∀ x, (t.insert s).2.lookup x = if x = s then some
        (t.insert s).1 else t.lookup x := fun x => by
      rw [hinsert]
      by_cases hx : x = s
      · simp [SymbolTable.lookup, hx]
      · simp [SymbolTable.lookup, hx, List.lookup_cons, beq_false_of_ne hx]
    refine ⟨fun x symbol => ?_, fun symbol x hx => ?_, by rw [hvalue, if_pos rfl]⟩
    · rw [hlookup, hvalue]
      have hold := h x symbol
      by_cases hx : x = s
      · by_cases hsymbol : symbol = (t.insert s).1
        · simp [hx, hsymbol]
        · simp [hx, @eq_comm _ _ symbol, ← h s symbol, hs]
      · by_cases hsymbol : symbol = (t.insert s).1
        · simp [hsymbol, h x, hfree, @eq_comm _ s]
        · simp [hx, hsymbol, hold]
    · rw [hvalue, if_neg, hx]
      rintro rfl
      exact absurd (hx.symm.trans hfree) nofun

end SymbolTable

/-! ## Schedules -/

/-- A table, what its callers are about to insert, and the calls that are finished with their
answers. -/
structure Interning (ι : Type) where
  table : SymbolTable := {}
  /-- The string of a caller that did not find it. -/
  pending : ι → Option String := fun _ => none
  finished : List (String × Symbol) := []

/-- The callers in the order of their steps, each with the string that it looks up if it starts a
call. -/
abbrev Schedule (ι : Type) := List (ι × String)

namespace Interning

variable {ι : Type} [DecidableEq ι] {st : Interning ι}

/-- The next step of a caller: the insertion that it is about to make, or else the start of a
call. -/
def step (st : Interning ι) : ι × String → Interning ι
  | (i, s) =>
    match st.pending i with
    | some s =>
      let (symbol, table) := st.table.insert s
      { table
        pending := fun j => if j = i then none else st.pending j
        finished := (s, symbol) :: st.finished }
    | none =>
      match st.table.lookup s with
      | some symbol => { st with finished := (s, symbol) :: st.finished }
      | none => { st with pending := fun j => if j = i then some s else st.pending j }

def run (st : Interning ι) (schedule : Schedule ι) : Interning ι := schedule.foldl step st

/-- The finished calls were given symbols of their strings. -/
structure Sound (st : Interning ι) : Prop where
  exact : st.table.Exact
  finished : ∀ call ∈ st.finished, st.table.value? call.2 = some call.1

theorem Sound.step (h : st.Sound) (next : ι × String) :
    (st.step next).Sound ∧ st.table.Extends (st.step next).table := by
  obtain ⟨i, s⟩ := next
  cases hi : st.pending i with
  | some s' =>
    simp only [Interning.step, hi]
    obtain ⟨hexact, hextends, hanswer⟩ := h.exact.insert s'
    refine ⟨⟨hexact, fun call hcall => ?_⟩, hextends⟩
    obtain rfl | hcall := List.mem_cons.1 hcall
    · exact hanswer
    · exact hextends _ _ (h.finished call hcall)
  | none =>
    cases hs : st.table.lookup s with
    | some symbol =>
      simp only [Interning.step, hi, hs]
      refine ⟨⟨h.exact, fun call hcall => ?_⟩, fun _ _ hv => hv⟩
      obtain rfl | hcall := List.mem_cons.1 hcall
      · exact (h.exact s symbol).1 hs
      · exact h.finished call hcall
    | none =>
      simp only [Interning.step, hi, hs]
      exact ⟨⟨h.exact, h.finished⟩, fun _ _ hv => hv⟩

theorem Sound.run (h : st.Sound) (schedule : Schedule ι) :
    (st.run schedule).Sound ∧ st.table.Extends (st.run schedule).table := by
  induction schedule generalizing st with
  | nil => exact ⟨h, fun _ _ hv => hv⟩
  | cons next schedule ih =>
    obtain ⟨hstep, hextends⟩ := h.step next
    exact (ih hstep).imp id hextends.trans

/-- A call whose steps follow each other is `SymbolTable.intern`. -/
theorem run_intern {i : ι} (h : st.pending i = none) (s : String) :
    ∃ n, (st.run (.replicate n (i, s))).table = (st.table.intern s).2 ∧
      (st.run (.replicate n (i, s))).finished = (s, (st.table.intern s).1) :: st.finished := by
  cases hs : st.table.lookup s with
  | some symbol => exact ⟨1, by simp [run, Interning.step, h, hs, SymbolTable.intern]⟩
  | none => exact ⟨2, by simp [run, Interning.step, h, hs, SymbolTable.intern]⟩

/-- **Interning.** Whatever steps the callers have taken: no string is listed twice, and the symbol
of a string is its place in the list; the answer of a finished call stands for its string, now and
after any later steps; the answers of two calls are equal exactly if their strings are; and a caller
that is left alone finishes its call. -/
theorem intern_exact (schedule later : Schedule ι) :
    let st := run {} schedule
    st.table.strings.toList.Nodup ∧
    (∀ s i, st.table.lookup s = some ⟨i⟩ ↔ st.table.strings.get? i = some s) ∧
    (∀ call ∈ st.finished, st.table.value? call.2 = some call.1 ∧
      (st.run later).table.value? call.2 = some call.1) ∧
    (∀ call ∈ st.finished, ∀ call' ∈ st.finished, call.2 = call'.2 ↔ call.1 = call'.1) ∧ ∀ i,
      st.pending i = none → ∀ s, ∃ n, (st.run (.replicate n (i, s))).table = (st.table.intern s).2 ∧
      (st.run (.replicate n (i, s))).finished = (s, (st.table.intern s).1) :: st.finished := by
  intro st
  have hempty : Sound ({} : Interning ι) :=
    ⟨fun s symbol => by simp [SymbolTable.lookup, SymbolTable.value?, Slots.get?_empty], nofun⟩
  obtain ⟨hsound, -⟩ := hempty.run schedule
  obtain ⟨-, hextends⟩ := hsound.run later
  refine ⟨hsound.exact.nodup, fun s i => hsound.exact s ⟨i⟩, fun call hcall =>
    ⟨hsound.finished call hcall, hextends _ _ (hsound.finished call hcall)⟩,
    fun call hcall call' hcall' => ?_,
    fun i hi s => run_intern hi s⟩
  have hs := hsound.finished call hcall
  have hs' := hsound.finished call' hcall'
  constructor
  · intro heq
    exact Option.some.inj (hs.symm.trans (heq ▸ hs'))
  · intro heq
    exact Option.some.inj (((hsound.exact _ _).2 hs).symm.trans (heq ▸ (hsound.exact _ _).2 hs'))

/-- Two callers look for the same string before either of them inserts it. -/
def race : Schedule Nat := [(0, "x"), (1, "x"), (1, ""), (0, ""), (1, "y"), (1, "")]

theorem race_exact : (run {} race).finished = [("y", ⟨1⟩), ("x", ⟨0⟩), ("x", ⟨0⟩)] ∧
    ((⟨1⟩ : Symbol) = ⟨0⟩ ↔ "y" = "x") ∧ ((run {} race).run [(2, "y")]).table.value? ⟨1⟩ =
    some "y" := by
  have hfinished : (run {} race).finished = [("y", ⟨1⟩), ("x", ⟨0⟩), ("x", ⟨0⟩)] := by decide
  obtain ⟨-, -, hvalue, hequal, -⟩ := intern_exact race [(2, "y")]
  rw [hfinished] at hvalue hequal
  exact ⟨hfinished, hequal ("y", ⟨1⟩) (by simp) ("x", ⟨0⟩) (by simp),
    (hvalue ("y", ⟨1⟩) (by simp)).2⟩

end Interning

end Awl
