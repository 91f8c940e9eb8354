import Awl.Proofs.Containment

/-!
# Writes to fixed addresses

Every write to a fixed address in a generated program has one of the reasons that `StaticWrite`
lists. For the words of locks, this leaves the zero register and copies of other locks.
-/

namespace Awl.Code

open Machine

section
variable {u : SourceUnit} {t : Tables} {options : Options} {g : Generated}

/-- **Writes to fixed addresses** have a reason in every generated program. -/
theorem generate_staticWrites (h : u.check = .ok t) (hids : (u.nodes.map (·.id)).Nodup)
    (hg : generate u t options = .ok g) {k : Nat} {r : Register} {a : Nat}
    (hw : g.program.Has k .write [.register r, .address (.direct a)]) :
    StaticWrite (startEnv u t options g.layout) u.stores g.program k r a := by
  have hu := SourceUnit.check_sound h hids
  have hspace := generate_spacious hu hg
  obtain ⟨i, j, ss, hdispatch, hmain, hss, hchain⟩ := (generate_at hg).2.split hu
  rcases Nat.lt_or_ge k i with hlt | hge
  · have hkeeps : Emit.Keeps ⟨startEnv u t options g.layout, u.stores, 0, hspace⟩
        (Emit.dispatch 0 t.functions.threads) := Emit.dispatch_keeps _ _
    exact hdispatch.staticWrite hkeeps (Nat.zero_le k) hlt hw
  rcases Nat.lt_or_ge k j with hlt | hge'
  · have hroomy : Emit.Roomy ⟨startEnv u t options g.layout, u.stores, g.layout.globals,
      hspace⟩ none :=
      hspace.globals
    exact hmain.staticWrite (Emit.mainCode_keeps hroomy hu.main (main_stores_subset u)) hge hlt hw
  · obtain ⟨s, hs, hpos⟩ := hchain.covers hge' (Slots.lt_of_get? hw.choose_spec)
    obtain ⟨r, hr, -, hcode⟩ := forall₂_mem_right hss hs
    obtain ⟨n, hn⟩ := routine_slots hu hr
    exact hcode.staticWrite (routine_keeps h hids hspace hr hn) hpos.1 hpos.2 hw

/-! ## Lock words -/

/-- The words of global variables are apart from the other static words. -/
theorem StaticLayout.global_ne (l : StaticLayout) (k : Nat) :
    l.global k ≠ l.heapPointer ∧ ∀ f < l.threads, l.global k ≠ l.threadFlag f := by
  unfold StaticLayout.global StaticLayout.heapPointer StaticLayout.threadFlag
  exact ⟨by omega, fun f hf => by omega⟩

/-- **Lock words change by lock operations and by copies of locks.** What is written to the word of
a global lock is zero, or the value of an expression of type `lock` that an assignment to the
variable or its declaration stores there; the code of the expression ends directly before the
write. -/
theorem generate_lock_writes (h : u.check = .ok t) (hids : (u.nodes.map (·.id)).Nodup)
    (hg : generate u t options = .ok g) {sc : Scope} {x : String} {b : Binding} {k : Nat}
    (hsc : t.scopes.scopes.get? ScopeTree.globalId = some sc) (hx : sc.bindings.lookup x = some b)
    (hlock : b.type = .lock) (hk : b.offset = some k) {i : Nat} {r : Register}
    (hi : g.program.Has i .write [.register r, .address (.direct (g.layout.global k))]) :
    r = .zero ∨ ∃ q ∈ u.stores, q.name = x ∧ t.annotations.scope? q.node = some ScopeTree.globalId ∧
      t.annotations.type? q.value.id = some .lock ∧ ∃ context used first,
        Emit.Placed (startEnv u t options g.layout) g.program
        (Emit.expr context q.value) used first r i := by
  have hu := SourceUnit.check_sound h hids
  have hspace := generate_spacious hu hg
  have hapart := g.layout.global_ne k
  have hwrite := generate_staticWrites h hids hg hi
  generalize ha : g.layout.global k = a at hwrite
  cases hwrite with
  | zero => exact .inl rfl
  | heapPointer => exact absurd ha hapart.1
  | threadFlag hf => exact absurd ha (hapart.2 _ (hspace.threads ▸ hf))
  | @store q id k' context used first r hq hid hkind hoff hp =>
    refine .inr ⟨q, hq, ?_⟩
    obtain rfl : k = k' := Nat.add_left_cancel ha
    obtain ⟨id', sc', b', hid', hsc', hb', htype⟩ := hu.stores q hq
    obtain rfl : id' = id := Option.some.inj (hid'.symm.trans hid)
    have hglobal : sc'.kind = .global := Except.ok.inj ((ScopeTree.kind_eq hsc').symm.trans hkind)
    obtain rfl := hu.laid.single _ _ hsc' hglobal
    obtain rfl : sc' = sc := Option.some.inj (hsc'.symm.trans hsc)
    have hoff' : b'.offset = some k := by
      have hoff : t.scopes.offset? ScopeTree.globalId q.name = .ok (some k) := hoff
      rw [ScopeTree.offset?_eq hsc, hb'] at hoff
      exact Except.ok.inj hoff
    obtain ⟨-, rfl⟩ := hu.laid.apart _ _ _ _ _ _ _ _ k hsc' hsc hb' hx hoff' hk rfl
    obtain rfl : b' = b := Option.some.inj (hb'.symm.trans hx)
    exact ⟨rfl, hid, by rw [htype, hlock], context, used, first, hp⟩

end

/-- Two locks, and an assignment that copies one of them. -/
def lockCopy : SourceUnit :=
  { statements := [
      .declaration 0 ⟨1, .lock, "a", none⟩, .declaration 2 ⟨3, .lock, "b", none⟩,
      .assignment 4 (.name 5 "a") (.name 6 "b")] }

theorem lockCopy_nodup : (lockCopy.nodes.map (·.id)).Nodup := by decide

theorem eq_ok_of_toOption {ε α : Type} {x : Except ε α} {a : α} (h : x.toOption = some a) :
    x = .ok a := by
  cases x with
  | error => cases h
  | ok => exact congrArg _ (Option.some.inj h)

/-- The word of the first lock is written from a register that holds the word of the second one. -/
theorem lockCopy_generated : ∃ t g sc, lockCopy.check = .ok t ∧ generate lockCopy t {} = .ok g ∧
    t.scopes.scopes.get? ScopeTree.globalId = some sc ∧
    sc.bindings.lookup "a" = some ⟨.lock, some 0⟩ ∧
    g.program.Has 12 .write [.register .a, .address (.direct (g.layout.global 0))] := by
  have h : (lockCopy.check.toOption.bind fun t => (generate lockCopy t {}).toOption.map fun g =>
      ((t.scopes.scopes.get? ScopeTree.globalId).bind (·.bindings.lookup "a"), g.layout.global 0,
        (g.program.instructions.get? 12).map fun i => (i.opcode, i.operands))) =
      some (some ⟨.lock, some 0⟩, 254, some (.write, [.register .a, .address (.direct 254)])) := by
    decide +kernel
  obtain ⟨t, ht, h⟩ := Option.bind_eq_some_iff.1 h
  obtain ⟨g, hg, h⟩ := Option.map_eq_some_iff.1 h
  simp only [Prod.mk.injEq] at h
  obtain ⟨hsc, haddress, hwrite⟩ := h
  obtain ⟨sc, hsc, hb⟩ := Option.bind_eq_some_iff.1 hsc
  obtain ⟨⟨opcode, operands, comment⟩, hi, heq⟩ := Option.map_eq_some_iff.1 hwrite
  obtain ⟨rfl, rfl⟩ := Prod.mk.inj heq
  exact ⟨t, g, sc, eq_ok_of_toOption ht, eq_ok_of_toOption hg, hsc, hb, comment, haddress ▸ hi⟩

theorem lockCopy_lock_writes : ∃ t g sc, lockCopy.check = .ok t ∧
    (lockCopy.nodes.map (·.id)).Nodup ∧
    generate lockCopy t {} = .ok g ∧ t.scopes.scopes.get? ScopeTree.globalId = some sc ∧
    sc.bindings.lookup "a" = some ⟨.lock, some 0⟩ ∧
    g.program.Has 12 .write [.register .a, .address (.direct (g.layout.global 0))] ∧
    (Register.a = .zero ∨ ∃ q ∈ lockCopy.stores, q.name = "a" ∧
      t.annotations.scope? q.node = some ScopeTree.globalId ∧
      t.annotations.type? q.value.id = some .lock ∧
      ∃ context used first, Emit.Placed (startEnv lockCopy t {} g.layout) g.program
        (Emit.expr context q.value)
        used first .a 12) := by
  obtain ⟨t, g, sc, ht, hg, hsc, hb, hi⟩ := lockCopy_generated
  exact ⟨t, g, sc, ht, lockCopy_nodup, hg, hsc, hb, hi,
    generate_lock_writes ht lockCopy_nodup hg hsc hb rfl rfl hi⟩

/-- Not every write to the word of a lock stores the zero register. -/
theorem lockCopy_not_only_zero :
    ¬ ∀ (t : Tables) (g : Generated) (sc : Scope) (b : Binding) (k i : Nat)
    (r : Register), lockCopy.check = .ok t → generate lockCopy t {} = .ok g →
    t.scopes.scopes.get? ScopeTree.globalId = some sc →
    sc.bindings.lookup "a" = some b → b.type = .lock → b.offset = some k →
    g.program.Has i .write [.register r, .address (.direct (g.layout.global k))] →
    r = .zero := by
  intro hall
  obtain ⟨t, g, sc, ht, hg, hsc, hb, hi⟩ := lockCopy_generated
  exact absurd (hall t g sc _ 0 12 .a ht hg hsc hb rfl rfl hi) (by decide)

end Awl.Code
