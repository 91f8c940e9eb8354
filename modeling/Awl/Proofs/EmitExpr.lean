import Awl.Proofs.EmitLogic
import Awl.Proofs.Ready

/-!
# What the code of expressions needs

The code of an expression takes one register, leaves the labels that exist alone and consists of at
least one instruction (`Emit.Fresh`). It fails only if there are fewer registers than it needs at a
time (`Expr.need`), provided that the tables know everything about the expression (`Expr.Ready`) and
about what it calls (`Env.Fits`).
-/

namespace Awl

open Machine

namespace Code

variable {ctx : Context} {pushArguments : Emit Unit} {f : FunctionId} {arguments : Nat}
  {node : NodeId} {r : Register} {x : String} {α : Type}

/-- The registers that belong to a place. -/
def Place.held : Place → List Register
  | .frame _ | .global _ => []
  | .shared r => [r]

/-- What is left of the registers in use without the ones of a place. -/
def Place.giveBack (p : Place) (used : List Register) : List Register :=
  match p with
  | .frame _ | .global _ => used
  | .shared r => used.erase r

/-! ## How many registers are in use at a time -/

/-- The registers for the value of a name. The address of a field of the receiver is computed from
its offset, unless that is zero. -/
def Env.nameNeed (env : Env) (node : NodeId) (x : String) : Nat :=
  match env.tables.annotations.scope? node with
  | none => 1
  | some scope => match env.tables.scopes.kind scope, env.tables.scopes.offset? scope x with
    | .ok .members, .ok (some k) => if k = 0 then 1 else 2
    | _, _ => 1

/-- The offset of a field of the object that a node computes. -/
def Env.fieldOffset? (env : Env) (object : NodeId) (field : String) : Option Nat := do
  let c ← (← env.tables.annotations.type? object).class?
  let scope ← env.tables.types.memberScope? c
  (← (env.tables.scopes.offset? scope field).toOption)

/-- A call of this node starts a thread. -/
def Env.launches (env : Env) (node : NodeId) : Bool :=
  ((env.tables.functions.lookup node).bind env.tables.function?).any (·.isThread)

end Code

open Code

mutual

/-- The largest number of registers that the code of an expression uses at a time. -/
def Expr.need (env : Env) : Expr → Nat
  | .literal _ (.string s) => if s = "" then 2 else 3
  | .literal .. | .enumValue .. => 1
  | .name n x => env.nameNeed n.id x
  -- Only the parser knows empty literals, since no type is found for one.
  | .arrayLiteral _ [] => 1
  | .arrayLiteral _ (e :: es) => max 3 (1 + max (e.need env) (Expr.needAll env es))
  | .newArray _ _ length => length.need env
  | .index _ a i => max (a.need env) (1 + i.need env)
  | .field _ o x => if env.fieldOffset? o.id x = some 0 then o.need env else max (o.need env) 2
  | .call n _ es => if env.launches n.id then 1 else max 1 (Expr.needAll env es)
  | .methodCall _ r _ es => max 1 (max (r.need env) (Expr.needAll env es))
  | .new n c es =>
    if (env.tables.functions.lookup n.id).isSome then max 2 (1 + Expr.needAll env es)
    else if (env.initializers.lookup c).isSome then 2 else 1
  | .unary _ _ e => e.need env
  | .binary _ _ l r => max (l.need env) (1 + r.need env)

def Expr.needAll (env : Env) : List Expr → Nat
  | [] => 0
  | e :: es => max (e.need env) (Expr.needAll env es)

end

theorem Code.Env.nameNeed_pos (env : Env) {node : NodeId} {x : String} :
    1 ≤ env.nameNeed node x := by
  unfold Env.nameNeed
  repeat' split
  all_goals omega

theorem Expr.need_pos (env : Env) : ∀ e : Expr, 1 ≤ e.need env
  | .name n x => env.nameNeed_pos
  | .newArray _ _ e | .unary _ _ e | .field _ e _ => by
    have := e.need_pos env
    rw [Expr.need]
    try split
    all_goals omega
  | .index .. | .binary .. | .methodCall .. | .arrayLiteral _ (_ :: _) => by
    rw [Expr.need]
    omega
  | .call .. | .new .. => by
    rw [Expr.need]
    repeat' split
    all_goals omega
  | .literal _ (.string _) => by
    rw [Expr.need]
    split <;> omega
  | .literal _ (.int _) | .literal _ (.bool _) | .literal _ (.char _) | .enumValue ..
      | .arrayLiteral _ [] => by
    simp [Expr.need]

variable {object : NodeId}

namespace Code.Emit

variable {E : CodeError → Prop} {env : Env} {s : EmitState} {used : List Register} {lo : Nat}

/-! ## Values and places -/

theorem constantRegister_takes (v : Int) (h : Spare E used 1) :
    Takes E env [] lo used (constantRegister v) (lo + 1) (used ++ [·]) :=
      .seq (.allocate h) fun r =>
  .step rfl <| .pure r rfl

theorem slotAddress_takes (k : Nat) (h : Spare E used 1) :
    Takes E env [] lo used (slotAddress k) (lo + 1) (used ++ [·]) :=
      .le (.seq (.allocate h) fun r =>
  .step rfl <| .step rfl <| .pure r rfl) (by omega)

theorem loadPlace_takes (p : Place) (h : Spare E used 1) :
    Takes E env [] lo (used ++ p.held) (loadPlace p) (lo + 1) (used ++ [·]) := by
  cases p with
  | frame k =>
    rw [Place.held, List.append_nil]
    exact .le (.seq (slotAddress_takes k h) fun r => .step rfl <| .pure r rfl) (by omega)
  | global a =>
    rw [Place.held, List.append_nil]
    exact .le (.seq (.allocate h) fun r => .step rfl <|
      .step rfl <| .pure r rfl) (by omega)
  | shared r =>
    exact .le (.step rfl <| .step rfl <| .pure r rfl) (by omega)

theorem loadFrame_takes (k : Nat) (h : Spare E used 1) :
    Takes E env [] lo used (loadPlace (.frame k)) (lo + 1) (used ++ [·]) := by
  have h : Takes E env [] lo (used ++ []) (loadPlace (.frame k)) (lo + 1) (used ++ [·]) :=
    loadPlace_takes (.frame k) h
  rwa [List.append_nil] at h

/-- A place is used up when it is written. -/
theorem storePlace_takes [Exhausts E] (value : Register) (p : Place) {x : List Register}
    (hx : x.length ≤ 1) : Takes E env [] lo (used ++ p.held ++ x) (storePlace value p) (lo + 1)
      fun _ => used ++ x := by
  cases p with
  | frame k =>
    rw [Place.held, List.append_nil]
    exact .le (.seq (slotAddress_takes k .of) fun r => .step rfl <| .release) (by omega)
  | global a =>
    rw [Place.held, List.append_nil]
    exact .emit rfl
  | shared r =>
    refine .step rfl <| ?_
    match x, hx with
    | [], _ => simpa only [Place.held, List.append_nil] using Takes.release
    | [_], _ => exact .releaseSecond

theorem storeLast_takes [Exhausts E] (value : Register) (p : Place) :
    Takes E env [] lo (used ++ p.held) (storePlace value p) (lo + 1) fun _ => used := by
  have h : Takes E env [] lo (used ++ p.held ++ []) (storePlace value p) (lo + 1) fun _ =>
    used ++ [] :=
    storePlace_takes value p (Nat.zero_le 1)
  simpa only [List.append_nil] using h

theorem fieldPlace_takes (object : Register) (k : Nat) (h : k ≠ 0 → Spare E used 2) :
    Takes E env [] lo (used ++ [object]) (fieldPlace object k) lo fun p => used ++ p.held := by
  unfold fieldPlace
  split
  · rename_i hk
    exact .le (.seq (constantRegister_takes _ ((h hk).take (by omega))) fun r => .step rfl <|
      .seq .release fun _ => .pure _ rfl) (by omega)
  · exact .pure _ rfl

theorem elementPlace_takes (array index : Register) :
    Takes E env [] lo (used ++ [array] ++ [index]) (elementPlace array index) lo
      fun p => used ++ p.held :=
  .le (.step rfl <| .seq .releaseSecond fun _ => .pure _ rfl) (by omega)

/-- A variable has a fixed place, a field of the receiver has one in an object. -/
theorem namePlace_cases {after : Place → List Register}
    (hx : Allowed E (env.tables.HasName ctx.function node x)) (h : Spare E used 1)
    (hfixed : env.nameNeed node x = 1 → ∀ p : Place, p.held = [] → after p = used)
    (hfield : ∀ k, env.nameNeed node x = (if k = 0 then 1 else 2) → ∀ object lo,
      Takes E env [] lo (used ++ [object]) (fieldPlace object k) lo after) :
    Takes E env [] lo used (namePlace ctx node x) lo after := by
  refine .read (.expect (hx.imp ?_) fun id hid => ?_)
  · rintro ⟨id, _, _, hp, _⟩
    exact ⟨id, hp.scope⟩
  have hplace : Allowed E (∃ sc k, env.tables.Places node x id sc k ∧
      env.tables.scopes.Reaches ctx.function sc) := by
    refine hx.imp ?_
    rintro ⟨id', sc, k, hp, hr⟩
    obtain rfl := Option.mem_unique hp.scope hid
    exact ⟨sc, k, hp, hr⟩
  refine .query (hplace.imp ?_) fun o ho => .expect (hplace.imp ?_) fun k hk =>
    .query (hplace.imp ?_) fun kind hkind => ?_
  · rintro ⟨_, _, hp, _⟩
    exact ⟨_, ScopeTree.offset?_eq hp.isScope x⟩
  · rintro ⟨sc, k, hp, _⟩
    obtain ⟨b, hb, hk⟩ := hp.slot
    rw [ScopeTree.offset?_eq hp.isScope, hb] at ho
    cases ho
    exact ⟨k, hk⟩
  · rintro ⟨_, _, hp, _⟩
    exact ⟨_, ScopeTree.kind_eq hp.isScope⟩
  have hneed : env.nameNeed node x = if kind = .members ∧ k ≠ 0 then 2 else 1 := by
    cases kind <;> simp [Env.nameNeed, hid, hkind, ho, hk]
  cases kind with
  | global => exact .pure _ (hfixed hneed _ rfl)
  | function => exact .pure _ (hfixed hneed _ rfl)
  | block => exact .pure _ (hfixed hneed _ rfl)
  | members =>
    have hreceiver : Allowed E (∃ k, env.tables.scopes.ReceiverAt ctx.function k) := by
      refine hplace.imp ?_
      rintro ⟨sc, _, hp, hr⟩
      rw [ScopeTree.kind_eq hp.isScope] at hkind
      simpa only [ScopeTree.Reaches, Except.ok.inj hkind] using hr
    have htail : ∀ o, Allowed E (∃ k, o = some k) → Takes E env [] lo used (do
        let object ← loadPlace (.frame (← expect .receiver o))
        fieldPlace object k) lo after := fun o hsome => .expect hsome fun k' _ =>
      .le (.seq (loadFrame_takes k' h) fun object => hfield k (by simp [hneed]) object _) (by omega)
    cases hf : ctx.function with
    | none =>
      refine .pure_bind none (htail none (hreceiver.imp ?_))
      rintro ⟨_, _, _, _, hF, _⟩
      rw [hf] at hF
      cases hF
    | some F =>
      rw [hf] at hreceiver
      refine .query (hreceiver.imp ?_) fun o ho => htail o (hreceiver.imp ?_)
      · rintro ⟨_, _, sc, b, hF, hsc, _⟩
        exact ⟨_, ScopeTree.offset?_eq (Option.some.inj hF ▸ hsc) _⟩
      · rintro ⟨k, _, sc, b, hF, hsc, hb, hk⟩
        rw [ScopeTree.offset?_eq (Option.some.inj hF ▸ hsc), hb] at ho
        exact ⟨k, (Except.ok.inj ho).symm.trans hk⟩

theorem namePlace_takes (hx : Allowed E (env.tables.HasName ctx.function node x))
    (h : Spare E used (env.nameNeed node x)) :
    Takes E env [] lo used (namePlace ctx node x) lo fun p => used ++ p.held :=
  namePlace_cases hx (h.le env.nameNeed_pos) (fun _ p hp => by rw [hp, List.append_nil])
    fun k hk object _ => fieldPlace_takes object k fun hne => by rwa [hk, if_neg hne] at h

theorem fieldOffset_sat (hx : Allowed E (env.tables.HasField object x)) :
    Sat E (fieldOffset object x) env s fun _ s' => s' = s := by
  refine .read ?_
  dsimp only
  split
  · rename_i hnone
    rcases hx with ⟨c, id, _, _, _, ht, hm, _⟩ | hall
    · simp only [ht, Option.bind_some, Ty.class?, hm] at hnone
      cases hnone
    · exact hall _ nofun
  · rename_i scope hscope
    have hfield : Allowed E (∃ sc b k, env.tables.scopes.scopes.get? scope = some sc ∧
        sc.bindings.lookup x = some b ∧ b.offset = some k) := by
      refine hx.imp ?_
      rintro ⟨c, id, sc, b, k, ht, hm, hsc, hb, hk⟩
      simp only [ht, Option.bind_some, Ty.class?, hm, Option.some.injEq] at hscope
      exact ⟨sc, b, k, hscope ▸ hsc, hb, hk⟩
    refine .query (hfield.imp ?_) fun o ho => .expect_last (hfield.imp ?_) fun _ _ => rfl
    · rintro ⟨sc, _, _, hsc, _⟩
      exact ⟨_, ScopeTree.offset?_eq hsc x⟩
    · rintro ⟨sc, b, k, hsc, hb, hk⟩
      rw [ScopeTree.offset?_eq hsc, hb] at ho
      exact ⟨k, (Except.ok.inj ho).symm.trans hk⟩

theorem fieldOffset_takes (hx : Allowed E (env.tables.HasField object x)) :
    Takes E env [] lo used (fieldOffset object x) lo fun _ => used := .ofEmits fun _ hs _ =>
  (fieldOffset_sat hx).weaken fun _ s' h => by
    subst s'
    exact .refl hs

/-! ## Heap values and calls -/

/-- The part of a call between its arguments and its jump. The result is the label of the return
anchor and the registers that have been saved. -/
def enterCall (entry : LabelId) : Emit (LabelId × List Register) := do
  let returnLabel ← createLabel "return"
  push .arp
  constantLabel returnLabel .arp
  push .arp
  push .zero
  let saved ← inUse
  saved.forM push
  constant (saved.length + 2) .arp
  compute .add .sp .arp .arp
  jump (.label entry)
  return (returnLabel, saved)

/-- The part of a call after its return anchor. -/
def leaveCall (saved : List Register) (frameSize : Nat) : Emit Register := do
  saved.reverse.forM pop
  let result ← allocate
  constant (frameSize + 1) result
  compute .add .arp result .sp
  constant 2 result
  compute .sub .arp result result
  load (.indirect result) result
  load (.indirect .arp) .arp
  return result

theorem call_eq (entry : LabelId) (frameSize arguments : Nat) (pushArguments : Emit Unit) :
    call entry frameSize arguments pushArguments = (do
      if frameSize < arguments then throw (.fault .frameOverflow)
      pushZeros (frameSize - arguments)
      pushArguments
      let (returnLabel, saved) ← enterCall entry
      anchor returnLabel
      leaveCall saved frameSize) := by
  simp only [call, enterCall, leaveCall, bind_assoc, pure_bind]

end Code.Emit

namespace Code

/-- The state after the jump of a call. -/
def EmitState.enterCall (s : EmitState) (entry : LabelId) : EmitState :=
  let saved := s.registers.inUse
  let s1 := (((s.addLabel "return").emit .push [.register .arp]).emit .const
    [.immediate (.label s.labels), .register .arp]).emit .push [.register .arp]
  let s2 := (s1.emit .push [.register .zero]).pushes saved
  ((s2.emit .const [.immediate (.value (saved.length + 2)), .register .arp]).emit .compute
    [.operator .add, .register .sp, .register .arp, .register .arp]).emit .jump
    [.target (.label entry)]

namespace Emit

variable {E : CodeError → Prop} {env : Env} {s' s : EmitState} {used used' : List Register}
  {lo n hi : Nat} {Q : α → EmitState → Prop} {k : ScopeId → Emit α} {after : α → List Register}
  {bound : List LabelId} {c : Context}

theorem enterCall_run (entry : LabelId) :
    enterCall entry env s = .ok ((s.labels, s.registers.inUse), s.enterCall entry) := by
  show (s.registers.inUse.forM push >>= fun _ => _) env _ = _
  rw [bind_run, forM_push_run]
  rfl

theorem writeElement_takes (block : Register) (i : Nat) (value : Register) (h : Spare E used 1) :
    Takes E env [] lo used (writeElement block i value) lo fun _ => used :=
  .le (.seq (constantRegister_takes _ h) fun _ => .step rfl <|
    .step rfl <| .release) (by omega)

/-- A call of a routine. The arguments may give back registers. -/
theorem call_takes {entry : LabelId} {size : Nat} (h : Spare E used' 1)
    (hsize : Allowed E (arguments ≤ size))
    (hargs : Takes E env [] lo used pushArguments lo fun _ => used') :
    Takes E env [] lo used (call entry size arguments pushArguments) (lo + 1) (used' ++ [·]) := by
  unfold call
  split
  · rename_i hlt
    rcases hsize with hle | hall
    · exact absurd hlt (Nat.not_lt.2 hle)
    · exact fun _ _ _ _ _ => .bind (Sat.throw (Q := fun _ _ => False) (hall _ nofun)) nofun
  refine .le (.seq (.pushZeros _) fun _ => .seq hargs fun _ => .label fun l => .step rfl <|
    .step rfl <| .step rfl <|
    .step rfl <| .inUse fun saved => .seq (.pushes saved) fun _ => .step rfl <| .step rfl <|
    .step rfl <| .anchored <| .seq (.pops _) fun _ => .seq (.allocate h) fun r => .step rfl <|
    .step rfl <| .step rfl <| .step rfl <| .step rfl <| .step rfl <| .pure r rfl) (by omega)

/-- Pushing the value of a register that was taken last gives it back. -/
theorem pushLast_takes : Takes E env [] lo (used ++ [r]) (pushLast r) lo fun _ => used :=
  .le (.step rfl <| .release) (by omega)

theorem alloc_takes (size : Register) (h : Spare E used 1) :
    Takes E env [] lo (used ++ [size]) (alloc size) (lo + 1) (used ++ [·]) :=
  .read (call_takes h (.of (Nat.le_refl 1)) pushLast_takes)

theorem initializeObject_takes (entry : LabelId) (object : Register) (h : Spare E used 1) :
    Takes E env [] lo used (initializeObject entry object) lo fun _ => used :=
  .le (.seq (call_takes h (.of (Nat.le_refl 1)) (.le (.emit rfl) (by omega))) fun _ =>
    .release) (by omega)

/-- What the tables and the environment know about a function that is called. -/
def HasEntry (env : Env) (s : EmitState) (f : FunctionId) : Prop :=
  ∃ l, env.entries.get? f = some l ∧ l < s.labels

theorem entry_sat {k : LabelId → Emit α} (hf : Allowed E (HasEntry env s f))
    (hk : ∀ l, env.entries.get? f = some l → Sat E (k l) env s Q) :
    Sat E (entry f >>= k) env s Q := by
  show Sat E (orThrow (orFault (env.entries.fetch f)) >>= k) env s _
  cases hl : env.entries.get? f with
  | some l =>
    rw [Slots.fetch_eq_ok_iff.2 hl]
    exact hk l hl
  | none =>
    rcases hf with ⟨l, hl', _⟩ | hall
    · rw [hl] at hl'
      cases hl'
    · unfold Slots.fetch
      rw [hl]
      exact hall _ nofun

theorem entryName_sat (hf : Allowed E (HasEntry env s f)) :
    Sat E (entryName f) env s fun _ s' => s' = s := by
  refine .get (entry_sat hf fun l hl => ?_)
  refine .bind (R := fun _ s' => s' = s) (.orThrow (fun _ _ => rfl) fun e he => ?_) fun _ _ h => h
  rcases hf with ⟨l', hl', hlt⟩ | hall
  · rw [hl] at hl'
    cases hl'
    obtain ⟨lab, hlab⟩ := Slots.exists_of_lt hlt
    rw [Program.label, Slots.fetch_eq_ok_iff.2 hlab] at he
    cases he
  · exact hall _ (orFault_unrelated he)

theorem frameScope_sat (hfit : Allowed E (env.Fits s))
    (hf : Allowed E (∃ fn, env.tables.function? f = some fn))
    (hk : ∀ fn scope, env.tables.function? f = some fn → fn.scope = some scope →
      Sat E (k scope) env s Q) :
    Sat E (frameScope f >>= k) env s Q := by
  refine .bind ?_ fun _ _ h => h
  refine .query (hf.imp ?_) fun fn hfn => ?_
  · rintro ⟨fn, hfn⟩
    exact ⟨fn, Slots.fetch_eq_ok_iff.2 hfn⟩
  have hget := Slots.fetch_eq_ok_iff.1 hfn
  refine .expect_last (hfit.imp fun h => ?_) fun scope hsc => hk fn scope hget hsc
  obtain ⟨scope, _, hsc, _⟩ := h.frame f fn hget
  exact ⟨scope, hsc⟩

theorem Takes.entry {k : LabelId → Emit α} (hf : Allowed E (∃ fn, env.tables.function? f = some fn))
    (hk : ∀ l, env.entries.get? f = some l → Takes E env bound lo used (k l) hi after) :
    Takes E env bound lo used (Emit.entry f >>= k) hi after := fun s hs hfit hlo hb =>
  entry_sat ((hfit.and hf).imp fun ⟨h, fn, hfn⟩ => h.entry f fn hfn) fun l hl =>
    hk l hl s hs hfit hlo hb

theorem entryName_takes (hf : Allowed E (∃ fn, env.tables.function? f = some fn)) :
    Takes E env [] lo used (entryName f) lo fun _ => used := .ofEmits fun _ hs hfit =>
  (entryName_sat ((hfit.and hf).imp fun ⟨h, fn, hfn⟩ =>
    h.entry f fn hfn)).weaken fun _ s' h => by
      subst s'
      exact .refl hs

theorem Takes.frameScope
    (hf : Allowed E (∃ fn, env.tables.function? f = some fn))
    (hk : ∀ fn scope, env.tables.function? f = some fn → fn.scope = some scope →
      Allowed E (∃ size, env.tables.scopes.frameSize scope = .ok size ∧
        fn.signature.arguments.length ≤ size) → Takes E env bound lo used (k scope) hi after) :
    Takes E env bound lo used (Emit.frameScope f >>= k) hi after := fun s hs hfit hlo hb => by
  refine frameScope_sat hfit hf fun fn scope hfn hscope =>
    hk fn scope hfn hscope (hfit.imp fun h => ?_) s hs hfit hlo hb
  obtain ⟨scope', size, hscope', hsize⟩ := h.frame f fn hfn
  obtain rfl := Option.mem_unique hscope' hscope
  exact ⟨size, hsize⟩

/-- A call of a function that takes this many arguments. -/
theorem callFunction_takes (h : Spare E used' 1) (hf : Allowed E (∃ fn,
      env.tables.function? f = some fn ∧ fn.signature.arguments.length = arguments))
    (hargs : ∀ lo, Takes E env [] lo used pushArguments lo fun _ => used') :
    Takes E env [] lo used (callFunction f arguments pushArguments) (lo + 1) (used' ++ [·]) := by
  have hfn : Allowed E (∃ fn, env.tables.function? f = some fn) :=
    hf.imp (.imp fun _ h => h.1)
  refine .frameScope hfn fun fn scope hget hscope hframe => .query (hframe.imp (.imp fun _ h =>
    h.1)) fun size hsize => .entry hfn fun l _ => .mark fun first _ =>
    .le (.seq (call_takes h ((hframe.and hf).imp ?_) (hargs _)) fun r => .seq (entryName_takes hfn)
      fun _ => .seq (.comment (by omega)) fun _ => .pure r rfl) (by omega)
  rintro ⟨⟨size', hsize', hle⟩, fn', hfn', hlen⟩
  obtain rfl := Option.mem_unique hfn' hget
  cases hsize.symm.trans hsize'
  exact hlen ▸ hle

theorem launch_takes {name : String} (h : Spare E used 1) (hf : Allowed E (f ∈ env.threads)) :
    Takes E env [] lo used (launch f name) (lo + 1) (used ++ [·]) := by
  refine .read (.expect (hf.imp fun hmem => ?_) fun i _ => ?_)
  · cases hidx : env.threads.findIdx? (· == f) with
    | some i => exact ⟨i, rfl⟩
    | none =>
      rw [List.findIdx?_eq_none_iff] at hidx
      simpa using hidx f hmem
  · exact .seq (.allocate h) fun r => .mark fun first _ => .le (.step rfl <|
      .step rfl <| .seq (.comment (by omega)) fun _ => .pure r rfl) (by omega)

theorem writeChars_takes (block : Register) {lo : Nat} :
    ∀ (cs : List Char) (i : Nat), (cs ≠ [] → Spare E used 2) →
    Takes E env [] lo used (writeChars block i cs) lo fun _ => used
  | [], _, _ => .pure () rfl
  | _ :: cs, i, h =>
    have h := h (List.cons_ne_nil _ _)
    .le (.seq (constantRegister_takes _ (h.le (by omega))) fun r =>
      .seq (writeElement_takes block i r (h.take (Nat.le_refl _))) fun _ => .seq .release fun _ =>
      writeChars_takes block cs (i + 1) fun _ => h) (by omega)

theorem string_takes (str : String) (h : Spare E used (if str = "" then 2 else 3)) :
    Takes E env [] lo used (string str) (lo + 1) (used ++ [·]) := by
  have hchars : ∀ block, str.toList ≠ [] → Spare E (used ++ [block]) 2 := fun block hne => by
    rw [if_neg fun h => hne (by rw [h]; rfl)] at h
    exact h.take (Nat.le_refl _)
  have h : Spare E used 2 := h.le (by split <;> omega)
  exact .seq (constantRegister_takes _ (h.le (by omega))) fun size => .mark fun first _ =>
    .le (.seq (alloc_takes size (h.le (by omega))) fun block => .seq (.comment (by omega)) fun _ =>
    .seq (writeChars_takes block _ 0 (hchars block)) fun _ => .seq
    (writeElement_takes block _ .zero (h.take (Nat.le_refl _))) fun _ => .pure block rfl) (by omega)

theorem literal_takes {n : Node} (l : Literal) (h : Spare E used ((Expr.literal n l).need env)) :
    Takes E env [] lo used (literal l) (lo + 1) (used ++ [·]) := by
  cases l with
  | string str => exact string_takes str (by simpa only [Expr.need] using h)
  | _ => exact constantRegister_takes _ (by simpa only [Expr.need] using h)

theorem memberScope_sat (hfit : Allowed E (env.Fits s))
    (hx : Allowed E ((env.tables.types.class? x).isSome = true))
    (hk : ∀ c scope, env.tables.types.class? x = some c →
      env.tables.types.memberScope? c = some scope →
      Allowed E (∃ size, env.tables.scopes.frameSize scope = .ok size) → Sat E (k scope) env s Q) :
    Sat E (memberScope x >>= k) env s Q := by
  refine .bind ?_ fun _ _ h => h
  refine .read (.expect (hx.imp Option.isSome_iff_exists.1) fun c hc =>
    .expect_last (hfit.imp fun h => ?_) fun scope hsc => hk c scope hc hsc (hfit.imp fun h => ?_))
  · obtain ⟨scope, _, hscope, _⟩ := h.members x c hc
    exact ⟨scope, hscope⟩
  · obtain ⟨scope', size, hscope, hsize⟩ := h.members x c hc
    rw [hsc] at hscope
    cases hscope
    exact ⟨size, hsize⟩

/-- The call of the routine that initializes the fields of a class, if there is one. -/
def runInitializer (c : String) (object : Register) : Emit Unit := do
  match (← read).initializers.lookup c with
  | some entry => initializeObject entry object
  | none => pure ()

/-- The call of the constructor that a node is bound to, if there is one. -/
def runConstructor (node : NodeId) (arguments : Nat) (pushArguments : Emit Unit)
    (object : Register) :
    Emit Unit := do
  match (← read).tables.functions.lookup node with
  | some constructor => release (← callFunction constructor (arguments + 1) do
      pushArguments
      push object)
  | none => pure ()

theorem newObject_eq (node : NodeId) (c : String) (arguments : Nat) (pushArguments : Emit Unit) :
    newObject node c arguments pushArguments = (do
      let scope ← memberScope c
      let words ← query (·.scopes.frameSize scope)
      let first ← here
      let object ← alloc (← constantRegister words)
      comment first ("new " ++ c)
      runInitializer c object
      runConstructor node arguments pushArguments object
      return object) := by
  refine bind_congr fun scope => bind_congr fun words => bind_congr fun first =>
    bind_congr fun size => bind_congr fun object => bind_congr fun _ => ?_
  rw [runInitializer, runConstructor]
  simp only [bind_assoc]
  refine bind_congr fun env => ?_
  cases env.initializers.lookup c with
  | none =>
    rw [pure_bind]
    refine bind_congr fun env' => ?_
    cases env'.tables.functions.lookup node with
    | none => exact (pure_bind ..).symm
    | some f => exact (bind_assoc ..).symm
  | some entry =>
    refine bind_congr fun _ => bind_congr fun env' => ?_
    cases env'.tables.functions.lookup node with
    | none => exact (pure_bind ..).symm
    | some f => exact (bind_assoc ..).symm

theorem runInitializer_takes (c : String) (object : Register)
    (h : (env.initializers.lookup c).isSome → Spare E used 1) :
    Takes E env [] lo used (runInitializer c object) lo fun _ => used := by
  refine .read ?_
  cases hc : env.initializers.lookup c with
  | none => exact .pure () rfl
  | some entry => exact initializeObject_takes entry object (h (by rw [hc]; rfl))

theorem runConstructor_takes (object : Register)
    (hnew : Allowed E (env.tables.HasConstructor node arguments))
    (h : (env.tables.functions.lookup node).isSome → Spare E used 1 ∧
      ∀ lo, Takes E env [] lo used pushArguments lo fun _ => used) :
    Takes E env [] lo used (runConstructor node arguments pushArguments object) lo
      fun _ => used := by
  refine .read ?_
  cases hl : env.tables.functions.lookup node with
  | none => exact .pure () rfl
  | some f =>
    obtain ⟨hroom, hargs⟩ := h (by rw [hl]; rfl)
    refine .le (.seq (callFunction_takes hroom (hnew.imp fun h => ?_) fun _ =>
      .le (.seq (hargs _) fun _ => .emit rfl) (by omega)) fun r => .release) (by omega)
    rcases h.2 with ⟨hnone, _⟩ | hcallee
    · rw [hl] at hnone
      cases hnone
    · exact hcallee.callee hl

theorem newObject_takes {c : String} {after : Register → List Register}
    (hc : Allowed E ((env.tables.types.class? c).isSome = true)) (h : Spare E used 1)
    (hrest : ∀ object, Takes E env [] (lo + 1) (used ++ [object]) (do
      runInitializer c object
      runConstructor node arguments pushArguments object
      return object) hi after) : Takes E env [] lo used
          (newObject node c arguments pushArguments) hi after := by
  intro s hs hfit hlo hl
  rw [newObject_eq]
  refine memberScope_sat hfit hc fun _ scope _ _ hscope => Takes.query hscope (fun words _ => .mark
    fun first _ => .seq (constantRegister_takes _ h) fun size =>
    .seq (alloc_takes size h) fun object =>
    .seq (.le (.comment (by omega)) (by omega)) fun _ => hrest object) s hs hfit hlo hl

/-! ## Expressions -/

theorem fieldOffset?_of_run {k : Nat}
    (h : fieldOffset object x env s = .ok (k, s')) : env.fieldOffset? object x = some k := by
  obtain ⟨_, _, hread, h⟩ := bind_eq_ok.1 h
  cases hread
  cases hscope : ((env.tables.annotations.type? object).bind (·.class?)).bind
      env.tables.types.memberScope? with
  | none => simp only [hscope] at h; cases h
  | some scope =>
    simp only [hscope] at h
    obtain ⟨o, _, ho, h⟩ := bind_eq_ok.1 h
    obtain ⟨c, hc, hm⟩ := Option.bind_eq_some_iff.1 hscope
    obtain ⟨τ, hτ, hc⟩ := Option.bind_eq_some_iff.1 hc
    change orThrow (orFault (env.tables.scopes.offset? scope x)) env s = _ at ho
    cases hoffset : env.tables.scopes.offset? scope x with
    | error e => rw [hoffset] at ho; cases ho
    | ok _ =>
      rw [hoffset] at ho
      cases ho
      cases o with
      | none => cases h
      | some k' =>
        cases h
        simp [Env.fieldOffset?, hτ, hc, hm, hoffset, Except.toOption]

mutual

theorem expr_takes {E : CodeError → Prop} {env : Env} {used : List Register} {lo : Nat} :
    ∀ (e : Expr),
    Allowed E (e.Ready env.tables c.function) → Spare E used (e.need env) →
    Takes E env [] lo used (expr c e) (lo + 1) (used ++ [·])
  | .literal n l, _, hr => literal_takes l hr
  | .name n x, h, hr =>
    .mark fun first _ =>
      .le (.seq (namePlace_takes h hr) fun p => .seq (loadPlace_takes p (hr.le env.nameNeed_pos))
      fun r => .seq (.comment (by omega)) fun _ => .pure r rfl) (by omega)
  | .enumValue n x member, h, hr =>
    .read (.expect (h.imp Option.isSome_iff_exists.1) fun _ _ => constantRegister_takes _ hr)
  | .arrayLiteral n [], h, hr =>
    .le (.seq (constantRegister_takes _ hr) fun size => .seq (alloc_takes size hr) fun block =>
      .pure block rfl) (by omega)
  | .arrayLiteral n (e :: es), h, hr => by
    simp only [Expr.need] at h hr ⊢
    exact .le (.seq (constantRegister_takes _ (hr.le (by omega))) fun size =>
      .seq (alloc_takes size (hr.le (by omega))) fun block =>
      .seq (elements_takes (e :: es) h block 0 (hr.take (by simp only [Expr.needAll]; omega)))
      fun _ => .pure block rfl) (by omega)
  | .newArray n t length, h, hr =>
    .le (.seq (expr_takes length h hr) fun size =>
      alloc_takes size (hr.le (length.need_pos env))) (by omega)
  | .index n a i, h, hr => by
    simp only [Expr.need] at h hr ⊢
    exact .le (.seq (expr_takes a (h.imp (·.1)) (hr.le (by omega))) fun array =>
      .seq (expr_takes i (h.imp (·.2)) (hr.take (by omega))) fun index =>
      .seq (elementPlace_takes array index)
      fun p => loadPlace_takes p (hr.le (by omega))) (by omega)
  | .field n o x, h, hr => by
    simp only [Expr.need] at h hr ⊢
    have hpos := o.need_pos env
    exact .le (.seqRun (fieldOffset_takes (h.imp (·.1))) fun k s s' hk =>
      .seq (expr_takes o (h.imp (·.2)) (hr.le (by split <;> omega))) fun object =>
      .seq (fieldPlace_takes object k fun hne => hr.le (by
        rw [fieldOffset?_of_run hk, if_neg (mt Option.some.inj hne)]
        omega)) fun p => loadPlace_takes p (hr.le (by split <;> omega))) (by omega)
  | .call n name es, h, hr => by
    intro s hs hfit hlo hl
    refine .read (.expect (h.imp (·.1.node_bound)) fun f hf => ?_)
    have hcallee := h.imp (·.1.callee hf)
    refine .query (hcallee.imp (.imp fun _ h => Slots.fetch_eq_ok_iff.2 h.1)) fun fn hfn => ?_
    have hget := Slots.fetch_eq_ok_iff.1 hfn
    have hlaunch : env.launches n.id = fn.isThread := by simp [Env.launches, hf, hget]
    rw [Expr.need, hlaunch] at hr
    split
    · rename_i hthread
      rw [if_pos hthread] at hr
      exact launch_takes hr (hfit.imp fun hfit => hfit.thread f fn hget hthread) s hs hfit hlo hl
    · rename_i hthread
      rw [if_neg hthread] at hr
      exact callFunction_takes (hr.le (by omega)) hcallee
        (fun _ => pushAll_takes es (h.imp (·.2)) (hr.le (by omega))) s hs hfit hlo hl
  | .methodCall n r name es, h, hr => by
    simp only [Expr.need] at h hr ⊢
    exact .read (.expect (h.imp (·.1.node_bound)) fun f hf =>
      callFunction_takes (hr.le (by omega)) (h.imp (·.1.callee hf)) fun _ =>
        .le (.seq (pushAll_takes es (h.imp (·.2.2)) (hr.le (by omega))) fun _ =>
        .seq (expr_takes r (h.imp (·.2.1)) (hr.le (by omega))) fun _ => pushLast_takes) (by omega))
  | .new n x es, h, hr => by
    refine newObject_takes (h.imp (·.1)) (hr.le (Expr.need_pos env _)) fun object =>
      .seq (runInitializer_takes x object fun hi => ?_) fun _ =>
      .seq (runConstructor_takes object (h.imp (·.2.1)) fun hk => ?_) fun _ => .pure object rfl
    all_goals rw [Expr.need] at hr
    · exact hr.take (by rw [if_pos hi]; split <;> omega)
    rw [if_pos hk] at hr
    exact ⟨hr.take (by omega), fun _ => pushAll_takes es (h.imp (·.2.2)) (hr.take (by omega))⟩
  | .unary n op e, h, hr =>
    .le (.seq (expr_takes e h hr) fun r => .step rfl <| .pure r rfl) (by omega)
  | .binary n op l r, h, hr => by
    simp only [Expr.need] at h hr ⊢
    exact .le (.seq (expr_takes l (h.imp (·.1)) (hr.le (by omega))) fun left =>
      .seq (expr_takes r (h.imp (·.2)) (hr.take (by omega))) fun right => .step rfl <|
      .seq .releaseSecond fun _ => .pure right rfl) (by omega)

theorem elements_takes {E : CodeError → Prop} {env : Env} {used : List Register} {lo : Nat} :
    ∀ (es : List Expr), Allowed E (Expr.ReadyAll env.tables c.function es) →
      ∀ (block : Register) (i : Nat), Spare E used (max 2 (Expr.needAll env es)) →
    Takes E env [] lo used (elements c block i es) lo fun _ => used
  | [], _, block, i, _ => .pure () rfl
  | e :: es, h, block, i, hr => by
    simp only [Expr.needAll] at h hr ⊢
    exact .le (.seq (expr_takes e (h.imp (·.1)) (hr.le (by omega))) fun r =>
      .seq (writeElement_takes block i r (hr.take (by omega))) fun _ => .seq .release fun _ =>
      elements_takes es (h.imp (·.2)) block (i + 1) (hr.le (by omega))) (by omega)

theorem pushAll_takes {E : CodeError → Prop} {env : Env} {used : List Register} {lo : Nat} :
    ∀ (es : List Expr), Allowed E (Expr.ReadyAll env.tables c.function es) →
      Spare E used (Expr.needAll env es) →
    Takes E env [] lo used (pushAll c es) lo fun _ => used
  | [], _, _ => .pure () rfl
  | e :: es, h, hr => by
    simp only [Expr.needAll] at h hr ⊢
    exact .le (.seq (pushAll_takes es (h.imp (·.2)) (hr.le (by omega))) fun _ =>
      .seq (expr_takes e (h.imp (·.1)) (hr.le (by omega))) fun _ => pushLast_takes) (by omega)

end

variable {lock : Expr}

theorem expr_fresh [Exhausts E] (e : Expr) (h : Allowed E (e.Ready env.tables c.function)) :
    Fresh E env (expr c e) := .of fun _ _ => expr_takes e h .of

/-! ## Places that are named -/

/-- The name of a global variable names a fixed word. -/
theorem namePlace_global (ctx : Context) (hx : env.tables.HasGlobal node x) :
    ∃ a, namePlace ctx node x env s = .ok (.global a, s) := by
  obtain ⟨id, sc, k, hp, hkind⟩ := hx
  obtain ⟨b, hb, hk⟩ := hp.slot
  refine ⟨env.layout.global k, ?_⟩
  have hoffset : query (·.scopes.offset? id x) env s = .ok (some k, s) := by
    show orThrow (orFault (env.tables.scopes.offset? id x)) env s = _
    rw [ScopeTree.offset?_eq hp.isScope, hb]
    show Except.ok (b.offset, s) = _
    rw [hk]
  have hglobal : query (·.scopes.kind id) env s = .ok (.global, s) := by
    show orThrow (orFault (env.tables.scopes.kind id)) env s = _
    rw [ScopeTree.kind_eq hp.isScope, hkind]
    rfl
  refine bind_eq_ok.2 ⟨env, s, rfl, bind_eq_ok.2 ⟨id, s, ?_, bind_eq_ok.2 ⟨some k, s, hoffset,
    bind_eq_ok.2 ⟨k, s, rfl, bind_eq_ok.2 ⟨.global, s, hglobal, rfl⟩⟩⟩⟩⟩
  rw [hp.scope]
  rfl

theorem indexPlace_takes [Exhausts E] {a i : Expr}
    (ha : Allowed E (a.Ready env.tables ctx.function))
    (hi : Allowed E (i.Ready env.tables ctx.function)) :
    Takes E env [] lo used (do
      let array ← expr ctx a
      let index ← expr ctx i
      elementPlace array index) lo fun p => used ++ p.held :=
        .le (.seq (expr_fresh a ha).takes fun array =>
  .seq (expr_fresh i hi).takes fun index =>
    elementPlace_takes array index) (by omega)

theorem memberPlace_takes [Exhausts E] {o : Expr} (hx : Allowed E (env.tables.HasField o.id x))
    (ho : Allowed E (o.Ready env.tables ctx.function)) :
    Takes E env [] lo used (do
      let offset ← fieldOffset o.id x
      let object ← expr ctx o
      fieldPlace object offset) lo fun p => used ++ p.held :=
        .le (.seq (fieldOffset_takes hx) fun k =>
  .seq (expr_fresh o ho).takes fun object =>
    fieldPlace_takes object k fun _ => .of) (by omega)

theorem targetPlace_takes [Exhausts E] {target : Awl.Target}
    (ht : Allowed E (target.Ready env.tables ctx.function)) :
    Takes E env [] lo used (targetPlace ctx target) lo fun p => used ++ p.held := by
  cases target with
  | name n x => exact namePlace_takes ht .of
  | index n a i => exact indexPlace_takes (ht.imp (·.1)) (ht.imp (·.2))
  | field n o x => exact memberPlace_takes (ht.imp (·.1)) (ht.imp (·.2))

theorem exprPlace_takes [Exhausts E] (ht : Allowed E (lock.LockReady env.tables ctx.function)) :
    Takes E env [] lo used (exprPlace ctx lock) lo fun p => used ++ p.held := by
  cases lock with
  | name n x =>
    rcases ht with ht | hall
    · refine .ofEmits fun s hs _ => ?_
      obtain ⟨a, hrun⟩ := namePlace_global ctx ht
      refine Sat.run_last hrun ?_
      rw [Place.held, List.append_nil]
      exact .refl hs
    · exact namePlace_takes (.inr hall) .of
  | index n a i => exact indexPlace_takes (ht.imp (·.1)) (ht.imp (·.2))
  | field n o x => exact memberPlace_takes (ht.imp (·.1)) (ht.imp (·.2))
  | _ =>
    rcases ht with ht | hall
    · cases ht
    · exact .throw (hall _ nofun)

/-- The operand of a lock operation is a word of shared memory. -/
theorem exprPlace_address {p : Place} (ht : Allowed E (lock.LockReady env.tables ctx.function))
    (h : exprPlace ctx lock env s = .ok (p, s')) : Allowed E (∃ a, p.address = .ok a) := by
  cases lock with
  | name n x =>
    refine ht.imp fun ht => ?_
    obtain ⟨a, hrun⟩ := namePlace_global ctx ht
    cases hrun.symm.trans h
    exact ⟨_, rfl⟩
  | index n a i =>
    obtain ⟨array, _, -, h⟩ := bind_eq_ok.1 h
    obtain ⟨index, _, -, h⟩ := bind_eq_ok.1 h
    obtain ⟨_, _, -, h⟩ := bind_eq_ok.1 h
    obtain ⟨_, _, -, h⟩ := bind_eq_ok.1 h
    exact .of ⟨.indirect index, (pure_eq_ok.1 h).1 ▸ rfl⟩
  | field n o x =>
    obtain ⟨k, _, -, h⟩ := bind_eq_ok.1 h
    obtain ⟨object, _, -, h⟩ := bind_eq_ok.1 h
    unfold fieldPlace at h
    split at h
    · obtain ⟨_, _, -, h⟩ := bind_eq_ok.1 h
      obtain ⟨_, _, -, h⟩ := bind_eq_ok.1 h
      obtain ⟨_, _, -, h⟩ := bind_eq_ok.1 h
      exact .of ⟨.indirect object, (pure_eq_ok.1 h).1 ▸ rfl⟩
    · exact .of ⟨.indirect object, (pure_eq_ok.1 h).1 ▸ rfl⟩
  | _ => exact nomatch h

end Code.Emit

end Awl
