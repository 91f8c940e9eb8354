import Awl.Proofs.Addressing
import Awl.Proofs.Confined
import Awl.Proofs.Segments

/-!
# Storage of a program

Every frame that is built for a routine has room for all slots that its code uses, a new object has
room for all fields of its class, and the fixed addresses of shared memory are the static words at
its top, which are all distinct (`generate_contained`).

A frame is built by the instruction that sets the frame pointer to the top of the stack.
`Segment.Builds` says for which segment, and how many slots have been pushed before it; there is no
other such instruction.
-/

namespace Awl

open Machine

variable {d : Declaration} {env : Env} {e : Expr} {ss : List Segment} {first i j n : Nat}
  {q : NodeId × String} {r : Routine} {t : Tables} {u : SourceUnit}

/-! ## Initial values of fields -/

/-- The names are used, one after the other. -/
def Walk.note (w : Walk) (names : List (NodeId × String)) : Walk :=
  { w with uses := w.uses ++ names.map fun q => ⟨q.1, q.2, (Origins.find w.scopes q.2).join⟩ }

@[simp] theorem Walk.note_scopes (w : Walk) (names : List (NodeId × String)) :
    (w.note names).scopes = w.scopes := rfl

@[simp] theorem Walk.note_nil (w : Walk) : w.note [] = w := by simp [note]

@[simp] theorem Walk.note_note (w : Walk) (names names' : List (NodeId × String)) :
    (w.note names).note names' = w.note (names ++ names') := by simp [note]

mutual

/-- A walk over an expression notes what its names mean where it starts. -/
theorem Expr.walk_eq : ∀ (e : Expr) (w : Walk), e.walk w = w.note e.names
  | .literal .., w | .enumValue .., w => by simp [Expr.walk, Expr.names]
  | .name n x, w => rfl
  | .arrayLiteral _ es, w | .call _ _ es, w | .new _ _ es, w => Expr.walkAll_eq es w
  | .newArray _ _ e, w | .field _ e _, w | .unary _ _ e, w => Expr.walk_eq e w
  | .index _ l r, w | .binary _ _ l r, w => by
    simp [Expr.walk, Expr.names, Expr.walk_eq l, Expr.walk_eq r]
  | .methodCall _ o _ es, w => by simp [Expr.walk, Expr.names, Expr.walk_eq o, Expr.walkAll_eq es]

theorem Expr.walkAll_eq : ∀ (es : List Expr) (w : Walk),
    Expr.walkAll es w = w.note (Expr.namesAll es)
  | [], w => by simp [Expr.walkAll, Expr.namesAll]
  | e :: es, w => by simp [Expr.walkAll, Expr.namesAll, Expr.walk_eq e, Expr.walkAll_eq es]

end

/-- The names in initial values of fields mean global variables. -/
theorem Declaration.mem_walkInitializers {globals : Origins} {fields : List Declaration}
    (hd : d ∈ fields) (he : d.initializer = some e) (hq : q ∈ e.names) :
    ⟨q.1, q.2, (globals.lookup q.2).join⟩ ∈ (Declaration.walkInitializers globals fields).uses := by
  -- Along the fields the scopes stay as they are, and uses are added.
  have hstep : ∀ (d : Declaration) (w : Walk), (Expr.walkOption d.initializer w).scopes = w.scopes ∧
      w.uses ⊆ (Expr.walkOption d.initializer w).uses := fun d w => by
    cases hi : d.initializer with
    | none => exact ⟨rfl, List.Subset.refl _⟩
    | some e =>
      rw [Expr.walkOption, Expr.walk_eq]
      exact ⟨rfl, List.subset_append_left ..⟩
  have hgrow : ∀ (fields : List Declaration) (w : Walk),
      w.uses ⊆ (fields.foldl (fun w d => Expr.walkOption d.initializer w) w).uses :=
      fun fields => by
    induction fields with
    | nil => exact fun w => List.Subset.refl _
    | cons d fields ih => exact fun w => List.Subset.trans (hstep d w).2 (ih _)
  have hmain : ∀ (fields : List Declaration) (w : Walk), w.scopes = [globals] → d ∈ fields →
      ⟨q.1, q.2, (globals.lookup q.2).join⟩ ∈
        (fields.foldl (fun w d => Expr.walkOption d.initializer w) w).uses := fun fields => by
    induction fields with
    | nil => exact fun _ _ hd => absurd hd List.not_mem_nil
    | cons d' fields ih =>
      intro w hw hd
      rcases List.mem_cons.1 hd with rfl | hd
      · refine hgrow fields _ ?_
        show _ ∈ (Expr.walkOption d.initializer w).uses
        rw [he, Expr.walkOption, Expr.walk_eq]
        refine List.mem_append_right _ (List.mem_map.2 ⟨q, hq, ?_⟩)
        rw [hw]
        simp [Origins.find]
      · exact ih _ ((hstep d' w).1.trans hw) hd
  exact hmain fields _ rfl hd

theorem Check.UnitRecorded.initializers_global {ps : TypedClasses} (h : Check.UnitRecorded u ps t)
    {p : ClassDef × ClassType} (hp : p ∈ ps) (hd : d ∈ p.1.fields) (he : d.initializer = some e)
    (hq : q ∈ e.names) :
    t.HasGlobal q.1 q.2 := by
  obtain ⟨o, id, sc, k, ho, -, hid, hat⟩ := (h.classes p hp).initializers.uses _
    (Declaration.mem_walkInitializers hd he hq)
  have hglobal := h.ambient.global none
  cases hglobal with
  | child _ _ _ _ houter => cases houter
  | root hsc hparent hn =>
    have hlookup : u.globalOrigins.lookup q.2 = some (some o) := Option.join_eq_some_iff.1 ho
    obtain ⟨hscope, -⟩ := hn.slot q.2 o hlookup
    obtain rfl := Option.mem_unique hscope hat.scope
    exact ⟨_, sc, k, ⟨hid, hat.isScope, hat.slot⟩, h.laid.root _ _ hat.isScope (by
      rw [Option.some.inj (hat.isScope.symm.trans hsc)]
      exact hparent)⟩

theorem SourceUnit.initializers_global (h : u.check = .ok t) (hids : (u.nodes.map (·.id)).Nodup)
    {c : ClassDef} (hc : c ∈ u.classes) (hd : d ∈ c.fields) (he : d.initializer = some e)
    (hq : q ∈ e.names) :
    t.HasGlobal q.1 q.2 := by
  obtain ⟨s, hrun, hempty, rfl⟩ := SourceUnit.check_run h
  obtain ⟨ps, hall, -, hrec⟩ := Check.unit_recorded hids hrun hempty
  obtain ⟨p, hp, rfl⟩ := List.mem_map.1 (hall ▸ hc)
  exact hrec.initializers_global hp hd he hq

namespace Code

/-! ## Frames -/

variable {last slots : Nat} {P : Program} {x : String}

section
variable {env : Env} {P : Program} {i j k : Nat}

/-- The frame pointer is set right before the jump of a call. -/
theorem enterCode_setFrame (saved : List Register) (entry returnLabel : LabelId) : enterCode saved
      entry returnLabel = ([.push .arp, .constLabel returnLabel .arp, .push .arp, .push .zero] ++
      saved.map .push ++ [.const (saved.length + 2) .arp]) ++ [setFrame,
      .jump (.label entry)] := by simp [enterCode]

theorem CallSite.At.setFrame_eq {c : CallSite} (h : c.At env P)
    (hset : P.Has k setFrame.1 setFrame.2)
    (hk : c.enter ≤ k) (hlt : k < c.last) : c.jump = k + 1 := by
  have hjump : c.jump = c.enter + c.saved.length + 6 := rfl
  have hlast : c.last = c.anchor + c.saved.length + 7 := rfl
  obtain ⟨hbefore, -⟩ := Program.HasAll.append.1 (enterCode_setFrame .. ▸ h.enters)
  rcases Nat.lt_trichotomy (k + 1) c.jump with hlt' | heq | hgt
  · exact absurd hset (not_setFrame hbefore (by simp) hk (by simp; omega))
  · exact heq.symm
  rcases Nat.eq_or_lt_of_le (Nat.le_of_lt_succ hgt) with rfl | hgt
  · exact absurd (has_unique h.has_jump hset).1 OpCode.noConfusion
  · exact absurd hset (not_setFrame h.leaves (by simp [leaveCode, Register.arp]) hgt
      (by rw [length_leaveCode]; omega))

/-- In the code of expressions, only calls build frames. -/
theorem Flow.builds {keep : List Register} (h : Flow env P keep i j) (hk : k ∈ Set.Ico i j)
    (hset : P.Has k setFrame.1 setFrame.2) : ∃ c : CallSite, c.Full env P ∧ c.jump = k + 1 := by
  cases h.part k hk with
  | quiet hx hq =>
    obtain ⟨hop, hargs⟩ := has_unique hx hset
    exact absurd (Prod.ext hop hargs) hq.ne_setFrame
  | push hpush => exact absurd (has_unique hpush hset).1 OpCode.noConfusion
  | call c hc _ _ hge hlt => exact ⟨c, hc, hc.site.setFrame_eq hset hge hlt⟩

theorem Tiled.builds {T : Set Nat} (h : Tiled env P slots T i j) :
    ∀ k ∈ Set.Ico i j, P.Has k setFrame.1 setFrame.2 → ∃ c : CallSite,
      c.Full env P ∧ c.jump = k + 1 := by
  induction h with
  | nil => exact fun k hk _ => absurd (Nat.lt_of_le_of_lt hk.1 hk.2) (Nat.lt_irrefl _)
  | @cons a b c hc _ ih =>
    intro k hk hset
    rcases Nat.lt_or_ge k b with hlt | hge
    · cases hc with
      | flow h => exact h.builds ⟨hk.1, hlt⟩ hset
      | store h _ _ =>
        exact absurd hset (not_setFrame h (by simp [Place.storeCode, Register.arp]) hk.1 hlt)
      | branch h _ _ =>
        obtain rfl : k = a := Nat.le_antisymm (Nat.le_of_lt_succ hlt) hk.1
        exact absurd (has_unique h hset).1 OpCode.noConfusion
      | jump h _ _ =>
        obtain rfl : k = a := Nat.le_antisymm (Nat.le_of_lt_succ hlt) hk.1
        exact absurd (has_unique h hset).1 OpCode.noConfusion
      | @back r result h _ =>
        exact absurd hset (not_setFrame h (by cases result <;> simp [returnCode]) hk.1 hlt)
    · exact ih k ⟨hge, hk.2⟩ hset

/-- The outermost frame of a core is built once; the code that follows builds frames for calls. -/
theorem root_builds {code : Emit Unit}
    (hcode : ∀ {i j}, Emit.Placed env P code [] i () j → ∃ B, Sealed env P slots ∅ B i j)
    (h : Emit.RootAt env P slots code first last) (hk : k ∈ Set.Ico first last)
    (hset : P.Has k setFrame.1 setFrame.2) :
    k = first + slots + 5 ∨ ∃ c : CallSite, c.Full env P ∧ c.jump = k + 1 := by
  obtain ⟨exit, i, hroot, hplaced, hend, -, rfl⟩ := h.parts
  obtain ⟨B, hB⟩ := hcode hplaced
  rcases Nat.lt_or_ge k (first + slots + 5) with hlt | hge
  · have hparts : Emit.rootCode slots exit = (.replicate slots (.push .zero) ++ [.push .arp,
        .constLabel exit .arp, .push .arp, .push .zero, .const 2 .arp]) ++
        [setFrame] := by simp [Emit.rootCode]
    obtain ⟨hbefore, -⟩ := Program.HasAll.append.1 (hparts ▸ hroot)
    exact absurd hset (not_setFrame hbefore (by simp) hk.1 (by simp; omega))
  rcases Nat.eq_or_lt_of_le hge with rfl | hgt
  · exact .inl rfl
  rcases Nat.lt_or_ge k i with hlt | hge'
  · exact .inr (hB.tiled.builds k ⟨hgt, hlt⟩ hset)
  · obtain rfl : k = i := Nat.le_antisymm (Nat.le_of_lt_succ hk.2) hge'
    exact absurd (has_unique hend hset).1 OpCode.noConfusion

end

/-- Where the outermost frame of a core is built. -/
def Segment.root? (env : Env) (s : Segment) : Option Nat :=
  match s.kind with
  | .main => some (3 * env.threads.length)
  | .thread _ => some (s.first + 4)
  | .function _ | .initializer _ | .allocator => none

/-- The instruction at `i` finishes a frame of `n` slots for the code of a segment. -/
inductive Segment.Builds (env : Env) (P : Program) (s : Segment) (i n : Nat) : Prop
  | call (c : CallSite) : c.Full env P → P.target? c.entry = some s.first → c.jump = i + 1 →
      c.size = n →
      Builds env P s i n
  | root {p : Nat} {exit : LabelId} : s.root? env = some p → P.HasAll p (Emit.rootCode n exit) →
      i = p + n + 5 →
      Builds env P s i n

section
variable {env : Env} {P : Program} {m : Nat}

theorem rootCode_unique {exit exit' : LabelId} (h : P.HasAll i (Emit.rootCode n exit))
    (h' : P.HasAll i (Emit.rootCode m exit')) : n = m := by
  -- The first word that is not zero is the frame pointer.
  have key : ∀ {n m : Nat} {exit exit' : LabelId}, P.HasAll i (Emit.rootCode n exit) →
      P.HasAll i (Emit.rootCode m exit') → ¬ n < m := fun {n m exit exit'} h h' hlt => by
    have harp := (Program.HasAll.append.1 h).2.1
    rw [List.length_replicate] at harp
    obtain ⟨x, hx, hhas⟩ := has_of_hasAll (Program.HasAll.append.1 h').1 (Nat.le_add_right i n)
      (by rw [List.length_replicate]; omega)
    rw [List.eq_of_mem_replicate hx] at hhas
    cases (has_unique harp hhas).2
  exact Nat.le_antisymm (Nat.not_lt.1 (key h' h)) (Nat.not_lt.1 (key h h'))

theorem Routine.Slots.unique (h : r.Slots t n) (h' : r.Slots t m) : n = m := by
  have hframe : ∀ {f : FunctionId}, (∃ fn scope, t.function? f = some fn ∧ fn.scope = some scope ∧
      t.scopes.frameSize scope = .ok n) → (∃ fn scope, t.function? f = some fn ∧
      fn.scope = some scope ∧ t.scopes.frameSize scope = .ok m) → n = m := fun h h' => by
    obtain ⟨fn, scope, hfn, hscope, hn⟩ := h
    obtain ⟨fn', scope', hfn', hscope', hm⟩ := h'
    obtain rfl := Option.mem_unique hfn hfn'
    obtain rfl := Option.mem_unique hscope hscope'
    exact Except.ok.inj (hn.symm.trans hm)
  cases r with
  | function f body => exact hframe h h'
  | initializer c l => exact h.trans h'.symm
  | allocator => exact h.trans h'.symm
  | thread index f body => exact hframe h h'

end

/-! ## Fields -/

/-- The instructions that store the initial value of a field. -/
def initialCode (object r value : Register) (k : Nat) : List Ins :=
  [.const k r, .compute .add object r r, .write value (.indirect r)]

/-- The storage of the objects of a class `x`, which have the fields of the scope `id`. -/
structure ClassStorage (env : Env) (P : Program) (x : String) (c : ClassType) (id : ScopeId)
    (words : Nat) : Prop where
  /-- A new object is that many words of the heap. -/
  new : ∀ ctx n es used first r last,
    Emit.Placed env P (Emit.expr ctx (.new n x es)) used first r last →
    ∃ size saved object next, P.HasAll first [.const words size] ∧ next ≤ last ∧
      Emit.CallParts P saved env.allocator 1 1 (fun i j => P.HasAll i [.push size] ∧ j = i + 1)
      (first + 1) object next
  /-- A field of an object is one of its words. -/
  field : ∀ ctx n o y used first p last,
    Emit.Placed env P (Emit.targetPlace ctx (.field n o y)) used first p last →
    (env.tables.annotations.type? o.id).bind (·.class?) = some c → ∃ k object r i, k < words ∧
      env.tables.scopes.offset? id y = .ok (some k) ∧ p = .shared object ∧
      P.HasAll i (fieldCode object r k) ∧
      last = i + (fieldCode object r k).length
  /-- So is a field that a method names. -/
  name : ∀ ctx node y used first p last,
    Emit.Placed env P (Emit.namePlace ctx node y) used first p last →
    env.tables.annotations.scope? node = some id → ∃ k object r i, k < words ∧
      env.tables.scopes.offset? id y = .ok (some k) ∧ p = .shared object ∧
      P.HasAll i (fieldCode object r k) ∧
      last = i + (fieldCode object r k).length
  /-- So is a field that gets its initial value. -/
  initial : ∀ fields used first last,
    Emit.Placed env P (Emit.initializeFields id fields) used first () last → ∀ d ∈ fields,
    d.initializer.isSome = true → ∃ k object r value i, k < words ∧
    env.tables.scopes.offset? id d.name = .ok (some k) ∧
      first ≤ i ∧ i + 3 ≤ last ∧ P.HasAll i (initialCode object r value k)

namespace Emit

variable {α : Type} {env : Env} {used : List Register}

theorem Lies.ofEmits {m : Emit α} {used1 : α → List Register}
    (h : ∀ s, s.Uses used → Sat Any m env s fun a s' => s.Emits s.labels (used1 a) s') :
    Lies env m used used1 fun _ i _ j => i ≤ j := fun s hs =>
  (h s hs).weaken fun _ _ h' => ⟨h'.uses, fun _ hP => ⟨hP.of_grows h'.grows, h'.grows.here⟩⟩

theorem writeElement_lies (block value : Register) (k : Nat) :
    Lies env (writeElement block k value) used (fun _ => used) fun P i _ j =>
      ∃ r, P.HasAll i (initialCode block r value k) ∧ j = i + 3 := by
  refine fun s hs => (writeElement_adds block value k hs).weaken fun _ s' ⟨r, _, h⟩ => ?_
  exact ⟨h.uses, fun P hP => ⟨(h.lays P hP).1, r, (h.lays P hP).2, h.here⟩⟩

theorem initializeFields_lies (scope : ScopeId) : ∀ (fields : List Declaration),
    Lies env (initializeFields scope fields) used (fun _ => used) fun P i _ j => i ≤ j ∧
      ∀ d ∈ fields,
      d.initializer.isSome = true → ∃ k object r value m,
        env.tables.scopes.offset? scope d.name = .ok (some k) ∧
        i ≤ m ∧ m + 3 ≤ j ∧ P.HasAll m (initialCode object r value k)
  | [] => .pure (fun _ => used) fun _ i => ⟨Nat.le_refl i, fun _ hd => absurd hd List.not_mem_nil⟩
  | d :: fields => by
    have ih := initializeFields_lies scope fields
    rw [initializeFields]
    cases hd : d.initializer with
    | none =>
      refine ih.weaken fun P i _ j h => ⟨h.1, fun d' hd' hsome => ?_⟩
      rcases List.mem_cons.1 hd' with rfl | hd'
      · rw [hd] at hsome
        cases hsome
      · exact h.2 d' hd' hsome
    | some e =>
      refine .query fun o ho => .expect fun k hk => ?_
      subst hk
      have hexpr : Lies env (expr {} e) used (used ++ [·]) fun _ i _ j => i ≤ j :=
        .ofEmits fun s hs => (expr_fresh _ (any _) _ _ hs (any _)).weaken fun _ _ h => h.toEmits
      have hload : ∀ value, Lies env (loadPlace (.frame 0)) (used ++ [value])
        (fun r => used ++ [value] ++ [r])
          fun _ i _ j => i ≤ j := fun value =>
        (loadSlot_flows 0 (used ++ [value])).weaken fun _ _ _ _ h => h.le
      have hrelease : ∀ (used : List Register) r, Lies env (release r) (used ++ [r]) (fun _ => used)
        fun _ i _ j => i ≤ j := fun used r => (release_flows r).weaken fun _ _ _ _ h => h.le
      refine (hexpr.bind fun value => (hload value).bind fun object =>
        (writeElement_lies object value k).bind fun _ => (hrelease _ object).bind fun _ =>
        (hrelease used value).bind fun _ => ih).weaken fun P i _ j h => ?_
      obtain ⟨value, i1, h1, object, i2, h2, -, i3, ⟨r, hcode, rfl⟩, -, i4, h4, -, i5, h5,
        h6, hall⟩ := h
      refine ⟨by omega, fun d' hd' hsome => ?_⟩
      rcases List.mem_cons.1 hd' with rfl | hd'
      · exact ⟨k, object, r, value, i2, ho, by omega, by omega, hcode⟩
      · obtain ⟨k', object', r', value', m, hk', hm, hle, hcode'⟩ := hall d' hd' hsome
        exact ⟨k', object', r', value', m, hk', by omega, hle, hcode'⟩

/-- A new object begins with a call of the allocator. -/
theorem newObject_lies {node : NodeId} {arguments : Nat} {pushArguments : Emit Unit}
    (hargs : Steady Any env pushArguments) :
    Lies env (newObject node x arguments pushArguments) used
      (used ++ [·]) fun P i _ j => ∃ c id words size saved object next,
        env.tables.types.class? x = some c ∧ env.tables.types.memberScope? c = some id ∧
        env.tables.scopes.frameSize id = .ok words ∧ P.HasAll i [.const words size] ∧ next ≤ j ∧
        CallParts P saved env.allocator 1 1 (fun i j => P.HasAll i [.push size] ∧ j = i + 1)
        (i + 1) object next := by
  rw [newObject_eq]
  have hscope : Lies env (memberScope x) used (fun _ => used) fun _ i id j => j = i ∧ ∃ c,
      env.tables.types.class? x = some c ∧ env.tables.types.memberScope? c = some id :=
    .read <| .expect fun c hc s hs => .expect_last (any _) fun id hid =>
      ⟨hs, fun P hP => ⟨hP, rfl, c, hc, hid⟩⟩
  have hsize : ∀ words : Nat, Lies env (constantRegister words) used (used ++ [·]) fun P i r j =>
      P.HasAll i [.const words r] ∧ j = i + 1 := fun words =>
      .ofAdds (fun r => [.const words r]) _ fun s hs => constantRegister_adds words hs
  have halloc : ∀ size, Lies env (alloc size) (used ++ [size]) (used ++ [·]) fun P i r j =>
      CallParts P used env.allocator 1 1 (fun i j => P.HasAll i [.push size] ∧ j = i + 1)
        i r j := by
    refine fun size => .read (call_lies (.ofAdds (fun _ => [.push size]) (fun _ => used)
      fun s hs => ?_))
    have h := (EmitState.Adds.refl hs).emit .push [.register size]
    exact .emit rfl ((release_last h.uses).weaken fun _ _ hr => h.registers hr)
  have hrest : ∀ object first, Lies env (do
      comment first ("new " ++ x)
      runInitializer x object
      runConstructor node arguments pushArguments object
      return object) (used ++ [object]) (used ++ [·]) fun _ i _ j => i ≤ j := fun object first => by
    refine .comment <| .ofEmits fun s hs =>
      Takes.emits (.seq (runInitializer_takes x object fun _ => .of)
      fun _ => .seq (runConstructor_takes object (any _) fun _ => ⟨.of, fun _ => hargs.takes⟩)
      fun _ => .pure object rfl) hs (any _)
  have hbody : ∀ id, Lies env (do
      let words ← query (·.scopes.frameSize id)
      let first ← here
      let object ← alloc (← constantRegister words)
      comment first ("new " ++ x)
      runInitializer x object
      runConstructor node arguments pushArguments object
      return object) used (used ++ [·]) fun P i _ j => ∃ words : Nat,
        env.tables.scopes.frameSize id = .ok words ∧ ∃ size k,
        (P.HasAll i [.const words size] ∧ k = i + 1) ∧ ∃ object next,
          CallParts P used env.allocator 1 1 (fun i j => P.HasAll i [.push size] ∧ j = i + 1) k
          object next ∧ next ≤ j := fun id => .query fun words hwords => .here fun first =>
    ((hsize words).bind fun size => (halloc size).bind fun object => hrest object first).weaken
      fun P i _ j h => ⟨words, hwords, h⟩
  refine (hscope.bind hbody).weaken fun P i _ j h => ?_
  obtain ⟨id, i', ⟨rfl, c, hc, hid⟩, words, hwords, size, k, ⟨hconst, rfl⟩, object, next,
    hcall, hle⟩ := h
  exact ⟨c, id, words, size, used, object, next, hc, hid, hwords, hconst, hle, hcall⟩

end Emit

/-- An object has room for the fields of its class. -/
theorem classStorage {c : ClassType} {id : ScopeId} {words : Nat}
    (hlaid : env.tables.scopes.Laid) (hc : env.tables.types.class? x = some c)
    (hid : env.tables.types.memberScope? c = some id)
    (hkind : env.tables.scopes.kind id = .ok .members)
    (hwords : env.tables.scopes.frameSize id = .ok words) : ClassStorage env P x c id words where
  new ctx n es used first r last h := by
    obtain ⟨c', id', words', size, saved, object, next, hc', hid', hwords', hconst, hle, hcall⟩ :=
      h.lies (Emit.newObject_lies (.of fun _ _ => Emit.pushAll_takes es (Emit.any _) .of))
    obtain rfl := Option.mem_unique hc hc'
    obtain rfl := Option.mem_unique hid hid'
    obtain rfl : words = words' := Except.ok.inj (hwords.symm.trans hwords')
    exact ⟨size, saved, object, next, hconst, hle, hcall⟩
  field ctx n o y used first p last h hclass := by
    obtain ⟨k, object, i, r, ⟨id', hid', hk⟩, -, hp, -, -, hcode, hlast⟩ := h.fieldTarget
    rw [hclass, Option.bind_some, hid] at hid'
    cases hid'
    exact ⟨k, object, r, i, hlaid.offset_lt hk hwords, hk, hp, hcode, hlast⟩
  name ctx node y used first p last h hscope := by
    obtain ⟨id', k, kind, code, hat, hcode, hlast⟩ :=
      Emit.Placed.nameTarget (n := { id := node, span := {} }) h
    obtain rfl := Option.mem_unique hscope hat.scope
    obtain rfl : ScopeKind.members = kind := Except.ok.inj (hkind.symm.trans hat.isKind)
    have hname := hat.code
    cases hname with
    | @members F k' object r _ _ _ _ =>
      rw [List.length_append, ← Nat.add_assoc] at hlast
      exact ⟨k, object, r, _, hlaid.offset_lt hat.offset hwords, hat.offset, rfl,
        (Program.HasAll.append.1 hcode).2, hlast⟩
  initial fields used first last h d hd hsome := by
    obtain ⟨-, hall⟩ := h.lies (Emit.initializeFields_lies id fields)
    obtain ⟨k, object, r, value, i, hk, hi, hle, hcode⟩ := hall d hd hsome
    exact ⟨k, object, r, value, i, hlaid.offset_lt hk hwords, hk, hi, hle, hcode⟩

/-! ## Programs -/

/-- A fixed address is the address of a static word. -/
theorem mem_addresses_of_contained {layout : StaticLayout} {a : Nat} {opcode : OpCode}
    {operands : List Operand} (h : P.Contained layout slots first i) (hi : P.Has i opcode operands)
    (ha : .address (.direct a) ∈ operands) : a ∈ layout.addresses := by
  cases h with
  | apart hx hapart =>
    rw [(has_unique hi hx).2] at ha
    exact hapart _ ha
  | slot hj _ _ hcode =>
    subst hj
    rw [(has_unique hi hcode.2.1).2] at ha
    simp at ha
  | header hj _ _ hcode =>
    subst hj
    rw [(has_unique hi hcode.2.1).2] at ha
    simp at ha
  | link hx hlink =>
    rw [(has_unique hi hx).2] at ha
    cases hlink <;> simp at ha

/-- What the storage of a generated program is like. -/
structure StorageContained (u : SourceUnit) (t : Tables) (env : Env) (P : Program)
    (segments : List Segment) : Prop where
  kinds : segments.map (·.kind) = unitSegments u t
  code : HoldUnit u env P segments
  chain : Segment.Chain 0 segments P.size
  /-- All frames are built for segments. -/
  built : ∀ i, P.Has i setFrame.1 setFrame.2 → ∃ s ∈ segments, ∃ n, s.Builds env P i n
  /-- The frames of a segment have the same size, and its code uses no other slots. -/
  frames : ∀ s ∈ segments, ∃ n, (∀ i m, s.Builds env P i m → m = n) ∧
    ∀ i ∈ s.positions, P.Contained env.layout n s.first i
  classes : ∀ x c id, t.types.class? x = some c → t.types.memberScope? c = some id →
    ∃ words, t.scopes.frameSize id = .ok words ∧ ClassStorage env P x c id words
  /-- Fixed addresses are those of static words. -/
  fixed : ∀ i opcode operands a, P.Has i opcode operands → .address (.direct a) ∈ operands →
    a ∈ env.layout.addresses
  /-- The static words are the end of the shared memory, and no two of them are the same. -/
  top : ∀ a, a ∈ env.layout.addresses ↔ env.layout.base ≤ a ∧ a < env.options.sharedMemory
  distinct : env.layout.addresses.Nodup

section
variable {u : SourceUnit} {t : Tables} {options : Options} {layout : StaticLayout} {P : Program}
  {body : FunctionBody} {f : FunctionId} {g : Generated} {s : Segment}

theorem routine_grounded (h : u.check = .ok t) (hids : (u.nodes.map (·.id)).Nodup)
    (hthreads : layout.threads = t.functions.threads.length)
    (hr : r ∈ (startEnv u t options layout).routines u) :
    r.Grounded (startEnv u t options layout) := by
  simp only [Env.routines, List.mem_append, List.mem_cons, List.mem_map, List.mem_filterMap] at hr
  rcases hr with (⟨p, -, rfl⟩ | ⟨c, hc, hr⟩) | rfl | ⟨⟨p, index⟩, hmem, rfl⟩
  · trivial
  · obtain ⟨l, -, rfl⟩ := Option.map_eq_some_iff.1 hr
    exact fun d hd e he q hq => SourceUnit.initializers_global h hids hc hd he hq
  · trivial
  · have hlt := (List.getElem?_eq_some_iff.1 (List.mk_mem_zipIdx_iff_getElem?.1 hmem)).1
    show index < layout.threads
    rw [hthreads]
    exact Nat.lt_of_lt_of_le hlt (List.length_filterMap_le ..)

theorem routine_slots (hu : u.Sound t) (hr : r ∈ (startEnv u t options layout).routines u) :
    ∃ n, r.Slots t n := by
  have hready := (routines_ready hu options layout hr).1
  have hframe : ∀ {f : FunctionId}, (∃ fn, t.function? f = some fn) → ∃ n fn scope,
      t.function? f = some fn ∧ fn.scope = some scope ∧ t.scopes.frameSize scope = .ok n := by
    rintro f ⟨fn, hfn⟩
    obtain ⟨scope, n, hscope, hn, -⟩ := (startEnv_fits hu options layout).frame f fn hfn
    exact ⟨n, fn, scope, hfn, hscope, hn⟩
  cases r with
  | function f body => exact hframe (hready.imp fun _ h => h.choose_spec.1)
  | initializer c l => exact ⟨1, rfl⟩
  | allocator => exact ⟨1, rfl⟩
  | thread index f body => exact hframe (hready.imp fun _ h => h.choose_spec.1)

theorem Routine.slots_kind {r' : Routine} (hkind : r.kind = r'.kind) (h : r.Slots t n) :
    r'.Slots t n := by
  cases r <;> cases r' <;> simp only [Routine.kind, SegmentKind.function.injEq,
    SegmentKind.thread.injEq, reduceCtorEq] at hkind <;> first | exact h | exact hkind ▸ h

theorem dispatch_builds {env : Env} {index first last k : Nat} : ∀ (fs : List FunctionId),
    Emit.Placed env P (Emit.dispatch index fs) [] first () last → k ∈ Set.Ico first last →
    ¬ P.Has k setFrame.1 setFrame.2
  | [], h, hk, _ => by
    obtain rfl := h.dispatch_nil
    exact Nat.lt_irrefl _ (Nat.lt_of_le_of_lt hk.1 hk.2)
  | _ :: fs, h, hk, hset => by
    obtain ⟨l, r, -, hcode, hrest⟩ := h.dispatch_cons
    rcases Nat.lt_or_ge k (first + 3) with hlt | hge
    · exact not_setFrame hcode (by simp) hk.1 hlt hset
    · exact dispatch_builds fs hrest ⟨hge, hk.2⟩ hset

/-- A thread begins with a wait for its flag. Then its frame is built. -/
theorem Routine.root_at {index : Nat} (hready : Routine.Ready env.tables (.thread index f body))
    (hslots : Routine.Slots env.tables (.thread index f body) n)
    (h : Emit.Placed env P (Emit.thread index f body) [] first () last) : ∃ scope,
      env.tables.scopes.frameSize scope = .ok n ∧ body.Ready env.tables (some scope) ∧
      (∀ k, first ≤ k → k < first + 4 → ¬ P.Has k setFrame.1 setFrame.2) ∧
      Emit.RootAt env P n (Emit.threadBody { function := some scope } body) (first + 4) last := by
  obtain ⟨fn, scope, hfn, hscope, hbody⟩ := hready
  obtain ⟨fn1, scope1, hfn1, hscope1, hn⟩ := hslots
  obtain ⟨fn', scope', l, x, size, hfn', hscope', hsize, -, -, hcode, hroot⟩ := Emit.Placed.thread h
  obtain rfl := Option.mem_unique hfn hfn'
  obtain rfl := Option.mem_unique hfn hfn1
  obtain rfl := Option.mem_unique hscope hscope'
  obtain rfl := Option.mem_unique hscope hscope1
  obtain rfl : size = n := Except.ok.inj (hsize.symm.trans hn)
  exact ⟨scope, hn, hbody, fun k hk hlt => not_setFrame hcode (by simp) hk hlt, hroot⟩

/-- In a routine, frames are built for calls, and one for the thread itself. -/
theorem Routine.builds {env : Env} {r : Routine} {first n k : Nat} (ht : env.tables.MethodsRun)
    (hlaid : env.tables.scopes.Laid) (hready : r.Ready env.tables) (hslots : r.Slots env.tables n)
    (h : Emit.Placed env P r.code [] first () last) (hk : k ∈ Set.Ico first last)
    (hset : P.Has k setFrame.1 setFrame.2) : (∃ c : CallSite, c.Full env P ∧ c.jump = k + 1) ∨
      (∃ f, r.kind = .thread f) ∧ k = first + 4 + n + 5 ∧ ∃ exit,
      P.HasAll (first + 4) (Emit.rootCode n exit) := by
  have hcalled : r.Frame env.tables n → ∃ c : CallSite, c.Full env P ∧ c.jump = k + 1 :=
      fun hframe => by
    obtain ⟨⟨B, hB⟩, -⟩ := Routine.sealed ht hlaid hready hframe h
    exact hB.tiled.builds k hk hset
  cases r with
  | function f body => exact .inl (hcalled hslots)
  | initializer c label => exact .inl (hcalled hslots)
  | allocator => exact .inl (hcalled hslots)
  | thread index f body =>
    obtain ⟨scope, hn, hbody, hwait, hroot⟩ := Routine.root_at hready hslots h
    rcases Nat.lt_or_ge k (first + 4) with hlt | hge
    · exact absurd hset (hwait k hk.1 hlt)
    have hroom : Room env P n ∅ { function := some scope } :=
      ⟨ht, hlaid, hn, fun _ hl => by cases hl⟩
    rcases root_builds (threadBody_sealed hroom hbody) hroot ⟨hge, hk.2⟩ hset with hk' | hcall
    · obtain ⟨exit, -, hexit, -⟩ := hroot.parts
      exact .inr ⟨⟨f, rfl⟩, hk', exit, hexit⟩
    · exact .inl hcall

/-! ## Segments -/

theorem Segment.Chain.le_first (h : Segment.Chain i ss j) : ∀ s ∈ ss, i ≤ s.first := by
  induction h with
  | nil => exact fun s hs => absurd hs List.not_mem_nil
  | @cons s ss j hlt hrest ih =>
    intro s' hs'
    rcases List.mem_cons.1 hs' with rfl | hs'
    · exact Nat.le_refl _
    · exact Nat.le_trans (Nat.le_of_lt hlt) (ih s' hs')

/-- No two segments start at the same position. -/
theorem Segment.Chain.first_inj (h : Segment.Chain i ss j) {s' : Segment} (hs : s ∈ ss)
    (hs' : s' ∈ ss) (heq : s.first = s'.first) : s = s' := by
  induction h with
  | nil => exact absurd hs List.not_mem_nil
  | @cons a ss j hlt hrest ih =>
    rcases List.mem_cons.1 hs with rfl | hmem <;> rcases List.mem_cons.1 hs' with rfl | hmem'
    · rfl
    · have := hrest.le_first s' hmem'
      omega
    · have := hrest.le_first s hmem
      omega
    · exact ih hmem hmem'

theorem generate_layout (h : generate u t options = .ok g) : ∃ globals,
    t.scopes.frameSize ScopeTree.globalId = .ok globals ∧
    StaticLayout.place options.sharedMemory t.functions.threads.length globals = .ok g.layout := by
  obtain ⟨globals, hglobals, h⟩ := except_bind_eq_ok.1 h
  obtain ⟨layout, hlayout, h⟩ := except_bind_eq_ok.1 h
  obtain ⟨p, -, h⟩ := except_bind_eq_ok.1 h
  cases h
  refine ⟨globals, ?_, hlayout⟩
  cases hsize : t.scopes.frameSize ScopeTree.globalId with
  | ok n =>
    rw [hsize] at hglobals
    cases hglobals
    rfl
  | error e =>
    rw [hsize] at hglobals
    cases hglobals

theorem startEnv_spacious (hlaid : t.scopes.Laid) {globals : Nat}
    (hglobals : t.scopes.frameSize ScopeTree.globalId = .ok globals)
    (hlayout : StaticLayout.place options.sharedMemory t.functions.threads.length globals =
      .ok layout) :
    (startEnv u t options layout).Spacious := by
  simp only [StaticLayout.place] at hlayout
  split at hlayout
  · cases hlayout
  · cases hlayout
    exact ⟨hlaid, hglobals, rfl⟩

theorem main_stores_subset (u : SourceUnit) : Stmt.storesAll u.statements ⊆ u.stores :=
  List.subset_append_left _ _

theorem definition_stores_subset (hu : u.Sound t)
    (h : (f, body) ∈ definitions t.functions u) : body.stores ⊆ u.stores := by
  obtain ⟨d, hd, rfl⟩ := mem_definitions hu h
  intro q hq
  exact List.mem_append_right _ (List.mem_flatMap.2 ⟨d, List.mem_of_getElem? hd, hq⟩)

theorem routine_stores_subset (hu : u.Sound t) (h : r ∈ (startEnv u t options layout).routines u) :
    r.stores ⊆ u.stores := by
  simp only [Env.routines, List.mem_append, List.mem_cons, List.mem_map, List.mem_filterMap] at h
  rcases h with (⟨⟨f, body⟩, hmem, rfl⟩ | ⟨c, -, h⟩) | rfl | ⟨⟨⟨f, body⟩, index⟩, hmem, rfl⟩
  · exact definition_stores_subset hu (List.mem_filter.1 hmem).1
  · obtain ⟨l, -, rfl⟩ := Option.map_eq_some_iff.1 h
    exact List.nil_subset _
  · exact List.nil_subset _
  · have hbody := List.mem_of_getElem? (List.mk_mem_zipIdx_iff_getElem?.1 hmem)
    exact definition_stores_subset hu (Env.mem_threadBodies hbody).2

/-- The code of core 0: the dispatcher, its frame and the statements of the unit. -/
theorem main_storage (hu : u.Sound t) (hspace : (startEnv u t options layout).Spacious)
    (hdispatch : Emit.Placed (startEnv u t options layout) P
      (Emit.dispatch 0 t.functions.threads) [] 0 () i)
    (hmain : Emit.Placed (startEnv u t options layout) P (Emit.mainCode u.statements) [] i () j) :
    i = 3 * t.functions.threads.length ∧ i < j ∧
      (∃ exit, P.HasAll i (Emit.rootCode layout.globals exit)) ∧
      (∀ k ∈ Set.Ico 0 j, P.Contained layout layout.globals 0 k) ∧
      ∀ k ∈ Set.Ico 0 j, P.Has k setFrame.1 setFrame.2 → k = i + layout.globals + 5 ∨
        ∃ c : CallSite, c.Full (startEnv u t options layout) P ∧ c.jump = k + 1 := by
  obtain ⟨size, hsize, hroot⟩ := hmain.mainCode
  obtain rfl : layout.globals = size := Except.ok.inj (hspace.globals.symm.trans hsize)
  have hroom : Room (startEnv u t options layout) P layout.globals ∅ {} :=
    ⟨sound_methodsRun hu, hu.laid, hsize, fun _ hl => by cases hl⟩
  have hseals : ∀ {i j}, Emit.Placed (startEnv u t options layout) P
    (Emit.stmts {} u.statements) [] i () j →
      ∃ B, Sealed (startEnv u t options layout) P layout.globals ∅ B i j := fun hp =>
    Emit.stmts_seals u.statements hroom hu.main (Set.Subset.refl _) hp
  obtain ⟨exit, last, hcode, hbody, -, -, hj⟩ := hroot.parts
  obtain ⟨B, hB⟩ := hseals hbody
  have hle := hB.tiled.le
  refine ⟨by simpa using (dispatch_tame _ hdispatch).1,
    by omega, ⟨exit, hcode⟩, fun k hk => ?_, fun k hk hset => ?_⟩
  · rcases Nat.lt_or_ge k i with hlt | hge
    · have hkeeps : Emit.Keeps ⟨startEnv u t options layout, u.stores, layout.globals, hspace⟩
          (Emit.dispatch 0 t.functions.threads) := Emit.dispatch_keeps _ _
      exact hdispatch.contained hkeeps hk.1 hlt
    · have hroomy : Emit.Roomy ⟨startEnv u t options layout, u.stores, layout.globals,
        hspace⟩ none := hsize
      exact (hmain.contained (Emit.mainCode_keeps hroomy hu.main (main_stores_subset u)) hge
        hk.2).lower (Nat.zero_le _)
  · rcases Nat.lt_or_ge k i with hlt | hge
    · exact absurd hset (dispatch_builds _ hdispatch ⟨hk.1, hlt⟩)
    · exact root_builds hseals hroot ⟨hge, hk.2⟩ hset

theorem routine_keeps (h : u.check = .ok t) (hids : (u.nodes.map (·.id)).Nodup)
    (hspace : (startEnv u t options layout).Spacious)
    (hr : r ∈ (startEnv u t options layout).routines u) (hn : r.Slots t n) :
    Emit.Keeps ⟨startEnv u t options layout, u.stores, n, hspace⟩ r.code :=
  have hu := SourceUnit.check_sound h hids
  Routine.keeps (routines_ready hu options layout hr).1
    (routine_grounded h hids hspace.threads.symm hr) hn
    (routine_stores_subset hu hr)

/-- The code of a routine uses the slots of its frame, and builds frames for calls. -/
theorem routine_storage (h : u.check = .ok t) (hids : (u.nodes.map (·.id)).Nodup)
    (hspace : (startEnv u t options layout).Spacious)
    (hr : r ∈ (startEnv u t options layout).routines u)
    (hs : s.Holds (startEnv u t options layout) P r) :
    ∃ n, r.Slots t n ∧ (∀ k ∈ s.positions, P.Contained layout n s.first k) ∧
      (∀ p m exit, s.root? (startEnv u t options layout) = some p →
        P.HasAll p (Emit.rootCode m exit) → m = n) ∧
      ∀ k ∈ s.positions, P.Has k setFrame.1 setFrame.2 →
        s.Builds (startEnv u t options layout) P k n ∨
        ∃ c : CallSite, c.Full (startEnv u t options layout) P ∧ c.jump = k + 1 := by
  have hu := SourceUnit.check_sound h hids
  have hready := (routines_ready hu options layout hr).1
  obtain ⟨hkind, hcode⟩ := hs
  obtain ⟨n, hn⟩ := routine_slots hu hr
  have hkeeps := routine_keeps h hids hspace hr hn
  refine ⟨n, hn, fun k hk => hcode.contained hkeeps hk.1 hk.2, fun p m exit hp hm => ?_,
    fun k hk hset => ?_⟩
  · cases r with
    | thread index f body =>
      obtain ⟨_, _, _, _, hroot⟩ := Routine.root_at hready hn hcode
      obtain ⟨exit', -, hcode', -⟩ := hroot.parts
      rw [Segment.root?, hkind] at hp
      cases hp
      exact rootCode_unique hm hcode'
    | _ =>
      rw [Segment.root?, hkind] at hp
      cases hp
  · rcases Routine.builds (sound_methodsRun hu) hu.laid hready hn hcode hk hset with hcall
      | ⟨⟨f, hf⟩, hk', exit, hroot⟩
    · exact .inr hcall
    · exact .inl (.root (by rw [Segment.root?, hkind, hf]) hroot hk')

theorem generate_spacious (hu : u.Sound t) (hg : generate u t options = .ok g) :
    (startEnv u t options g.layout).Spacious := by
  obtain ⟨globals, hglobals, hlayout⟩ := generate_layout hg
  exact startEnv_spacious hu.laid hglobals hlayout

/-- **Storage is contained**: the slots that code uses are those of its frames, fields are those of
their objects, and fixed addresses are those of the static words. -/
theorem generate_contained {g : Generated} (h : u.check = .ok t) (hids : (u.nodes.map (·.id)).Nodup)
    (hg : generate u t options = .ok g) :
    ∃ segments, StorageContained u t (startEnv u t options g.layout) g.program segments := by
  have hu := SourceUnit.check_sound h hids
  have ht := sound_methodsRun hu
  have hspace := generate_spacious hu hg
  have hready := fun r hr => (routines_ready hu options g.layout (r := r) hr).1
  obtain ⟨i, j, ss, hdispatch, hmain, hss, hrest⟩ := (generate_at hg).2.split hu
  obtain ⟨hi, hij, ⟨exit, hroot⟩, hcontained, hbuilt⟩ := main_storage hu hspace hdispatch hmain
  have hholds : ∀ s ∈ ss, ∃ r ∈ (startEnv u t options g.layout).routines u,
      s.Holds (startEnv u t options g.layout) g.program r := fun s hs => forall₂_mem_right hss hs
  let main : Segment := ⟨.main, 0, j⟩
  have hchain : Segment.Chain 0 (main :: ss) g.program.size :=
    .cons (s := main) (Nat.zero_lt_of_lt hij) hrest
  -- The segment of a callee, and the slots of its frames.
  have hcallee : ∀ c : CallSite, c.Full (startEnv u t options g.layout) g.program → ∃ s ∈ ss, ∃ r,
      s.kind = Routine.kind r ∧ g.program.target? c.entry = some s.first ∧ r.Slots t c.size :=
      fun c hc => by
    obtain ⟨r, hr, hl, hframe⟩ := Call.Goes.routine hu hc.site.goes
    obtain ⟨s, hs, hkind, hcode⟩ := forall₂_mem_left hss hr
    exact ⟨s, hs, r, hkind, Routine.entry_at ht (hready r hr) hl hcode,
      Routine.slots_of_frame hframe⟩
  have hcalled : ∀ s ∈ main :: ss, ∀ c : CallSite,
      c.Full (startEnv u t options g.layout) g.program →
      g.program.target? c.entry = some s.first → s ∈ ss ∧ ∃ r,
      s.kind = Routine.kind r ∧ r.Slots t c.size := fun s hs c hc hentry => by
    obtain ⟨s', hs', r, hkind, hentry', hsize⟩ := hcallee c hc
    obtain rfl := hchain.first_inj hs (.tail _ hs') (Option.some.inj (hentry.symm.trans hentry'))
    exact ⟨hs', r, hkind, hsize⟩
  have hframes : ∀ s ∈ main :: ss, ∃ n,
      (∀ k m, s.Builds (startEnv u t options g.layout) g.program k m → m = n) ∧
      ∀ k ∈ s.positions, g.program.Contained g.layout n s.first k := fun s hs => by
    rcases List.mem_cons.1 hs with rfl | hmem
    · refine ⟨g.layout.globals, fun k m hbuilds => ?_, hcontained⟩
      cases hbuilds with
      | call c hc hentry _ _ =>
        obtain ⟨hmem, -⟩ := hcalled main hs c hc hentry
        obtain ⟨r, -, hkind, -⟩ := hholds main hmem
        cases r <;> cases hkind
      | root hp hcode _ =>
        cases hp
        exact rootCode_unique (hi ▸ hcode) hroot
    · obtain ⟨r, hr, hheld⟩ := hholds s hmem
      obtain ⟨n, hn, hcode, hunique, -⟩ := routine_storage h hids hspace hr hheld
      refine ⟨n, fun k m hbuilds => ?_, hcode⟩
      cases hbuilds with
      | call c hc hentry _ hsize =>
        obtain ⟨-, r', hkind, hslots⟩ := hcalled s hs c hc hentry
        exact hsize ▸ (Routine.slots_kind (hkind.symm.trans hheld.1) hslots).unique hn
      | root hp hroot _ => exact hunique _ _ _ hp hroot
  have hcode : HoldUnit u (startEnv u t options g.layout) g.program (main :: ss) :=
    ⟨rfl, ⟨i, hdispatch, hmain⟩, hss⟩
  refine ⟨main :: ss, hcode.kinds hu, hcode, hchain, fun k hset => ?_, hframes,
    fun x c id hc hid => ?_, fun k opcode operands a hk ha => ?_, fun a => ?_, ?_⟩
  · have hlt : k < g.program.size := Slots.lt_of_get? hset.choose_spec
    have hcall : ∀ c : CallSite, c.Full (startEnv u t options g.layout) g.program → c.jump = k + 1 →
        ∃ s ∈ main :: ss, ∃ n, s.Builds (startEnv u t options g.layout) g.program k n :=
        fun c hc hk => by
      obtain ⟨s, hs, -, -, hentry, -⟩ := hcallee c hc
      exact ⟨s, .tail _ hs, _, .call c hc hentry hk rfl⟩
    obtain ⟨s, hs, hpos⟩ := hchain.covers (Nat.zero_le k) hlt
    rcases List.mem_cons.1 hs with rfl | hmem
    · rcases hbuilt k hpos hset with hk | ⟨c, hc, hk⟩
      · exact ⟨main, hs, _, .root (hi ▸ rfl) hroot hk⟩
      · exact hcall c hc hk
    · obtain ⟨r, hr, hheld⟩ := hholds s hmem
      obtain ⟨n, -, -, -, hbuilds⟩ := routine_storage h hids hspace hr hheld
      rcases hbuilds k hpos hset with hbuilds | ⟨c, hc, hk⟩
      · exact ⟨s, hs, n, hbuilds⟩
      · exact hcall c hc hk
  · obtain ⟨d, hd, rfl⟩ := hu.registered x c hc
    obtain ⟨type, id', htype, hmembers, -⟩ := hu.classes d hd
    obtain rfl : type = c := Option.some.inj (htype.symm.trans hc)
    obtain rfl : id' = id := Option.some.inj (hmembers.scope.symm.trans hid)
    obtain ⟨sc, hsc, hkind, -, howner⟩ := hmembers.isMembers
    have hwords : t.scopes.frameSize id' = .ok sc.slots :=
      ScopeTree.frameSize_eq hsc (by rw [howner]; exact hsc)
    exact ⟨sc.slots, hwords, classStorage hu.laid hc hid (hkind ▸ ScopeTree.kind_eq hsc) hwords⟩
  · obtain ⟨s, hs, hpos⟩ := hchain.covers (Nat.zero_le k) (Slots.lt_of_get? hk.choose_spec)
    obtain ⟨n, -, hcode⟩ := hframes s hs
    exact mem_addresses_of_contained (hcode k hpos) hk ha
  · obtain ⟨_, -, hlayout⟩ := generate_layout hg
    exact StaticLayout.mem_addresses_of_place hlayout
  · exact g.layout.addresses_nodup

theorem counterUnit_contained : ∃ t g, counterUnit.check = .ok t ∧
    (counterUnit.nodes.map (·.id)).Nodup ∧
    generate counterUnit t {} = .ok g ∧ ∃ segments,
    StorageContained counterUnit t (startEnv counterUnit t {} g.layout) g.program segments := by
  obtain ⟨t, g, ht, hg⟩ := counterUnit_generated
  exact ⟨t, g, ht, counterUnit_nodup, hg, generate_contained ht counterUnit_nodup hg⟩

end

end Code

end Awl
