import Mathlib.Order.Interval.Set.Basic
import Awl.Proofs.Routines

/-!
# Segments of a program

A generated program splits into segments: the dispatcher with the main code, and one segment for
each routine. Control leaves a segment only in three ways: by a call, by a return, and from the
dispatcher to a thread. Main result: `generate_segmented`, about the program whose labels are
resolved.

`Tame env P T i` says what the instruction at a position may refer to: positions in `T`, or the
routine that a call goes to.
-/

namespace Awl

open Machine

variable {l : LabelId} {i j : Nat} {α β : Type}

/-- An operand that refers to no position of the program. -/
def Machine.Operand.Closed : Operand → Prop
  | .immediate (.label _) | .target (.label _) | .target (.absolute _) => False
  | _ => True

/-- An instruction that refers to no position of the program. -/
def Machine.Ins.Closed (x : Ins) : Prop := ∀ o ∈ x.2, o.Closed

/-- The frame of every function has a size. -/
def Tables.Framed (t : Tables) : Prop := ∀ f fn, t.function? f = some fn →
  ∃ scope n, fn.scope = some scope ∧ t.scopes.frameSize scope = .ok n

namespace Code

/-! ## Instructions and their labels -/

/-- What an instruction may refer to: positions in `T`, or the routine that a call goes to. -/
inductive Tame (env : Env) (P : Program) (T : Set Nat) (i : Nat) : Prop
  | closed {x : Ins} : P.Has i x.1 x.2 → x.Closed → Tame env P T i
  | constant {l : LabelId} {r : Register} : P.Has i .const [.immediate (.label l), .register r] →
      P.Leads l T → Tame env P T i
  | branch {l : LabelId} {r : Register} : P.Has i .branch [.register r, .target (.label l)] →
      P.Leads l T → Tame env P T i
  | jump {l : LabelId} : P.Has i .jump [.target (.label l)] → P.Leads l T → Tame env P T i
  | call (s : CallSite) : s.At env P → s.jump = i → s.anchor ∈ T → Tame env P T i

variable {T' : Set Nat}

section
variable {env : Env} {P : Program} {T : Set Nat} {i j k : Nat}

theorem Tame.mono (h : Tame env P T i) (hT : T ⊆ T') : Tame env P T' i := by
  cases h with
  | closed h hx => exact .closed h hx
  | constant h hl => exact .constant h (hl.mono hT)
  | branch h hl => exact .branch h (hl.mono hT)
  | jump h hl => exact .jump h (hl.mono hT)
  | call s h hi ha => exact .call s h hi (hT ha)

theorem Tame.ofCode {code : List Ins} (h : P.HasAll i code) (hx : ∀ x ∈ code, x.Closed) (hi : i ≤ k)
    (hk : k < i + code.length) : Tame env P T k := by
  obtain ⟨x, hmem, hhas⟩ := has_of_hasAll h hi hk
  exact .closed hhas (hx x hmem)

theorem Quiet.closed {keep : List Register} {x : Ins} (h : Quiet keep x) : x.Closed := by
  cases h <;> simp [Ins.Closed, Operand.Closed]

theorem push_closed (r : Register) : (Ins.push r).Closed := by simp [Ins.Closed, Operand.Closed]

theorem returnCode_closed (r : Register) (result : Option Register) :
    ∀ x ∈ returnCode r result, x.Closed := by
  cases result <;> simp [returnCode, Ins.Closed, Operand.Closed]

theorem leaveCode_closed (saved : List Register) (size : Nat) (result : Register) :
    ∀ x ∈ leaveCode saved size result, x.Closed := by
  simp only [leaveCode, List.cons_append, List.mem_cons, List.mem_append, List.mem_map,
    List.mem_reverse, List.not_mem_nil, or_false]
  rintro x (rfl | ⟨r, -, rfl⟩ | rfl | rfl | rfl | rfl | rfl | rfl) <;> simp [Ins.Closed,
    Operand.Closed]

theorem enterCode_eq (saved : List Register) (entry returnLabel : LabelId) : enterCode saved entry
      returnLabel = ([.push .arp, .constLabel returnLabel .arp, .push .arp, .push .zero] ++
      saved.map .push ++ [.const (saved.length + 2) .arp, .compute .add .sp .arp .arp]) ++
      [.jump (.label entry)] := by simp [enterCode]

/-- The instructions before the jump of a call refer to nothing but the return address. -/
theorem enter_tame {saved : List Register} {entry returnLabel : LabelId}
    (h : P.HasAll i (enterCode saved entry returnLabel)) (hl : P.Leads returnLabel T) (hi : i ≤ k)
    (hk : k < i + saved.length + 6) : Tame env P T k := by
  rw [enterCode_eq, Program.HasAll.append] at h
  obtain ⟨x, hx, hhas⟩ := has_of_hasAll h.1 hi (by simp; omega)
  simp only [List.mem_append, List.mem_cons, List.mem_map, List.not_mem_nil, or_false] at hx
  rcases hx with ((rfl | rfl | rfl | rfl) | ⟨r, -, rfl⟩) | rfl | rfl
  · exact .closed hhas (push_closed _)
  · exact .constant hhas hl
  all_goals exact .closed hhas (by simp [Ins.Closed, Operand.Closed])

end

/-! ## The parts of expressions -/

/-- What stands at position `k` of the code of an expression between `i` and `j`: an instruction
that calls have no part in, one that pushes an argument or a zero, or one of a call behind its
arguments. -/
inductive Flow.Part (env : Env) (P : Program) (i j k : Nat) : Prop
  | quiet {keep : List Register} {x : Ins} : P.Has k x.1 x.2 → Quiet keep x → Part env P i j k
  | push {r : Register} : P.Has k .push [.register r] → Part env P i j k
  | call (c : CallSite) : c.Full env P → i ≤ c.enter → c.last ≤ j → c.enter ≤ k → k < c.last →
      Part env P i j k

section
variable {env : Env} {P : Program} {i j k : Nat}

theorem Flow.Part.mono {i' j' : Nat} (h : Flow.Part env P i j k) (hi : i' ≤ i) (hj : j ≤ j') :
    Flow.Part env P i' j' k := by
  cases h with
  | quiet hx hq => exact .quiet hx hq
  | push h => exact .push h
  | call c hc hi' hj' hge hlt =>
    exact .call c hc (Nat.le_trans hi hi') (Nat.le_trans hj' hj) hge hlt

mutual

theorem Flow.part {keep : List Register} {i j : Nat} :
    Flow env P keep i j → ∀ k ∈ Set.Ico i j, Flow.Part env P i j k
  | .nil, _, hk => absurd (Nat.lt_of_le_of_lt hk.1 hk.2) (Nat.lt_irrefl _)
  | .quiet hx hq h, k, hk => by
    rcases Nat.eq_or_lt_of_le hk.1 with rfl | hlt
    · exact .quiet hx hq
    · exact (h.part k ⟨hlt, hk.2⟩).mono (Nat.le_succ _) (Nat.le_refl _)
  | .call s hi hs _ hp h, k, hk => by
    have hp' := hp.le
    have h' := h.le
    have hlast : s.last = s.enter + s.saved.length + 7 + s.saved.length + 7 := rfl
    rcases Nat.lt_or_ge k (i + s.rest) with hlt | hge
    · obtain ⟨x, hx, hhas⟩ := has_of_hasAll (hi ▸ hs.zeros) hk.1 (by rwa [List.length_replicate])
      rw [List.eq_of_mem_replicate hx] at hhas
      exact .push hhas
    rcases Nat.lt_or_ge k s.enter with hlt | hge
    · exact (hp.part k ⟨hge, hlt⟩).mono (by omega) (by omega)
    rcases Nat.lt_or_ge k s.last with hlt | hge
    · exact .call s ⟨hs, hi ▸ hp⟩ (by omega) h' hge hlt
    · exact (h.part k ⟨hge, hk.2⟩).mono (by omega) (Nat.le_refl _)

theorem Pushes.part {saved : List Register} : ∀ {as : List Argument} {i j : Nat},
    Pushes env P saved as i j →
    ∀ k ∈ Set.Ico i j, Flow.Part env P i j k
  | _, _, _, .nil, _, hk => absurd (Nat.lt_of_le_of_lt hk.1 hk.2) (Nat.lt_irrefl _)
  | a :: _, i, _, .cons hp _ hf hpush, k, hk => by
    have hp' := hp.le
    have hf' := hf.le
    rcases Nat.lt_or_ge k a.first with hlt | hge
    · exact (hp.part k ⟨hk.1, hlt⟩).mono (Nat.le_refl _) (by omega)
    rcases Nat.lt_or_ge k a.last with hlt | hge
    · exact (hf.part k ⟨hge, hlt⟩).mono hp' (by omega)
    · obtain rfl : k = a.last := Nat.le_antisymm (Nat.le_of_lt_succ hk.2) hge
      exact .push hpush

end

/-- The code of an expression refers to positions inside it, calls aside. -/
theorem Flow.tame {keep : List Register} {T : Set Nat} (h : Flow env P keep i j)
    (hT : Set.Ico i j ⊆ T) (k : Nat) (hk : k ∈ Set.Ico i j) : Tame env P T k := by
  cases h.part k hk with
  | quiet hx hq => exact .closed hx hq.closed
  | push hpush => exact .closed hpush (push_closed _)
  | call s hs hi hj hge hlt =>
    have hlast : s.last = s.anchor + s.saved.length + 7 := rfl
    have hanchor : s.anchor = s.jump + 1 := rfl
    have hjump : s.jump = s.enter + s.saved.length + 6 := rfl
    have hmem : s.anchor ∈ T := hT ⟨by omega, by omega⟩
    -- The frame, the jump and what follows it.
    rcases Nat.lt_trichotomy k s.jump with hlt' | rfl | hgt
    · exact enter_tame hs.site.enters ⟨s.anchor, hmem, hs.site.returns⟩ hge hlt'
    · exact .call s hs.site rfl hmem
    · exact .ofCode hs.site.leaves (leaveCode_closed _ _ _) hgt (by rw [length_leaveCode]; omega)

end

section
variable {env : Env} {P : Program} {slots : Nat} {T : Set Nat} {i j : Nat}

theorem Chunk.tame (h : Chunk env P slots T i j) (hT : T ⊆ T') (hij : Set.Ico i j ⊆ T') :
    ∀ k ∈ Set.Ico i j, Tame env P T' k := by
  intro k hk
  cases h with
  | flow h => exact h.tame hij k hk
  | store h _ _ => exact .ofCode h (by simp [Place.storeCode, Ins.Closed, Operand.Closed]) hk.1 hk.2
  | branch h hl ht =>
    obtain rfl : k = i := Nat.le_antisymm (Nat.le_of_lt_succ hk.2) hk.1
    exact .branch h ⟨_, hT ht, hl⟩
  | jump h hl ht =>
    obtain rfl : k = i := Nat.le_antisymm (Nat.le_of_lt_succ hk.2) hk.1
    exact .jump h ⟨_, hT ht, hl⟩
  | back h _ => exact .ofCode h (returnCode_closed _ _) hk.1 hk.2

theorem Tiled.tame (h : Tiled env P slots T i j) (hT : T ⊆ T') (hij : Set.Ico i j ⊆ T') :
    ∀ k ∈ Set.Ico i j, Tame env P T' k := by
  induction h with
  | nil => exact fun k hk => absurd (Nat.lt_of_le_of_lt hk.1 hk.2) (Nat.lt_irrefl _)
  | @cons a b c hc ht ih =>
    intro k hk
    have hab := hc.le
    have hbc := ht.le
    rcases Nat.lt_or_ge k b with hlt | hge
    · exact hc.tame hT (fun t ht => hij ⟨ht.1, Nat.lt_of_lt_of_le ht.2 hbc⟩) k ⟨hk.1, hlt⟩
    · exact ih (fun t ht => hij ⟨Nat.le_trans hab ht.1, ht.2⟩) k ⟨hge, hk.2⟩

/-- Sealed code refers to positions inside it, calls aside. -/
theorem Sealed.tame {B : Set Nat} (h : Sealed env P slots ∅ B i j) :
    ∀ k ∈ Set.Ico i j, Tame env P (Set.Ico i j) k := by
  refine h.tiled.tame ?_ (Set.Subset.refl _)
  rintro t (ht | ht)
  · exact ⟨(h.inside t ht).1, (h.inside t ht).2.1⟩
  · exact ht.elim

end

/-! ## Cores and routines -/

section
variable {env : Env} {P : Program} {slots first last : Nat} {body : FunctionBody} {r : Routine}

theorem root_tame {code : Emit Unit}
    (hcode : ∀ {i j}, Emit.Placed env P code [] i () j → ∃ B, Sealed env P slots ∅ B i j)
    (h : Emit.RootAt env P slots code first last) :
    (∀ k ∈ Set.Ico first last, Tame env P (Set.Ico first last) k) ∧ Stops P first last := by
  obtain ⟨exit, i, hroot, hplaced, hend, hexit, rfl⟩ := h.parts
  obtain ⟨B, hB⟩ := hcode hplaced
  have hle := hB.tiled.le
  refine ⟨fun k hk => ?_, i, by omega, rfl, .inl hend⟩
  rcases Nat.lt_or_ge k (first + slots + 6) with hlt | hge
  · obtain ⟨x, hx, hhas⟩ := has_of_hasAll hroot hk.1 (by rw [Emit.length_rootCode]; omega)
    simp only [Emit.rootCode, List.mem_append, List.mem_cons, List.not_mem_nil, or_false] at hx
    rcases hx with hx | rfl | rfl | rfl | rfl | rfl | rfl
    · rw [List.eq_of_mem_replicate hx] at hhas
      exact .closed hhas (push_closed _)
    · exact .closed hhas (push_closed _)
    · exact .constant hhas ⟨i, ⟨by omega, Nat.lt_succ_self i⟩, hexit⟩
    all_goals exact .closed hhas (by simp [Ins.Closed, Operand.Closed])
  rcases Nat.lt_or_ge k i with hlt | hge'
  · exact (hB.tame k ⟨hge, hlt⟩).mono (Set.Ico_subset_Ico (by omega) (Nat.le_succ i))
  · obtain rfl : k = i := Nat.le_antisymm (Nat.le_of_lt_succ hk.2) hge'
    exact .closed (x := (.endProg, [])) hend (by simp [Ins.Closed])

theorem threadBody_sealed {ctx : Context} (hroom : Room env P slots ∅ ctx)
    (hbody : body.Ready env.tables ctx.function)
    (h : Emit.Placed env P (Emit.threadBody ctx body) [] i () j) :
    ∃ B, Sealed env P slots ∅ B i j := by
  cases body with
  | block b => exact Emit.stmts_seals b.statements hroom hbody (Set.Subset.refl _) h
  | expression e =>
    have hp : Emit.Placed env P (Emit.stmt ctx (.expression 0 e)) [] i () j := by
      simpa only [Emit.stmt, Emit.threadBody] using h
    have he : Expr.Ready env.tables ctx.function e := hbody
    obtain ⟨r, hp⟩ := hp.expression
    exact ⟨_, .flow (hp.flow hroom.methods he)⟩

theorem thread_tame {index : Nat} {f : FunctionId} (ht : env.tables.MethodsRun)
    (hlaid : env.tables.scopes.Laid) (hready : Routine.Ready env.tables (.thread index f body))
    (h : Emit.Placed env P (Emit.thread index f body) [] first () last) :
    (∀ k ∈ Set.Ico first last, Tame env P (Set.Ico first last) k) ∧ Stops P first last := by
  obtain ⟨fn, scope, hfn, hscope, hbody⟩ := hready
  obtain ⟨fn', scope', l, r, size, hfn', hscope', hsize, hl, hfirst, hcode, hroot⟩ := h.thread
  obtain rfl := Option.mem_unique hfn' hfn
  obtain rfl := Option.mem_unique hscope' hscope
  have hroom : Room env P size ∅ { function := some scope' } := ⟨ht, hlaid, hsize, nofun⟩
  obtain ⟨htame, hstops⟩ := root_tame (threadBody_sealed hroom hbody) hroot
  refine ⟨fun k hk => ?_, hstops.mono (Nat.le_add_right ..)⟩
  rcases Nat.lt_or_ge k (first + 4) with hlt | hge
  · obtain ⟨x, hx, hhas⟩ := has_of_hasAll hcode hk.1 hlt
    simp only [List.mem_cons, List.not_mem_nil, or_false] at hx
    rcases hx with rfl | rfl | rfl | rfl
    rotate_left 3
    · exact .branch hhas ⟨first, ⟨Nat.le_refl _, Nat.lt_of_le_of_lt hk.1 hk.2⟩, hfirst⟩
    all_goals exact .closed hhas (by simp [Ins.Closed, Operand.Closed])
  · exact (htame k ⟨hge, hk.2⟩).mono (Set.Ico_subset_Ico (Nat.le_add_right ..) (Nat.le_refl _))

/-- A routine refers to positions inside it, calls aside, and control does not go on with what
follows. -/
theorem Routine.tame (ht : env.tables.MethodsRun) (hlaid : env.tables.scopes.Laid)
    (hframes : env.tables.Framed) (hready : r.Ready env.tables)
    (h : Emit.Placed env P r.code [] first () last) :
    (∀ k ∈ Set.Ico first last, Tame env P (Set.Ico first last) k) ∧ Stops P first last := by
  have hcalled : ∀ {n}, r.Frame env.tables n →
      (∀ k ∈ Set.Ico first last, Tame env P (Set.Ico first last) k) ∧ Stops P first last :=
      fun hframe => by
    obtain ⟨⟨B, hB⟩, hstops⟩ := Routine.sealed ht hlaid hready hframe h
    exact ⟨hB.tame, hstops⟩
  cases r with
  | function f body =>
    obtain ⟨fn, scope, hfn, hscope, -⟩ := hready
    obtain ⟨scope', n, hscope', hsize⟩ := hframes f fn hfn
    exact hcalled ⟨fn, scope', hfn, hscope', hsize⟩
  | initializer c label => exact hcalled rfl
  | allocator => exact hcalled rfl
  | thread index f body => exact thread_tame ht hlaid hready h

theorem Routine.entry_at (ht : env.tables.MethodsRun) (hready : r.Ready env.tables)
    (hl : r.label? env = some l) (h : Emit.Placed env P r.code [] first () last) :
    P.target? l = some first := by
  cases r with
  | function f body =>
    obtain ⟨_, _, l', _, _, hl', hfirst, _⟩ := Emit.Placed.function h
    exact Option.some.inj (hl'.symm.trans hl) ▸ hfirst
  | initializer c label =>
    obtain ⟨_, _, _, _, hfields⟩ := hready
    exact Option.some.inj hl ▸ (Emit.Placed.initializerRoutine ht hfields h).1
  | allocator =>
    obtain ⟨_, _, _, _, _, _, _, _, hfirst, _⟩ := Emit.Placed.allocatorRoutine h
    exact Option.some.inj hl ▸ hfirst
  | thread index f body =>
    obtain ⟨_, _, l', _, _, _, _, _, hl', hfirst, _⟩ := Emit.Placed.thread h
    exact Option.some.inj (hl'.symm.trans hl) ▸ hfirst

/-- The dispatcher takes three instructions for each thread, and its branches lead to threads. -/
theorem dispatch_tame {index first last : Nat} : ∀ (fs : List FunctionId),
    Emit.Placed env P (Emit.dispatch index fs) [] first () last → last = first + 3 * fs.length ∧
      ∀ k ∈ Set.Ico first last, Tame env P ∅ k ∨ ∃ f ∈ fs, ∃ l r, env.entries.get? f = some l ∧
        P.Has k .branch [.register r, .target (.label l)]
  | [], h => by
    obtain rfl := h.dispatch_nil
    exact ⟨rfl, fun k hk => absurd (Nat.lt_of_le_of_lt hk.1 hk.2) (Nat.lt_irrefl _)⟩
  | f :: fs, h => by
    obtain ⟨l, r, hl, hcode, hrest⟩ := h.dispatch_cons
    obtain ⟨hlast, ih⟩ := dispatch_tame fs hrest
    refine ⟨by rw [List.length_cons]; omega, fun k hk => ?_⟩
    rcases Nat.lt_or_ge k (first + 3) with hlt | hge
    · obtain ⟨x, hx, hhas⟩ := has_of_hasAll hcode hk.1 hlt
      simp only [List.mem_cons, List.not_mem_nil, or_false] at hx
      rcases hx with rfl | rfl | rfl
      · exact .inl (.closed hhas (by simp [Ins.Closed, Operand.Closed]))
      · exact .inl (.closed hhas (by simp [Ins.Closed, Operand.Closed]))
      · exact .inr ⟨f, .head _, l, r, hl, hhas⟩
    · rcases ih k ⟨hge, hk.2⟩ with htame | ⟨f', hf', hrest⟩
      · exact .inl htame
      · exact .inr ⟨f', .tail _ hf', hrest⟩

end

/-! ## Segments -/

/-- What a segment of a program is for. -/
inductive SegmentKind where
  /-- The dispatcher and the code of core 0. -/
  | main
  | function (f : FunctionId)
  /-- The routine that initializes the fields of a class. -/
  | initializer (className : String)
  | allocator
  | thread (f : FunctionId)
  deriving DecidableEq

/-- Whether a segment is entered by calls. -/
def SegmentKind.isCallable : SegmentKind → Bool
  | .function _ | .initializer _ | .allocator => true
  | .main | .thread _ => false

structure Segment where
  kind : SegmentKind
  first : Nat
  last : Nat

/-- The positions of a segment. -/
def Segment.positions (s : Segment) : Set Nat := Set.Ico s.first s.last

/-- Segments that follow one another, none of them empty. -/
inductive Segment.Chain : Nat → List Segment → Nat → Prop
  | nil {i : Nat} : Chain i [] i
  | cons {s : Segment} {ss : List Segment} {j : Nat} : s.first < s.last → Chain s.last ss j →
      Chain s.first (s :: ss) j

/-- The segments of a unit: the main one, one for each function, method and constructor that is not
a thread, one for each class with initial values of fields, the allocator, and one for each
thread. -/
def unitSegments (u : SourceUnit) (t : Tables) : List SegmentKind :=
  .main :: ((List.range t.functions.functions.size).filter fun f =>
    !t.functions.threads.contains f).map .function ++
    (u.classes.filter hasInitializers).map (fun c => .initializer c.name) ++
    .allocator :: t.functions.threads.map .thread

def Routine.kind : Routine → SegmentKind
  | .function f _ => .function f
  | .initializer c _ => .initializer c.name
  | .allocator => .allocator
  | .thread _ f _ => .thread f

section
variable {u : SourceUnit} {t : Tables} (hu : u.Sound t) (options : Options) (layout : StaticLayout)
include hu

theorem hasInitializers_iff {c : ClassDef} (hc : c ∈ u.classes) :
    ((startEnv u t options layout).initializers.lookup c.name).isSome = hasInitializers c := by
  rw [Bool.eq_iff_iff]
  constructor
  · intro h
    obtain ⟨l, hl⟩ := Option.isSome_iff_exists.1 h
    obtain ⟨i, hi, -⟩ := startEnv_initializer options layout hl
    obtain ⟨c', hc', hname⟩ := List.mem_map.1 (List.mem_of_getElem? hi)
    obtain ⟨hc', hinit⟩ := List.mem_filter.1 (List.mem_filter.1 hc').1
    obtain rfl : c' = c := List.inj_on_of_nodup_map hu.classNames hc' hc hname
    exact hinit
  · intro h
    obtain ⟨type, _, htype, _⟩ := hu.classes c hc
    have hmem : c.name ∈ initializedClasses u t := List.mem_map.2 ⟨c, List.mem_filter.2
      ⟨List.mem_filter.2 ⟨hc, h⟩, by rw [htype]; rfl⟩, rfl⟩
    obtain ⟨i, hi⟩ := List.mem_iff_getElem?.1 hmem
    have hzip : (c.name, t.functions.functions.size + 1 * i) ∈
      (startEnv u t options layout).initializers :=
      List.mem_reverse.2 (List.mem_of_getElem? (List.getElem?_zip_eq_some.2
        ⟨hi, List.getElem?_range' (List.getElem?_eq_some_iff.1 hi).1⟩))
    cases hl : (startEnv u t options layout).initializers.lookup c.name with
    | some l => rfl
    | none => simpa using List.lookup_eq_none_iff.1 hl _ hzip

theorem routines_kinds :
    SegmentKind.main :: ((startEnv u t options layout).routines u).map Routine.kind =
    unitSegments u t := by
  have hfunctions : (((definitions t.functions u).filter fun p =>
      !t.functions.threads.contains p.1).map
      fun p => Routine.function p.1 p.2).map Routine.kind =
      ((List.range t.functions.functions.size).filter fun f => !t.functions.threads.contains f).map
      .function := by
    have hids : (definitions t.functions u).map (·.1) = List.range t.functions.functions.size := by
      rw [definitions_eq hu, List.map_map, functions_size hu, List.range_eq_range']
      exact List.zipIdx_map_snd ..
    rw [← hids, List.filter_map, List.map_map, List.map_map]
    rfl
  have hclasses : ((u.classes.filterMap fun c => ((startEnv u t options layout).initializers.lookup
      c.name).map (.initializer c)).map Routine.kind) =
      (u.classes.filter hasInitializers).map (fun c => .initializer c.name) := by
    have hall : ∀ cs : List ClassDef, (∀ c ∈ cs, c ∈ u.classes) → ((cs.filterMap fun c =>
        ((startEnv u t options layout).initializers.lookup c.name).map (.initializer c)).map
        Routine.kind) =
        (cs.filter hasInitializers).map (fun c => .initializer c.name) := fun cs => by
      induction cs with
      | nil => exact fun _ => rfl
      | cons c cs ih =>
        intro hcs
        have hc := hasInitializers_iff hu options layout (hcs c (.head _))
        have ih := ih fun c hc => hcs c (.tail _ hc)
        cases hl : (startEnv u t options layout).initializers.lookup c.name with
        | none =>
          rw [hl] at hc
          rw [List.filterMap_cons, hl, List.filter_cons, ← hc]
          exact ih
        | some l =>
          rw [hl] at hc
          rw [List.filterMap_cons, hl, List.filter_cons, ← hc]
          exact congrArg (SegmentKind.initializer c.name :: ·) ih
    exact hall u.classes fun _ h => h
  have hthreads : (((startEnv u t options layout).threadBodies u).zipIdx.map fun p =>
      Routine.thread p.2 p.1.1 p.1.2).map Routine.kind = t.functions.threads.map .thread := by
    have hbodies : ((startEnv u t options layout).threadBodies u).map (·.1) =
        t.functions.threads := by
      have hall : ∀ fs : List FunctionId, (∀ f ∈ fs, f ∈ t.functions.threads) →
          (fs.filterMap fun f =>
          ((definitions t.functions u).lookup f).map (f, ·)).map (·.1) = fs := fun fs => by
        induction fs with
        | nil => exact fun _ => rfl
        | cons f fs ih =>
          intro hfs
          obtain ⟨body, hbody⟩ := mem_threads hu (hfs f (.head _))
          cases hl : (definitions t.functions u).lookup f with
          | none => simpa using List.lookup_eq_none_iff.1 hl _ hbody
          | some b =>
            rw [List.filterMap_cons, hl]
            exact congrArg (f :: ·) (ih fun f hf => hfs f (.tail _ hf))
      exact hall t.functions.threads fun _ h => h
    rw [← hbodies, List.map_map, List.map_map]
    conv_rhs => rw [← List.zipIdx_map_fst 0 ((startEnv u t options layout).threadBodies u),
      List.map_map]
    rfl
  rw [Env.routines, List.map_append, List.map_append, List.map_cons, hclasses, hthreads]
  exact congrArg (fun l => SegmentKind.main :: (l ++ _ ++ _)) hfunctions

end

/-! ## Labels that are resolved -/

variable {l' : List β} {ε : Type}

theorem mapM_eq_ok_iff {f : α → Except ε β} {l : List α} :
    l.mapM f = .ok l' ↔ List.Forall₂ (fun a b => f a = .ok b) l l' := by
  induction l generalizing l' with
  | nil => simp [except_pure_eq_ok]
  | cons a l ih =>
    rw [List.mapM_cons, except_bind_eq_ok, List.forall₂_cons_left_iff]
    constructor
    · rintro ⟨b, hb, h⟩
      obtain ⟨bs, hbs, h⟩ := except_bind_eq_ok.1 h
      exact ⟨b, bs, hb, ih.1 hbs, except_pure_eq_ok.1 h⟩
    · rintro ⟨b, bs, hb, hbs, rfl⟩
      exact ⟨b, hb, except_bind_eq_ok.2 ⟨bs, ih.2 hbs, rfl⟩⟩

variable {R : α → β → Prop} {a : α}

theorem forall₂_getElem? {l : List α} (h : List.Forall₂ R l l')
    (hi : l[i]? = some a) : ∃ b, l'[i]? = some b ∧ R a b := by
  induction h generalizing i with
  | nil => cases hi
  | @cons a' b _ _ hab _ ih =>
    cases i with
    | zero =>
      cases hi
      exact ⟨b, rfl, hab⟩
    | succ i => exact ih hi

theorem forall₂_mem_left {l : List α} (h : List.Forall₂ R l l') (ha : a ∈ l) : ∃ b ∈ l', R a b := by
  obtain ⟨i, hi⟩ := List.mem_iff_getElem?.1 ha
  obtain ⟨b, hb, hab⟩ := forall₂_getElem? h hi
  exact ⟨b, List.mem_of_getElem? hb, hab⟩

theorem forall₂_mem_right {l : List α} (h : List.Forall₂ R l l') {b : β} (hb : b ∈ l') :
    ∃ a ∈ l, R a b :=
  forall₂_mem_left h.flip hb

theorem mapM_total {f : α → Except ε β} {l : List α} (h : ∀ a ∈ l, ∃ b, f a = .ok b) :
    ∃ l', l.mapM f = .ok l' := by
  induction l with
  | nil => exact ⟨[], rfl⟩
  | cons a l ih =>
    obtain ⟨b, hb⟩ := h a (.head _)
    obtain ⟨bs, hbs⟩ := ih fun a ha => h a (.tail _ ha)
    exact ⟨b :: bs, mapM_eq_ok_iff.2 (.cons hb (mapM_eq_ok_iff.1 hbs))⟩

section
variable {P : Program} {r : ResolvedProgram} {i : Nat}

theorem position_eq_ok_iff {t : InstructionId} : P.position l = .ok t ↔ P.target? l = some t := by
  unfold Program.position Program.label Program.target?
  cases hl : P.labels.get? l with
  | none =>
    rw [show P.labels.fetch l = .error .outOfRange by simp only [Slots.fetch, hl]]
    constructor <;> intro h <;> cases h
  | some entry =>
    rw [Slots.fetch_eq_ok_iff.2 hl]
    obtain ⟨name, target⟩ := entry
    cases target with
    | none => constructor <;> intro h <;> cases h
    | some t' =>
      exact ⟨fun h => congrArg some (Except.ok.inj h), fun h =>
        congrArg Except.ok (Option.some.inj h)⟩

/-- An instruction of a resolved program. -/
theorem resolved_at {opcode : OpCode} {operands : List Operand} (h : P.resolve = .ok r)
    (hi : P.Has i opcode operands) : ∃ ins, r.instructions[i]? = some ins ∧ ins.opcode = opcode ∧
      List.Forall₂ (fun o o' => P.resolveOperand o = .ok o') operands ins.operands := by
  obtain ⟨comment, hi⟩ := hi
  obtain ⟨instructions, hall, h⟩ := except_bind_eq_ok.1 h
  obtain rfl := except_pure_eq_ok.1 h
  have hget : P.instructions.toList[i]? = some { opcode, operands, comment } :=
    Array.getElem?_toList.trans hi
  obtain ⟨ins, hins, hres⟩ := forall₂_getElem? (mapM_eq_ok_iff.1 hall) hget
  obtain ⟨ops, hops, hres⟩ := except_bind_eq_ok.1 hres
  obtain rfl := except_pure_eq_ok.1 hres
  exact ⟨_, hins, rfl, mapM_eq_ok_iff.1 hops⟩

/-- A program is resolved if the labels of all its operands are bound. -/
theorem resolve_total
    (h : ∀ i < P.size, ∃ opcode operands, P.Has i opcode operands ∧ ∀ o ∈ operands, ∃ o',
      P.resolveOperand o = .ok o') : ∃ r, P.resolve = .ok r ∧ r.instructions.length = P.size := by
  obtain ⟨instructions, hall⟩ := mapM_total (f := P.resolveInstruction) fun ins hins => by
    obtain ⟨i, hi⟩ := List.mem_iff_getElem?.1 hins
    have hget : P.instructions.get? i = some ins := Array.getElem?_toList.symm.trans hi
    obtain ⟨opcode, operands, ⟨comment, hhas⟩, hops⟩ := h i (Slots.lt_of_get? hget)
    obtain rfl := Option.mem_unique hhas hget
    obtain ⟨ops, hops⟩ := mapM_total hops
    exact ⟨_, except_bind_eq_ok.2 ⟨ops, hops, rfl⟩⟩
  refine ⟨_, except_bind_eq_ok.2 ⟨instructions, hall, rfl⟩, ?_⟩
  exact (mapM_eq_ok_iff.1 hall).length_eq.symm.trans Array.length_toList

theorem positionValue_of_lt {t : Nat} (h : t < 2147483648) : Program.positionValue t = t :=
  Int.bmod_eq_of_le (by omega) (by omega)

end

/-- An operand that refers to a position in `T`, or as a target to a position in `E`. -/
inductive Settled (P : Program) (T E : Set Nat) : Operand → Prop
  | closed {o : Operand} : o.Closed → Settled P T E o
  | immediate {l : LabelId} : P.Leads l T → Settled P T E (.immediate (.label l))
  | target {l : LabelId} : P.Leads l (T ∪ E) → Settled P T E (.target (.label l))

section
variable {P : Program} {T E : Set Nat} {o : Operand}

theorem resolveOperand_of_closed (h : o.Closed) : P.resolveOperand o = .ok o := by
  cases o with
  | immediate i =>
    cases i with
    | value v => rfl
    | label l => exact h.elim
  | target t =>
    cases t with
    | label l => exact h.elim
    | absolute p => exact h.elim
    | indirect r => rfl
  | register r => rfl
  | address a => rfl
  | operator op => rfl

@[simp]
theorem Settled.register (r : Register) : Settled P T E (.register r) := .closed trivial

theorem Settled.resolves (h : Settled P T E o) : ∃ o', P.resolveOperand o = .ok o' := by
  cases h with
  | closed h => exact ⟨o, resolveOperand_of_closed h⟩
  | immediate h =>
    obtain ⟨t, -, ht⟩ := h
    exact ⟨_, except_bind_eq_ok.2 ⟨t, position_eq_ok_iff.2 ht, rfl⟩⟩
  | target h =>
    obtain ⟨t, -, ht⟩ := h
    exact ⟨_, except_bind_eq_ok.2 ⟨t, position_eq_ok_iff.2 ht, rfl⟩⟩

theorem Settled.target_mem {p : Nat} (h : Settled P T E o)
    (hp : P.resolveOperand o = .ok (.target (.absolute p))) : p ∈ T ∪ E := by
  cases h with
  | closed h =>
    cases (resolveOperand_of_closed h).symm.trans hp
    exact h.elim
  | immediate h =>
    obtain ⟨t', -, hp⟩ := except_bind_eq_ok.1 hp
    cases hp
  | target h =>
    obtain ⟨t, hmem, ht⟩ := h
    obtain ⟨t', ht', hp⟩ := except_bind_eq_ok.1 hp
    cases except_pure_eq_ok.1 hp
    obtain rfl := Option.mem_unique ht (position_eq_ok_iff.1 ht')
    exact hmem

theorem Settled.immediate_leads (h : Settled P T E (.immediate (.label l))) : P.Leads l T := by
  cases h with
  | closed h => exact h.elim
  | immediate h => exact h

end

/-! ## The segments of a generated program -/

/-- A segment with the code of a routine. -/
def Segment.Holds (env : Env) (P : Program) (r : Routine) (s : Segment) : Prop :=
  s.kind = r.kind ∧ Emit.Placed env P r.code [] s.first () s.last

/-- Segments with the code of a unit: the dispatcher and the main code, and then its routines. -/
def HoldUnit (u : SourceUnit) (env : Env) (P : Program) : List Segment → Prop
  | [] => False
  | main :: ss =>
    main.kind = .main ∧ (∃ i, Emit.Placed env P (Emit.dispatch 0 env.threads) [] main.first () i ∧
      Emit.Placed env P (Emit.mainCode u.statements) [] i () main.last) ∧
      List.Forall₂ (Segment.Holds env P) (env.routines u) ss

theorem Segment.Holds.kinds {env : Env} {P : Program} {rs : List Routine} {ss : List Segment}
    (h : List.Forall₂ (Segment.Holds env P) rs ss) : ss.map (·.kind) = rs.map Routine.kind := by
  induction h with
  | nil => rfl
  | cons h _ ih => rw [List.map_cons, List.map_cons, h.1, ih]

/-- Where control goes from a position of a segment to another segment: to the start of a callee,
from a jump that is followed by the return anchor of the call, or to the start of a thread, from the
dispatcher. -/
inductive Segment.Exit (env : Env) (P : Program) (segments : List Segment) (s : Segment)
    (i : Nat) : Nat → Prop
  | call {s' : Segment} (c : CallSite) : s' ∈ segments → s'.kind.isCallable = true → c.At env P →
      c.jump = i → P.target? c.returnLabel = some (i + 1) → i + 1 ∈ s.positions →
      Exit env P segments s i s'.first
  | thread {s' : Segment} {f : FunctionId} : s' ∈ segments → s'.kind = .thread f → s.kind = .main →
      i < 3 * env.threads.length → Exit env P segments s i s'.first

/-- What the resolved program of a unit is like. -/
structure Segmented (u : SourceUnit) (t : Tables) (env : Env) (P : Program) (r : ResolvedProgram)
    (segments : List Segment) : Prop where
  kinds : segments.map (·.kind) = unitSegments u t
  code : HoldUnit u env P segments
  /-- The segments cover the program without gaps. -/
  chain : Segment.Chain 0 segments r.instructions.length
  /-- A jump or branch stays in its segment, calls a routine, or sends a core to its thread. -/
  targets : ∀ s ∈ segments, ∀ i ∈ s.positions, ∀ ins, r.instructions[i]? = some ins → ∀ p,
    .target (.absolute p) ∈ ins.operands → p ∈ s.positions ∨ s.Exit env P segments i p
  /-- An immediate that is a label becomes a position of its segment. -/
  immediates : ∀ s ∈ segments, ∀ i ∈ s.positions, ∀ opcode operands ins, P.Has i opcode operands →
    r.instructions[i]? = some ins → ∀ (k : Nat) l,
    operands[k]? = some (Operand.immediate (.label l)) →
    ∃ p ∈ s.positions, P.target? l = some p ∧ ins.operands[k]? =
      some (Operand.immediate (.value (Program.positionValue p))) ∧
      (p < 2147483648 → Program.positionValue p = p)
  /-- Control does not go on with the following segment. -/
  stops : ∀ s ∈ segments, ∃ ins, r.instructions[s.last - 1]? = some ins ∧ (ins.opcode = .endProg ∨
    ins.opcode = .jump ∧ ∃ x, ins.operands = [.target (.indirect x)])

section
variable {env : Env} {P : Program}

theorem routines_segments {rs : List Routine} (ht : env.tables.MethodsRun)
    (hlaid : env.tables.scopes.Laid) (hframes : env.tables.Framed)
    (hready : ∀ r ∈ rs, r.Ready env.tables) (h : Emit.RoutinesAt env P rs i j) :
    ∃ ss, List.Forall₂ (Segment.Holds env P) rs ss ∧ Segment.Chain i ss j := by
  induction h with
  | nil => exact ⟨[], .nil, .nil⟩
  | @cons r rs i j k hr _ ih =>
    obtain ⟨ss, hss, hchain⟩ := ih fun r hr => hready r (.tail _ hr)
    obtain ⟨m, hm, rfl, -⟩ := (Routine.tame ht hlaid hframes (hready r (.head _)) hr).2
    exact ⟨⟨r.kind, i, m + 1⟩ :: ss, .cons ⟨rfl, hr⟩ hss,
      .cons (s := ⟨r.kind, i, m + 1⟩) (Nat.lt_succ_of_le hm) hchain⟩

theorem Segment.Chain.covers {ss : List Segment} {k : Nat} (h : Segment.Chain i ss j) (hi : i ≤ k)
    (hk : k < j) : ∃ s ∈ ss, k ∈ s.positions := by
  induction h with
  | nil => exact absurd hk (Nat.not_lt.2 hi)
  | @cons s ss j _ _ ih =>
    rcases Nat.lt_or_ge k s.last with hlt | hge
    · exact ⟨s, .head _, hi, hlt⟩
    · obtain ⟨s', hs', hmem⟩ := ih hge hk
      exact ⟨s', .tail _ hs', hmem⟩

end

/-- What a segment refers to: positions inside it and callees, or from the dispatcher a thread. -/
def Segment.Tame (env : Env) (P : Program) (s : Segment) : Prop :=
  ∀ k ∈ s.positions, Code.Tame env P s.positions k ∨ (s.kind = .main ∧ k < 3 * env.threads.length ∧
    ∃ f ∈ env.threads, ∃ l r, env.entries.get? f = some l ∧
      P.Has k .branch [.register r, .target (.label l)])

/-- The callees and the threads are segments. -/
structure Entries (env : Env) (P : Program) (segments : List Segment) : Prop where
  callee : ∀ {c : Call} {l : LabelId} {size : Nat}, c.Goes env l size →
    ∃ s ∈ segments, s.kind.isCallable = true ∧ P.target? l = some s.first
  thread : ∀ f ∈ env.threads, ∀ l, env.entries.get? f = some l →
    ∃ s ∈ segments, s.kind = .thread f ∧ P.target? l = some s.first

section
variable {env : Env} {P : Program} {segments : List Segment} {s : Segment} {k : Nat}

theorem CallSite.At.has_jump {c : CallSite} (h : c.At env P) :
    P.Has c.jump .jump [.target (.label c.entry)] := by
  have henters := h.enters
  rw [enterCode_eq, Program.HasAll.append] at henters
  have hjump := henters.2.1
  simpa [CallSite.jump, Nat.add_assoc] using hjump

/-- The operands of an instruction refer to its segment, or to a segment that control may go to. -/
theorem Segment.Tame.settled (hentries : Entries env P segments) (h : s.Tame env P)
    (hk : k ∈ s.positions) :
    ∃ opcode operands, P.Has k opcode operands ∧
      ∀ o ∈ operands, Settled P s.positions {p | s.Exit env P segments k p} o := by
  rcases h k hk with htame | ⟨hmain, hlt, f, hf, l, x, hl, hhas⟩
  · cases htame with
    | closed h hx => exact ⟨_, _, h, fun o ho => .closed (hx o ho)⟩
    | constant h hl => exact ⟨_, _, h, by simp [Settled.immediate hl]⟩
    | branch h hl =>
      have hl := Settled.target (E := {p | s.Exit env P segments k p})
        (hl.mono Set.subset_union_left)
      exact ⟨_, _, h, by simp [hl]⟩
    | jump h hl =>
      have hl := Settled.target (E := {p | s.Exit env P segments k p})
        (hl.mono Set.subset_union_left)
      exact ⟨_, _, h, by simp [hl]⟩
    | call c hc hjump hanchor =>
      obtain ⟨s', hs', hcallable, hentry⟩ := hentries.callee hc.goes
      subst hjump
      have hexit : s.Exit env P segments c.jump s'.first :=
        .call c hs' hcallable hc rfl hc.returns hanchor
      have hl : Settled P s.positions {p | s.Exit env P segments c.jump p}
        (.target (.label c.entry)) :=
        .target ⟨s'.first, .inr hexit, hentry⟩
      exact ⟨_, _, hc.has_jump, by simp [hl]⟩
  · obtain ⟨s', hs', hkind, hentry⟩ := hentries.thread f hf l hl
    have hexit : s.Exit env P segments k s'.first := .thread hs' hkind hmain hlt
    have hl : Settled P s.positions {p | s.Exit env P segments k p} (.target (.label l)) :=
      .target ⟨s'.first, .inr hexit, hentry⟩
    exact ⟨_, _, hhas, by simp [hl]⟩

end

section
variable {u : SourceUnit} {t : Tables} {options : Options} {layout : StaticLayout} {P : Program}

theorem framed_of_sound (hu : u.Sound t) : t.Framed := fun f fn hfn => by
  obtain ⟨scope, n, hscope, hn, -⟩ := (startEnv_fits hu {} ⟨0, 0, 0⟩).frame f fn hfn
  exact ⟨scope, n, hscope, hn⟩

/-- The dispatcher, the main code and the routines of a program. -/
theorem UnitAt.split (hu : u.Sound t) (h : UnitAt u (startEnv u t options layout) P) :
    let env := startEnv u t options layout
    ∃ i j ss, Emit.Placed env P (Emit.dispatch 0 env.threads) [] 0 () i ∧
      Emit.Placed env P (Emit.mainCode u.statements) [] i () j ∧
      List.Forall₂ (Segment.Holds env P) (env.routines u) ss ∧ Segment.Chain j ss P.size := by
  obtain ⟨i, j, hdispatch, hmain, hroutines⟩ := h.parts
  obtain ⟨ss, hss, hchain⟩ := routines_segments (sound_methodsRun hu) hu.laid (framed_of_sound hu)
    (fun r hr => (routines_ready hu options layout hr).1) hroutines
  exact ⟨i, j, ss, hdispatch, hmain, hss, hchain⟩

/-- The code of a unit splits into segments that refer to themselves and to callees. -/
theorem UnitAt.segments (hu : u.Sound t) (h : UnitAt u (startEnv u t options layout) P) :
    ∃ j ss, Segment.Chain 0 (⟨.main, 0, j⟩ :: ss) P.size ∧
      HoldUnit u (startEnv u t options layout) P (⟨.main, 0, j⟩ :: ss) ∧
      ∀ s ∈ (⟨.main, 0, j⟩ : Segment) :: ss, s.Tame (startEnv u t options layout) P ∧
      Stops P s.first s.last := by
  obtain ⟨i, j, ss, hplaced, hmain, hss, hchain⟩ := h.split hu
  have ht := sound_methodsRun hu
  obtain ⟨hi, hdispatch⟩ := dispatch_tame _ hplaced
  obtain ⟨size, hsize, hroot⟩ := hmain.mainCode
  have hroom : Room (startEnv u t options layout) P size ∅ {} := ⟨ht, hu.laid, hsize, nofun⟩
  obtain ⟨hcode, hstops⟩ := root_tame (fun hp =>
    Emit.stmts_seals u.statements hroom hu.main (Set.Subset.refl _) hp) hroot
  obtain ⟨m, hm, hj, -⟩ := id hstops
  refine ⟨j, ss, .cons (s := ⟨.main, 0, j⟩) (show 0 < j by omega) hchain,
    ⟨rfl, ⟨i, hplaced, hmain⟩, hss⟩, fun s hs => ?_⟩
  rcases List.mem_cons.1 hs with rfl | hs
  · refine ⟨fun k hk => ?_, hstops.mono (Nat.zero_le _)⟩
    rcases Nat.lt_or_ge k i with hlt | hge
    · rcases hdispatch k ⟨Nat.zero_le _, hlt⟩ with htame | hthread
      · exact .inl (htame.mono (Set.empty_subset _))
      · exact .inr ⟨rfl, by omega, hthread⟩
    · exact .inl ((hcode k ⟨hge, hk.2⟩).mono (Set.Ico_subset_Ico (Nat.zero_le _) (Nat.le_refl _)))
  · obtain ⟨r, hr, hholds⟩ := forall₂_mem_right hss hs
    obtain ⟨htame, hstops⟩ := Routine.tame ht hu.laid (framed_of_sound hu)
      (routines_ready hu options layout hr).1 hholds.2
    exact ⟨fun k hk => .inl (htame k hk), hstops⟩

theorem HoldUnit.kinds (hu : u.Sound t) : ∀ {segments : List Segment},
    HoldUnit u (startEnv u t options layout) P segments → segments.map (·.kind) = unitSegments u t
  | [], h => h.elim
  | main :: ss, ⟨hmain, _, hss⟩ => by
    rw [List.map_cons, hmain, Segment.Holds.kinds hss]
    exact routines_kinds hu options layout

theorem entries_of_holds (hu : u.Sound t) {segments : List Segment}
    (h : List.Forall₂ (Segment.Holds (startEnv u t options layout) P)
      ((startEnv u t options layout).routines u) segments) :
    Entries (startEnv u t options layout) P segments := by
  have ht := sound_methodsRun hu
  refine ⟨fun hgoes => ?_, fun f hf l hl => ?_⟩
  · obtain ⟨r, hr, hl, hframe⟩ := Call.Goes.routine hu hgoes
    obtain ⟨s, hs, hkind, hcode⟩ := forall₂_mem_left h hr
    refine ⟨s, hs, ?_, Routine.entry_at ht (routines_ready hu options layout hr).1 hl hcode⟩
    rw [hkind]
    cases r with
    | thread => exact hframe.elim
    | _ => rfl
  · have hmem : ∃ index body, .thread index f body ∈ (startEnv u t options layout).routines u :=
      thread_mem_routines hu hf
    obtain ⟨index, body, hr⟩ := hmem
    obtain ⟨s, hs, hkind, hcode⟩ := forall₂_mem_left h hr
    exact ⟨s, hs, hkind, Routine.entry_at (r := .thread index f body) ht
      (routines_ready hu options layout hr).1 hl hcode⟩

/-- The program of an accepted unit resolves, and splits into segments that control leaves only by
calls, by returns and from the dispatcher to a thread. -/
theorem generate_segmented {g : Generated} (h : u.check = .ok t) (hids : (u.nodes.map (·.id)).Nodup)
    (hg : generate u t options = .ok g) : ∃ r segments, g.program.resolve = .ok r ∧
      Segmented u t (startEnv u t options g.layout) g.program r segments := by
  have hu := SourceUnit.check_sound h hids
  obtain ⟨-, hat⟩ := generate_at hg
  obtain ⟨j, ss, hchain, hss, hall⟩ := hat.segments hu
  have hentries : Entries (startEnv u t options g.layout) g.program (⟨.main, 0, j⟩ :: ss) := by
    obtain ⟨hcallee, hthread⟩ := entries_of_holds hu hss.2.2
    refine ⟨fun hgoes => ?_, fun f hf l hl => ?_⟩
    · obtain ⟨s, hs, hrest⟩ := hcallee hgoes
      exact ⟨s, .tail _ hs, hrest⟩
    · obtain ⟨s, hs, hrest⟩ := hthread f hf l hl
      exact ⟨s, .tail _ hs, hrest⟩
  have hsettled := fun s hs k hk => (hall s hs).1.settled hentries (k := k) hk
  obtain ⟨r, hr, hlength⟩ := resolve_total (P := g.program) fun i hi => by
    obtain ⟨s, hs, hmem⟩ := hchain.covers (Nat.zero_le i) hi
    obtain ⟨opcode, operands, hhas, hops⟩ := hsettled s hs i hmem
    exact ⟨opcode, operands, hhas, fun o ho => (hops o ho).resolves⟩
  refine ⟨r, _, hr, hss.kinds hu, hss, hlength ▸ hchain, ?_, ?_, ?_⟩
  · intro s hs i hi ins hins p hp
    obtain ⟨opcode, operands, hhas, hops⟩ := hsettled s hs i hi
    obtain ⟨ins', hins', -, hres⟩ := resolved_at hr hhas
    obtain rfl : ins' = ins := Option.some.inj (hins'.symm.trans hins)
    obtain ⟨o, ho, hres⟩ := forall₂_mem_right hres hp
    exact (hops o ho).target_mem hres
  · intro s hs i hi opcode operands ins hhas hins k l hk
    obtain ⟨opcode', operands', hhas', hops⟩ := hsettled s hs i hi
    obtain rfl : operands' = operands := (has_unique hhas' hhas).2
    obtain ⟨p, hp, hl⟩ := (hops _ (List.mem_of_getElem? hk)).immediate_leads
    obtain ⟨ins', hins', -, hres⟩ := resolved_at hr hhas
    obtain rfl : ins' = ins := Option.some.inj (hins'.symm.trans hins)
    obtain ⟨o, ho, hres⟩ := forall₂_getElem? hres hk
    obtain ⟨p', hp', hres⟩ := except_bind_eq_ok.1 hres
    obtain rfl : p' = p := Option.some.inj ((position_eq_ok_iff.1 hp').symm.trans hl)
    exact ⟨p', hp, hl, ho.trans (congrArg some (except_pure_eq_ok.1 hres)), positionValue_of_lt⟩
  · intro s hs
    obtain ⟨i, -, hlast, hstop⟩ := (hall s hs).2
    rw [hlast, Nat.add_sub_cancel]
    rcases hstop with hend | ⟨x, hjump⟩
    · obtain ⟨ins, hins, hop, -⟩ := resolved_at hr hend
      exact ⟨ins, hins, .inl hop⟩
    · obtain ⟨ins, hins, hop, hres⟩ := resolved_at hr hjump
      obtain ⟨o, os, ho, hos, hres⟩ := List.forall₂_cons_left_iff.1 hres
      cases ho
      cases hos
      exact ⟨ins, hins, .inr ⟨hop, x, hres⟩⟩

theorem counterUnit_segmented : ∃ t g, counterUnit.check = .ok t ∧
    (counterUnit.nodes.map (·.id)).Nodup ∧
    generate counterUnit t {} = .ok g ∧ ∃ r segments, g.program.resolve = .ok r ∧
      Segmented counterUnit t (startEnv counterUnit t {} g.layout) g.program r segments := by
  obtain ⟨t, g, ht, hg⟩ := counterUnit_generated
  exact ⟨t, g, ht, counterUnit_nodup, hg, generate_segmented ht counterUnit_nodup hg⟩

end

end Code

end Awl
