import Awl.Typing.Returns

/-!
# Return paths and structural executions

A structural execution of a statement forgets all values: a condition may go either way, a switch
may select any of its blocks, and a loop may end at any time. `Completes` says how such an execution
may end. Where every `next` has a block to go on with (`NextPlaced`), the analysis of return paths
is exact: a statement is said to return if and only if it cannot end normally (`Stmt.returns_iff`),
and a body if and only if it can only end with a `return` (`Block.returns_iff`).
-/

namespace Awl

/-- How an execution ends. -/
inductive Completion where
  | normal
  /-- The following block of the enclosing switch is next. -/
  | next
  | returned
  deriving DecidableEq, Repr

mutual

/-- The structural executions of a statement. -/
inductive Stmt.Completes : Stmt → Completion → Prop
  | declaration {n : Node} {d : Declaration} : Stmt.Completes (.declaration n d) .normal
  | assignment {n : Node} {t : Target} {e : Expr} : Stmt.Completes (.assignment n t e) .normal
  | expression {n : Node} {e : Expr} : Stmt.Completes (.expression n e) .normal
  | acquire {n : Node} {e : Expr} : Stmt.Completes (.acquire n e) .normal
  | release {n : Node} {e : Expr} : Stmt.Completes (.release n e) .normal
  | next {n : Node} : Stmt.Completes (.next n) .next
  | return {n : Node} {e : Option Expr} : Stmt.Completes (.return n e) .returned
  | block {n : Node} {b : Block} {o : Completion} : b.Completes o → Stmt.Completes (.block n b) o
  | thenBlock {n : Node} {e : Expr} {b : Block} {b' : Option Block} {o : Completion} :
      b.Completes o → Stmt.Completes (.ifElse n e b b') o
  | elseBlock {n : Node} {e : Expr} {b b' : Block} {o : Completion} :
      b'.Completes o → Stmt.Completes (.ifElse n e b (some b')) o
  | skip {n : Node} {e : Expr} {b : Block} : Stmt.Completes (.ifElse n e b none) .normal
  | whileDone {n : Node} {e : Expr} {b : Block} : Stmt.Completes (.whileLoop n e b) .normal
  | whileBody {n : Node} {e : Expr} {b : Block} {o : Completion} :
      b.Completes o → Stmt.Completes (.whileLoop n e b) o
  | doDone {n : Node} {e : Expr} {b : Block} : Stmt.Completes (.doLoop n b e) .normal
  | doBody {n : Node} {e : Expr} {b : Block} {o : Completion} :
      b.Completes o → Stmt.Completes (.doLoop n b e) o
  | forDone {n : Node} {i s : Option Stmt} {e : Expr} {b : Block} :
      Stmt.Completes (.forLoop n i e s b) .normal
  | forInitializer {n : Node} {i : Stmt} {s : Option Stmt} {e : Expr} {b : Block} {o : Completion} :
      i.Completes o → Stmt.Completes (.forLoop n (some i) e s b) o
  | forStep {n : Node} {i : Option Stmt} {s : Stmt} {e : Expr} {b : Block} {o : Completion} :
      s.Completes o → Stmt.Completes (.forLoop n i e (some s) b) o
  | forBody {n : Node} {i s : Option Stmt} {e : Expr} {b : Block} {o : Completion} :
      b.Completes o → Stmt.Completes (.forLoop n i e s b) o
  | switch {n : Node} {e : Expr} {cases : List Case} {f : Option Block} {o : Completion} :
      Case.Complete false cases f o → Stmt.Completes (.switch n e cases f) o

inductive Stmt.CompleteAll : List Stmt → Completion → Prop
  | nil : Stmt.CompleteAll [] .normal
  | cons {s : Stmt} {ss : List Stmt} {o : Completion} :
      s.Completes .normal → Stmt.CompleteAll ss o → Stmt.CompleteAll (s :: ss) o
  | leave {s : Stmt} {ss : List Stmt} {o : Completion} :
      s.Completes o → o ≠ .normal → Stmt.CompleteAll (s :: ss) o

inductive Block.Completes : Block → Completion → Prop
  | mk {n : Node} {ss : List Stmt} {o : Completion} :
      Stmt.CompleteAll ss o → Block.Completes (.mk n ss) o

/-- The structural executions of the blocks of a switch. The flag is whether one has been entered;
before that, any block may be the one that is selected. -/
inductive Case.Complete : Bool → List Case → Option Block → Completion → Prop
  | skip {c : Case} {cases : List Case} {f : Option Block} {o : Completion} :
      Case.Complete false cases f o → Case.Complete false (c :: cases) f o
  | body {entered : Bool} {n : Node} {v : Expr} {b : Block} {cases : List Case} {f : Option Block}
      {o : Completion} : b.Completes o → o ≠ .next → Case.Complete entered (.mk n v b :: cases) f o
  /-- `next` goes on with the following block. -/
  | next {entered : Bool} {n : Node} {v : Expr} {b : Block} {cases : List Case} {f : Option Block}
      {o : Completion} : b.Completes .next → Case.Complete true cases f o →
      Case.Complete entered (.mk n v b :: cases) f o
  | fallback {entered : Bool} {b : Block} {o : Completion} :
      b.Completes o → Case.Complete entered [] (some b) o
  | none : Case.Complete false [] none .normal
  /-- A `next` in the last block leaves the switch. -/
  | stray : Case.Complete true [] none .next

end

/-! ## Places of `next` -/

mutual

/-- Every `next` in the statement has a block to go on with. The flag is whether the statement
itself is in a block of a switch that another one follows. -/
def Stmt.NextPlaced (followed : Bool) : Stmt → Prop
  | .next _ => followed = true
  | .block _ b => b.NextPlaced followed
  | .ifElse _ _ b b' => b.NextPlaced followed ∧ Block.NextPlacedOption followed b'
  | .whileLoop _ _ b => b.NextPlaced followed
  | .doLoop _ b _ => b.NextPlaced followed
  | .forLoop _ i _ s b => Stmt.NextPlacedOption followed i ∧ Stmt.NextPlacedOption followed s ∧
      b.NextPlaced followed
  | .switch _ _ cases f => Case.NextPlacedAll f.isSome cases ∧ Block.NextPlacedOption false f
  | _ => True

def Stmt.NextPlacedOption (followed : Bool) : Option Stmt → Prop
  | none => True
  | some s => s.NextPlaced followed

def Stmt.NextPlacedAll (followed : Bool) : List Stmt → Prop
  | [] => True
  | s :: ss => s.NextPlaced followed ∧ Stmt.NextPlacedAll followed ss

def Block.NextPlaced (followed : Bool) : Block → Prop
  | .mk _ ss => Stmt.NextPlacedAll followed ss

def Block.NextPlacedOption (followed : Bool) : Option Block → Prop
  | none => True
  | some b => b.NextPlaced followed

/-- The blocks of a switch. The flag is whether a fallback follows them. -/
def Case.NextPlacedAll (fallback : Bool) : List Case → Prop
  | [] => True
  | .mk _ _ b :: cases =>
    b.NextPlaced (!cases.isEmpty || fallback) ∧ Case.NextPlacedAll fallback cases

end

/-! ## No `next` is left over -/

mutual

theorem Stmt.NextPlaced.not_next : ∀ {s : Stmt}, s.NextPlaced false → ¬ s.Completes .next
  | .declaration .., _, hc => nomatch hc
  | .assignment .., _, hc => nomatch hc
  | .expression .., _, hc => nomatch hc
  | .acquire .., _, hc => nomatch hc
  | .release .., _, hc => nomatch hc
  | .return .., _, hc => nomatch hc
  | .next _, h, _ => by simp [Stmt.NextPlaced] at h
  | .block _ b, h, .block hc => Block.NextPlaced.not_next h hc
  | .ifElse _ _ b b', h, hc => by
    cases hc with
    | thenBlock hc => exact Block.NextPlaced.not_next h.1 hc
    | elseBlock hc =>
      exact Block.NextPlaced.not_next h.2 hc
  | .whileLoop _ _ b, h, .whileBody hc => Block.NextPlaced.not_next h hc
  | .doLoop _ b _, h, .doBody hc => Block.NextPlaced.not_next h hc
  | .forLoop _ i _ s b, h, hc => by
    cases hc with
    | forInitializer hc =>
      exact Stmt.NextPlaced.not_next h.1 hc
    | forStep hc =>
      have hs := h.2.1
      exact Stmt.NextPlaced.not_next hs hc
    | forBody hc => exact Block.NextPlaced.not_next h.2.2 hc
  | .switch _ _ cases none, h, .switch hc => Case.NextPlacedAll.not_next (by simp) (by simp) h.1 hc
  | .switch _ _ cases (some b), h, .switch hc => by
    refine Case.NextPlacedAll.not_next (fun b' hf => ?_) (by simp) h.1 hc
    cases hf
    exact Block.NextPlaced.not_next h.2

theorem Stmt.NextPlacedAll.not_next : ∀ {ss : List Stmt}, Stmt.NextPlacedAll false ss →
    ¬ Stmt.CompleteAll ss .next
  | [], _, hc => nomatch hc
  | s :: ss, h, hc => by
    cases hc with
    | cons _ hc => exact Stmt.NextPlacedAll.not_next h.2 hc
    | leave hc => exact Stmt.NextPlaced.not_next h.1 hc

theorem Block.NextPlaced.not_next : ∀ {b : Block}, b.NextPlaced false → ¬ b.Completes .next
  | .mk _ ss, h, .mk hc => Stmt.NextPlacedAll.not_next h hc

/-- Only after the last block of a switch could a `next` be left over. -/
theorem Case.NextPlacedAll.not_next : ∀ {cases : List Case} {f : Option Block} {entered : Bool},
    (∀ b, f = some b → ¬ b.Completes .next) → (entered = true → cases ≠ [] ∨ f.isSome = true) →
    Case.NextPlacedAll f.isSome cases → ¬ Case.Complete entered cases f .next
  | [], f, entered, hf, he, _, hc => by
    cases hc with
    | fallback hc => exact hf _ rfl hc
    | stray => simp at he
  | .mk n v b :: cases, f, entered, hf, he, h, hc => by
    rw [Case.NextPlacedAll] at h
    cases hc with
    | skip hc => exact Case.NextPlacedAll.not_next hf (by simp) h.2 hc
    | body _ hne => exact hne rfl
    | next hb hc =>
      refine Case.NextPlacedAll.not_next hf (fun _ => ?_) h.2 hc
      cases hlast : !cases.isEmpty || f.isSome with
      | true => simpa [List.isEmpty_iff] using hlast
      | false =>
        rw [hlast] at h
        exact absurd hb (Block.NextPlaced.not_next h.1)

end

/-! ## The analysis is exact -/

/-- A switch without a fallback may select nothing. -/
theorem Case.complete_none : ∀ cases : List Case, Case.Complete false cases none .normal
  | [] => .none
  | _ :: cases => .skip (complete_none cases)

mutual

/-- A statement is said to return if and only if it cannot end normally. -/
theorem Stmt.returns_iff {followed : Bool} : ∀ (s : Stmt), s.NextPlaced followed →
    (s.returns followed = true ↔ ¬ s.Completes .normal)
  | .declaration .., _ => by simp [Stmt.returns, Stmt.Completes.declaration]
  | .assignment .., _ => by simp [Stmt.returns, Stmt.Completes.assignment]
  | .expression .., _ => by simp [Stmt.returns, Stmt.Completes.expression]
  | .acquire .., _ => by simp [Stmt.returns, Stmt.Completes.acquire]
  | .release .., _ => by simp [Stmt.returns, Stmt.Completes.release]
  | .whileLoop .., _ => by simp [Stmt.returns, Stmt.Completes.whileDone]
  | .doLoop .., _ => by simp [Stmt.returns, Stmt.Completes.doDone]
  | .forLoop .., _ => by simp [Stmt.returns, Stmt.Completes.forDone]
  | .return .., _ => by
    simp only [Stmt.returns, true_iff]
    exact nofun
  | .next _, h => by
    simp only [Stmt.NextPlaced] at h
    simp only [Stmt.returns, h, true_iff]
    exact nofun
  | .block _ b, h => by
    rw [Stmt.returns, Block.returnsIn_iff b h]
    exact not_congr ⟨.block, fun | .block hc => hc⟩
  | .ifElse _ _ b none, h => by simp [Stmt.returns, Stmt.Completes.skip]
  | .ifElse _ _ b (some b'), h => by
    rw [Stmt.returns, Bool.and_eq_true, Block.returnsIn_iff b h.1, Block.returnsIn_iff b' h.2]
    constructor
    · intro hn hc
      cases hc with
      | thenBlock hc => exact hn.1 hc
      | elseBlock hc => exact hn.2 hc
    · exact fun hn => ⟨fun hc => hn (.thenBlock hc), fun hc => hn (.elseBlock hc)⟩
  | .switch _ _ cases none, h => by
    simp [Stmt.returns, Stmt.Completes.switch (Case.complete_none cases)]
  | .switch _ _ cases (some b), h => by
    rw [Stmt.returns, Bool.and_eq_true, Block.returnsIn_iff b h.2]
    constructor
    · intro ⟨hcases, hb⟩ (.switch hc)
      exact Case.not_normal_of_allReturn h.1 hcases hb hc
    · intro hn
      exact Case.allReturn_of_not_normal h.1 fun hc => hn (.switch hc)

theorem Stmt.anyReturns_iff {followed : Bool} : ∀ (ss : List Stmt), Stmt.NextPlacedAll followed ss →
    (Stmt.anyReturns followed ss = true ↔ ¬ Stmt.CompleteAll ss .normal)
  | [], _ => by simp [Stmt.anyReturns, Stmt.CompleteAll.nil]
  | s :: ss, h => by
    rw [Stmt.anyReturns, Bool.or_eq_true, Stmt.returns_iff s h.1, Stmt.anyReturns_iff ss h.2]
    constructor
    · intro hn hc
      cases hc with
      | cons hs hss => exact hn.elim (· hs) (· hss)
      | leave _ hne => exact hne rfl
    · intro hn
      by_cases hs : s.Completes .normal
      · exact .inr fun hss => hn (.cons hs hss)
      · exact .inl hs

theorem Block.returnsIn_iff {followed : Bool} : ∀ (b : Block), b.NextPlaced followed →
    (b.returnsIn followed = true ↔ ¬ b.Completes .normal)
  | .mk _ ss, h => by
    rw [Block.returnsIn, Stmt.anyReturns_iff ss h]
    exact not_congr ⟨.mk, fun | .mk hc => hc⟩

/-- If all blocks of a switch with a fallback return, no way through it ends normally. -/
theorem Case.not_normal_of_allReturn : ∀ {cases : List Case} {b : Block} {entered : Bool},
    Case.NextPlacedAll true cases → Case.allReturn cases = true → ¬ b.Completes .normal →
    ¬ Case.Complete entered cases (some b) .normal
  | [], b, entered, _, _, hb, .fallback hc => hb hc
  | .mk n v body :: cases, b, entered, h, hall, hb, hc => by
    simp only [Case.NextPlacedAll, Bool.or_true] at h
    rw [Case.allReturn, Bool.and_eq_true, Block.returnsIn_iff body h.1] at hall
    cases hc with
    | skip hc => exact Case.not_normal_of_allReturn h.2 hall.2 hb hc
    | body hc _ => exact hall.1 hc
    | next _ hc => exact Case.not_normal_of_allReturn h.2 hall.2 hb hc

/-- A block that may end normally may be the one that is selected. -/
theorem Case.allReturn_of_not_normal : ∀ {cases : List Case} {b : Block},
    Case.NextPlacedAll true cases →
    ¬ Case.Complete false cases (some b) .normal → Case.allReturn cases = true ∧
    ¬ b.Completes .normal
  | [], b, _, hn => ⟨rfl, fun hc => hn (.fallback hc)⟩
  | .mk n v body :: cases, b, h, hn => by
    simp only [Case.NextPlacedAll, Bool.or_true] at h
    obtain ⟨hall, hb⟩ := Case.allReturn_of_not_normal h.2 fun hc => hn (.skip hc)
    refine ⟨?_, hb⟩
    rw [Case.allReturn, Bool.and_eq_true, Block.returnsIn_iff body h.1]
    exact ⟨fun hc => hn (.body hc nofun), hall⟩

end

/-- A body is said to return if and only if every way through it ends with a `return`. -/
theorem Block.returns_iff {b : Block} (h : b.NextPlaced false) :
    b.returns = true ↔ ∀ o, b.Completes o → o = .returned := by
  rw [Block.returns, Block.returnsIn_iff b h]
  constructor
  · intro hn o hc
    cases o with
    | normal => exact absurd hc hn
    | next => exact absurd hc h.not_next
    | returned => rfl
  · intro hall hc
    cases hall _ hc

end Awl
