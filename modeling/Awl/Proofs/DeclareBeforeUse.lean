import Mathlib.Data.List.Induction
import Awl.Proofs.Containment

/-!
# Declarations come before uses

`Stmt.control` keeps of a statement what its structure says about the order of its parts: conditions
go either way, and loops make any number of passes. A run of it is a list of events: blocks are
entered and left, names are declared and used.

Main result: `SourceUnit.check_declares_first`. In a run of a routine of an accepted unit, a use of
a local variable comes after its declaration, and the block or loop that declares it has not been
left in between. The variables of the steps of `for` loops are an exception: a step is checked
before the body of its loop, but runs after it.
-/

namespace Awl

variable {c : Control} {tr before after : List Event} {σ : List Level} {x : String}
  {E : Variable → Prop} {w : Walk} {n : NodeId} {e : Ending} {noted : List NameUse} {o : Origin}

/-! ## Runs -/

inductive Event where
  /-- A block or a `for` statement is entered. -/
  | enter
  | leave
  | declare (node : NodeId) (name : String)
  /-- A variable is read or assigned. -/
  | use (node : NodeId) (name : String)
  deriving DecidableEq

/-- The names are used one after the other. -/
def Event.uses (names : List (NodeId × String)) : List Event := names.map fun q => .use q.1 q.2

/-- How a run ends. -/
inductive Ending where
  | done
  /-- The following block of the enclosing switch is next. -/
  | next
  | returned
  /-- The run is not at its end. -/
  | stopped
  deriving DecidableEq

/-- The order in which parts of the code run. -/
inductive Control where
  | uses (names : List (NodeId × String))
  | declare (node : NodeId) (name : String)
  | exit (o : Ending)
  | seq (a b : Control)
  | either (a b : Control)
  /-- Any number of times. -/
  | repeated (a : Control)
  /-- A block or a `for` statement. -/
  | inside (a : Control)
  /-- The second part follows if the first one ends with `next`. -/
  | follow (a b : Control)

/-- The runs of a part of the code. Each of them may be stopped on the way, so that the beginnings
of endless runs are among them. -/
inductive Control.Runs : Control → List Event → Ending → Prop
  | stop {c : Control} : Runs c [] .stopped
  | uses {names : List (NodeId × String)} : Runs (.uses names) (Event.uses names) .done
  | declare {m : NodeId} {x : String} : Runs (.declare m x) [.declare m x] .done
  | exit {o : Ending} : Runs (.exit o) [] o
  | seq {a b : Control} {tr tr' : List Event} {o : Ending} : Runs a tr .done → Runs b tr' o →
      Runs (.seq a b) (tr ++ tr') o
  | seqLeave {a b : Control} {tr : List Event} {o : Ending} : Runs a tr o → o ≠ .done →
      Runs (.seq a b) tr o
  | left {a b : Control} {tr : List Event} {o : Ending} : Runs a tr o → Runs (.either a b) tr o
  | right {a b : Control} {tr : List Event} {o : Ending} : Runs b tr o → Runs (.either a b) tr o
  | last {a : Control} : Runs (.repeated a) [] .done
  | again {a : Control} {tr tr' : List Event} {o : Ending} : Runs a tr .done →
      Runs (.repeated a) tr' o →
      Runs (.repeated a) (tr ++ tr') o
  | againLeave {a : Control} {tr : List Event} {o : Ending} : Runs a tr o → o ≠ .done →
      Runs (.repeated a) tr o
  | inside {a : Control} {tr : List Event} {o : Ending} : Runs a tr o → o ≠ .stopped →
      Runs (.inside a) (.enter :: tr ++ [.leave]) o
  | insideStop {a : Control} {tr : List Event} : Runs a tr .stopped →
      Runs (.inside a) (.enter :: tr) .stopped
  | follow {a b : Control} {tr tr' : List Event} {o : Ending} : Runs a tr .next → Runs b tr' o →
      Runs (.follow a b) (tr ++ tr') o
  | alone {a b : Control} {tr : List Event} {o : Ending} : Runs a tr o → o ≠ .next →
      Runs (.follow a b) tr o

def Expr.namesOption (e : Option Expr) : List (NodeId × String) := e.toList.flatMap Expr.names

def Target.names : Target → List (NodeId × String)
  | .name n x => [(n.id, x)]
  | .index _ a i => a.names ++ i.names
  | .field _ o _ => o.names

mutual

def Stmt.control : Stmt → Control
  | .declaration _ d => .seq (.uses (Expr.namesOption d.initializer)) (.declare d.node.id d.name)
  | .assignment _ t e => .uses (t.names ++ e.names)
  | .ifElse _ c b b' => .seq (.uses c.names) (.either b.control (Block.controlOption b'))
  | .whileLoop _ c b => .seq (.uses c.names) (.repeated (.seq b.control (.uses c.names)))
  | .doLoop _ b c =>
    .seq (.seq b.control (.uses c.names)) (.repeated (.seq b.control (.uses c.names)))
  | .forLoop _ i c s b => .inside (.seq (Stmt.controlOption i) (.seq (.uses c.names)
      (.repeated (.seq b.control (.seq (Stmt.controlOption s) (.uses c.names))))))
  | .block _ b => b.control
  | .switch _ d cases b => .seq (.uses d.names) (Case.tests (Block.controlOption b) cases)
  | .next _ => .exit .next
  | .return _ v => .seq (.uses (Expr.namesOption v)) (.exit .returned)
  | .expression _ e | .acquire _ e | .release _ e => .uses e.names

def Stmt.controlOption : Option Stmt → Control
  | none => .uses []
  | some s => s.control

def Stmt.controlAll : List Stmt → Control
  | [] => .uses []
  | s :: ss => .seq s.control (Stmt.controlAll ss)

def Block.control : Block → Control
  | .mk _ ss => .inside (Stmt.controlAll ss)

def Block.controlOption : Option Block → Control
  | none => .uses []
  | some b => b.control

/-- Values are compared with the discriminant one after the other, until one of the blocks is
selected. -/
def Case.tests (fallback : Control) : List Case → Control
  | [] => fallback
  | .mk _ v b :: cases => .seq (.uses v.names)
      (.either (.follow b.control (Case.bodies fallback cases)) (Case.tests fallback cases))

/-- The blocks of a switch, from the first one on. -/
def Case.bodies (fallback : Control) : List Case → Control
  | [] => fallback
  | .mk _ _ b :: cases => .follow b.control (Case.bodies fallback cases)

end

def FunctionBody.control : FunctionBody → Control
  | .block b => Stmt.controlAll b.statements
  | .expression e => .uses e.names

/-- What an activation runs: the main code, or the body of a function, method, constructor or
thread. -/
inductive SourceUnit.Activation (u : SourceUnit) : Option Definition → Control → Prop
  | main : u.Activation none (Stmt.controlAll u.statements)
  | definition {d : Definition} : d ∈ u.definitions → u.Activation (some d) d.body.control

/-! ## Declarations in steps -/

/-- The variable of a step that is a declaration. -/
def Stmt.declared : Option Stmt → List Declaration
  | some (.declaration _ d) => [d]
  | _ => []

mutual

/-- The declarations that are steps of `for` loops. -/
def Stmt.steps : Stmt → List Declaration
  | .ifElse _ _ b b' => b.steps ++ Block.stepsOption b'
  | .whileLoop _ _ b => b.steps
  | .doLoop _ b _ => b.steps
  | .forLoop _ i _ s b => Stmt.stepsOption i ++ (Stmt.declared s ++ (Stmt.stepsOption s ++ b.steps))
  | .block _ b => b.steps
  | .switch _ _ cases b => Case.stepsAll cases ++ Block.stepsOption b
  | .declaration .. | .assignment .. | .next _ | .return .. | .expression .. | .acquire ..
      | .release .. =>
    []

def Stmt.stepsOption : Option Stmt → List Declaration
  | none => []
  | some s => s.steps

def Stmt.stepsAll : List Stmt → List Declaration
  | [] => []
  | s :: ss => s.steps ++ Stmt.stepsAll ss

def Block.steps : Block → List Declaration
  | .mk _ ss => Stmt.stepsAll ss

def Block.stepsOption : Option Block → List Declaration
  | none => []
  | some b => b.steps

def Case.stepsAll : List Case → List Declaration
  | [] => []
  | .mk _ _ b :: cases => b.steps ++ Case.stepsAll cases

end

def FunctionBody.steps : FunctionBody → List Declaration
  | .block b => b.steps
  | .expression _ => []

def SourceUnit.steps (u : SourceUnit) : List Declaration :=
  Stmt.stepsAll u.statements ++ u.definitions.flatMap (·.body.steps)

/-! ## Open blocks -/

/-- The variables that have been declared since an open block was entered. -/
abbrev Level := List Variable

/-- The open blocks, the innermost one first, after an event. -/
def Event.apply : Event → List Level → List Level
  | .enter, σ => [] :: σ
  | .leave, σ => σ.tail
  | .declare m x, level :: σ => (⟨x, .node m⟩ :: level) :: σ
  | .declare .., [] => []
  | .use .., σ => σ

def Event.applyAll (σ : List Level) (tr : List Event) : List Level :=
  tr.foldl (fun σ e => e.apply σ) σ

@[simp] theorem Event.applyAll_nil (σ : List Level) : Event.applyAll σ [] = σ := rfl

@[simp] theorem Event.applyAll_cons (σ : List Level) (e : Event) (tr : List Event) :
    Event.applyAll σ (e :: tr) = Event.applyAll (e.apply σ) tr := rfl

@[simp] theorem Event.applyAll_append (σ : List Level) (tr tr' : List Event) :
    Event.applyAll σ (tr ++ tr') = Event.applyAll (Event.applyAll σ tr) tr' := List.foldl_append

@[simp] theorem Event.applyAll_uses (σ : List Level) (names : List (NodeId × String)) :
    Event.applyAll σ (Event.uses names) = σ := by
  induction names with
  | nil => rfl
  | cons q names ih => exact ih

/-- The same blocks are open, and no declaration is lost. -/
def Grown (σ σ' : List Level) : Prop := List.Forall₂ (· ⊆ ·) σ σ'

theorem Grown.refl (σ : List Level) : Grown σ σ := List.forall₂_same.2 fun l _ => List.Subset.refl l

theorem Grown.trans {σ1 σ2 σ3 : List Level} (h : Grown σ1 σ2) (h' : Grown σ2 σ3) : Grown σ1 σ3 := by
  induction h generalizing σ3 with
  | nil => exact h'
  | cons hl _ ih =>
    cases h' with
    | cons hl' h' => exact .cons (List.Subset.trans hl hl') (ih h')

theorem Grown.tail {σ σ' : List Level} (h : Grown σ σ') : Grown σ.tail σ'.tail := by
  cases h with
  | nil => exact .nil
  | cons _ h => exact h

theorem Event.grown_declare (m : NodeId) (x : String) (σ : List Level) :
    Grown σ ((Event.declare m x).apply σ) := by
  cases σ with
  | nil => exact .nil
  | cons level σ => exact .cons (List.subset_cons_self _ _) (Grown.refl σ)

/-- A run that has come to its end has left all blocks that it has entered, and no other ones. -/
theorem Control.Runs.grown {o : Ending} (h : c.Runs tr o) :
    o ≠ .stopped → ∀ σ, Grown σ (Event.applyAll σ tr) := by
  induction h with
  | stop => exact fun h => absurd rfl h
  | uses =>
    intro _ σ
    rw [Event.applyAll_uses]
    exact .refl σ
  | declare => exact fun _ σ => Event.grown_declare _ _ σ
  | exit | last => exact fun _ σ => .refl σ
  | seq _ _ ih ih' | again _ _ ih ih' | follow _ _ ih ih' =>
    intro ho σ
    rw [Event.applyAll_append]
    exact (ih (by decide) σ).trans (ih' ho _)
  | seqLeave _ _ ih | left _ ih | right _ ih | againLeave _ _ ih | alone _ _ ih => exact ih
  | inside _ _ ih =>
    intro ho σ
    rw [List.cons_append, Event.applyAll_cons, Event.applyAll_append]
    exact (ih ho ([] :: σ)).tail
  | insideStop => exact fun h => absurd rfl h

/-! ## Scopes and open blocks -/

section
variable {E : Variable → Prop} {σ σ' : List Level} {scopes scopes' : List Origins} {m : NodeId}

/-- What the scopes around a place bind has been declared in the open blocks, the variables in `E`
aside. -/
def Covers (E : Variable → Prop) (σ : List Level) (scopes : List Origins) : Prop :=
  List.Forall₂ (fun level names => ∀ x o, names.lookup x = some (some o) →
    E ⟨x, o⟩ ∨ ⟨x, o⟩ ∈ level) σ scopes

theorem Covers.grown (h : Covers E σ scopes) (hσ : Grown σ σ') : Covers E σ' scopes := by
  induction h generalizing σ' with
  | nil =>
    cases hσ
    exact .nil
  | cons hl _ ih =>
    cases hσ with
    | cons hl' hσ => exact .cons (fun x o hx => (hl x o hx).imp_right fun hmem => hl' hmem) (ih hσ)

theorem Covers.bind {x : String} {level : Level} (h : Covers E (level :: σ) scopes)
    (hm : E ⟨x, .node m⟩ ∨ ⟨x, .node m⟩ ∈ level) :
    Covers E (level :: σ) (Origins.bind x (.node m) scopes) := by
  cases h with
  | @cons _ names _ outer hl h =>
    refine .cons (fun y k hy => ?_) h
    rw [List.lookup_cons] at hy
    split at hy
    · rename_i heq
      obtain rfl : y = x := by simpa using heq
      cases hy
      exact hm
    · exact hl y k hy

/-- A declaration binds its name. -/
theorem Covers.declare {x : String} (h : Covers E σ scopes) :
    Covers E ((Event.declare m x).apply σ) (Origins.bind x (.node m) scopes) := by
  have h' := h.grown (Event.grown_declare m x σ)
  cases h with
  | nil => exact .nil
  | cons _ _ => exact h'.bind (.inr (List.mem_cons_self ..))

/-- The name of a variable in `E` is bound without a declaration. -/
theorem Covers.exempt (h : Covers E σ scopes) (hm : E ⟨x, .node m⟩) :
    Covers E σ (Origins.bind x (.node m) scopes) := by
  cases h with
  | nil => exact .nil
  | cons hl h => exact Covers.bind (.cons hl h) (.inl hm)

/-- A variable that a name means has been declared in one of the open blocks. -/
theorem Covers.find {x : String} (h : Covers E σ scopes)
    (hx : Origins.find scopes x = some (some o)) : E ⟨x, o⟩ ∨ ∃ level ∈ σ, ⟨x, o⟩ ∈ level := by
  induction h with
  | nil => cases hx
  | @cons level names σ scopes hl _ ih =>
    rw [Origins.find, List.findSome?_cons] at hx
    split at hx
    · rename_i heq
      rw [hx] at heq
      exact (hl x o heq).imp_right fun hmem => ⟨level, .head _, hmem⟩
    · obtain hm | ⟨l, hl, hmem⟩ := ih hx
      · exact .inl hm
      · exact .inr ⟨l, .tail _ hl, hmem⟩

end

/-! ## Safe code -/

/-- Every use of a run is one of those that have been noted, and the scopes that it was noted in are
covered. -/
def Explained (E : Variable → Prop) (noted : List NameUse) : List Level → List Event → Prop
  | _, [] => True
  | σ, e :: tr => (∀ n x, e = .use n x → ∃ scopes, ⟨n, x, (Origins.find scopes x).join⟩ ∈ noted ∧
      Covers E σ scopes) ∧ Explained E noted (e.apply σ) tr

section
variable {E : Variable → Prop} {noted : List NameUse} {scopes scopes1 scopes2 : List Origins}
  {a b : Control}

theorem explained_append {tr' : List Event} : Explained E noted σ (tr ++ tr') ↔
    Explained E noted σ tr ∧ Explained E noted (Event.applyAll σ tr) tr' := by
  induction tr generalizing σ with
  | nil => simp [Explained]
  | cons e tr ih => simp [Explained, ih, and_assoc]

/-- Code between these scopes. -/
def Safe (E : Variable → Prop) (noted : List NameUse) (scopes : List Origins) (c : Control)
    (scopes' : List Origins) : Prop :=
  ∀ tr o σ, c.Runs tr o → Covers E σ scopes →
    Explained E noted σ tr ∧ (o = .done → Covers E (Event.applyAll σ tr) scopes')

namespace Safe

theorem stopped : Explained E noted σ [] ∧
    (Ending.stopped = .done → Covers E (Event.applyAll σ []) scopes) :=
  ⟨trivial, fun h => by cases h⟩

theorem uses {names : List (NodeId × String)}
    (h : ∀ q ∈ names, ⟨q.1, q.2, (Origins.find scopes q.2).join⟩ ∈ noted) :
    Safe E noted scopes (.uses names) scopes := by
  intro tr o σ hrun hσ
  cases hrun with
  | stop => exact stopped
  | uses =>
    rw [Event.applyAll_uses]
    refine ⟨?_, fun _ => hσ⟩
    induction names with
    | nil => trivial
    | cons q names ih =>
      refine ⟨fun n x heq => ?_, ih fun q' hq' => h q' (List.mem_cons_of_mem _ hq')⟩
      obtain ⟨rfl, rfl⟩ := Event.use.inj heq
      exact ⟨scopes, h q (List.mem_cons_self ..), hσ⟩

theorem declare {m : NodeId} {x : String} :
    Safe E noted scopes (.declare m x) (Origins.bind x (.node m) scopes) := by
  intro tr o σ hrun hσ
  cases hrun with
  | stop => exact stopped
  | declare => exact ⟨⟨fun n x heq => (by cases heq), trivial⟩, fun _ => hσ.declare⟩

theorem exit {o : Ending} (ho : o ≠ .done) : Safe E noted scopes (.exit o) scopes1 := by
  intro tr o' σ hrun hσ
  cases hrun with
  | stop => exact stopped
  | exit => exact ⟨trivial, fun h => absurd h ho⟩

theorem seq (ha : Safe E noted scopes a scopes1) (hb : Safe E noted scopes1 b scopes2) :
    Safe E noted scopes (.seq a b) scopes2 := by
  intro tr o σ hrun hσ
  cases hrun with
  | stop => exact stopped
  | seq hra hrb =>
    obtain ⟨hea, hca⟩ := ha _ _ σ hra hσ
    obtain ⟨heb, hcb⟩ := hb _ _ _ hrb (hca rfl)
    rw [explained_append, Event.applyAll_append]
    exact ⟨⟨hea, heb⟩, hcb⟩
  | seqLeave hra ho => exact ⟨(ha _ _ σ hra hσ).1, fun h => absurd h ho⟩

theorem either (ha : Safe E noted scopes a scopes1) (hb : Safe E noted scopes b scopes1) :
    Safe E noted scopes (.either a b) scopes1 := by
  intro tr o σ hrun hσ
  cases hrun with
  | stop => exact stopped
  | left hra => exact ha _ _ σ hra hσ
  | right hrb => exact hb _ _ σ hrb hσ

theorem repeated (ha : Safe E noted scopes a scopes) :
    Safe E noted scopes (.repeated a) scopes := by
  intro tr o σ hrun hσ
  -- By induction on the number of passes: each of them starts with the scopes covered.
  generalize hc : Control.repeated a = c at hrun
  induction hrun generalizing σ with
  | stop => exact stopped
  | last => exact ⟨trivial, fun _ => hσ⟩
  | again hra _ _ ih =>
    cases hc
    obtain ⟨hea, hca⟩ := ha _ _ σ hra hσ
    obtain ⟨heb, hcb⟩ := ih _ (hca rfl) rfl
    rw [explained_append, Event.applyAll_append]
    exact ⟨⟨hea, heb⟩, hcb⟩
  | againLeave hra ho _ =>
    cases hc
    exact ⟨(ha _ _ σ hra hσ).1, fun h => absurd h ho⟩
  | _ => cases hc

/-- A block starts without names of its own, and its names end with it. -/
theorem inside (ha : Safe E noted ([] :: scopes) a scopes1) :
    Safe E noted scopes (.inside a) scopes := by
  intro tr o σ hrun hσ
  have hopen : Covers E ([] :: σ) ([] :: scopes) := .cons (fun x o hx => by cases hx) hσ
  have henter : ∀ n x, Event.enter = .use n x → ∃ scopes,
    ⟨n, x, (Origins.find scopes x).join⟩ ∈ noted ∧
      Covers E σ scopes := fun n x heq => by cases heq
  cases hrun with
  | stop => exact stopped
  | @inside _ tr _ hra ho =>
    refine ⟨⟨henter, explained_append.2 ⟨(ha _ _ _ hra hopen).1, fun n x heq => (by cases heq),
      trivial⟩⟩, fun _ => ?_⟩
    have hgrown := (Control.Runs.inside hra ho).grown ho σ
    exact hσ.grown hgrown
  | insideStop hra => exact ⟨⟨henter, (ha _ _ _ hra hopen).1⟩, fun h => by cases h⟩

theorem follow (ha : Safe E noted scopes a scopes1) (hb : Safe E noted scopes b scopes1) :
    Safe E noted scopes (.follow a b) scopes1 := by
  intro tr o σ hrun hσ
  cases hrun with
  | stop => exact stopped
  | follow hra hrb =>
    obtain ⟨heb, hcb⟩ := hb _ _ _ hrb (hσ.grown (hra.grown (by decide) σ))
    rw [explained_append, Event.applyAll_append]
    exact ⟨⟨(ha _ _ σ hra hσ).1, heb⟩, hcb⟩
  | alone hra _ => exact ha _ _ σ hra hσ

/-- Names that are bound inside may be forgotten. -/
theorem keep (ha : Safe E noted scopes1 a scopes2)
    (hs : ∀ σ, Covers E σ scopes → Covers E σ scopes1) :
    Safe E noted scopes a scopes := by
  intro tr o σ hrun hσ
  refine ⟨(ha _ _ σ hrun (hs σ hσ)).1, fun ho => hσ.grown (hrun.grown ?_ σ)⟩
  rw [ho]
  decide

end Safe

end

/-! ## Walks -/

/-- Nothing that was noted is lost. -/
def Walk.Le (w w' : Walk) : Prop := w.uses ⊆ w'.uses

theorem Walk.Le.refl (w : Walk) : w.Le w := List.Subset.refl _

theorem Walk.Le.trans {w1 w2 w3 : Walk} (h : w1.Le w2) (h' : w2.Le w3) : w1.Le w3 :=
  List.Subset.trans h h'

theorem Walk.Le.inBlock {f : Walk → Walk} (h : ∀ w : Walk, w.Le (f w)) (w : Walk) :
    w.Le (w.inBlock f) :=
  h { w with scopes := [] :: w.scopes }

theorem Walk.le_note (w : Walk) (names : List (NodeId × String)) : w.Le (w.note names) :=
  List.subset_append_left _ _

theorem Expr.walkOption_eq (e : Option Expr) (w : Walk) :
    Expr.walkOption e w = w.note (Expr.namesOption e) := by
  cases e with
  | none => simp [Expr.walkOption, Expr.namesOption]
  | some e => simp [Expr.walkOption, Expr.namesOption, Expr.walk_eq]

theorem Target.walk_eq (t : Target) (w : Walk) : t.walk w = w.note t.names := by
  cases t with
  | name n x => rfl
  | index n a i => simp [Target.walk, Target.names, Expr.walk_eq]
  | field n o x => simp [Target.walk, Target.names, Expr.walk_eq]

@[simp] theorem Block.walk_scopes (b : Block) (w : Walk) : (b.walk w).scopes = w.scopes := by
  cases b
  rfl

@[simp] theorem Block.walkOption_scopes (b : Option Block) (w : Walk) :
    (Block.walkOption b w).scopes = w.scopes := by
  cases b with
  | none => rfl
  | some b => exact b.walk_scopes w

@[simp] theorem Case.walkAll_scopes (cases : List Case) (w : Walk) :
    (Case.walkAll cases w).scopes = w.scopes := by
  induction cases generalizing w with
  | nil => rfl
  | cons c cases ih =>
    obtain ⟨n, v, b⟩ := c
    simp [Case.walkAll, ih, Expr.walk_eq]

/-- Only declarations bind names in the scope around them. -/
theorem Stmt.walk_scopes {s : Stmt} (hs : Stmt.declared (some s) = []) (w : Walk) :
    (s.walk w).scopes = w.scopes := by
  cases s with
  | declaration n d => cases hs
  | forLoop n i c s b => rfl
  | _ => simp [Stmt.walk, Expr.walk_eq, Expr.walkOption_eq, Target.walk_eq]

mutual

theorem Stmt.le_walk : ∀ (s : Stmt) (w : Walk), w.Le (s.walk w)
  | .declaration _ d, w => by
    rw [Stmt.walk, Declaration.walk, Expr.walkOption_eq]
    exact w.le_note _
  | .assignment _ t e, w => by
    rw [Stmt.walk, Target.walk_eq, Expr.walk_eq, Walk.note_note]
    exact w.le_note _
  | .ifElse _ c b b', w => by
    rw [Stmt.walk, Expr.walk_eq]
    exact ((w.le_note _).trans (b.le_walk _)).trans (Block.le_walkOption b' _)
  | .whileLoop _ c b, w => by
    rw [Stmt.walk, Expr.walk_eq]
    exact (w.le_note _).trans (b.le_walk _)
  | .doLoop _ b c, w => by
    rw [Stmt.walk, Expr.walk_eq]
    exact (b.le_walk w).trans (Walk.le_note _ _)
  | .forLoop _ i c s b, w => by
    refine Walk.Le.inBlock (fun w => ?_) w
    rw [Expr.walk_eq]
    exact (((Stmt.le_walkOption i w).trans (Walk.le_note _ _)).trans (Stmt.le_walkOption s _)).trans
      (b.le_walk _)
  | .block _ b, w => b.le_walk w
  | .switch _ d cases b, w => by
    rw [Stmt.walk, Expr.walk_eq]
    exact ((w.le_note _).trans (Case.le_walkAll cases _)).trans (Block.le_walkOption b _)
  | .next _, w => .refl w
  | .return _ v, w => by
    rw [Stmt.walk, Expr.walkOption_eq]
    exact w.le_note _
  | .expression _ e, w | .acquire _ e, w | .release _ e, w => by
    rw [Stmt.walk, Expr.walk_eq]
    exact w.le_note _

theorem Stmt.le_walkOption : ∀ (s : Option Stmt) (w : Walk), w.Le (Stmt.walkOption s w)
  | none, w => .refl w
  | some s, w => s.le_walk w

theorem Stmt.le_walkAll : ∀ (ss : List Stmt) (w : Walk), w.Le (Stmt.walkAll ss w)
  | [], w => .refl w
  | s :: ss, w => (s.le_walk w).trans (Stmt.le_walkAll ss _)

theorem Block.le_walk : ∀ (b : Block) (w : Walk), w.Le (b.walk w)
  | .mk _ ss, w => .inBlock (fun w => Stmt.le_walkAll ss w) w

theorem Block.le_walkOption : ∀ (b : Option Block) (w : Walk), w.Le (Block.walkOption b w)
  | none, w => .refl w
  | some b, w => b.le_walk w

theorem Case.le_walkAll : ∀ (cases : List Case) (w : Walk), w.Le (Case.walkAll cases w)
  | [], w => .refl w
  | .mk _ v b :: cases, w => by
    rw [Case.walkAll, Expr.walk_eq]
    exact ((w.le_note _).trans (b.le_walk _)).trans (Case.le_walkAll cases _)

end

/-! ## Statements are safe -/

section
variable {E : Variable → Prop} {noted : List NameUse}

theorem Safe.note {names : List (NodeId × String)} (h : (w.note names).uses ⊆ noted) :
    Safe E noted w.scopes (.uses names) w.scopes := .uses fun _ hq =>
  h (List.mem_append_right _ (List.mem_map_of_mem hq))

/-- The names of a loop are covered in its body although its step has not run: a name that the step
declares is in `E`. -/
theorem Covers.step {s : Option Stmt} (hs : ∀ d ∈ Stmt.declared s, E ⟨d.name, .node d.node.id⟩)
    (h : Covers E σ w.scopes) : Covers E σ (Stmt.walkOption s w).scopes := by
  cases s with
  | none => exact h
  | some s =>
    cases s with
    | declaration n d =>
      simp only [Stmt.walkOption, Stmt.walk, Declaration.walk, Expr.walkOption_eq]
      exact h.exempt (hs d (List.mem_singleton.2 rfl))
    | _ => rwa [Stmt.walkOption, Stmt.walk_scopes rfl]

mutual

theorem Stmt.safe {E : Variable → Prop} {noted : List NameUse} : ∀ (s : Stmt) (w : Walk),
    (∀ d ∈ s.steps, E ⟨d.name, .node d.node.id⟩) → (s.walk w).uses ⊆ noted →
    Safe E noted w.scopes s.control (s.walk w).scopes
  | .declaration _ d, w, _, hn => by
    simp only [Stmt.walk, Declaration.walk, Expr.walkOption_eq] at hn ⊢
    exact .seq (.note hn) .declare
  | .assignment _ t e, w, _, hn => by
    simp only [Stmt.walk, Target.walk_eq, Expr.walk_eq, Walk.note_note] at hn ⊢
    exact .note hn
  | .ifElse _ c b b', w, hs, hn => by
    simp only [Stmt.walk, Expr.walk_eq, Block.walkOption_scopes, Block.walk_scopes] at hn ⊢
    simp only [Stmt.steps, List.forall_mem_append] at hs
    have hn1 := List.Subset.trans (Block.le_walkOption b' _) hn
    have hthen := b.safe (w.note c.names) hs.1 hn1
    have helse := Block.safeOption b' (b.walk (w.note c.names)) hs.2 hn
    rw [Block.walk_scopes] at helse
    exact .seq (.note (List.Subset.trans (b.le_walk _) hn1)) (.either hthen helse)
  | .whileLoop _ c b, w, hs, hn => by
    simp only [Stmt.walk, Expr.walk_eq, Block.walk_scopes] at hn ⊢
    have hc : Safe E noted w.scopes (.uses c.names) w.scopes :=
      .note (List.Subset.trans (b.le_walk _) hn)
    have hbody := b.safe (w.note c.names) hs hn
    exact hc.seq (.repeated (hbody.seq hc))
  | .doLoop _ b c, w, hs, hn => by
    simp only [Stmt.walk, Expr.walk_eq, Block.walk_scopes, Walk.note_scopes] at hn ⊢
    have hbody := b.safe w hs (List.Subset.trans (Walk.le_note _ c.names) hn)
    have hc : Safe E noted (b.walk w).scopes (.uses c.names) (b.walk w).scopes := .note hn
    rw [Block.walk_scopes] at hc
    exact .seq (hbody.seq hc) (.repeated (hbody.seq hc))
  | .forLoop _ i c s b, w, hs, hn => by
    simp only [Stmt.walk, Expr.walk_eq] at hn ⊢
    simp only [Stmt.steps, List.forall_mem_append] at hs
    obtain ⟨hi, hd, hs, hb⟩ := hs
    let w0 : Walk := { w with scopes := [] :: w.scopes }
    let w1 := Stmt.walkOption i w0
    let w2 := Stmt.walkOption s (w1.note c.names)
    have hn2 : w2.uses ⊆ noted := List.Subset.trans (b.le_walk _) hn
    have hn1 : (w1.note c.names).uses ⊆ noted := List.Subset.trans (Stmt.le_walkOption s _) hn2
    have hinit := Stmt.safeOption i w0 hi (List.Subset.trans (Walk.le_note _ _) hn1)
    have hc : Safe E noted w1.scopes (.uses c.names) w1.scopes := .note hn1
    -- Whether or not the step has run, the names that the body may use are covered.
    have hbody : Safe E noted w1.scopes b.control w1.scopes :=
      (b.safe w2 hb hn).keep fun _ hσ => Covers.step hd hσ
    have hstep : Safe E noted w1.scopes (Stmt.controlOption s) w1.scopes :=
      (Stmt.safeOption s (w1.note c.names) hs hn2).keep fun _ hσ => hσ
    exact .inside (hinit.seq (hc.seq (.repeated (hbody.seq (hstep.seq hc)))))
  | .block _ b, w, hs, hn => by
    have hb := b.safe w hs hn
    simpa only [Stmt.walk, Stmt.control, Block.walk_scopes] using hb
  | .switch _ d cases b, w, hs, hn => by
    simp only [Stmt.walk, Expr.walk_eq, Block.walkOption_scopes, Case.walkAll_scopes] at hn ⊢
    simp only [Stmt.steps, List.forall_mem_append] at hs
    have hn1 := List.Subset.trans (Block.le_walkOption b _) hn
    have hfallback := Block.safeOption b (Case.walkAll cases (w.note d.names)) hs.2 hn
    rw [Case.walkAll_scopes] at hfallback
    exact .seq (.note (List.Subset.trans (Case.le_walkAll cases _) hn1))
      (Case.safe cases (w.note d.names) hs.1 hn1 hfallback).1
  | .next _, w, _, _ => .exit (by decide)
  | .return _ v, w, _, hn => by
    simp only [Stmt.walk, Expr.walkOption_eq] at hn ⊢
    exact .seq (.note hn) (.exit (by decide))
  | .expression _ e, w, _, hn | .acquire _ e, w, _, hn | .release _ e, w, _, hn => by
    simp only [Stmt.walk, Expr.walk_eq] at hn ⊢
    exact .note hn

theorem Stmt.safeOption {E : Variable → Prop} {noted : List NameUse} :
    ∀ (s : Option Stmt) (w : Walk),
    (∀ d ∈ Stmt.stepsOption s, E ⟨d.name, .node d.node.id⟩) → (Stmt.walkOption s w).uses ⊆ noted →
    Safe E noted w.scopes (Stmt.controlOption s) (Stmt.walkOption s w).scopes
  | none, w, _, hn => .uses (fun _ hq => by cases hq)
  | some s, w, hs, hn => s.safe w hs hn

theorem Stmt.safeAll {E : Variable → Prop} {noted : List NameUse} : ∀ (ss : List Stmt) (w : Walk),
    (∀ d ∈ Stmt.stepsAll ss, E ⟨d.name, .node d.node.id⟩) → (Stmt.walkAll ss w).uses ⊆ noted →
    Safe E noted w.scopes (Stmt.controlAll ss) (Stmt.walkAll ss w).scopes
  | [], w, _, hn => .uses (fun _ hq => by cases hq)
  | s :: ss, w, hs, hn => by
    simp only [Stmt.stepsAll, List.forall_mem_append] at hs
    exact .seq (s.safe w hs.1 (List.Subset.trans (Stmt.le_walkAll ss _) hn))
      (Stmt.safeAll ss (s.walk w) hs.2 hn)

theorem Block.safe {E : Variable → Prop} {noted : List NameUse} : ∀ (b : Block) (w : Walk),
    (∀ d ∈ b.steps, E ⟨d.name, .node d.node.id⟩) → (b.walk w).uses ⊆ noted →
    Safe E noted w.scopes b.control w.scopes
  | .mk _ ss, w, hs, hn => .inside (Stmt.safeAll ss { w with scopes := [] :: w.scopes } hs hn)

theorem Block.safeOption {E : Variable → Prop} {noted : List NameUse} :
    ∀ (b : Option Block) (w : Walk),
    (∀ d ∈ Block.stepsOption b, E ⟨d.name, .node d.node.id⟩) → (Block.walkOption b w).uses ⊆ noted →
    Safe E noted w.scopes (Block.controlOption b) w.scopes
  | none, w, _, hn => .uses (fun _ hq => by cases hq)
  | some b, w, hs, hn => b.safe w hs hn

/-- The blocks of a switch, whether they are tested in turn or follow one another. -/
theorem Case.safe {E : Variable → Prop} {noted : List NameUse} {fallback : Control} :
    ∀ (cases : List Case) (w : Walk), (∀ d ∈ Case.stepsAll cases, E ⟨d.name, .node d.node.id⟩) →
    (Case.walkAll cases w).uses ⊆ noted → Safe E noted w.scopes fallback w.scopes →
    Safe E noted w.scopes (Case.tests fallback cases) w.scopes ∧
      Safe E noted w.scopes (Case.bodies fallback cases) w.scopes
  | [], w, _, _, hf => ⟨hf, hf⟩
  | .mk _ v b :: cases, w, hs, hn, hf => by
    simp only [Case.walkAll, Expr.walk_eq] at hn
    simp only [Case.stepsAll, List.forall_mem_append] at hs
    have hn1 := List.Subset.trans (Case.le_walkAll cases _) hn
    have hv : Safe E noted w.scopes (.uses v.names) w.scopes :=
      .note (List.Subset.trans (b.le_walk _) hn1)
    have hb := b.safe (w.note v.names) hs.1 hn1
    have hscopes : (b.walk (w.note v.names)).scopes = w.scopes := b.walk_scopes _
    have hrest := Case.safe cases (b.walk (w.note v.names)) hs.2 hn (hscopes ▸ hf)
    rw [hscopes] at hrest
    have hbodies := hb.follow hrest.2
    exact ⟨hv.seq (.either hbodies hrest.1), hbodies⟩

end

end

/-! ## Uses of a run -/

/-- No block is left that was open at the beginning. -/
def Event.Remain (tr : List Event) : Prop := ∀ l, l <+: tr → l.count .leave ≤ l.count .enter

theorem Event.Remain.concat {e : Event} (h : Event.Remain tr)
    (he : (tr ++ [e]).count .leave ≤ (tr ++ [e]).count .enter) : Event.Remain (tr ++ [e]) := by
  intro l hl
  rcases List.prefix_concat_iff.1 hl with rfl | hl
  · simpa using he
  · exact h l hl

/-- A variable of an open block was there from the beginning, or its declaration has run and the
block has not been left since then. The blocks inside it are counted by `j`. -/
theorem Event.declared_since {v : Variable} {j : Nat} {level : Level}
    (hj : (Event.applyAll σ tr)[j]? = some level) (hv : v ∈ level) :
    (∃ level ∈ σ, v ∈ level) ∨ ∃ m before since, v.origin = .node m ∧
      tr = before ++ .declare m v.name :: since ∧
      Event.Remain since ∧ since.count .leave + j = since.count .enter := by
  induction tr using List.reverseRecOn generalizing j level with
  | nil => exact .inl ⟨level, List.mem_of_getElem? hj, hv⟩
  | append_singleton tr e ih =>
    rw [Event.applyAll_append, Event.applyAll_cons, Event.applyAll_nil] at hj
    -- What was declared before this event.
    have hbefore : ∀ {i : Nat} {l : Level}, (Event.applyAll σ tr)[i]? = some l → v ∈ l →
        (∀ since : List Event, since.count .leave + i = since.count .enter →
          (since ++ [e]).count .leave + j = (since ++ [e]).count .enter) →
        (∃ level ∈ σ, v ∈ level) ∨ ∃ m before since, v.origin = .node m ∧
          tr ++ [e] = before ++ .declare m v.name :: since ∧ Event.Remain since ∧
          since.count .leave + j = since.count .enter := by
      intro i l hi hl hcount
      refine (ih hi hl).imp_right fun ⟨m, before, since, hm, htr, hremain, hdepth⟩ => ?_
      have hdepth' := hcount since hdepth
      exact ⟨m, before, since ++ [e], hm, by simp [htr], hremain.concat (by omega), hdepth'⟩
    cases e with
    | enter =>
      cases j with
      | zero =>
        cases hj
        cases hv
      | succ i =>
        refine hbefore hj hv fun since h => ?_
        simp [List.count_append]
        omega
    | leave =>
      rw [Event.apply, List.getElem?_tail] at hj
      refine hbefore hj hv fun since h => ?_
      simp [List.count_append]
      omega
    | use n y =>
      refine hbefore hj hv fun since h => ?_
      simpa [List.count_append] using h
    | declare m x =>
      cases hσ : Event.applyAll σ tr with
      | nil => simp [hσ, Event.apply] at hj
      | cons top rest =>
        rw [hσ] at hj
        have hsame : ∀ since : List Event, since.count .leave + j = since.count .enter →
            (since ++ [Event.declare m x]).count .leave + j =
            (since ++ [Event.declare m x]).count .enter :=
          fun since h => by simpa [List.count_append] using h
        cases j with
        | zero =>
          cases hj
          rcases List.mem_cons.1 hv with rfl | hv
          · exact .inr ⟨m, tr, [], rfl, rfl, fun l hl => by simp [List.prefix_nil.1 hl], rfl⟩
          · exact hbefore (by rw [hσ]; rfl) hv hsame
        | succ i => exact hbefore (by rw [hσ]; exact hj) hv hsame

/-- A use of a run was noted. The variable that the name means is one of those in `E`, or it belongs
to a block that was open from the beginning, or it has been declared since its block was entered. -/
theorem Safe.declares {scopes scopes' : List Origins}
    (h : Safe E noted scopes c scopes') (hσ : Covers E σ scopes)
    (hrun : c.Runs (before ++ .use n x :: after) e) :
    ∃ use ∈ noted, use.node = n ∧ use.name = x ∧ ∀ o, use.origin = some o →
      E ⟨x, o⟩ ∨ (∃ level ∈ σ, ⟨x, o⟩ ∈ level) ∨ ∃ m before' since, o = .node m ∧
        before = before' ++ .declare m x :: since ∧ Event.Remain since := by
  obtain ⟨-, huse, -⟩ := explained_append.1 (h _ _ σ hrun hσ).1
  obtain ⟨inner, hnoted, hcovers⟩ := huse n x rfl
  refine ⟨_, hnoted, rfl, rfl, fun o ho => ?_⟩
  obtain hE | ⟨level, hmem, hlevel⟩ := hcovers.find (Option.join_eq_some_iff.1 ho)
  · exact .inl hE
  · obtain ⟨j, hj⟩ := List.mem_iff_getElem?.1 hmem
    obtain hstart | ⟨m, before', since, hm, htr, hremain, -⟩ := Event.declared_since hj hlevel
    · exact .inr (.inl hstart)
    · exact .inr (.inr ⟨m, before', since, hm, htr, hremain⟩)

/-! ## Accepted units -/

/-- The variables that a scope binds. -/
def Origins.level (names : Origins) : Level :=
  names.filterMap fun p => (names.lookup p.1).join.map fun o => ⟨p.1, o⟩

variable {names : Origins} {id : ScopeId} {frame : Option ScopeId}
  {outer : List Origins} {t : Tables}

theorem Origins.mem_level : ⟨x, o⟩ ∈ names.level ↔ names.lookup x = some (some o) := by
  simp only [level, List.mem_filterMap, Option.map_eq_some_iff, Option.join_eq_some_iff,
    Variable.mk.injEq]
  constructor
  · rintro ⟨p, _, _, h, rfl, rfl⟩
    exact h
  · intro h
    obtain ⟨l, l', heq, -⟩ := List.lookup_eq_some_iff.1 h
    exact ⟨(x, some o), by simp [heq], o, h, rfl, rfl⟩

/-- At the beginning, the blocks around the code are open. -/
theorem covers_level (E : Variable → Prop) (scopes : List Origins) :
    Covers E (scopes.map Origins.level) scopes :=
  List.forall₂_map_left_iff.2 (List.forall₂_same.2 fun _ _ _ _ h => .inr (Origins.mem_level.2 h))

/-- The variables that have a value when the body of a definition starts: its parameters and its
receiver. -/
def Definition.taken (d : Definition) : List Variable :=
  (d.parameters.map fun p => ⟨p.name, .node p.node.id⟩) ++ if d.isMethod then
    [⟨receiverName, .receiver⟩] else []

theorem parameters_scopes (ps : List Parameter) (h : w.scopes = names :: outer) :
    (ps.foldl (fun w p => w.declare p.name (.node p.node.id)) w).scopes =
      (ps.reverse.map (fun p => (p.name, some (Origin.node p.node.id))) ++ names) :: outer := by
  induction ps generalizing w names with
  | nil => simpa using h
  | cons p ps ih =>
    have hp : (w.declare p.name (.node p.node.id)).scopes =
        ((p.name, some (.node p.node.id)) :: names) :: outer := by
      simp [Walk.declare, h, Origins.bind]
    simp [ih hp]

/-- The body of a definition starts in a scope that binds what the definition takes. -/
theorem Definition.walk_eq (d : Definition) (scopes : List Origins) :
    ∃ names w, d.walk scopes = d.body.walk w ∧
    w.scopes = names :: scopes ∧ ∀ x o, names.lookup x = some (some o) → ⟨x, o⟩ ∈ d.taken := by
  let w : Walk := { scopes := [] :: scopes }
  let w' := if d.isMethod then w.declare receiverName .receiver else w
  have hw' : w'.scopes = (if d.isMethod then [(receiverName, some Origin.receiver)] else []) ::
      scopes := by
    by_cases hm : d.isMethod <;> simp [w', hm, w, Walk.declare, Origins.bind]
  refine ⟨_, _, rfl, parameters_scopes d.parameters hw', fun x o hx => ?_⟩
  obtain ⟨l, l', heq, -⟩ := List.lookup_eq_some_iff.1 hx
  have hmem : (x, some o) ∈ l ++ (x, some o) :: l' := by simp
  rw [← heq] at hmem
  by_cases hm : d.isMethod <;> simpa [taken] using hmem

theorem FunctionBody.safe (b : FunctionBody) (w : Walk)
    (hs : ∀ d ∈ b.steps, E ⟨d.name, .node d.node.id⟩)
    (hn : (b.walk w).uses ⊆ noted) : ∃ scopes, Safe E noted w.scopes b.control scopes := by
  cases b with
  | block b =>
    obtain ⟨n, ss⟩ := b
    exact ⟨_, Stmt.safeAll ss w hs hn⟩
  | expression e =>
    simp only [FunctionBody.walk, Expr.walk_eq] at hn
    exact ⟨_, .note hn⟩

/-- Where the tables record a walk over the code, a use in a run comes after the declaration of its
variable. -/
theorem Tables.Records.declares {outer : List Variable} {owner : ScopeId}
    {scopes scopes' : List Origins} (hw : t.Records frame outer owner w)
    (hsafe : Safe E w.uses scopes c scopes') (hσ : Covers E σ scopes)
    (hrun : c.Runs (before ++ .use n x :: after) e) (hid : t.annotations.scope? n = some id)
    (hE : ∀ o, E ⟨x, o⟩ → o.scope? t frame ≠ some id)
    (hstart : ∀ level ∈ σ, ∀ o, ⟨x, o⟩ ∈ level → o.scope? t frame ≠ some id) :
    ∃ before' m since, before = before' ++ .declare m x :: since ∧
      t.annotations.scope? m = some id ∧
      Event.Remain since := by
  obtain ⟨use, huse, rfl, rfl, hcases⟩ := hsafe.declares hσ hrun
  obtain ⟨o, id', sc, k, ho, -, hid', hat⟩ := hw.uses use huse
  obtain rfl := Option.mem_unique hid' hid
  obtain hm | ⟨level, hlevel, hm⟩ | ⟨m, before', since, rfl, hbefore, hremain⟩ := hcases o ho
  · exact absurd hat.scope (hE o hm)
  · exact absurd hat.scope (hstart level hlevel o hm)
  · exact ⟨before', m, since, hbefore, hat.scope, hremain⟩

theorem Tables.Lexed.scope {x : String} (h : t.Lexed frame id (names :: outer))
    (hx : names.lookup x = some (some o)) : o.scope? t frame = some id := by
  cases h with
  | root _ _ hn => exact (hn.slot x o hx).1
  | child _ _ _ hn _ => exact (hn.slot x o hx).1

section
variable {u : SourceUnit} {ps : TypedClasses} {t : Tables}

theorem Check.UnitRecorded.definition (h : Check.UnitRecorded u ps t)
    (hall : ps.map (·.1) = u.classes) {d : Definition} (hd : d ∈ u.definitions) :
    ∃ p : Option (ClassDef × ClassType), (∀ q ∈ p, q ∈ ps) ∧
      t.RecordsDefinition u.globalOrigins u.mainWalk.declared (p.map (·.1)) d := by
  rcases List.mem_append.1 hd with hd | hd
  · obtain ⟨c, hc, hd⟩ := List.mem_flatMap.1 hd
    rw [← hall] at hc
    obtain ⟨p, hp, rfl⟩ := List.mem_map.1 hc
    exact ⟨some p, by simpa using hp, (h.classes p hp).definitions d hd⟩
  · obtain ⟨f, hf, rfl⟩ := List.mem_map.1 hd
    exact ⟨none, by simp, h.functions f hf⟩

/-- The variables around a definition are global ones and fields. -/
theorem Check.UnitRecorded.around (h : Check.UnitRecorded u ps t)
    {p : Option (ClassDef × ClassType)}
    (hp : ∀ q ∈ p, q ∈ ps) {frame : Option ScopeId} {names : Origins} {id : ScopeId} {sc : Scope}
    (hn : names ∈ Definition.scopesAround u.globalOrigins (p.map (·.1)))
    (hx : names.lookup x = some (some o)) (hid : o.scope? t frame = some id)
    (hsc : t.scopes.scopes.get? id = some sc) : sc.kind = .global ∨ sc.kind = .members := by
  have hglobal : names = u.globalOrigins → sc.kind = .global := by
    rintro rfl
    obtain rfl : ScopeTree.globalId = id :=
      Option.some.inj (((h.ambient.global frame).scope hx).symm.trans hid)
    obtain ⟨g, hg, -, hk, -⟩ := h.laid.global
    rwa [Option.some.inj (hsc.symm.trans hg)]
  cases p with
  | none => exact .inl (hglobal (List.mem_singleton.1 hn))
  | some p =>
    rcases List.mem_cons.1 hn with rfl | hn
    · obtain ⟨m, hm, hlexed⟩ := h.ambient.members p (hp p rfl)
      obtain ⟨m', hat⟩ := h.members p (hp p rfl)
      obtain rfl := Option.mem_unique hm hat.scope
      obtain rfl : m = id := Option.some.inj (((hlexed frame).scope hx).symm.trans hid)
      obtain ⟨g, hg, hk, -⟩ := hat.isMembers
      exact .inr (by rwa [Option.some.inj (hsc.symm.trans hg)])
    · exact .inl (hglobal (List.mem_singleton.1 hn))

end

/-- In a run of a routine of an accepted unit, a local variable is used only after its declaration
has run, and without leaving what was open at the declaration. The variable is neither a parameter
nor declared by a step. -/
theorem SourceUnit.check_declares_first {u : SourceUnit} {t : Tables} (h : u.check = .ok t)
    (hids : (u.nodes.map (·.id)).Nodup) {r : Option Definition} {c : Control}
    (hc : u.Activation r c) {x : String}
    (hrun : c.Runs (before ++ .use n x :: after) e) {sc : Scope}
    (hid : t.annotations.scope? n = some id) (hsc : t.scopes.scopes.get? id = some sc)
    (hlocal : sc.kind = .function ∨ sc.kind = .block)
    (htaken : ∀ d, r = some d → ∀ v ∈ d.taken, v.name = x →
      v.origin.scope? t (t.frame? d.node.id) ≠ some id)
    (hstep : ∀ d ∈ u.steps, d.name = x → t.annotations.scope? d.node.id ≠ some id) :
    ∃ before' m since, before = before' ++ .declare m x :: since ∧
      t.annotations.scope? m = some id ∧
      Event.Remain since := by
  obtain ⟨s, hchecked, hquiet, rfl⟩ := SourceUnit.check_run h
  obtain ⟨ps, hall, -, hrec⟩ := Check.unit_recorded hids hchecked hquiet
  let E : Variable → Prop := fun v => ∃ d ∈ u.steps, v = ⟨d.name, .node d.node.id⟩
  have hE : ∀ frame o, E ⟨x, o⟩ → o.scope? s.tables frame ≠ some id := by
    intro frame o ⟨d, hd, heq⟩
    cases heq
    exact hstep d hd rfl
  cases hc with
  | main =>
    have hsafe := Stmt.safeAll (E := E) u.statements { scopes := [[]] }
      (fun d hd => ⟨d, List.mem_append_left _ hd, rfl⟩) (List.Subset.refl _)
    exact hrec.main.declares hsafe (covers_level E _) hrun hid (hE none) (by simp [Origins.level])
  | @definition d hd =>
    obtain ⟨p, hp, frame, hframe, -, hdef⟩ := hrec.definition hall hd
    obtain ⟨names, w, hwalk, hscopes, hnames⟩ :=
      d.walk_eq (Definition.scopesAround u.globalOrigins (p.map (·.1)))
    rw [hwalk] at hdef
    obtain ⟨_, hsafe⟩ := d.body.safe (E := E) w (fun d' hd' =>
      ⟨d', List.mem_append_right _ (List.mem_flatMap.2 ⟨d, hd, hd'⟩), rfl⟩) (List.Subset.refl _)
    refine hdef.declares hsafe (covers_level E _) hrun hid (hE _) fun level hlevel o ho => ?_
    obtain ⟨names', hmem, rfl⟩ := List.mem_map.1 hlevel
    rw [Origins.mem_level] at ho
    rw [hscopes] at hmem
    rcases List.mem_cons.1 hmem with rfl | hmem
    · have hne := htaken d rfl _ (hnames x o ho) rfl
      rwa [hframe] at hne
    · intro heq
      have hkind := hrec.around hp hmem ho heq hsc
      rcases hlocal with hk | hk <;> simp [hk] at hkind

/-- A loop whose step declares a variable that its body uses: `for (int i = 0; true; int k = 1) i =
k`. -/
def stepLoop : SourceUnit :=
  { statements := [
      .forLoop 0
        (some (.declaration 1 ⟨2, .int, "i", some (.literal 3 (.int 0))⟩))
        (.literal 4 (.bool true))
        (some (.declaration 5 ⟨6, .int, "k", some (.literal 7 (.int 1))⟩))
        (.mk 8 [.assignment 9 (.name 10 "i") (.name 11 "k")])] }

/-- One pass through the loop. -/
def stepLoop.pass : List Event := [.enter, .use 10 "i", .use 11 "k", .leave, .declare 6 "k"]

/-- The loop may be left after any number of passes. -/
theorem stepLoop_runs (passes : Nat) : (Stmt.controlAll stepLoop.statements).Runs
    (.enter :: .declare 2 "i" :: (List.replicate passes stepLoop.pass).flatten ++ [.leave])
    .done := by
  have hbody : ∀ n,
      (Control.repeated (.seq (.inside (.seq (.uses [(10, "i"), (11, "k")]) (.uses [])))
      (.seq (.seq (.uses []) (.declare 6 "k")) (.uses [])))).Runs
        (List.replicate n stepLoop.pass).flatten .done := by
    intro n
    induction n with
    | zero => exact .last
    | succ n ih =>
      exact .again (.seq (.inside (.seq .uses .uses) (by decide))
        (.seq (.seq .uses .declare) .uses)) ih
  have hloop : Control.Runs (.inside (.seq (.seq (.uses []) (.declare 2 "i")) (.seq (.uses []) _)))
      (.enter :: .declare 2 "i" :: (List.replicate passes stepLoop.pass).flatten ++ [.leave])
      .done :=
    .inside (.seq (.seq .uses .declare) (.seq .uses (hbody passes))) (by decide)
  have hall := hloop.seq (@Control.Runs.uses [])
  rwa [Event.uses, List.map_nil, List.append_nil] at hall

theorem stepLoop_checked : ∃ t sc, stepLoop.check = .ok t ∧ t.annotations.scope? 10 = some 1 ∧
    t.annotations.scope? 11 = some 1 ∧ t.scopes.scopes.get? 1 = some sc ∧ sc.kind = .block := by
  have hfacts : (stepLoop.check.toOption.map fun t =>
    (t.annotations.scope? 10, t.annotations.scope? 11, (t.scopes.scopes.get? 1).map (·.kind))) =
      some (some 1, some 1, some .block) := by decide +kernel
  cases hc : stepLoop.check with
  | error => simp [hc, Except.toOption] at hfacts
  | ok t =>
    simp only [hc, Except.toOption, Option.map_some, Option.some.injEq, Prod.mk.injEq,
      Option.map_eq_some_iff] at hfacts
    obtain ⟨hi, hk, sc, hsc, hkind⟩ := hfacts
    exact ⟨t, sc, rfl, hi, hk, hsc, hkind⟩

/-- The first pass uses the variable of the step, which has not been declared. -/
theorem stepLoop_uses_undeclared : ∃ t sc before after, stepLoop.check = .ok t ∧
    (stepLoop.nodes.map (·.id)).Nodup ∧
    (Stmt.controlAll stepLoop.statements).Runs (before ++ .use 11 "k" :: after) .done ∧
    t.annotations.scope? 11 = some 1 ∧ t.scopes.scopes.get? 1 = some sc ∧ sc.kind = .block ∧
    ∀ m, .declare m "k" ∉ before := by
  obtain ⟨t, sc, hc, -, hk, hsc, hkind⟩ := stepLoop_checked
  exact ⟨t, sc, [.enter, .declare 2 "i", .enter, .use 10 "i"], [.leave, .declare 6 "k", .leave], hc,
    by decide,
    stepLoop_runs 1, hk, hsc, hkind, by simp⟩

/-- In the second pass, the variable of the loop has been declared before the first one. -/
theorem stepLoop_declares_first : ∃ t sc, stepLoop.check = .ok t ∧
    (stepLoop.nodes.map (·.id)).Nodup ∧ (Stmt.controlAll stepLoop.statements).Runs
      ((.enter :: .declare 2 "i" :: stepLoop.pass ++ [.enter]) ++
      .use 10 "i" :: [.use 11 "k", .leave, .declare 6 "k", .leave]) .done ∧
    t.annotations.scope? 10 = some 1 ∧ t.scopes.scopes.get? 1 = some sc ∧ sc.kind = .block ∧
    (∀ d ∈ stepLoop.steps, d.name ≠ "i") ∧
    ∃ before' m since, .enter :: .declare 2 "i" :: stepLoop.pass ++ [.enter] =
      before' ++ .declare m "i" :: since ∧ t.annotations.scope? m = some 1 ∧
      Event.Remain since := by
  obtain ⟨t, sc, hc, hi, -, hsc, hkind⟩ := stepLoop_checked
  have hids : (stepLoop.nodes.map (·.id)).Nodup := by decide
  have hrun : (Stmt.controlAll stepLoop.statements).Runs
    ((.enter :: .declare 2 "i" :: stepLoop.pass ++ [.enter]) ++
      .use 10 "i" :: [.use 11 "k", .leave, .declare 6 "k", .leave]) .done := stepLoop_runs 2
  have hsteps : ∀ d ∈ stepLoop.steps, d.name ≠ "i" := by decide
  exact ⟨t, sc, hc, hids, hrun, hi, hsc, hkind, hsteps,
    SourceUnit.check_declares_first hc hids .main hrun hi hsc
    (.inr hkind) (fun d h => by cases h) fun d hd hx => absurd hx (hsteps d hd)⟩

end Awl
