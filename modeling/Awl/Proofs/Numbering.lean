import Mathlib.Data.List.Forall2
import Awl.Syntax.Nodes

/-!
# Units that differ in their nodes

The numbers of nodes and their places in the source text carry no meaning of their own.
`SourceUnit.bare` removes them. `SourceUnit.Like R` relates two units that are otherwise equal,
whose nodes belong together by `R`. Two units that are equal without their nodes are alike for the
relation between corresponding nodes (`SourceUnit.aligned`).
-/

namespace Awl

/-! ## Syntax without nodes -/

mutual

def Expr.bare : Expr → Expr
  | .literal _ l => .literal 0 l
  | .name _ x => .name 0 x
  | .enumValue _ x member => .enumValue 0 x member
  | .arrayLiteral _ es => .arrayLiteral 0 (Expr.bareAll es)
  | .newArray _ t l => .newArray 0 t l.bare
  | .index _ a i => .index 0 a.bare i.bare
  | .field _ o x => .field 0 o.bare x
  | .call _ f es => .call 0 f (Expr.bareAll es)
  | .methodCall _ r x es => .methodCall 0 r.bare x (Expr.bareAll es)
  | .new _ c es => .new 0 c (Expr.bareAll es)
  | .unary _ op e => .unary 0 op e.bare
  | .binary _ op l r => .binary 0 op l.bare r.bare

def Expr.bareAll : List Expr → List Expr
  | [] => []
  | e :: es => e.bare :: Expr.bareAll es

end

def Target.bare : Target → Target
  | .name _ x => .name 0 x
  | .index _ a i => .index 0 a.bare i.bare
  | .field _ o x => .field 0 o.bare x

def Declaration.bare (d : Declaration) : Declaration :=
  { d with node := 0, initializer := d.initializer.map Expr.bare }

mutual

def Stmt.bare : Stmt → Stmt
  | .declaration _ d => .declaration 0 d.bare
  | .assignment _ t v => .assignment 0 t.bare v.bare
  | .ifElse _ c b b' => .ifElse 0 c.bare b.bare (Block.bareOption b')
  | .whileLoop _ c b => .whileLoop 0 c.bare b.bare
  | .doLoop _ b c => .doLoop 0 b.bare c.bare
  | .forLoop _ i c s b => .forLoop 0 (Stmt.bareOption i) c.bare (Stmt.bareOption s) b.bare
  | .block _ b => .block 0 b.bare
  | .switch _ d cases f => .switch 0 d.bare (Case.bareAll cases) (Block.bareOption f)
  | .next _ => .next 0
  | .return _ v => .return 0 (v.map Expr.bare)
  | .expression _ e => .expression 0 e.bare
  | .acquire _ l => .acquire 0 l.bare
  | .release _ l => .release 0 l.bare

def Stmt.bareOption : Option Stmt → Option Stmt
  | none => none
  | some s => some s.bare

def Stmt.bareAll : List Stmt → List Stmt
  | [] => []
  | s :: ss => s.bare :: Stmt.bareAll ss

def Block.bare : Block → Block
  | .mk _ ss => .mk 0 (Stmt.bareAll ss)

def Block.bareOption : Option Block → Option Block
  | none => none
  | some b => some b.bare

def Case.bareAll : List Case → List Case
  | [] => []
  | .mk _ v b :: cases => .mk 0 v.bare b.bare :: Case.bareAll cases

end

def Parameter.bare (p : Parameter) : Parameter := { p with node := 0 }

def FunctionBody.bare : FunctionBody → FunctionBody
  | .block b => .block b.bare
  | .expression e => .expression e.bare

def FunctionDef.bare (f : FunctionDef) : FunctionDef :=
  { f with node := 0, parameters := f.parameters.map Parameter.bare, body := f.body.bare }

def ConstructorDef.bare (c : ConstructorDef) : ConstructorDef :=
  { node := 0, parameters := c.parameters.map Parameter.bare, body := c.body.bare }

def ClassDef.bare (c : ClassDef) : ClassDef :=
  { c with
    node := 0
    fields := c.fields.map Declaration.bare
    methods := c.methods.map FunctionDef.bare
    constructors := c.constructors.map ConstructorDef.bare }

def EnumDef.bare (e : EnumDef) : EnumDef := { e with node := 0 }

/-- A unit without the numbers and places of its nodes. -/
def SourceUnit.bare (u : SourceUnit) : SourceUnit where
  enums := u.enums.map EnumDef.bare
  classes := u.classes.map ClassDef.bare
  functions := u.functions.map FunctionDef.bare
  statements := Stmt.bareAll u.statements

/-! ## Syntax with related nodes -/

/-- Which nodes of two units belong together. -/
structure NodePairs where
  /-- Nodes of expressions, declarations and parameters. -/
  code : Node → Node → Prop
  /-- Nodes of functions. -/
  head : Node → Node → Prop
  /-- Nodes that only have a place in the source, such as those of statements. -/
  mark : Node → Node → Prop

section
variable (R : NodePairs)

mutual

/-- Expressions that differ in their nodes only, which belong together. -/
def Expr.Like : Expr → Expr → Prop
  | .literal n l, e' => ∃ n', e' = .literal n' l ∧ R.code n n'
  | .name n x, e' => ∃ n', e' = .name n' x ∧ R.code n n'
  | .enumValue n x member, e' => ∃ n', e' = .enumValue n' x member ∧ R.code n n'
  | .arrayLiteral n es, e' =>
    ∃ n' es', e' = .arrayLiteral n' es' ∧ R.code n n' ∧ Expr.LikeAll es es'
  | .newArray n t l, e' => ∃ n' l', e' = .newArray n' t l' ∧ R.code n n' ∧ l.Like l'
  | .index n a i, e' => ∃ n' a' i', e' = .index n' a' i' ∧ R.code n n' ∧ a.Like a' ∧ i.Like i'
  | .field n o x, e' => ∃ n' o', e' = .field n' o' x ∧ R.code n n' ∧ o.Like o'
  | .call n f es, e' => ∃ n' es', e' = .call n' f es' ∧ R.code n n' ∧ Expr.LikeAll es es'
  | .methodCall n r x es, e' =>
    ∃ n' r' es', e' = .methodCall n' r' x es' ∧ R.code n n' ∧ r.Like r' ∧ Expr.LikeAll es es'
  | .new n c es, e' => ∃ n' es', e' = .new n' c es' ∧ R.code n n' ∧ Expr.LikeAll es es'
  | .unary n op e, e' => ∃ n' o', e' = .unary n' op o' ∧ R.code n n' ∧ e.Like o'
  | .binary n op l r, e' =>
    ∃ n' l' r', e' = .binary n' op l' r' ∧ R.code n n' ∧ l.Like l' ∧ r.Like r'

def Expr.LikeAll : List Expr → List Expr → Prop
  | [], es' => es' = []
  | e :: es, es' => ∃ e' es'', es' = e' :: es'' ∧ e.Like e' ∧ Expr.LikeAll es es''

end

variable {R} in
theorem Expr.Like.node {e e' : Expr} (h : e.Like R e') : R.code e.node e'.node := by
  cases e <;> simp only [Expr.Like] at h
  case literal | name | enumValue =>
    obtain ⟨_, rfl, hn⟩ := h
    exact hn
  case arrayLiteral | newArray | field | call | new | unary =>
    obtain ⟨_, _, rfl, hn, -⟩ := h
    exact hn
  case index | methodCall | binary =>
    obtain ⟨_, _, _, rfl, hn, -⟩ := h
    exact hn

variable {R} in
theorem Expr.Like.isPlace_eq {e e' : Expr} (h : e.Like R e') : e'.isPlace = e.isPlace := by
  cases e <;> simp only [Expr.Like] at h
  case literal | name | enumValue => obtain ⟨n', rfl, -⟩ := h; rfl
  case arrayLiteral | newArray | field | call | new | unary => obtain ⟨n', e', rfl, -⟩ := h; rfl
  case index | methodCall | binary => obtain ⟨n', a', b', rfl, -⟩ := h; rfl

def Expr.LikeOption : Option Expr → Option Expr → Prop := Option.Rel (Expr.Like R)

def Target.Like : Target → Target → Prop
  | .name n x, t' => ∃ n', t' = .name n' x ∧ R.code n n'
  | .index n a i, t' => ∃ n' a' i', t' = .index n' a' i' ∧ R.code n n' ∧ a.Like R a' ∧ i.Like R i'
  | .field n o x, t' => ∃ n' o', t' = .field n' o' x ∧ R.code n n' ∧ o.Like R o'

structure Declaration.Like (d d' : Declaration) : Prop where
  node : R.code d.node d'.node
  type : d'.type = d.type
  name : d'.name = d.name
  initializer : Expr.LikeOption R d.initializer d'.initializer

mutual

/-- Statements that differ in their nodes only. Their own nodes matter where something is reported
there. -/
def Stmt.Like : Stmt → Stmt → Prop
  | .declaration _ d, s' => ∃ n' d', s' = .declaration n' d' ∧ d.Like R d'
  | .assignment n t v, s' =>
    ∃ n' t' v', s' = .assignment n' t' v' ∧ R.mark n n' ∧ t.Like R t' ∧ v.Like R v'
  | .ifElse _ c b f, s' =>
    ∃ n' c' b' f', s' = .ifElse n' c' b' f' ∧ c.Like R c' ∧ b.Like b' ∧ Block.LikeOption f f'
  | .whileLoop _ c b, s' => ∃ n' c' b', s' = .whileLoop n' c' b' ∧ c.Like R c' ∧ b.Like b'
  | .doLoop _ b c, s' => ∃ n' b' c', s' = .doLoop n' b' c' ∧ b.Like b' ∧ c.Like R c'
  | .forLoop _ i c s b, s' =>
    ∃ n' i' c' t' b', s' = .forLoop n' i' c' t' b' ∧ Stmt.LikeOption i i' ∧
      c.Like R c' ∧ Stmt.LikeOption s t' ∧ b.Like b'
  | .block _ b, s' => ∃ n' b', s' = .block n' b' ∧ b.Like b'
  | .switch _ d cases f, s' => ∃ n' d' cases' f', s' = .switch n' d' cases' f' ∧ d.Like R d' ∧
    Case.LikeAll cases cases' ∧ Block.LikeOption f f'
  | .next n, s' => ∃ n', s' = .next n' ∧ R.mark n n'
  | .return n v, s' => ∃ n' v', s' = .return n' v' ∧ R.mark n n' ∧ Expr.LikeOption R v v'
  | .expression _ e, s' => ∃ n' e', s' = .expression n' e' ∧ e.Like R e'
  | .acquire _ l, s' => ∃ n' l', s' = .acquire n' l' ∧ l.Like R l'
  | .release _ l, s' => ∃ n' l', s' = .release n' l' ∧ l.Like R l'
termination_by structural s => s

def Stmt.LikeOption : Option Stmt → Option Stmt → Prop
  | none, s' => s' = none
  | some s, s' => ∃ t', s' = some t' ∧ s.Like t'
termination_by structural s => s

def Stmt.LikeAll : List Stmt → List Stmt → Prop
  | [], ss' => ss' = []
  | s :: ss, ss' => ∃ s' ss'', ss' = s' :: ss'' ∧ s.Like s' ∧ Stmt.LikeAll ss ss''
termination_by structural ss => ss

def Block.Like : Block → Block → Prop
  | .mk _ ss, b' => ∃ n' ss', b' = .mk n' ss' ∧ Stmt.LikeAll ss ss'
termination_by structural b => b

def Block.LikeOption : Option Block → Option Block → Prop
  | none, b' => b' = none
  | some b, b' => ∃ c', b' = some c' ∧ b.Like c'
termination_by structural b => b

def Case.LikeAll : List Case → List Case → Prop
  | [], cases' => cases' = []
  | .mk n v b :: cases, cases' =>
    ∃ n' v' b' cases'', cases' = .mk n' v' b' :: cases'' ∧ R.mark n n' ∧
      v.Like R v' ∧ b.Like b' ∧ Case.LikeAll cases cases''
termination_by structural cases => cases

end

variable {R} in
theorem Expr.length_likeAll {es es' : List Expr} (h : Expr.LikeAll R es es') :
    es'.length = es.length := by
  induction es generalizing es' with
  | nil => rw [show es' = [] from h]
  | cons e es ih =>
    obtain ⟨_, es', rfl, -, hes⟩ := h
    simp only [List.length_cons, ih hes]

variable {R} in
theorem Case.length_likeAll {cases cases' : List Case}
    (h : Case.LikeAll R cases cases') : cases'.length = cases.length := by
  induction cases generalizing cases' with
  | nil => rw [show cases' = [] from h]
  | cons c cases ih =>
    obtain ⟨_, _, _⟩ := c
    obtain ⟨_, _, _, cases', rfl, -, -, -, hcases⟩ := h
    simp only [List.length_cons, ih hcases]

structure Parameter.Like (p p' : Parameter) : Prop where
  node : R.code p.node p'.node
  name : p'.name = p.name
  type : p'.type = p.type

inductive FunctionBody.Like : FunctionBody → FunctionBody → Prop
  | block {b b' : Block} : b.Like R b' → FunctionBody.Like (.block b) (.block b')
  | expression {e e' : Expr} : e.Like R e' → FunctionBody.Like (.expression e) (.expression e')

structure FunctionDef.Like (f f' : FunctionDef) : Prop where
  node : R.head f.node f'.node
  name : f'.name = f.name
  parameters : List.Forall₂ (Parameter.Like R) f.parameters f'.parameters
  returnType : f'.returnType = f.returnType
  isThread : f'.isThread = f.isThread
  body : f.body.Like R f'.body

structure ConstructorDef.Like (c c' : ConstructorDef) : Prop where
  node : R.head c.node c'.node
  parameters : List.Forall₂ (Parameter.Like R) c.parameters c'.parameters
  body : c.body.Like R c'.body

structure ClassDef.Like (c c' : ClassDef) : Prop where
  node : R.mark c.node c'.node
  name : c'.name = c.name
  fields : List.Forall₂ (Declaration.Like R) c.fields c'.fields
  methods : List.Forall₂ (FunctionDef.Like R) c.methods c'.methods
  constructors : List.Forall₂ (ConstructorDef.Like R) c.constructors c'.constructors

structure EnumDef.Like (e e' : EnumDef) : Prop where
  node : R.mark e.node e'.node
  name : e'.name = e.name
  values : e'.values = e.values

/-- Units that differ in their nodes only, which belong together. -/
structure SourceUnit.Like (u u' : SourceUnit) : Prop where
  enums : List.Forall₂ (EnumDef.Like R) u.enums u'.enums
  classes : List.Forall₂ (ClassDef.Like R) u.classes u'.classes
  functions : List.Forall₂ (FunctionDef.Like R) u.functions u'.functions
  statements : Stmt.LikeAll R u.statements u'.statements

end

/-! ## Corresponding nodes -/

/-- The nodes of two lists of entries correspond to each other. -/
abbrev Corresponds (r : NodeId → NodeId → Prop) (ns ns' : List NodeEntry) : Prop :=
  List.Forall₂ (fun n n' : NodeEntry => r n.id n'.id) ns ns'

/-- Nodes with related numbers belong together. -/
class NodePairs.Follows (R : NodePairs) (r : NodeId → NodeId → Prop) : Prop where
  code : ∀ {n n' : Node}, r n.id n'.id → R.code n n'
  head : ∀ {n n' : Node}, r n.id n'.id → R.head n n'
  mark : ∀ {n n' : Node}, R.mark n n'

/-- Lists of entries of one length, from whose correspondence `p` follows. -/
structure Aligned (r : NodeId → NodeId → Prop) (ns ns' : List NodeEntry) (p : Prop) : Prop where
  length : ns.length = ns'.length
  holds : Corresponds r ns ns' → p

section
variable {r : NodeId → NodeId → Prop} {R : NodePairs} [hrel : R.Follows r]

namespace Aligned

variable {ns ns' ms ms' : List NodeEntry} {n n' : NodeEntry} {p q : Prop}

theorem imp (h : Aligned r ns ns' p) (hpq : p → q) : Aligned r ns ns' q := ⟨h.length, hpq ∘ h.holds⟩

theorem nil (h : p) : Aligned r [] [] p := ⟨rfl, fun _ => h⟩

theorem cons (h : Aligned r ns ns' p) : Aligned r (n :: ns) (n' :: ns') (r n.id n'.id ∧ p) :=
  ⟨congrArg (· + 1) h.length, fun hR => (List.forall₂_cons.1 hR).imp id h.holds⟩

theorem single : Aligned r [n] [n'] (r n.id n'.id) := (nil trivial).cons.imp And.left

theorem append (h : Aligned r ns ns' p) (h' : Aligned r ms ms' q) :
    Aligned r (ns ++ ms) (ns' ++ ms') (p ∧ q) where
  length := by rw [List.length_append, List.length_append, h.length, h'.length]
  holds hR := by
    have hfirst := List.forall₂_take_append _ _ _ hR
    have hrest := List.forall₂_drop_append _ _ _ hR
    rw [List.take_left' h.length] at hfirst
    rw [List.drop_left' h.length] at hrest
    exact ⟨h.holds hfirst, h'.holds hrest⟩

/-- Lists of parts that are equal without their nodes, part by part. -/
theorem flatMap {α : Type} {bare : α → α} {nodes : α → List NodeEntry} {L : α → α → Prop}
    (hpart : ∀ {a a'}, bare a = bare a' → Aligned r (nodes a) (nodes a') (L a a')) :
    ∀ {as as' : List α}, as.map bare = as'.map bare →
      Aligned r (as.flatMap nodes) (as'.flatMap nodes) (List.Forall₂ L as as')
  | [], [], _ => nil .nil
  | a :: as, a' :: as', h => by
    obtain ⟨ha, has⟩ := List.cons.inj h
    exact ((hpart ha).append (flatMap hpart has)).imp fun h => .cons h.1 h.2

end Aligned

omit hrel in
mutual

theorem Expr.aligned [hrel : R.Follows r] : ∀ e e' : Expr, e.bare = e'.bare →
    Aligned r e.nodes e'.nodes (e.Like R e')
  | .literal .., .literal .., h => by
    injection h with _ hl
    subst hl
    exact Aligned.single.imp fun hn => ⟨_, rfl, hrel.code hn⟩
  | .name .., .name .., h => by
    injection h with _ hx
    subst hx
    exact Aligned.single.imp fun hn => ⟨_, rfl, hrel.code hn⟩
  | .enumValue .., .enumValue .., h => by
    injection h with _ hx hmember
    subst hx hmember
    exact Aligned.single.imp fun hn => ⟨_, rfl, hrel.code hn⟩
  | .arrayLiteral _ es, .arrayLiteral .., h => by
    injection h with _ hes
    exact (Expr.alignedAll es _ hes).cons.imp fun h => ⟨_, _, rfl, hrel.code h.1, h.2⟩
  | .newArray _ _ l, .newArray .., h => by
    injection h with _ ht hl
    subst ht
    exact (Expr.aligned l _ hl).cons.imp fun h => ⟨_, _, rfl, hrel.code h.1, h.2⟩
  | .index _ a i, .index .., h => by
    injection h with _ ha hi
    exact ((Expr.aligned a _ ha).append (Expr.aligned i _ hi)).cons.imp fun h =>
      ⟨_, _, _, rfl, hrel.code h.1, h.2⟩
  | .field _ o _, .field .., h => by
    injection h with _ ho hx
    subst hx
    exact (Expr.aligned o _ ho).cons.imp fun h => ⟨_, _, rfl, hrel.code h.1, h.2⟩
  | .call _ _ es, .call .., h => by
    injection h with _ hf hes
    subst hf
    exact (Expr.alignedAll es _ hes).cons.imp fun h => ⟨_, _, rfl, hrel.code h.1, h.2⟩
  | .methodCall _ o _ es, .methodCall .., h => by
    injection h with _ ho hx hes
    subst hx
    exact ((Expr.aligned o _ ho).append (Expr.alignedAll es _ hes)).cons.imp fun h =>
      ⟨_, _, _, rfl, hrel.code h.1, h.2⟩
  | .new _ _ es, .new .., h => by
    injection h with _ hc hes
    subst hc
    exact (Expr.alignedAll es _ hes).cons.imp fun h => ⟨_, _, rfl, hrel.code h.1, h.2⟩
  | .unary _ _ e, .unary .., h => by
    injection h with _ hop he
    subst hop
    exact (Expr.aligned e _ he).cons.imp fun h => ⟨_, _, rfl, hrel.code h.1, h.2⟩
  | .binary _ _ a b, .binary .., h => by
    injection h with _ hop ha hb
    subst hop
    exact ((Expr.aligned a _ ha).append (Expr.aligned b _ hb)).cons.imp fun h =>
      ⟨_, _, _, rfl, hrel.code h.1, h.2⟩

theorem Expr.alignedAll [hrel : R.Follows r] : ∀ es es' : List Expr,
    Expr.bareAll es = Expr.bareAll es' →
    Aligned r (Expr.nodesAll es) (Expr.nodesAll es') (Expr.LikeAll R es es')
  | [], [], _ => .nil rfl
  | e :: es, _ :: _, h => by
    injection h with he hes
    exact ((Expr.aligned e _ he).append (Expr.alignedAll es _ hes)).imp fun h => ⟨_, _, rfl, h⟩

end

theorem Expr.alignedOption : ∀ {v v' : Option Expr}, v.map Expr.bare = v'.map Expr.bare →
    Aligned r (Expr.nodesOption v) (Expr.nodesOption v') (Expr.LikeOption R v v')
  | none, none, _ => .nil .none
  | some e, some e', h => (e.aligned e' (Option.some.inj h)).imp .some

theorem Target.aligned : ∀ {t t' : Target}, t.bare = t'.bare →
    Aligned r t.nodes t'.nodes (t.Like R t')
  | .name .., .name .., h => by
    injection h with _ hx
    subst hx
    exact Aligned.single.imp fun hn => ⟨_, rfl, hrel.code hn⟩
  | .index _ a i, .index .., h => by
    injection h with _ ha hi
    exact ((a.aligned _ ha).append (i.aligned _ hi)).cons.imp fun h =>
      ⟨_, _, _, rfl, hrel.code h.1, h.2⟩
  | .field _ o _, .field .., h => by
    injection h with _ ho hx
    subst hx
    exact (o.aligned _ ho).cons.imp fun h => ⟨_, _, rfl, hrel.code h.1, h.2⟩

theorem Declaration.aligned {d d' : Declaration} (h : d.bare = d'.bare) :
    Aligned r d.nodes d'.nodes (d.Like R d') := by
  injection h with _ ht hx hv
  exact (Expr.alignedOption hv).cons.imp fun h => ⟨hrel.code h.1, ht.symm, hx.symm, h.2⟩

omit hrel in
mutual

theorem Stmt.aligned [hrel : R.Follows r] : ∀ s s' : Stmt, s.bare = s'.bare →
    Aligned r s.nodes s'.nodes (s.Like R s')
  | .declaration _ d, .declaration .., h => by
    injection h with _ hd
    exact (Declaration.aligned hd).imp fun h => ⟨_, _, rfl, h⟩
  | .assignment _ t v, .assignment .., h => by
    injection h with _ ht hv
    exact ((Target.aligned ht).append (v.aligned _ hv)).imp fun h => ⟨_, _, _, rfl, hrel.mark, h⟩
  | .ifElse _ c b f, .ifElse .., h => by
    injection h with _ hc hb hf
    exact (((c.aligned _ hc).append (Block.aligned b _ hb)).append (Block.alignedOption f _ hf)).imp
      fun ⟨⟨hc, hb⟩, hf⟩ => ⟨_, _, _, _, rfl, hc, hb, hf⟩
  | .whileLoop _ c b, .whileLoop .., h => by
    injection h with _ hc hb
    exact ((c.aligned _ hc).append (Block.aligned b _ hb)).imp fun h => ⟨_, _, _, rfl, h⟩
  | .doLoop _ b c, .doLoop .., h => by
    injection h with _ hb hc
    exact ((Block.aligned b _ hb).append (c.aligned _ hc)).imp fun h => ⟨_, _, _, rfl, h⟩
  | .forLoop _ i c s b, .forLoop .., h => by
    injection h with _ hi hc hs hb
    exact ((((Stmt.alignedOption i _ hi).append (c.aligned _ hc)).append
      (Stmt.alignedOption s _ hs)).append
      (Block.aligned b _ hb)).imp fun ⟨⟨⟨hi, hc⟩, hs⟩, hb⟩ => ⟨_, _, _, _, _, rfl, hi, hc, hs, hb⟩
  | .block _ b, .block .., h => by
    injection h with _ hb
    exact (Block.aligned b _ hb).imp fun h => ⟨_, _, rfl, h⟩
  | .switch _ d cases f, .switch .., h => by
    injection h with _ hd hcases hf
    exact (((d.aligned _ hd).append (Case.alignedAll cases _ hcases)).append
      (Block.alignedOption f _ hf)).imp
      fun ⟨⟨hd, hcases⟩, hf⟩ => ⟨_, _, _, _, rfl, hd, hcases, hf⟩
  | .next _, .next _, _ => .nil ⟨_, rfl, hrel.mark⟩
  | .return _ v, .return .., h => by
    injection h with _ hv
    exact (Expr.alignedOption hv).imp fun h => ⟨_, _, rfl, hrel.mark, h⟩
  | .expression _ e, .expression .., h | .acquire _ e, .acquire .., h | .release _ e,
      .release .., h => by
    injection h with _ he
    exact (e.aligned _ he).imp fun h => ⟨_, _, rfl, h⟩
termination_by structural s => s

theorem Stmt.alignedOption [hrel : R.Follows r] :
    ∀ s s' : Option Stmt, Stmt.bareOption s = Stmt.bareOption s' →
    Aligned r (Stmt.nodesOption s) (Stmt.nodesOption s') (Stmt.LikeOption R s s')
  | none, none, _ => .nil rfl
  | some s, some _, h => by
    injection h with hs
    exact (Stmt.aligned s _ hs).imp fun h => ⟨_, rfl, h⟩
termination_by structural s => s

theorem Stmt.alignedAll [hrel : R.Follows r] : ∀ ss ss' : List Stmt,
    Stmt.bareAll ss = Stmt.bareAll ss' →
    Aligned r (Stmt.nodesAll ss) (Stmt.nodesAll ss') (Stmt.LikeAll R ss ss')
  | [], [], _ => .nil rfl
  | s :: ss, _ :: _, h => by
    injection h with hs hss
    exact ((Stmt.aligned s _ hs).append (Stmt.alignedAll ss _ hss)).imp fun h => ⟨_, _, rfl, h⟩
termination_by structural ss => ss

theorem Block.aligned [hrel : R.Follows r] : ∀ b b' : Block, b.bare = b'.bare →
    Aligned r b.nodes b'.nodes (b.Like R b')
  | .mk _ ss, .mk .., h => by
    injection h with _ hss
    exact (Stmt.alignedAll ss _ hss).imp fun h => ⟨_, _, rfl, h⟩
termination_by structural b => b

theorem Block.alignedOption [hrel : R.Follows r] :
    ∀ b b' : Option Block, Block.bareOption b = Block.bareOption b' →
    Aligned r (Block.nodesOption b) (Block.nodesOption b') (Block.LikeOption R b b')
  | none, none, _ => .nil rfl
  | some b, some _, h => by
    injection h with hb
    exact (Block.aligned b _ hb).imp fun h => ⟨_, rfl, h⟩
termination_by structural b => b

theorem Case.alignedAll [hrel : R.Follows r] : ∀ cases cases' : List Case,
    Case.bareAll cases = Case.bareAll cases' →
    Aligned r (Case.nodesAll cases) (Case.nodesAll cases') (Case.LikeAll R cases cases')
  | [], [], _ => .nil rfl
  | [], .mk .. :: _, h => nomatch h
  | .mk _ v b :: cases, .mk .. :: _, h => by
    injection h with hcase hcases
    injection hcase with _ hv hb
    exact (((v.aligned _ hv).append (Block.aligned b _ hb)).append
      (Case.alignedAll cases _ hcases)).imp
      fun ⟨⟨hv, hb⟩, hcases⟩ => ⟨_, _, _, _, rfl, hrel.mark, hv, hb, hcases⟩
termination_by structural cases => cases

end

/-! ## Corresponding definitions -/

theorem Parameter.aligned {ps ps' : List Parameter}
    (h : ps.map Parameter.bare = ps'.map Parameter.bare) :
    Aligned r (ps.map Parameter.entry) (ps'.map Parameter.entry)
      (List.Forall₂ (Parameter.Like R) ps ps') := by
  rw [List.map_eq_flatMap, List.map_eq_flatMap]
  refine Aligned.flatMap (fun h => Aligned.single.imp fun hn => ?_) h
  injection h with _ hx ht
  exact { node := hrel.code hn, name := hx.symm, type := ht.symm }

theorem FunctionBody.aligned : ∀ {b b' : FunctionBody}, b.bare = b'.bare →
    Aligned r b.nodes b'.nodes (b.Like R b')
  | .block b, .block _, h => (b.aligned _ (FunctionBody.block.inj h)).imp .block
  | .expression e, .expression _, h => (e.aligned _ (FunctionBody.expression.inj h)).imp .expression

theorem FunctionDef.aligned {f f' : FunctionDef} (h : f.bare = f'.bare) :
    Aligned r f.nodes f'.nodes (f.Like R f') := by
  injection h with _ hx hps ht hthread hb
  exact ((Parameter.aligned hps).append (FunctionBody.aligned hb)).cons.imp fun h => {
    node := hrel.head h.1
    name := hx.symm
    parameters := h.2.1
    returnType := ht.symm
    isThread := hthread.symm
    body := h.2.2 }

theorem ConstructorDef.aligned {c c' : ConstructorDef} (h : c.bare = c'.bare) :
    Aligned r c.nodes c'.nodes (c.Like R c') := by
  injection h with _ hps hb
  exact ((Parameter.aligned hps).append (Block.aligned _ _ hb)).cons.imp fun h =>
    ⟨hrel.head h.1, h.2.1, h.2.2⟩

theorem ClassDef.aligned {c c' : ClassDef} (h : c.bare = c'.bare) :
    Aligned r c.nodes c'.nodes (c.Like R c') := by
  injection h with _ hx hf hm hc
  exact (((Aligned.flatMap Declaration.aligned hf).append (.flatMap FunctionDef.aligned hm)).append
    (.flatMap ConstructorDef.aligned hc)).imp fun h => {
      node := hrel.mark
      name := hx.symm
      fields := h.1.1
      methods := h.1.2
      constructors := h.2 }

/-- Units that are equal without their nodes are alike, if nodes with corresponding numbers belong
together. -/
theorem SourceUnit.aligned {u u' : SourceUnit} (h : u.bare = u'.bare) :
    Aligned r u.nodes u'.nodes (u.Like R u') := by
  injection h with he hc hf hs
  have hes : List.Forall₂ (EnumDef.Like R) u.enums u'.enums := by
    have := List.forall₂_eq_eq_eq ▸ he
    rw [List.forall₂_map_left_iff, List.forall₂_map_right_iff] at this
    refine this.imp fun e e' h => ?_
    injection h with _ hx hvalues
    exact { node := hrel.mark, name := hx.symm, values := hvalues.symm }
  exact (((Aligned.flatMap ClassDef.aligned hc).append (.flatMap FunctionDef.aligned hf)).append
    (Stmt.alignedAll _ _ hs)).imp fun h =>
    { enums := hes, classes := h.1.1, functions := h.1.2, statements := h.2 }

end

end Awl
