import Awl.Proofs.Ready

/-!
# Names under lexical scoping

`Stmt.walk` reads code in the order in which it is checked and notes, for every use of a name, the
declaration that the innermost scope around it had for the name so far, and every variable that gets
a slot. It knows neither scope numbers nor slots. `Tables.Follows` relates the tables to a walk:
every use noted has the scope of its declaration, and no two variables of the walk have the same
scope and name. The steps of a walk keep that (`Tables.Follows.use`, `.declare`, `.openBlock`,
`.closeBlock`).
-/

namespace Awl

variable {scopes : List Origins} {type : Ty} {u : Unit}

/-! ## Walks -/

/-- Where a variable is introduced: at the node of a declaration, parameter or field, or as the
receiver of a method. -/
inductive Origin where
  | node (n : NodeId)
  | receiver
  deriving DecidableEq

structure Variable where
  name : String
  origin : Origin
  deriving DecidableEq

/-- The names that one scope binds, the latest one first. The name of a method is no variable. -/
abbrev Origins := List (String × Option Origin)

namespace Origins

/-- What a name means inside these scopes, the innermost one first. -/
def find (scopes : List Origins) (x : String) : Option (Option Origin) :=
  scopes.findSome? (·.lookup x)

/-- Binds a name in the innermost scope. -/
def bind (x : String) (o : Origin) : List Origins → List Origins
  | [] => []
  | names :: outer => ((x, some o) :: names) :: outer

end Origins

/-- A node that uses a variable, with what the name means there. -/
structure NameUse where
  node : NodeId
  name : String
  origin : Option Origin
  deriving DecidableEq

/-- The scopes around a place of the code, and what was noted on the way there. -/
structure Walk where
  scopes : List Origins
  uses : List NameUse := []
  declared : List Variable := []

namespace Walk

def use (w : Walk) (node : NodeId) (x : String) : Walk :=
  { w with uses := w.uses ++ [⟨node, x, (Origins.find w.scopes x).join⟩] }

def declare (w : Walk) (x : String) (o : Origin) : Walk :=
  { w with scopes := Origins.bind x o w.scopes, declared := w.declared ++ [⟨x, o⟩] }

/-- A walk over code in a block of its own, whose names end with it. -/
def inBlock (f : Walk → Walk) (w : Walk) : Walk :=
  { f { w with scopes := [] :: w.scopes } with scopes := w.scopes }

end Walk

mutual

def Expr.walk : Expr → Walk → Walk
  | .literal _ _, w => w
  | .name n x, w => w.use n.id x
  | .enumValue _ _ _, w => w
  | .arrayLiteral _ es, w => Expr.walkAll es w
  | .newArray _ _ length, w => length.walk w
  | .index _ a i, w => i.walk (a.walk w)
  | .field _ o _, w => o.walk w
  | .call _ _ es, w => Expr.walkAll es w
  | .methodCall _ o _ es, w => Expr.walkAll es (o.walk w)
  | .new _ _ es, w => Expr.walkAll es w
  | .unary _ _ e, w => e.walk w
  | .binary _ _ l r, w => r.walk (l.walk w)

def Expr.walkAll : List Expr → Walk → Walk
  | [], w => w
  | e :: es, w => Expr.walkAll es (e.walk w)

end

def Expr.walkOption : Option Expr → Walk → Walk
  | none, w => w
  | some e, w => e.walk w

def Target.walk : Target → Walk → Walk
  | .name n x, w => w.use n.id x
  | .index _ a i, w => i.walk (a.walk w)
  | .field _ o _, w => o.walk w

/-- The initializer does not see the name. -/
def Declaration.walk (d : Declaration) (w : Walk) : Walk :=
  (Expr.walkOption d.initializer w).declare d.name (.node d.node.id)

mutual

def Stmt.walk : Stmt → Walk → Walk
  | .declaration _ d, w => d.walk w
  | .assignment _ t value, w => value.walk (t.walk w)
  | .ifElse _ c b e, w => Block.walkOption e (b.walk (c.walk w))
  | .whileLoop _ c b, w => b.walk (c.walk w)
  | .doLoop _ b c, w => c.walk (b.walk w)
  | .forLoop _ i c s b, w =>
    w.inBlock fun w => b.walk (Stmt.walkOption s (c.walk (Stmt.walkOption i w)))
  | .block _ b, w => b.walk w
  | .switch _ d cs f, w => Block.walkOption f (Case.walkAll cs (d.walk w))
  | .next _, w => w
  | .return _ v, w => Expr.walkOption v w
  | .expression _ e, w => e.walk w
  | .acquire _ e, w => e.walk w
  | .release _ e, w => e.walk w

def Stmt.walkOption : Option Stmt → Walk → Walk
  | none, w => w
  | some s, w => s.walk w

def Stmt.walkAll : List Stmt → Walk → Walk
  | [], w => w
  | s :: ss, w => Stmt.walkAll ss (s.walk w)

def Block.walk : Block → Walk → Walk
  | .mk _ ss, w => w.inBlock fun w => Stmt.walkAll ss w

def Block.walkOption : Option Block → Walk → Walk
  | none, w => w
  | some b, w => b.walk w

def Case.walkAll : List Case → Walk → Walk
  | [], w => w
  | .mk _ v b :: cs, w => Case.walkAll cs (b.walk (v.walk w))

end

def FunctionBody.walk : FunctionBody → Walk → Walk
  | .block b, w => Stmt.walkAll b.statements w
  | .expression e, w => e.walk w

/-! ## Scopes and walks -/

section
variable (t : Tables) (frame : Option ScopeId)

/-- The scope that binds a variable of a routine whose receiver, if there is one, is in the scope
`frame`. -/
def Origin.scope? : Origin → Option ScopeId
  | .node n => t.annotations.scope? n
  | .receiver => frame

/-- The variable is bound in a scope, and has the slot `k`. -/
structure Variable.At (v : Variable) (id : ScopeId) (sc : Scope) (k : Nat) : Prop where
  scope : v.origin.scope? t frame = some id
  isScope : t.scopes.scopes.get? id = some sc
  slot : ∃ b, sc.bindings.lookup v.name = some b ∧ b.offset = some k

namespace Tables

/-- The scope binds these names and no other ones. -/
structure OriginsAt (id : ScopeId) (sc : Scope) (names : Origins) : Prop where
  free : ∀ x, names.lookup x = none ↔ sc.bindings.lookup x = none
  method : ∀ x b, names.lookup x = some none → sc.bindings.lookup x = some b →
    b.type.isFunction = true
  slot : ∀ x o, names.lookup x = some (some o) → o.scope? t frame = some id ∧
    ∃ b k, sc.bindings.lookup x = some b ∧ b.offset = some k

/-- A scope and those around it bind these names and no other ones. -/
inductive Lexed : ScopeId → List Origins → Prop
  | root {id : ScopeId} {sc : Scope} {names : Origins} : t.scopes.scopes.get? id = some sc →
      sc.parent = none → t.OriginsAt frame id sc names → Lexed id [names]
  | child {id p : ScopeId} {sc : Scope} {names : Origins} {outer : List Origins} :
      t.scopes.scopes.get? id = some sc → sc.parent = some p → p < id →
      t.OriginsAt frame id sc names → Lexed p outer → Lexed id (names :: outer)

end Tables

/-- The node of the use has the scope of the variable, which is one of the known ones. -/
def NameUse.Resolved (known : List Variable) (use : NameUse) : Prop :=
  ∃ o id sc k, use.origin = some o ∧ ⟨use.name, o⟩ ∈ known ∧
    t.annotations.scope? use.node = some id ∧ Variable.At t frame ⟨use.name, o⟩ id sc k

/-- What a walk over code of a routine has noted is in the tables. The slots of its variables are
counted by `owner`; variables from outside the routine are `outer`. -/
structure Tables.Records (outer : List Variable) (owner : ScopeId) (w : Walk) : Prop where
  uses : ∀ use ∈ w.uses, use.Resolved t frame (outer ++ w.declared)
  stored : ∀ v ∈ w.declared, ∃ id sc k, v.At t frame id sc k ∧ sc.owner = owner ∧ sc.kind ≠ .members
  apart : w.declared.Pairwise fun v v' => v.origin.scope? t frame = v'.origin.scope? t frame →
    v.name ≠ v'.name

/-- The tables, after a walk that has arrived in a scope. -/
structure Tables.Follows (outer : List Variable) (owner scope : ScopeId) (w : Walk) : Prop extends
    t.Records frame outer owner w where
  lexed : t.Lexed frame scope w.scopes
  home : ∃ sc, t.scopes.scopes.get? scope = some sc ∧ sc.owner = owner ∧ sc.kind ≠ .members
  known : ∀ names ∈ w.scopes, ∀ x o, names.lookup x = some (some o) → ⟨x, o⟩ ∈ outer ++ w.declared

end

section
variable {t t' : Tables} {frame : Option ScopeId} {id scope owner : ScopeId} {sc sc' : Scope}
  {names : Origins} {x : String} {o : Origin} {known : List Variable} {k : Nat}

theorem Origin.scope?_mono (hle : t.Le t') (h : o.scope? t frame = some id) :
    o.scope? t' frame = some id := by
  cases o with
  | node n => exact hle.placed n id h
  | receiver => exact h

theorem Variable.At.mono {v : Variable} (hle : t.Le t') (h : v.At t frame id sc k) :
    ∃ sc', v.At t' frame id sc' k ∧ sc.Le sc' := by
  obtain ⟨sc', hsc', hs⟩ := hle.scopes id sc h.isScope
  obtain ⟨b, hb, hk⟩ := h.slot
  exact ⟨sc', ⟨Origin.scope?_mono hle h.scope, hsc', b, hs.bindings _ _ hb, hk⟩, hs⟩

theorem NameUse.Resolved.mono {use : NameUse} {known' : List Variable} (hle : t.Le t')
    (hk : known ⊆ known') (h : use.Resolved t frame known) : use.Resolved t' frame known' := by
  obtain ⟨o, id, sc, k, ho, hmem, hid, hat⟩ := h
  obtain ⟨sc', hat', -⟩ := hat.mono hle
  exact ⟨o, id, sc', k, ho, hk hmem, hle.placed _ _ hid, hat'⟩

namespace Tables

theorem OriginsAt.mono (hle : t.Le t') (hb : sc'.bindings = sc.bindings)
    (h : t.OriginsAt frame id sc names) : t'.OriginsAt frame id sc' names where
  free := hb ▸ h.free
  method := hb ▸ h.method
  slot x o hx := by
    obtain ⟨hs, hslot⟩ := h.slot x o hx
    exact ⟨Origin.scope?_mono hle hs, hb ▸ hslot⟩

theorem OriginsAt.declare (hle : t.Le t')
    (hb : sc'.bindings = (x, { type, offset := some k }) :: sc.bindings)
    (ho : o.scope? t' frame = some id) (h : t.OriginsAt frame id sc names) :
    t'.OriginsAt frame id sc' ((x, some o) :: names) := by
  refine ⟨fun y => ?_, fun y b => ?_, fun y o' => ?_⟩ <;>
    rw [hb, List.lookup_cons, List.lookup_cons] <;> split
  · simp
  · exact h.free y
  · nofun
  · exact h.method y b
  · rintro ⟨⟩
    exact ⟨ho, _, k, rfl, rfl⟩
  · intro hy
    obtain ⟨hs, hslot⟩ := h.slot y o' hy
    exact ⟨Origin.scope?_mono hle hs, hslot⟩

variable {inner : Option ScopeId}

/-- New names in a scope further inside change nothing. -/
theorem Lexed.keeps (hle : t.Le t') (hk : t.scopes.Keeps inner t'.scopes)
    (h : t.Lexed frame id scopes) (hi : ∀ j, inner = some j → id < j) :
    t'.Lexed frame id scopes := by
  induction h with
  | @root id sc names hsc hp hn =>
    obtain ⟨sc', hsc', hp', hb⟩ := hk.outside hsc hi
    exact .root hsc' (hp'.trans hp) (hn.mono hle hb)
  | @child id p sc names outer hsc hp hlt hn _ ih =>
    obtain ⟨sc', hsc', hp', hb⟩ := hk.outside hsc hi
    exact .child hsc' (hp'.trans hp) hlt (hn.mono hle hb)
      (ih fun j hj => Nat.lt_trans hlt (hi j hj))

/-- A new name in the innermost scope. -/
theorem Lexed.declare {scopes : List Origins} {type : Ty} (hle : t.Le t')
    (hd : t.scopes.declareIn scope x type = .ok (true, t'.scopes))
    (ho : o.scope? t' frame = some scope)
    (h : t.Lexed frame scope scopes) : t'.Lexed frame scope (Origins.bind x o scopes) := by
  have hnew : ∀ sc, t.scopes.scopes.get? scope = some sc → ∃ sc' k,
      t'.scopes.scopes.get? scope = some sc' ∧ sc'.parent = sc.parent ∧
      sc'.bindings = (x, { type, offset := some k }) :: sc.bindings := by
    intro sc hsc
    obtain ⟨hfree, hnew⟩ := ScopeTree.declareIn_new hd hsc
    obtain ⟨sc', k, hsc', hp, -, hb⟩ := hnew (by simpa using hfree)
    exact ⟨sc', k, hsc', hp, hb⟩
  cases h with
  | root hsc hp hn =>
    obtain ⟨sc', k, hsc', hp', hb⟩ := hnew _ hsc
    exact .root hsc' (hp'.trans hp) (hn.declare hle hb ho)
  | child hsc hp hlt hn houter =>
    obtain ⟨sc', k, hsc', hp', hb⟩ := hnew _ hsc
    refine .child hsc' (hp'.trans hp) hlt (hn.declare hle hb ho)
      (houter.keeps hle (ScopeTree.declareIn_keeps hd) fun j hj => ?_)
    cases hj
    exact hlt

/-- A new scope, with a larger number than the one around it, binds nothing. -/
theorem Lexed.openChild {kind : ScopeKind} (hle : t.Le t')
    (ho : t.scopes.openChild scope kind = .ok (id, t'.scopes))
    (h : t.Lexed frame scope scopes) : t'.Lexed frame id ([] :: scopes) ∧ scope < id := by
  obtain ⟨hid, owner, hs, -⟩ := ScopeTree.openChild_ok ho
  have hlt : scope < id := by
    rw [hid]
    cases h with
    | root hsc => exact Slots.lt_of_get? hsc
    | child hsc => exact Slots.lt_of_get? hsc
  have hget : t'.scopes.scopes.get? id = some { parent := some scope, kind, owner } := by
    rw [hs, hid]
    exact (Slots.get?_push ..).trans (if_pos rfl)
  refine ⟨.child hget rfl hlt ⟨fun _ => by simp, nofun, nofun⟩ ?_, hlt⟩
  exact h.keeps hle (ScopeTree.openChild_keeps ho) (by nofun)

/-- A name is looked up along the scopes, and the first one that binds it decides. -/
theorem Lexed.resolveWithin {scopes : List Origins} {type : Ty} (h : t.Lexed frame scope scopes) :
    ∀ fuel, t.scopes.resolveWithin x fuel scope = .ok (some (type, id)) →
      type.isFunction = false → ∃ o k sc, Origins.find scopes x = some (some o) ∧
        Variable.At t frame ⟨x, o⟩ id sc k := by
  -- What the scope that binds the name says about it.
  have hbound : ∀ {id' : ScopeId} {sc : Scope} {names : Origins} {b : Binding},
      t.scopes.scopes.get? id' = some sc → t.OriginsAt frame id' sc names →
      sc.bindings.lookup x = some b → b.type.isFunction = false →
      ∃ o k, names.lookup x = some (some o) ∧ Variable.At t frame ⟨x, o⟩ id' sc k := by
    intro id' sc names b hsc hn hb hf
    cases hx : names.lookup x with
    | none => exact nomatch hb.symm.trans ((hn.free x).1 hx)
    | some m =>
      cases m with
      | none => exact nomatch hf.symm.trans (hn.method x b hx hb)
      | some o =>
        obtain ⟨hs, b', k, hb', hk⟩ := hn.slot x o hx
        exact ⟨o, k, rfl, hs, hsc, b', hb', hk⟩
  induction h with
  | @root scope sc names hsc hp hn =>
    intro _ hr hf
    obtain ⟨sc', _, -, hsc', ⟨b, hb, rfl, rfl⟩ | ⟨-, p, hp', -⟩⟩ := ScopeTree.resolveWithin_ok hr
    · cases hsc.symm.trans hsc'
      obtain ⟨o, k, hx, hat⟩ := hbound hsc hn hb hf
      exact ⟨o, k, sc, by simp [Origins.find, hx], hat⟩
    · cases hsc.symm.trans hsc'
      exact nomatch hp.symm.trans hp'
  | @child scope p sc names outer hsc hp hlt hn _ ih =>
    intro _ hr hf
    obtain ⟨sc', n, -, hsc', ⟨b, hb, rfl, rfl⟩ | ⟨hb, p', hp', hr'⟩⟩ :=
      ScopeTree.resolveWithin_ok hr
    · cases hsc.symm.trans hsc'
      obtain ⟨o, k, hx, hat⟩ := hbound hsc hn hb hf
      exact ⟨o, k, sc, by simp [Origins.find, hx], hat⟩
    · cases hsc.symm.trans hsc'
      cases hp.symm.trans hp'
      obtain ⟨o, k, sc', hfind, hat⟩ := ih n hr' hf
      exact ⟨o, k, sc', by simpa [Origins.find, (hn.free x).2 hb] using hfind, hat⟩

/-! ## The steps of a walk -/

variable {outer : List Variable} {w : Walk}

theorem Records.mono (hle : t.Le t') (h : t.Records frame outer owner w) :
    t'.Records frame outer owner w where
  uses use hu := (h.uses use hu).mono hle (List.Subset.refl _)
  stored v hv := by
    obtain ⟨id, sc, k, hat, ho, hkind⟩ := h.stored v hv
    obtain ⟨sc', hat', hs⟩ := hat.mono hle
    exact ⟨id, sc', k, hat', hs.owner.trans ho, hs.kind ▸ hkind⟩
  apart := by
    refine h.apart.imp_of_mem fun {v v'} hv hv' hne heq => hne ?_
    obtain ⟨_, _, _, hat, -⟩ := h.stored v hv
    obtain ⟨_, _, _, hat', -⟩ := h.stored v' hv'
    rw [Origin.scope?_mono hle hat.scope, Origin.scope?_mono hle hat'.scope] at heq
    rw [hat.scope, hat'.scope, heq]

/-- New entries of nodes, and new names in a scope further inside. -/
theorem Follows.keeps (hle : t.Le t')
    (hk : t.scopes.Keeps inner t'.scopes) (hi : ∀ j, inner = some j → scope < j)
    (h : t.Follows frame outer owner scope w) : t'.Follows frame outer owner scope w where
  lexed := h.lexed.keeps hle hk hi
  home := by
    obtain ⟨sc, hsc, ho, hkind⟩ := h.home
    obtain ⟨sc', hsc', hs⟩ := hle.scopes scope sc hsc
    exact ⟨sc', hsc', hs.owner.trans ho, hs.kind ▸ hkind⟩
  known := h.known
  toRecords := h.toRecords.mono hle

theorem mem_of_find (h : Origins.find scopes x = some (some o)) :
    ∃ names ∈ scopes, names.lookup x = some (some o) := by
  simpa [Origins.find] using List.exists_of_findSome?_eq_some h

theorem Follows.use {node : NodeId} (h : t.Follows frame outer owner scope w)
    (hr : t.scopes.resolveFrom scope x = .ok (some (type, id))) (hf : type.isFunction = false)
    (hs : t.annotations.scope? node = some id) :
    t.Follows frame outer owner scope (w.use node x) where
  lexed := h.lexed
  home := h.home
  known := h.known
  stored := h.stored
  apart := h.apart
  uses use hu := by
    rcases List.mem_append.1 hu with hu | hu
    · exact h.uses use hu
    · obtain rfl := List.mem_singleton.1 hu
      obtain ⟨o, k, sc, hfind, hat⟩ := h.lexed.resolveWithin _ hr hf
      obtain ⟨names, hmem, hx⟩ := mem_of_find hfind
      exact ⟨o, id, sc, k, by simp [hfind], h.known names hmem x o hx, hs, hat⟩

/-- The name of a new variable was free in its scope, so no variable of the walk has both. -/
theorem Follows.declare (hle : t.Le t')
    (hd : t.scopes.declareIn scope x type = .ok (true, t'.scopes))
    (ho : o.scope? t' frame = some scope) (h : t.Follows frame outer owner scope w) :
    t'.Follows frame outer owner scope (w.declare x o) := by
  obtain ⟨sc, hsc, howner, hkind⟩ := h.home
  obtain ⟨sc', hsc', hs⟩ := hle.scopes scope sc hsc
  have hfree : sc.bindings.lookup x = none := by
    simpa using (ScopeTree.declareIn_new hd hsc).1
  have hsub : outer ++ w.declared ⊆ outer ++ (w.declare x o).declared := fun v hv => by
      rcases List.mem_append.1 hv with hv | hv
      · exact List.mem_append_left _ hv
      · exact List.mem_append_right _ (List.mem_append_left _ hv)
  have hmono := h.toRecords.mono hle
  refine ⟨⟨fun use hu => (h.uses use hu).mono hle hsub, fun v hv => ?_, ?_⟩,
    h.lexed.declare hle hd ho, ⟨sc', hsc', hs.owner.trans howner, hs.kind ▸ hkind⟩, ?_⟩
  rotate_left 2
  · intro names hmem y o' hy
    have hold : ∀ names ∈ w.scopes, names.lookup y = some (some o') →
        ⟨y, o'⟩ ∈ outer ++ (w.declare x o).declared := fun names hmem hy =>
        hsub (h.known names hmem y o' hy)
    cases hw : w.scopes with
    | nil => simp [Walk.declare, Origins.bind, hw] at hmem
    | cons first rest =>
      simp only [Walk.declare, Origins.bind, hw, List.mem_cons] at hmem
      rcases hmem with rfl | hmem
      · rw [List.lookup_cons] at hy
        split at hy
        · rename_i heq
          cases hy
          simp [Walk.declare, beq_iff_eq.1 heq]
        · exact hold first (by simp [hw]) hy
      · exact hold names (by simp [hw, hmem]) hy
  · rcases List.mem_append.1 hv with hv | hv
    · exact hmono.stored v hv
    · obtain rfl := List.mem_singleton.1 hv
      obtain ⟨sc', k, hsc', hb⟩ := ScopeTree.declareIn_binds hd
      obtain ⟨sc'', hsc'', hs⟩ := hle.scopes scope sc hsc
      cases hsc'.symm.trans hsc''
      exact ⟨scope, sc', k, ⟨ho, hsc', _, hb, rfl⟩, hs.owner.trans howner, hs.kind ▸ hkind⟩
  · refine List.pairwise_append.2 ⟨hmono.apart, List.pairwise_singleton ..,
      fun v hv v' hv' heq hx => ?_⟩
    obtain rfl := List.mem_singleton.1 hv'
    obtain ⟨id, scv, k, hat, -⟩ := h.stored v hv
    rw [Origin.scope?_mono hle hat.scope, ho] at heq
    cases heq
    obtain ⟨b, hb, -⟩ := hat.slot
    cases hsc.symm.trans hat.isScope
    rw [show v.name = x from hx, hfree] at hb
    cases hb

/-- Into a block. -/
theorem Follows.openBlock (hle : t.Le t')
    (ho : t.scopes.openChild scope .block = .ok (id, t'.scopes))
    (h : t.Follows frame outer owner scope w) :
    t'.Follows frame outer owner id { w with scopes := [] :: w.scopes } := by
  obtain ⟨hlexed, hlt⟩ := h.lexed.openChild hle ho
  have h' := h.keeps hle (ScopeTree.openChild_keeps ho) (by nofun)
  obtain ⟨sc, hsc, howner, -⟩ := h.home
  obtain ⟨hid, owner', hs, -, hown⟩ := ScopeTree.openChild_ok ho
  refine ⟨⟨h'.uses, h'.stored, h'.apart⟩, hlexed, ?_, fun names hmem => ?_⟩
  · refine ⟨_, by rw [hs, hid]; exact (Slots.get?_push ..).trans (if_pos rfl), ?_, by simp⟩
    rcases hown with ⟨hk, -⟩ | ⟨-, sc', hsc', rfl⟩
    · cases hk
    · cases hsc.symm.trans hsc'
      exact howner
  · rcases List.mem_cons.1 hmem with rfl | hmem
    · nofun
    · exact h.known names hmem

/-- Out of a block: its names are gone, and what was noted stays. -/
theorem Follows.closeBlock {t1 : Tables} {w' : Walk} (hle : t.Le t1) (hle' : t1.Le t')
    (ho : t.scopes.openChild scope .block = .ok (id, t1.scopes))
    (hk : t1.scopes.Keeps (some id) t'.scopes) (h : t.Follows frame outer owner scope w)
    (h' : t'.Follows frame outer owner id w') (hsub : w.declared ⊆ w'.declared) :
    t'.Follows frame outer owner scope { w' with scopes := w.scopes } := by
  have hlt := (h.lexed.openChild hle ho).2
  have h1 := h.keeps hle (ScopeTree.openChild_keeps ho) (by nofun)
  have h2 := h1.keeps hle' hk fun j hj => by cases hj; exact hlt
  refine ⟨⟨h'.uses, h'.stored, h'.apart⟩, h2.lexed, h2.home, fun names hmem x o hx => ?_⟩
  rcases List.mem_append.1 (h.known names hmem x o hx) with hv | hv
  · exact List.mem_append_left _ hv
  · exact List.mem_append_right _ (hsub hv)

end Tables

end

end Awl
