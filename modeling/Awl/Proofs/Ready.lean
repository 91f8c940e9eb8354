import Awl.Proofs.Frames

/-!
# Units that are ready for code generation

The code generator asks the tables about the nodes it meets: where a name is stored, at which offset
a field lies, which function a call means, where `next` goes on. `Expr.Ready` and `Stmt.Ready` say,
by recursion on the syntax, that the tables have an answer to every such question, for code of the
routine with a given frame. They say nothing about types, and they keep holding while the tables
grow (`Expr.Ready.mono`, `Stmt.Ready.mono`).
-/

namespace Awl

variable {isMethod : Bool} {node : NodeId} {x : String}

namespace Tables

/-- The tables place a name at a slot of a scope. -/
structure Places (t : Tables) (node : NodeId) (x : String) (id : ScopeId) (s : Scope)
    (k : Nat) : Prop where
  scope : t.annotations.scope? node = some id
  isScope : t.scopes.scopes.get? id = some s
  slot : ∃ b, s.bindings.lookup x = some b ∧ b.offset = some k

/-- A name with a storage slot that a routine reaches. -/
def HasName (t : Tables) (frame : Option ScopeId) (node : NodeId) (x : String) : Prop :=
  ∃ id s k, t.Places node x id s k ∧ t.scopes.Reaches frame s

/-- A global variable. -/
def HasGlobal (t : Tables) (node : NodeId) (x : String) : Prop :=
  ∃ id s k, t.Places node x id s k ∧ s.kind = .global

/-- A field of the object that a node computes. -/
def HasField (t : Tables) (object : NodeId) (x : String) : Prop :=
  ∃ c id s b k, t.annotations.type? object = some (.object c) ∧ t.types.memberScope? c = some id ∧
    t.scopes.scopes.get? id = some s ∧ s.bindings.lookup x = some b ∧ b.offset = some k

/-- A function of a number of arguments that a node calls. -/
def HasCallee (t : Tables) (node : NodeId) (arguments : Nat) (isMethod : Bool) : Prop :=
  ∃ id f, t.functions.lookup node = some id ∧ t.function? id = some f ∧
    f.signature.arguments.length = arguments ∧ f.signature.isMethod = isMethod

variable {arguments : Nat} {t : Tables}

theorem HasCallee.node_bound (h : t.HasCallee node arguments isMethod) :
    ∃ f, t.functions.lookup node = some f := by
  obtain ⟨f, _, hf, _⟩ := h
  exact ⟨f, hf⟩

theorem HasCallee.callee {f : FunctionId} (h : t.HasCallee node arguments isMethod)
    (hf : t.functions.lookup node = some f) : ∃ fn, t.function? f = some fn ∧
      fn.signature.arguments.length = arguments := by
  obtain ⟨f', fn, hf', hfn, hlen, _⟩ := h
  rw [hf] at hf'
  cases hf'
  exact ⟨fn, hfn, hlen⟩

/-- A new object: its node is bound to a constructor for its arguments, or it has none and is bound
to nothing. -/
def HasConstructor (t : Tables) (node : NodeId) (arguments : Nat) : Prop :=
  (t.annotations.type? node).isSome ∧
    (t.functions.lookup node = none ∧ arguments = 0 ∨ t.HasCallee node (arguments + 1) true)

end Tables

/-! ## Expressions and statements -/

section
variable (t : Tables) (frame : Option ScopeId)

mutual

/-- The tables say everything about an expression that its code needs. -/
def Expr.Ready : Expr → Prop
  | .literal .. => True
  | .name n x => t.HasName frame n.id x
  | .enumValue _ x _ => (t.types.enum? x).isSome
  | .arrayLiteral _ es => Expr.ReadyAll es
  | .newArray _ _ length => length.Ready
  | .index _ a i => a.Ready ∧ i.Ready
  | .field _ o x => t.HasField o.id x ∧ o.Ready
  | .call n _ es => t.HasCallee n.id es.length false ∧ Expr.ReadyAll es
  | .methodCall n r _ es =>
    t.HasCallee n.id (es.length + 1) true ∧ r.Ready ∧ Expr.ReadyAll es
  | .new n c es =>
    (t.types.class? c).isSome ∧ t.HasConstructor n.id es.length ∧ Expr.ReadyAll es
  | .unary _ _ e => e.Ready
  | .binary _ _ l r => l.Ready ∧ r.Ready

def Expr.ReadyAll : List Expr → Prop
  | [] => True
  | e :: es => e.Ready ∧ Expr.ReadyAll es

end

/-- The left side of an assignment. -/
def Target.Ready : Target → Prop
  | .name n x => t.HasName frame n.id x
  | .index _ a i => a.Ready t frame ∧ i.Ready t frame
  | .field _ o x => t.HasField o.id x ∧ o.Ready t frame

/-- The operand of a lock operation, a word of shared memory. -/
def Expr.LockReady : Expr → Prop
  | .name n x => t.HasGlobal n.id x
  | .index _ a i => a.Ready t frame ∧ i.Ready t frame
  | .field _ o x => t.HasField o.id x ∧ o.Ready t frame
  | _ => False

def Expr.ReadyOption : Option Expr → Prop
  | none => True
  | some e => e.Ready t frame

mutual

/-- The tables say everything about a statement that its code needs. The flag is whether `next` has
a block to go on with. -/
def Stmt.Ready (next : Bool) : Stmt → Prop
  | .declaration _ d => Expr.ReadyOption t frame d.initializer ∧ t.HasName frame d.node.id d.name
  | .assignment _ target value => target.Ready t frame ∧ value.Ready t frame
  | .ifElse _ c thenBlock elseBlock =>
    c.Ready t frame ∧ thenBlock.Ready next ∧ Block.ReadyOption next elseBlock
  | .whileLoop _ c body => c.Ready t frame ∧ body.Ready next
  | .doLoop _ body c => body.Ready next ∧ c.Ready t frame
  | .forLoop _ initializer c step body =>
    Stmt.ReadyOption next initializer ∧ c.Ready t frame ∧
      Stmt.ReadyOption next step ∧ body.Ready next
  | .block _ b => b.Ready next
  | .switch _ d cases fallback =>
    d.Ready t frame ∧ Case.ReadyAll fallback.isSome cases ∧ Block.ReadyOption false fallback
  | .next _ => next = true
  | .return _ value => Expr.ReadyOption t frame value
  | .expression _ e => e.Ready t frame
  | .acquire _ lock => lock.LockReady t frame
  | .release _ lock => lock.LockReady t frame

def Stmt.ReadyOption (next : Bool) : Option Stmt → Prop
  | none => True
  | some s => s.Ready next

def Stmt.ReadyAll (next : Bool) : List Stmt → Prop
  | [] => True
  | s :: ss => s.Ready next ∧ Stmt.ReadyAll next ss

def Block.Ready (next : Bool) : Block → Prop
  | .mk _ statements => Stmt.ReadyAll next statements

def Block.ReadyOption (next : Bool) : Option Block → Prop
  | none => True
  | some b => b.Ready next

/-- The blocks of a switch. The flag is whether a fallback follows them. -/
def Case.ReadyAll (fallback : Bool) : List Case → Prop
  | [] => True
  | .mk _ value body :: cases =>
    value.Ready t frame ∧ body.Ready (!cases.isEmpty || fallback) ∧ Case.ReadyAll fallback cases

end

/-- The body of a function. -/
def FunctionBody.Ready : FunctionBody → Prop
  | .block b => Stmt.ReadyAll t frame false b.statements
  | .expression e => e.Ready t frame

end

/-! ## Tables that grow -/

/-- A function may get its scope, once. -/
def Function.Le (f f' : Function) : Prop :=
  f' = { f with scope := f'.scope } ∧ ∀ id, f.scope = some id → f'.scope = some id

theorem Function.Le.refl (f : Function) : f.Le f := ⟨rfl, fun _ h => h⟩

theorem Function.Le.trans {f1 f2 f3 : Function} (h : f1.Le f2) (h' : f2.Le f3) : f1.Le f3 :=
  ⟨by rw [h'.1, h.1], fun id hid => h'.2 id (h.2 id hid)⟩

theorem Function.Le.signature {f f' : Function} (h : f.Le f') : f'.signature = f.signature := by
  rw [h.1]

theorem Function.Le.isThread {f f' : Function} (h : f.Le f') : f'.isThread = f.isThread := by
  rw [h.1]

/-- Checking the code of a unit only adds to the tables. A node with a type has its function, if
any, already. -/
structure Tables.Le (t t' : Tables) : Prop where
  types : t'.types = t.types
  scopes : t.scopes.Le t'.scopes
  functions : ∀ id f, t.function? id = some f → ∃ f', t'.function? id = some f' ∧ f.Le f'
  typed : ∀ n type, t.annotations.type? n = some type → t'.annotations.type? n = some type
  placed : ∀ n id, t.annotations.scope? n = some id → t'.annotations.scope? n = some id
  calls : ∀ n f, t.functions.lookup n = some f → t'.functions.lookup n = some f
  frozen : ∀ n, (t.annotations.type? n).isSome → t'.functions.lookup n = t.functions.lookup n

theorem Tables.Le.refl (t : Tables) : t.Le t :=
  ⟨rfl, .refl _, fun _ f hf => ⟨f, hf, .refl f⟩, fun _ _ h => h, fun _ _ h => h, fun _ _ h => h,
    fun _ _ => rfl⟩

theorem Tables.Le.trans {t1 t2 t3 : Tables} (h : t1.Le t2) (h' : t2.Le t3) : t1.Le t3 where
  types := h'.types.trans h.types
  scopes := h.scopes.trans h'.scopes
  functions id f hf := by
    obtain ⟨f2, hf2, hle⟩ := h.functions id f hf
    obtain ⟨f3, hf3, hle'⟩ := h'.functions id f2 hf2
    exact ⟨f3, hf3, hle.trans hle'⟩
  typed n type hn := h'.typed n type (h.typed n type hn)
  placed n id hn := h'.placed n id (h.placed n id hn)
  calls n f hn := h'.calls n f (h.calls n f hn)
  frozen n hn := by
    obtain ⟨type, ht⟩ := Option.isSome_iff_exists.1 hn
    rw [h'.frozen n (by rw [h.typed n type ht]; rfl), h.frozen n hn]

section
variable {t t' : Tables} {frame : Option ScopeId} (hle : t.Le t') {n : Nat}
include hle

theorem Tables.Places.mono {id : ScopeId} {s : Scope} {k : Nat} (h : t.Places node x id s k) :
    ∃ s', t'.Places node x id s' k ∧ s.Le s' := by
  obtain ⟨s', hs', hsle⟩ := hle.scopes id s h.isScope
  obtain ⟨b, hb, hk⟩ := h.slot
  exact ⟨s', ⟨hle.placed _ _ h.scope, hs', b, hsle.bindings _ _ hb, hk⟩, hsle⟩

theorem Tables.HasName.mono (h : t.HasName frame node x) : t'.HasName frame node x := by
  obtain ⟨id, s, k, hp, hr⟩ := h
  obtain ⟨s', hp', hsle⟩ := hp.mono hle
  exact ⟨id, s', k, hp', hr.mono hle.scopes hsle⟩

theorem Tables.HasGlobal.mono (h : t.HasGlobal node x) : t'.HasGlobal node x := by
  obtain ⟨id, s, k, hp, hk⟩ := h
  obtain ⟨s', hp', hsle⟩ := hp.mono hle
  exact ⟨id, s', k, hp', hsle.kind.trans hk⟩

theorem Tables.HasField.mono {object : NodeId} (h : t.HasField object x) :
    t'.HasField object x := by
  obtain ⟨c, id, s, b, k, ht, hc, hs, hb, hk⟩ := h
  obtain ⟨s', hs', hsle⟩ := hle.scopes id s hs
  exact ⟨c, id, s', b, k, hle.typed _ _ ht, by rw [hle.types, hc], hs', hsle.bindings _ _ hb, hk⟩

theorem Tables.HasCallee.mono (h : t.HasCallee node n isMethod) : t'.HasCallee node n isMethod := by
  obtain ⟨id, f, hn, hf, hlen, hm⟩ := h
  obtain ⟨f', hf', hfle⟩ := hle.functions id f hf
  exact ⟨id, f', hle.calls _ _ hn, hf', by rw [hfle.signature, hlen], by rw [hfle.signature, hm]⟩

theorem Tables.HasConstructor.mono (h : t.HasConstructor node n) : t'.HasConstructor node n := by
  obtain ⟨ht, hc⟩ := h
  obtain ⟨type, htype⟩ := Option.isSome_iff_exists.1 ht
  refine ⟨by rw [hle.typed _ _ htype]; rfl, ?_⟩
  rcases hc with ⟨hn, h0⟩ | hc
  · exact .inl ⟨by rw [hle.frozen node ht, hn], h0⟩
  · exact .inr (hc.mono hle)

end

section
variable {t t' : Tables} {frame : Option ScopeId}

mutual

theorem Expr.Ready.mono (hle : t.Le t') : ∀ {e : Expr}, e.Ready t frame → e.Ready t' frame
  | .literal .., h => h
  | .name .., h => Tables.HasName.mono hle h
  | .enumValue .., h => by
    simp only [Expr.Ready, hle.types] at h ⊢
    exact h
  | .arrayLiteral .., h => Expr.ReadyAll.mono hle h
  | .newArray .., h => by
    simp only [Expr.Ready] at h ⊢
    exact Expr.Ready.mono hle h
  | .index .., h => ⟨Expr.Ready.mono hle h.1, Expr.Ready.mono hle h.2⟩
  | .field .., h => ⟨h.1.mono hle, Expr.Ready.mono hle h.2⟩
  | .call .., h => ⟨h.1.mono hle, Expr.ReadyAll.mono hle h.2⟩
  | .methodCall .., h => ⟨h.1.mono hle, Expr.Ready.mono hle h.2.1, Expr.ReadyAll.mono hle h.2.2⟩
  | .new .., h => by
    simp only [Expr.Ready, hle.types] at h ⊢
    exact ⟨h.1, h.2.1.mono hle, Expr.ReadyAll.mono hle h.2.2⟩
  | .unary .., h => by
    simp only [Expr.Ready] at h ⊢
    exact Expr.Ready.mono hle h
  | .binary .., h => ⟨Expr.Ready.mono hle h.1, Expr.Ready.mono hle h.2⟩

theorem Expr.ReadyAll.mono (hle : t.Le t') : ∀ {es : List Expr}, Expr.ReadyAll t frame es →
    Expr.ReadyAll t' frame es
  | [], h => h
  | _ :: _, h => ⟨Expr.Ready.mono hle h.1, Expr.ReadyAll.mono hle h.2⟩

end

theorem Target.Ready.mono (hle : t.Le t') {target : Target} (h : target.Ready t frame) :
    target.Ready t' frame := by
  cases target with
  | name n x => exact Tables.HasName.mono hle h
  | index n a i => exact ⟨h.1.mono hle, h.2.mono hle⟩
  | field n o x => exact ⟨h.1.mono hle, h.2.mono hle⟩

theorem Expr.LockReady.mono (hle : t.Le t') {e : Expr} (h : e.LockReady t frame) :
    e.LockReady t' frame := by
  cases e with
  | name n x => exact Tables.HasGlobal.mono hle h
  | index n a i => exact ⟨h.1.mono hle, h.2.mono hle⟩
  | field n o x => exact ⟨h.1.mono hle, h.2.mono hle⟩
  | _ => exact h

theorem Expr.ReadyOption.mono (hle : t.Le t') {e : Option Expr} (h : Expr.ReadyOption t frame e) :
    Expr.ReadyOption t' frame e := by
  cases e with
  | none => exact h
  | some e => exact Expr.Ready.mono hle h

mutual

theorem Stmt.Ready.mono (hle : t.Le t') : ∀ {next : Bool} {s : Stmt}, s.Ready t frame next →
    s.Ready t' frame next
  | _, .declaration .., h => ⟨h.1.mono hle, h.2.mono hle⟩
  | _, .assignment .., h => ⟨h.1.mono hle, h.2.mono hle⟩
  | _, .ifElse .., h => ⟨h.1.mono hle, Block.Ready.mono hle h.2.1, Block.ReadyOption.mono hle h.2.2⟩
  | _, .whileLoop .., h => ⟨h.1.mono hle, Block.Ready.mono hle h.2⟩
  | _, .doLoop .., h => ⟨Block.Ready.mono hle h.1, h.2.mono hle⟩
  | _, .forLoop .., h =>
    ⟨Stmt.ReadyOption.mono hle h.1, h.2.1.mono hle, Stmt.ReadyOption.mono hle h.2.2.1,
      Block.Ready.mono hle h.2.2.2⟩
  | _, .block .., h => Block.Ready.mono hle h
  | _, .switch .., h =>
    ⟨h.1.mono hle, Case.ReadyAll.mono hle h.2.1, Block.ReadyOption.mono hle h.2.2⟩
  | _, .next .., h => h
  | _, .return .., h => by
    simp only [Stmt.Ready] at h ⊢
    exact h.mono hle
  | _, .expression .., h => by
    simp only [Stmt.Ready] at h ⊢
    exact h.mono hle
  | _, .acquire .., h => by
    simp only [Stmt.Ready] at h ⊢
    exact h.mono hle
  | _, .release .., h => by
    simp only [Stmt.Ready] at h ⊢
    exact h.mono hle

theorem Stmt.ReadyOption.mono (hle : t.Le t') : ∀ {next : Bool} {s : Option Stmt},
    Stmt.ReadyOption t frame next s → Stmt.ReadyOption t' frame next s
  | _, none, h => h
  | _, some _, h => Stmt.Ready.mono hle h

theorem Stmt.ReadyAll.mono (hle : t.Le t') : ∀ {next : Bool} {ss : List Stmt},
    Stmt.ReadyAll t frame next ss → Stmt.ReadyAll t' frame next ss
  | _, [], h => h
  | _, _ :: _, h => ⟨Stmt.Ready.mono hle h.1, Stmt.ReadyAll.mono hle h.2⟩

theorem Block.Ready.mono (hle : t.Le t') : ∀ {next : Bool} {b : Block}, b.Ready t frame next →
    b.Ready t' frame next
  | _, .mk .., h => Stmt.ReadyAll.mono hle h

theorem Block.ReadyOption.mono (hle : t.Le t') : ∀ {next : Bool} {b : Option Block},
    Block.ReadyOption t frame next b → Block.ReadyOption t' frame next b
  | _, none, h => h
  | _, some _, h => Block.Ready.mono hle h

theorem Case.ReadyAll.mono (hle : t.Le t') : ∀ {fallback : Bool} {cs : List Case},
    Case.ReadyAll t frame fallback cs → Case.ReadyAll t' frame fallback cs
  | _, [], h => h
  | _, .mk .. :: _, h => ⟨h.1.mono hle, Block.Ready.mono hle h.2.1, Case.ReadyAll.mono hle h.2.2⟩

end

theorem FunctionBody.Ready.mono (hle : t.Le t') {b : FunctionBody} (h : b.Ready t frame) :
    b.Ready t' frame := by
  cases b with
  | block b => exact Stmt.ReadyAll.mono hle h
  | expression e => exact Expr.Ready.mono hle h

end

end Awl
