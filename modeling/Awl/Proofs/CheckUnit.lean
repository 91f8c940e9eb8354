import Awl.Proofs.CheckStmt
import Awl.Proofs.Rules
import Awl.Typing.Unit
import Mathlib.Data.List.Nodup

/-!
# What the checker settles about a unit

The second pass checks the code of a unit against the tables of the first one. `SourceUnit.Sound u
t` collects what the code generator may rely on. `Check.Progress` is the invariant of the pass, and
`Check.Clean` relates the states before and after the runs of an action that report nothing.
-/

namespace Awl

/-! ## Definitions

Functions, methods and constructors, in the order in which the first pass numbers them. -/

structure Definition where
  node : Node
  isMethod : Bool
  parameters : List Parameter
  body : FunctionBody

/-- The names that the arguments of a call get, the receiver of a method among them. -/
def Definition.names (d : Definition) : List String :=
  (if d.isMethod then [receiverName] else []) ++ d.parameters.map (·.name)

def FunctionDef.definition (f : FunctionDef) (isMethod : Bool) : Definition :=
  { f with isMethod }

def ConstructorDef.definition (k : ConstructorDef) : Definition :=
  { k with isMethod := true, body := .block k.body }

def ClassDef.definitions (c : ClassDef) : List Definition :=
  c.methods.map (·.definition true) ++ c.constructors.map (·.definition)

def SourceUnit.definitions (u : SourceUnit) : List Definition :=
  u.classes.flatMap (·.definitions) ++ u.functions.map (·.definition false)

/-- What the rules call a function is a definition. -/
def Callable.definition (f : Callable) : Definition := { f with isMethod := f.owner.isSome }

theorem ClassDef.definitions_callables (d : ClassDef) (c : ClassType) :
    (d.callables c).map Callable.definition = d.definitions := by
  simp only [callables, List.map_append, List.map_map]
  rfl

variable {ps : TypedClasses} {α : Type}

namespace Check

/-- The functions of registered classes and those outside of classes. -/
def callablesOf (ps : TypedClasses) (functions : List FunctionDef) : List Callable :=
  ps.flatMap (fun p => p.1.callables p.2) ++ functions.map (·.callable none)

variable {u : SourceUnit}

theorem definitions_callablesOf (hall : ps.map (·.1) = u.classes) :
    (callablesOf ps u.functions).map Callable.definition = u.definitions := by
  rw [SourceUnit.definitions, ← hall, callablesOf, List.map_append, List.map_flatMap,
    List.flatMap_map]
  simp only [ClassDef.definitions_callables, List.map_map]
  rfl

/-! The second pass goes through the statements of the main core and then through all other code. -/

/-- The initial values of the fields of a class, or the body of a function and the class that it
belongs to. -/
inductive CodePart
  | fields (p : ClassDef × ClassType)
  | routine (p : Option (ClassDef × ClassType)) (f : Callable)

namespace CodePart

def check (sub : Ty) : CodePart → Check Unit
  | .fields p => p.1.fields.forM (fieldInitializer sub p.2)
  | .routine _ f => definition sub f.node f.owner f.parameters f.body

def definitions : CodePart → List Definition
  | .fields _ => []
  | .routine _ f => [f.definition]

def nodes : CodePart → List NodeEntry
  | .fields p => p.1.fields.flatMap Declaration.nodes
  | .routine _ f => f.body.nodes

/-- A part of one of these classes or of no class. -/
def Of (ps : TypedClasses) : CodePart → Prop
  | .fields p => p ∈ ps
  | .routine p f => f.owner = p.map (·.2) ∧ ∀ q, p = some q → q ∈ ps

end CodePart

def codeParts (ps : TypedClasses) (functions : List FunctionDef) : List CodePart :=
  ps.flatMap (fun p => .fields p :: (p.1.callables p.2).map (.routine (some p))) ++
    functions.map fun f => .routine none (f.callable none)

variable {functions : List FunctionDef}

theorem forall_codeParts {R : CodePart → Prop} : (∀ x ∈ codeParts ps functions, R x) ↔
      (∀ p ∈ ps, R (.fields p) ∧ ∀ f ∈ p.1.callables p.2, R (.routine (some p) f)) ∧
      ∀ f ∈ functions, R (.routine none (f.callable none)) := by
  simp only [codeParts, List.forall_mem_append, List.forall_mem_flatMap, List.forall_mem_cons,
    List.forall_mem_map]

theorem of_codeParts : ∀ x ∈ codeParts ps functions, x.Of ps := by
  refine forall_codeParts.2 ⟨fun p hp => ⟨hp, fun f hf => ⟨?_, by simp [hp]⟩⟩, fun f _ =>
    ⟨rfl, by simp⟩⟩
  rcases List.mem_append.1 hf with hf | hf
  all_goals
    obtain ⟨_, -, rfl⟩ := List.mem_map.1 hf
    rfl

theorem definitions_codeParts (ps : TypedClasses) (functions : List FunctionDef) :
    (codeParts ps functions).flatMap CodePart.definitions =
      (callablesOf ps functions).map Callable.definition := by
  simp [codeParts, callablesOf, List.flatMap_assoc, List.map_eq_flatMap, CodePart.definitions]

theorem nodes_codeParts (hall : ps.map (·.1) = u.classes) :
    ∀ x ∈ codeParts ps u.functions, x.nodes ⊆ u.nodes := by
  refine forall_codeParts.2 ⟨fun p hp => ?_, fun f hf n hn => ?_⟩
  · have hclass : p.1.nodes ⊆ u.nodes := fun n hn => List.mem_append_left _ (List.mem_append_left _
      (List.mem_flatMap.2 ⟨p.1, hall ▸ List.mem_map_of_mem hp, hn⟩))
    refine ⟨fun n hn => hclass (List.mem_append_left _ (List.mem_append_left _ hn)),
      fun f hf n hn => hclass ?_⟩
    rcases List.mem_append.1 hf with hf | hf
    · obtain ⟨m, hm, rfl⟩ := List.mem_map.1 hf
      exact List.mem_append_left _ (List.mem_append_right _ (List.mem_flatMap.2
        ⟨m, hm, List.mem_append_right _ hn⟩))
    · obtain ⟨k, hk, rfl⟩ := List.mem_map.1 hf
      exact List.mem_append_right _ (List.mem_flatMap.2 ⟨k, hk, List.mem_append_right _ hn⟩)
  · exact List.mem_append_left _ (List.mem_append_right _ (List.mem_flatMap.2
      ⟨f, hf, List.mem_append_right _ hn⟩))

theorem forM_flatMap {β : Type} {f : β → Check PUnit} (l : List α) (g : α → List β) :
    forM (l.flatMap g) f = forM l fun a => forM (g a) f := by
  induction l with
  | nil => rfl
  | cons a l ih => rw [List.flatMap_cons, List.forM_append, List.forM_cons, ih]

theorem bodies_eq (sub : Ty) (u : SourceUnit) (ps : TypedClasses) : bodies sub u ps = (do
    stmts sub topLevel u.statements
    (codeParts ps u.functions).forM (·.check sub)) := by
  simp only [bodies, codeParts, ClassDef.callables, List.forM_eq_forM, List.forM_append,
    forM_flatMap, List.forM_cons, List.map_append, List.forM_map]
  rfl

end Check

variable {s s' : CheckState} {c : ClassType} {d : Definition} {b : FunctionBody} {i : FunctionId}
  {rest : List Definition} {names : List String} {owner : Option ClassType} {sc : Scope}
  {frame parent scope : ScopeId} {t' : ScopeTree} {u : SourceUnit} {t : Tables}
  {fields : List Declaration} {type : Ty}

/-! ## Runs without reports -/

namespace Check

variable {α β : Type}

/-- If a run of the action ends without any report, there was none before it, and it takes tables
with `P` to results and tables with `Q`. -/
def Clean (P : Tables → Prop) (m : Check α) (Q : α → Tables → Prop) : Prop :=
  ∀ s a s', m s = .ok (a, s') → s'.diagnostics = #[] → s.diagnostics = #[] ∧
    (P s.tables → Q a s'.tables)

namespace Clean

variable {P P' : Tables → Prop} {Q : β → Tables → Prop} {R : α → Tables → Prop} {m : Check α}

theorem bind {f : α → Check β} (hm : Clean P m R) (hf : ∀ a, Clean (R a) (f a) Q) :
    Clean P (m >>= f) Q := by
  intro s b s' h hd
  obtain ⟨a, s1, h1, h2⟩ := bind_eq_ok.1 h
  obtain ⟨hd1, hq⟩ := hf a s1 b s' h2 hd
  obtain ⟨hd0, hr⟩ := hm s a s1 h1 hd1
  exact ⟨hd0, fun hp => hq (hr hp)⟩

theorem pure {b : β} (h : ∀ t, P t → Q b t) : Clean P (Pure.pure b) Q := by
  intro s b' s' hrun hd
  obtain ⟨rfl, rfl⟩ := pure_eq_ok.1 hrun
  exact ⟨hd, h s'.tables⟩

theorem weaken {m : Check β} (h : Clean P m Q) (hp : ∀ t, P' t → P t) : Clean P' m Q :=
    fun s b s' hrun hd =>
  (h s b s' hrun hd).imp_right fun hq hp' => hq (hp _ hp')

theorem strengthen {R' : α → Tables → Prop} (h : Clean P m R) (hr : ∀ a t, R a t → R' a t) :
    Clean P m R' := fun s a s' hrun hd => (h s a s' hrun hd).imp_right fun hq hp =>
  hr a _ (hq hp)

/-- A loop whose invariant speaks about the elements so far. -/
theorem forM {I : List α → Tables → Prop} {f : α → Check PUnit} {l : List α}
    (hf : ∀ done x rest, l = done ++ x :: rest → Clean (I done) (f x) fun _ => I (done ++ [x])) :
    Clean (I []) (l.forM f) fun _ => I l := by
  suffices h : ∀ rest done, l = done ++ rest → Clean (I done) (rest.forM f) fun _ => I l from
    h l [] rfl
  intro rest
  induction rest with
  | nil =>
    rintro done rfl
    rw [List.append_nil]
    exact pure fun _ h => h
  | cons x rest ih =>
    intro done hl
    exact bind (hf done x rest hl) fun _ => ih (done ++ [x]) (by rw [hl, List.append_cons])

end Clean

/-- The member scope of a class, with a slot for each of some fields. -/
structure MembersAt (t : Tables) (c : ClassType) (id : ScopeId)
    (fields : List Declaration) : Prop where
  scope : t.types.memberScope? c = some id
  isMembers : ∃ sc, t.scopes.scopes.get? id = some sc ∧ sc.kind = .members ∧
    sc.parent = some ScopeTree.globalId ∧ sc.owner = id
  slots : ∀ d ∈ fields, ∃ b k, t.scopes.bindingAt? id d.name = some b ∧ b.offset = some k

theorem MembersAt.mono {t t' : Tables} {id : ScopeId} (h : MembersAt t c id fields)
    (htypes : ∀ c id, t.types.memberScope? c = some id → t'.types.memberScope? c = some id)
    (hscopes : t.scopes.Le t'.scopes) : MembersAt t' c id fields where
  scope := htypes _ _ h.scope
  isMembers := by
    obtain ⟨sc, hsc, hk, hp, ho⟩ := h.isMembers
    obtain ⟨sc', hsc', hle⟩ := hscopes id sc hsc
    exact ⟨sc', hsc', hle.kind.trans hk, hle.parent.trans hp, hle.owner.trans ho⟩
  slots d hd := by
    obtain ⟨b, k, hb, hk⟩ := h.slots d hd
    exact ⟨b, k, hscopes.bindingAt? hb, hk⟩

end Check

/-! ## The frame of a function -/

/-- The scope of a function with these names in its first slots, in their order. -/
structure ScopeTree.FrameAt (t : ScopeTree) (frame parent : ScopeId) (names : List String)
    (sc : Scope) : Prop where
  isScope : t.scopes.get? frame = some sc
  kind : sc.kind = .function
  owner : sc.owner = frame
  parent : sc.parent = some parent
  filled : names.length ≤ sc.slots
  slot : ∀ (k : Nat) x, names[k]? = some x → ∃ b, sc.bindings.lookup x = some b ∧ b.offset = some k

theorem ScopeTree.FrameAt.mono {t : ScopeTree} (h : t.FrameAt frame parent names sc)
    (hle : t.Le t') :
    ∃ sc', t'.FrameAt frame parent names sc' := by
  obtain ⟨sc', hsc', hs⟩ := hle frame sc h.isScope
  refine ⟨sc', hsc', hs.kind.trans h.kind, hs.owner.trans h.owner, hs.parent.trans h.parent,
    Nat.le_trans h.filled hs.slots, fun k x hx => ?_⟩
  obtain ⟨b, hb, hk⟩ := h.slot k x hx
  exact ⟨b, hs.bindings _ _ hb, hk⟩

/-- A new function scope is empty. -/
theorem ScopeTree.openChild_frame {t : ScopeTree}
    (h : t.openChild parent .function = .ok (frame, t')) :
    ∃ sc, t'.FrameAt frame parent [] sc ∧ sc.slots = 0 := by
  obtain ⟨rfl, owner, hsc, -, ⟨-, rfl⟩ | ⟨hk, -⟩⟩ := openChild_ok h
  · exact ⟨_, ⟨by rw [hsc]; exact (Slots.get?_push ..).trans (if_pos rfl), rfl, rfl, rfl,
      Nat.le_refl _, nofun⟩, rfl⟩
  · cases hk

/-- The next name of a frame gets the next slot. -/
theorem ScopeTree.FrameAt.declare {t : ScopeTree} {x : String}
    (hf : t.FrameAt frame parent names sc)
    (hslots : sc.slots = names.length) (h : t.declareIn frame x type = .ok (true, t')) :
    ∃ sc', t'.FrameAt frame parent (names ++ [x]) sc' ∧ sc'.slots = (names ++ [x]).length := by
  rcases declareIn_ok h with ⟨hfree, -⟩ | ⟨-, s, o, hs, hx, ho, hget⟩
  · cases hfree
  obtain rfl := Option.mem_unique hf.isScope hs
  obtain rfl := Option.mem_unique hf.isScope (hf.owner ▸ ho)
  have hsize : (afterDeclare frame sc.owner x { type, offset := some sc.slots } frame sc).slots =
      (names ++ [x]).length := by simp [afterDeclare, hf.owner, hslots]
  refine ⟨afterDeclare frame sc.owner x { type, offset := some sc.slots } frame sc,
    ⟨by rw [hget, hs]; rfl, hf.kind, hf.owner, hf.parent, Nat.le_of_eq hsize.symm,
      fun k y hy => ?_⟩, hsize⟩
  simp only [afterDeclare]
  by_cases hlt : k < names.length
  · rw [List.getElem?_append_left hlt] at hy
    obtain ⟨b, hb, hk⟩ := hf.slot k y hy
    exact ⟨b, lookup_cons_of_none hx hb, hk⟩
  · have hbound := (List.getElem?_eq_some_iff.1 hy).1
    rw [List.length_append, List.length_singleton] at hbound
    obtain rfl : k = names.length := by omega
    rw [List.getElem?_concat_length] at hy
    cases hy
    exact ⟨_, List.lookup_cons_self, by rw [hslots]⟩

/-- The receiver of a method is in the first slot. -/
theorem ScopeTree.FrameAt.receiver {t : ScopeTree}
    (hf : t.FrameAt frame parent (receiverName :: names) sc) :
    t.ReceiverAt (some frame) 0 := by
  obtain ⟨b, hb, hk⟩ := hf.slot 0 receiverName rfl
  exact ⟨frame, sc, b, rfl, hf.isScope, hb, hk⟩

namespace Check

open CheckState

variable {sub : Ty} {s s' : CheckState}

/-- Names with these types have been added to the frame of a function. -/
structure Fills (frame parent : ScopeId) (types : List Ty) (names : List String)
    (s s' : CheckState) : Prop where
  works : s.Works s'
  functions : s'.tables.functions = s.tables.functions
  laid : s.tables.scopes.Laid → s'.tables.scopes.Laid
  locks : (∀ type ∈ types, type ≠ .lock) → s.tables.scopes.LocksGlobal →
    s'.tables.scopes.LocksGlobal
  frame : s'.diagnostics = #[] → ∀ before sc, s.tables.scopes.FrameAt frame parent before sc →
    sc.slots = before.length → ∃ sc', s'.tables.scopes.FrameAt frame parent (before ++ names) sc' ∧
      sc'.slots = (before ++ names).length

variable {frame parent : ScopeId} {types : List Ty} {s1 : CheckState} {id : FunctionId}

theorem Fills.refl : Fills frame parent [] [] s s :=
  ⟨.refl s, rfl, fun h => h, fun _ h => h, fun _ before sc hf hs =>
    ⟨sc, by simpa using hf, by simpa using hs⟩⟩

theorem Fills.trans {types' : List Ty} {names' : List String}
    (h : Fills frame parent types names s s1) (h' : Fills frame parent types' names' s1 s') :
    Fills frame parent (types ++ types') (names ++ names') s s' where
  works := h.works.trans h'.works
  functions := h'.functions.trans h.functions
  laid hl := h'.laid (h.laid hl)
  locks hn hl := h'.locks (fun t ht => hn t (List.mem_append_right _ ht))
    (h.locks (fun t ht => hn t (List.mem_append_left _ ht)) hl)
  frame hd before sc hf hs := by
    obtain ⟨sc1, hf1, hs1⟩ := h.frame (h'.works.reports hd) before sc hf hs
    rw [← List.append_assoc]
    exact h'.frame hd _ sc1 hf1 hs1

theorem declareParameter_fills {p : Parameter} {u : Unit}
    (h : declareParameter frame p type s = .ok (u, s')) :
    Fills frame parent [type] [p.name] s s' := by
  obtain ⟨hw, hfun, -, -, free, t, ht, rfl, hfree⟩ := bindName_ok h
  refine ⟨hw, hfun, ScopeTree.declareIn_laid ht, fun hl => ScopeTree.declareIn_locks ht
    fun hlk => absurd hlk (hl type (.head _)), fun hd before sc hf hslots => ?_⟩
  exact hf.declare hslots (hfree hd ▸ ht)

theorem declareParameters_fills : ∀ {ps : List (Parameter × Ty)} {s s' : CheckState} {u : Unit},
    (ps.forM fun (p, type) => declareParameter frame p type : Check Unit) s = .ok (u, s') →
    Fills frame parent (ps.map (·.2)) (ps.map (·.1.name)) s s'
  | [], s, s', u, h => by
    obtain ⟨-, rfl⟩ := pure_eq_ok.1 h
    exact .refl
  | (p, type) :: ps, s, s', u, h => by
    obtain ⟨_, s1, hp, h⟩ := bind_eq_ok.1 h
    exact (declareParameter_fills hp).trans (declareParameters_fills h)

/-- The receiver is declared in an empty scope, so its name is free. -/
theorem declareReceiver_fills {u : Unit} (hsc : s.tables.scopes.scopes.get? frame = some sc)
    (hempty : sc.bindings = [])
    (h : (discard (declareIn frame receiverName (.object c)) : Check Unit) s = .ok (u, s')) :
    Fills frame parent [.object c] [receiverName] s s' := by
  obtain ⟨free, h⟩ := discard_eq_ok.1 h
  obtain ⟨t, ht, rfl⟩ := declareIn_eq_ok.1 h
  refine ⟨Works.ofScopes (ScopeTree.declareIn_le ht), rfl, ScopeTree.declareIn_laid ht, fun _ =>
    ScopeTree.declareIn_locks ht nofun, fun hd before sc' hf hslots => ?_⟩
  have hfree : free = true := by
    rcases ScopeTree.declareIn_ok ht with ⟨-, -, r, b, hr, hb⟩ | ⟨hfree, -⟩
    · rw [hsc] at hr
      cases hr
      rw [hempty] at hb
      cases hb
    · exact hfree
  exact hf.declare hslots (hfree ▸ ht)

/-! ## Bodies -/

theorem body_settles {function : FunctionId} {span : Span} {u : Unit}
    (h : body sub function scope span b s = .ok (u, s')) :
    Settles scope b.nodes b.walk (fun t frame => b.Ready t frame ∧ t.Stores b.stores) s s' := by
  cases b with
  | block b =>
    simp only [body, bind_eq_ok, tables_eq_ok, lift_eq_ok] at h
    obtain ⟨_, s1, ⟨rfl, hs1⟩, f, s2, ⟨-, hs2⟩, _, s3, hss, h⟩ := h
    subst s1 s2
    obtain ⟨n, ss⟩ := b
    exact (stmts_settles ss hss).reads (reportIf_ok h).1
  | expression e =>
    simp only [body, bind_eq_ok, tables_eq_ok, lift_eq_ok] at h
    obtain ⟨_, s1, ⟨rfl, hs1⟩, f, s2, ⟨-, hs2⟩, value, s3, he, h⟩ := h
    subst s1 s2
    exact ((expr_settles he).reads (expectType_ok h)).noStores

theorem attachScope_ok {t t' : FunctionTable} (h : t.attachScope id scope = .ok t') :
    ∃ f, t.functions.get? id = some f ∧ t'.bindings = t.bindings ∧
      ∀ j, t'.functions.get? j = if j = id then some { f with scope := some scope }
        else t.functions.get? j := by
  unfold FunctionTable.attachScope FunctionTable.get at h
  simp only [except_bind_eq_ok, except_pure_eq_ok, Slots.fetch_eq_ok_iff] at h
  obtain ⟨f, hf, functions, hr, rfl⟩ := h
  exact ⟨f, hf, rfl, (Slots.replace_ok hr).2.2⟩

/-- The tables after a function without a scope got one. -/
theorem attachScope_le {functions : FunctionTable}
    (h : t.functions.attachScope id scope = .ok functions)
    (hnone : ∀ f, t.functions.functions.get? id = some f → f.scope = none) :
    t.Le { t with functions } := by
  obtain ⟨f, hf, hb, hget⟩ := attachScope_ok h
  have hlookup : ∀ n, functions.lookup n = t.functions.lookup n := fun n => by
    simp only [FunctionTable.lookup, hb]
  refine ⟨rfl, .refl _, fun j g hg => ?_, fun _ _ h => h, fun _ _ h => h, fun n g hn =>
    (hlookup n).trans hn, fun n _ => hlookup n⟩
  by_cases hj : j = id
  · subst hj
    obtain rfl := Option.mem_unique hg hf
    exact ⟨{ g with scope := some scope }, by simp [hget], rfl, fun i hi => by
      rw [hnone g hf] at hi; cases hi⟩
  · exact ⟨g, by simp [hget, hj, hg], .refl g⟩

/-- The names and types that the frame of a definition starts with. -/
def frameTypes (owner : Option ClassType) (ps : List Parameter) (arguments : List Ty) : List Ty :=
  match owner with
  | some c => .object c :: (ps.zip arguments.tail).map (·.2)
  | none => (ps.zip arguments).map (·.2)

def frameNames (owner : Option ClassType) (ps : List Parameter) (arguments : List Ty) :
    List String :=
  match owner with
  | some _ => receiverName :: (ps.zip arguments.tail).map (·.1.name)
  | none => (ps.zip arguments).map (·.1.name)

/-- The first name in the frame of a method is its receiver. -/
def enterReceiver (frame : ScopeId) : Option ClassType → Check Unit
  | some c => discard <| declareIn frame receiverName (.object c)
  | none => pure ()

/-- The types of the arguments that parameters get. -/
def parameterArguments (owner : Option ClassType) (arguments : List Ty) : List Ty :=
  match owner with
  | some _ => arguments.tail
  | none => arguments

/-- The scope that a definition is made in: that of the members of its class, or else the global
one. -/
abbrev DefinedIn (t : Tables) (owner : Option ClassType) (parent : ScopeId) : Prop :=
  owner = none ∧ parent = ScopeTree.globalId ∨ ∃ c, owner = some c ∧
    t.types.memberScope? c = some parent

/-- The runs that checking a definition is made of: its scope is opened, its receiver and parameters
are declared, the scope is attached to its function, and its body is checked. -/
theorem definition_runs {node : Node} {ps : List Parameter} {u : Unit}
    (h : definition sub node owner ps b s = .ok (u, s'))
    (hi : s.tables.functions.lookup node.id = some i) :
    ∃ parent frame t f s1 s2 functions,
      DefinedIn s.tables owner parent ∧
      s.tables.scopes.openChild parent .function = .ok (frame, t) ∧
      s.tables.functions.functions.get? i = some f ∧
      enterReceiver frame owner { s with tables := { s.tables with scopes := t } } = .ok ((), s1) ∧
      ((ps.zip (parameterArguments owner f.signature.arguments)).forM
        fun (p, type) => declareParameter frame p type : Check Unit) s1 = .ok ((), s2) ∧
      s2.tables.functions.attachScope i frame = .ok functions ∧
      body sub i frame node.span b { s2 with tables := { s2.tables with functions } } =
        .ok ((), s') := by
  simp only [definition, bind_eq_ok, tables_eq_ok] at h
  obtain ⟨_, s0, ⟨rfl, hs0⟩, h⟩ := h
  subst s0
  simp only [hi] at h
  cases owner with
  | none =>
    simp only [bind_eq_ok, pure_eq_ok, openChild_eq_ok, tables_eq_ok, lift_eq_ok,
      setFunctions_eq_ok] at h
    obtain ⟨_, _, ⟨rfl, rfl⟩, frame, _, ⟨t, ht, rfl⟩, _, _, ⟨rfl, rfl⟩, f, _, ⟨hf, rfl⟩, _, _,
      ⟨rfl, rfl⟩, _, s2, hps, _, _, ⟨rfl, rfl⟩, functions, _, ⟨hat, rfl⟩, _, _, rfl, hb⟩ := h
    exact ⟨_, frame, t, f, _, _, functions, .inl ⟨rfl, rfl⟩, ht, Slots.fetch_eq_ok_iff.1 hf,
      rfl, hps, hat, hb⟩
  | some c =>
    simp only [bind_eq_ok, pure_eq_ok, openChild_eq_ok, tables_eq_ok, lift_eq_ok,
      memberScope_eq_ok, setFunctions_eq_ok] at h
    obtain ⟨parent, _, ⟨hm, rfl⟩, frame, _, ⟨t, ht, rfl⟩, _, _, ⟨rfl, rfl⟩, f, _, ⟨hf, rfl⟩, _, s1,
      hr, _, _, ⟨rfl, rfl⟩, _, s2, hps, _, _, ⟨rfl, rfl⟩, functions, _, ⟨hat, rfl⟩, _, _, rfl,
      hb⟩ := h
    exact ⟨parent, _, t, f, _, _, functions, .inr ⟨c, rfl, hm⟩, ht, Slots.fetch_eq_ok_iff.1 hf,
      hr, hps, hat, hb⟩

/-- The frame of a definition is filled with its receiver and its parameters. -/
theorem definition_fills {ps : List Parameter} {t : ScopeTree} {s2 : CheckState}
    (ht : s.tables.scopes.openChild parent .function = .ok (frame, t))
    (hr : enterReceiver frame owner { s with tables := { s.tables with scopes := t } } =
      .ok ((), s1))
    (hps : ((ps.zip (parameterArguments owner types)).forM fun (p, type) =>
      declareParameter frame p type :
      Check Unit) s1 = .ok ((), s2)) :
    Fills frame parent (frameTypes owner ps types) (frameNames owner ps types)
      { s with tables := { s.tables with scopes := t } } s2 := by
  cases owner with
  | none =>
    obtain ⟨-, rfl⟩ := pure_eq_ok.1 hr
    exact declareParameters_fills hps
  | some c =>
    obtain ⟨hid, owner, hsc, -⟩ := ScopeTree.openChild_ok ht
    have hframe : t.scopes.get? frame =
        some { parent := some parent, kind := .function, owner } := by
      rw [hsc, hid]
      exact (Slots.get?_push ..).trans (if_pos rfl)
    exact (declareReceiver_fills hframe rfl hr).trans (declareParameters_fills hps)

/-- The tables know everything about a definition, function number `i`. -/
structure DefinitionReady (t : Tables) (i : FunctionId) (d : Definition) : Prop where
  bound : t.functions.lookup d.node.id = some i
  ready : ∃ f frame parent sc, t.functions.functions.get? i = some f ∧ f.scope = some frame ∧
    f.signature.arguments.length = d.names.length ∧ f.signature.isMethod = d.isMethod ∧
    t.scopes.FrameAt frame parent d.names sc ∧ d.body.Ready t (some frame)
  stores : t.Stores d.body.stores
  runs : ∀ f, t.functions.functions.get? i = some f → f.signature.isMethod = true →
    f.isThread = false

theorem DefinitionReady.mono {t' : Tables} (hle : t.Le t') (h : DefinitionReady t i d) :
    DefinitionReady t' i d := by
  obtain ⟨f, frame, parent, sc, hf, hs, hlen, hm, hframe, hb⟩ := h.ready
  obtain ⟨f', hf', hfle⟩ := hle.functions i f hf
  obtain ⟨sc', hframe'⟩ := hframe.mono hle.scopes
  refine ⟨hle.calls _ _ h.bound, ⟨f', frame, parent, sc', hf', hfle.2 frame hs,
    by rw [hfle.signature, hlen], by rw [hfle.signature, hm], hframe', hb.mono hle⟩,
    h.stores.mono hle,
    fun g hg hgm => ?_⟩
  obtain rfl := Option.mem_unique hf' hg
  rw [hfle.signature] at hgm
  rw [hfle.isThread]
  exact h.runs f hf hgm

/-- What holds of tables and still does when they have grown. -/
def Lasting (P : Tables → Prop) : Prop := ∀ ⦃t t' : Tables⦄, t.Le t' → P t → P t'

/-- What holds in the second pass. The functions are the definitions `ds`, and the bodies of the
first ones, `done`, have been checked. -/
structure Progress (definitions : NodeId → Prop) (ps : TypedClasses)
    (ds done : List Definition) (t : Tables) : Prop where
  checking : Checking definitions none ScopeTree.globalId t
  classes : ∀ x c, t.types.class? x = some c ↔ ∃ q ∈ ps, q.1.name = x ∧ q.2 = c
  members : ∀ q ∈ ps, ∃ id, MembersAt t q.2 id q.1.fields
  defined : ∀ (i : Nat) d, ds[i]? = some d → t.functions.lookup d.node.id = some i ∧ ∃ f,
    t.functions.functions.get? i = some f ∧ f.signature.arguments.length = d.names.length ∧
    f.signature.isMethod = d.isMethod ∧ (∀ type ∈ f.signature.arguments, type ≠ .lock) ∧
    (f.signature.isMethod = true → f.isThread = false)
  bound : ∀ (i : Nat) f, t.functions.functions.get? i = some f → i < ds.length
  ready : ∀ (i : Nat) d, done[i]? = some d → DefinitionReady t i d
  pending : ∀ (i : Nat) f, done.length ≤ i → t.functions.functions.get? i = some f → f.scope = none

section
variable {definitions : NodeId → Prop} {ps : TypedClasses} {ds done : List Definition}
  {parameters : List Parameter} {arguments : List Ty} {P : Tables → Prop}

theorem map_name_zip (h : parameters.length ≤ types.length) :
    (parameters.zip types).map (·.1.name) = parameters.map (·.name) := by
  have := congrArg (List.map Parameter.name) (List.map_fst_zip h)
  rwa [List.map_map] at this

theorem frameNames_eq (hown : owner.isSome = d.isMethod)
    (hlen : arguments.length = d.names.length) :
    frameNames owner d.parameters arguments = d.names := by
  cases owner with
  | none =>
    have hm : d.isMethod = false := hown.symm
    simp only [Definition.names, hm, Bool.false_eq_true, ↓reduceIte, List.nil_append,
      List.length_map] at hlen ⊢
    rw [frameNames, map_name_zip (Nat.le_of_eq hlen.symm)]
  | some c =>
    have hm : d.isMethod = true := hown.symm
    simp only [Definition.names, hm, ↓reduceIte, List.singleton_append, List.length_cons,
      List.length_map] at hlen ⊢
    rw [frameNames, map_name_zip (by rw [List.length_tail]; omega)]

theorem frameTypes_no_lock (h : ∀ type ∈ arguments, type ≠ .lock) :
    ∀ type ∈ frameTypes owner parameters arguments,
    type ≠ .lock := by
  intro type hmem
  have hzip : ∀ l : List Ty, (∀ type ∈ l, type ≠ .lock) →
      type ∈ (parameters.zip l).map (·.2) → type ≠ .lock := by
    intro l hl hmem
    obtain ⟨p, hp, rfl⟩ := List.mem_map.1 hmem
    exact hl _ (List.of_mem_zip hp).2
  cases owner with
  | none => exact hzip _ h hmem
  | some c =>
    rcases List.mem_cons.1 hmem with rfl | hmem
    · nofun
    · exact hzip _ (fun t ht => h t (List.mem_of_mem_tail ht)) hmem

/-- The parent of a new function scope. -/
theorem Progress.home {scopes : ScopeTree} (hp : Progress definitions ps ds done t)
    (hparent : DefinedIn t owner parent) (howner : ∀ c, owner = some c → ∃ q ∈ ps, q.2 = c)
    (hreceiver : ∀ c, owner = some c → scopes.ReceiverAt (some frame) 0)
    (hle : t.scopes.Le scopes) : scopes.Home (some frame) parent := by
  rcases hparent with ⟨-, rfl⟩ | ⟨c, hc, hm⟩
  · exact .inl rfl
  · obtain ⟨q, hq, rfl⟩ := howner c hc
    obtain ⟨id, hmem⟩ := hp.members q hq
    obtain rfl := Option.mem_unique hmem.scope hm
    obtain ⟨m, hm, hk, hpar, -⟩ := hmem.isMembers
    obtain ⟨m', hm', hmle⟩ := hle id m hm
    exact .inr ⟨m', hm', hmle.kind.trans hk, hmle.parent.trans hpar, 0, hreceiver _ hc⟩

theorem Progress.parent_lt (hp : Progress definitions ps ds done t)
    (hparent : DefinedIn t owner parent)
    (howner : ∀ c, owner = some c → ∃ q ∈ ps, q.2 = c) : parent < t.scopes.scopes.size := by
  rcases hparent with ⟨-, rfl⟩ | ⟨c, hc, hm⟩
  · obtain ⟨g, hg, -⟩ := hp.checking.laid.global
    exact Slots.lt_of_get? hg
  · obtain ⟨q, hq, rfl⟩ := howner c hc
    obtain ⟨id, hmem⟩ := hp.members q hq
    obtain rfl := Option.mem_unique hmem.scope hm
    obtain ⟨m, hm, -⟩ := hmem.isMembers
    exact Slots.lt_of_get? hm

/-- One more definition is checked, and only its function changes. -/
theorem Progress.step {t' : Tables} (hp : Progress definitions ps ds done t) (hle : t.Le t')
    (hc : Checking definitions none ScopeTree.globalId t') (hlt : done.length < ds.length)
    (hd : DefinitionReady t' done.length d)
    (hfun : ∀ j : Nat, j ≠ done.length →
      t'.functions.functions.get? j = t.functions.functions.get? j) :
    Progress definitions ps ds (done ++ [d]) t' where
  checking := hc
  classes := hle.types ▸ hp.classes
  members q hq := (hp.members q hq).imp fun _ hm =>
    hm.mono (fun c id h => by rw [hle.types, h]) hle.scopes
  defined i d' hd' := by
    obtain ⟨hl, f, hf, hlen, hm, hn, hr⟩ := hp.defined i d' hd'
    obtain ⟨f', hf', hfle⟩ := hle.functions i f hf
    exact ⟨hle.calls _ _ hl, f', hf', by rw [hfle.signature, hlen], by rw [hfle.signature, hm],
      by rw [hfle.signature]; exact hn, by rw [hfle.signature, hfle.isThread]; exact hr⟩
  bound i f hf := by
    by_cases hi : i = done.length
    · rwa [hi]
    · exact hp.bound i f (hfun i hi ▸ hf)
  ready i d' hd' := by
    by_cases hlt : i < done.length
    · rw [List.getElem?_append_left hlt] at hd'
      exact (hp.ready i d' hd').mono hle
    · have hbound := (List.getElem?_eq_some_iff.1 hd').1
      rw [List.length_append, List.length_singleton] at hbound
      obtain rfl : i = done.length := by omega
      rw [List.getElem?_concat_length] at hd'
      cases hd'
      exact hd
  pending i f hi hf := by
    rw [List.length_append, List.length_singleton] at hi
    rw [hfun i (by omega)] at hf
    exact hp.pending i f (by omega) hf

/-- The tables `t₁` in which the body of the next definition is checked: its frame is filled and
attached to its function. -/
structure Entered (definitions : NodeId → Prop) (i : FunctionId) (d : Definition) (frame : ScopeId)
    (t t1 : Tables) : Prop where
  le : t.Le t1
  checking : Checking definitions (some frame) frame t1
  names : ∃ parent sc, t1.scopes.FrameAt frame parent d.names sc
  functions : ∃ f, t.functions.functions.get? i = some f ∧ ∀ j, t1.functions.functions.get? j =
    if j = i then some { f with scope := some frame } else t.functions.functions.get? j

/-- Checking the next definition is checking its body. -/
theorem Progress.enters {u : Unit} (hp : Progress definitions ps ds done s.tables)
    (hnext : ds = done ++ d :: rest)
    (hown : owner.isSome = d.isMethod) (howner : ∀ c, owner = some c → ∃ q ∈ ps, q.2 = c)
    (h : definition sub d.node owner d.parameters d.body s = .ok (u, s'))
    (hd : s'.diagnostics = #[]) :
    ∃ frame s1, Entered definitions done.length d frame s.tables s1.tables ∧
      body sub done.length frame d.node.span d.body s1 = .ok ((), s') := by
  obtain ⟨hi, f', hf', hlen, -, hnolock, -⟩ := hp.defined done.length d (by rw [hnext]; simp)
  obtain ⟨parent, frame, t, f, s1, s2, functions, hparent, hopen, hf, hr, hps, hat, hb⟩ :=
    definition_runs h hi
  have hfill := definition_fills hopen hr hps
  have hbody := body_settles hb
  obtain rfl := Option.mem_unique hf hf'
  have hnone := hp.pending done.length f (Nat.le_refl _) hf
  have hgrow := (Works.ofScopes (ScopeTree.openChild_le hopen)).trans hfill.works
  have hle3 := attachScope_le hat fun g hg => by
    rw [hfill.functions, hf] at hg
    exact Option.some.inj hg ▸ hnone
  obtain ⟨g, hg, hbind, hget⟩ := attachScope_ok hat
  rw [hfill.functions, hf] at hg
  cases hg
  rw [hfill.functions] at hbind hget
  obtain ⟨sc0, hframe0, hslots0⟩ := ScopeTree.openChild_frame hopen
  obtain ⟨sc, hframe, -⟩ := hfill.frame (hbody.works.reports hd) [] sc0 hframe0 hslots0
  rw [frameNames_eq hown hlen] at hframe
  have hchecking : Checking definitions (some frame) frame { s2.tables with functions } := by
    refine ⟨hfill.laid (ScopeTree.openChild_laid hopen
      (hp.parent_lt hparent howner) hp.checking.laid),
      .function rfl hframe.isScope hframe.kind hframe.owner hframe.parent ?_,
      hfill.locks (frameTypes_no_lock hnolock)
        (ScopeTree.openChild_locks hopen hp.checking.locks), fun n hn => ?_⟩
    · exact hp.home hparent howner (fun c hc => by
        have hm : d.isMethod = true := by rw [← hown, hc]; rfl
        simp only [Definition.names, hm] at hframe
        exact hframe.receiver) hgrow.grown
    · rw [show FunctionTable.lookup _ n = s.tables.functions.lookup n by
        simp only [FunctionTable.lookup, hbind]] at hn
      refine (hp.checking.covered n hn).imp_right fun ht => ?_
      obtain ⟨type, ht⟩ := Option.isSome_iff_exists.1 ht
      exact Option.isSome_iff_exists.2 ⟨type, hgrow.typed n type ht⟩
  exact ⟨frame, { s2 with tables := { s2.tables with functions } },
    ⟨hgrow.tables_le.trans hle3, hchecking, ⟨parent, sc, hframe⟩, f, hf, hget⟩, hb⟩

/-- Whatever the tables are like, a definition whose check reports nothing follows on code that was
checked without reports. -/
theorem definition_reports {u : Unit}
    (h : definition sub d.node owner d.parameters d.body s = .ok (u, s'))
    (hd : s'.diagnostics = #[]) : s.diagnostics = #[] := by
  cases hlookup : s.tables.functions.lookup d.node.id with
  | none =>
    simp only [definition, bind_eq_ok, tables_eq_ok] at h
    obtain ⟨_, s1, ⟨rfl, hs1⟩, h⟩ := h
    subst s1
    rw [hlookup] at h
    obtain ⟨-, rfl⟩ := pure_eq_ok.1 h
    exact hd
  | some i =>
    obtain ⟨parent, frame, t, f, s1, s2, functions, -, hopen, -, hr, hps, -, hb⟩ :=
      definition_runs h hlookup
    exact (definition_fills hopen hr hps).works.reports ((body_settles hb).works.reports hd)

/-- Checking the next definition. What held of the tables before and grows with them still does. -/
theorem definition_clean (hnext : ds = done ++ d :: rest) (hown : owner.isSome = d.isMethod)
    (howner : ∀ c, owner = some c → ∃ q ∈ ps, q.2 = c) (hnew : NewApart definitions d.body.nodes)
    (hP : Lasting P) :
    Clean (fun t => Progress definitions ps ds done t ∧ P t)
      (definition sub d.node owner d.parameters d.body)
      fun _ t => Progress definitions ps ds (done ++ [d]) t ∧ P t := by
  intro s u s' h hd
  refine ⟨definition_reports h hd, ?_⟩
  rintro ⟨hp, hpast⟩
  obtain ⟨frame, s1, hin, hb⟩ := hp.enters hnext hown howner h hd
  have hbody := body_settles hb
  obtain ⟨hc, hready⟩ := hbody.settles hd hin.checking hnew
  obtain ⟨hready, hstores⟩ := hready (.refl _)
  have hle := hin.le.trans hbody.works.tables_le
  obtain ⟨hl, f', hf', hlen, hmeth, -, hruns⟩ := hp.defined done.length d (by rw [hnext]; simp)
  obtain ⟨f, hf, hget⟩ := hin.functions
  obtain rfl := Option.mem_unique hf hf'
  have hfun : ∀ j, s'.tables.functions.functions.get? j = if j = done.length then
      some { f with scope := some frame } else s.tables.functions.functions.get? j := fun j => by
    rw [hbody.works.functions, hget]
  obtain ⟨parent, sc, hframe⟩ := hin.names
  obtain ⟨sc', hframe'⟩ := hframe.mono hbody.works.grown
  have hf' := (hfun _).trans (if_pos rfl)
  have hready : DefinitionReady s'.tables done.length d :=
    ⟨hle.calls _ _ hl, ⟨_, frame, parent, sc', hf', rfl, hlen, hmeth, hframe', hready⟩, hstores,
      fun g hg => Option.some.inj (hf'.symm.trans hg) ▸ hruns⟩
  exact ⟨hp.step hle ⟨hc.laid, .main rfl, hc.locks, hc.covered⟩ (by simp [hnext]) hready
    fun j hj => (hfun j).trans (if_neg hj), hP hle hpast⟩

/-- Code that is checked at the top level. -/
theorem Settles.clean {m : Check Unit} {ns : List NodeEntry} {f : Walk → Walk}
    {R : Tables → Option ScopeId → Prop} (hnew : NewApart definitions ns) (hP : Lasting P)
    (hm : ∀ s u s', m s = .ok (u, s') → Settles ScopeTree.globalId ns f R s s') :
    Clean (fun t => Progress definitions ps ds done t ∧ P t) m
      fun _ t => Progress definitions ps ds done t ∧ P t ∧ R t none := by
  intro s u s' h hd
  have hs := hm s u s' h
  refine ⟨hs.works.reports hd, ?_⟩
  rintro ⟨hp, hpast⟩
  obtain ⟨hc, hr⟩ := hs.settles hd hp.checking hnew
  have hle := hs.works.tables_le
  refine ⟨⟨hc, hle.types ▸ hp.classes, fun q hq => (hp.members q hq).imp fun _ hm =>
    hm.mono (fun c id h => by rw [hle.types, h]) hle.scopes, fun i d hd => ?_, fun i f hf =>
    hp.bound i f (hs.works.functions ▸ hf), fun i d hd => (hp.ready i d hd).mono hle,
    fun i f hi hf => ?_⟩, hP hle hpast, hr (.refl _)⟩
  · obtain ⟨hl, hrest⟩ := hp.defined i d hd
    rw [hs.works.functions]
    exact ⟨hle.calls _ _ hl, hrest⟩
  · rw [hs.works.functions] at hf
    exact hp.pending i f hi hf

theorem fieldInitializer_settles {d : Declaration} {u : Unit}
    (h : fieldInitializer sub c d s = .ok (u, s')) :
    s.Reads none s' ∧ Settles ScopeTree.globalId d.nodes (Expr.walkOption d.initializer)
      (fun t frame => Expr.ReadyOption t frame d.initializer) s s' := by
  unfold fieldInitializer at h
  refine And.imp_right Settles.cons ?_
  cases hi : d.initializer with
  | none =>
    rw [hi] at h
    obtain ⟨-, rfl⟩ := pure_eq_ok.1 h
    exact ⟨.refl _, .refl trivial⟩
  | some e =>
    simp only [hi, bind_eq_ok, memberScope_eq_ok, binding?_eq_ok] at h
    obtain ⟨value, s1, he, id, s2, ⟨-, hs2⟩, found, s3, ⟨-, hs3⟩, h⟩ := h
    subst s2 s3
    have hr : s1.Reads none s' := by
      cases found with
      | none =>
        obtain ⟨-, rfl⟩ := pure_eq_ok.1 h
        exact .refl _
      | some b => exact expectType_ok h
    exact ⟨(expr_ok e he).1.trans hr, (expr_settles he).reads hr⟩

/-- The initializers of these fields are ready. -/
def FieldsReady (t : Tables) (fields : List Declaration) : Prop :=
  ∀ d ∈ fields, Expr.ReadyOption t none d.initializer

theorem FieldsReady.mono {t' : Tables} (hle : t.Le t') (h : FieldsReady t fields) :
    FieldsReady t' fields := fun d hd => (h d hd).mono hle

variable {P : Tables → Prop}

theorem fieldInitializers_clean (fields : List Declaration)
    (hnew : NewApart definitions (fields.flatMap Declaration.nodes)) (hP : Lasting P) :
    Clean (fun t => Progress definitions ps ds done t ∧ P t)
      (fields.forM (fieldInitializer sub c)) fun _ t =>
      Progress definitions ps ds done t ∧ P t ∧ FieldsReady t fields := by
  refine (Clean.forM (I := fun fs t => Progress definitions ps ds done t ∧ P t ∧ FieldsReady t fs)
    fun fs d rest hl => ?_).weaken fun t ⟨hp, h⟩ => ⟨hp, h, nofun⟩
  have hd : NewApart definitions d.nodes := fun n hn => hnew n
    (List.mem_flatMap.2 ⟨d, by simp [hl], hn⟩)
  refine (Settles.clean hd (fun _ _ hle h => ⟨hP hle h.1, h.2.mono hle⟩) fun _ _ _ h =>
    (fieldInitializer_settles h).2).strengthen fun _ t ⟨hp, ⟨h, hfs⟩, hr⟩ =>
    ⟨hp, h, fun d' hd' => ?_⟩
  rcases List.mem_append.1 hd' with hd' | hd'
  · exact hfs d' hd'
  · rwa [List.mem_singleton.1 hd']

/-- What checking finds out about the code of a unit: about the statements of the main core and
about each other part. `around` is what has to hold before. -/
structure Findings where
  around : Tables → Prop
  main : Tables → Prop
  part : CodePart → Tables → Prop
  main_lasts : Lasting main
  part_lasts : ∀ x, Lasting (part x)

/-- The parts of a unit give these findings when it is their turn. -/
def Findings.Found (F : Findings) (sub : Ty) (definitions : NodeId → Prop) (ps : TypedClasses)
    (ds : List Definition) : Prop :=
  ∀ {x : CodePart} {P done rest}, Lasting P → x.Of ps → ds = done ++ x.definitions ++ rest →
    NewApart definitions x.nodes →
      Clean (fun t => Progress definitions ps ds done t ∧ F.around t ∧ P t) (x.check sub)
      fun _ t => Progress definitions ps ds (done ++ x.definitions) t ∧ F.around t ∧
      P t ∧ F.part x t

/-- The second pass: after the statements of the main core, all other code. -/
theorem bodies_found {F : Findings} (hF : F.Found sub definitions ps u.definitions)
    (hmain : Clean (fun t => Progress definitions ps u.definitions [] t ∧ P t)
      (stmts sub topLevel u.statements) fun _ t => Progress definitions ps u.definitions [] t ∧
      F.around t ∧ F.main t)
    (hall : ps.map (·.1) = u.classes) (hnew : NewApart definitions u.nodes) :
    Clean (fun t => Progress definitions ps u.definitions [] t ∧ P t) (bodies sub u ps) fun _ t =>
      Progress definitions ps u.definitions u.definitions t ∧ F.around t ∧ F.main t ∧
        ∀ x ∈ codeParts ps u.functions, F.part x t := by
  have hdefs : u.definitions = (codeParts ps u.functions).flatMap CodePart.definitions := by
    rw [definitions_codeParts, definitions_callablesOf hall]
  rw [bodies_eq]
  refine .bind hmain fun _ => ((Clean.forM
    (I := fun xs t => Progress definitions ps u.definitions (xs.flatMap CodePart.definitions) t ∧
      F.around t ∧
      F.main t ∧ ∀ x ∈ xs, F.part x t) fun xs x rest hl => ?_).weaken fun t h =>
      ⟨h.1, h.2.1, h.2.2, fun _ hx => by cases hx⟩).strengthen fun _ t h => ⟨hdefs ▸ h.1, h.2⟩
  have hx : x ∈ codeParts ps u.functions := by simp [hl]
  have hnext : u.definitions = xs.flatMap CodePart.definitions ++ x.definitions ++
      rest.flatMap CodePart.definitions := by
    rw [hdefs, hl]
    simp
  refine (hF (fun _ _ hle h => ⟨F.main_lasts hle h.1, fun x hx => F.part_lasts x hle (h.2 x hx)⟩)
    (of_codeParts x hx)
    hnext fun n hn => hnew n (nodes_codeParts hall x hx hn)).strengthen fun _ t h => ?_
  obtain ⟨hprog, haround, ⟨hmain, hxs⟩, hpart⟩ := h
  refine ⟨by simpa using hprog, haround, hmain, ?_⟩
  rw [List.forall_mem_append, List.forall_mem_singleton]
  exact ⟨hxs, hpart⟩

theorem owner_mem {p : Option (ClassDef × ClassType)} {f : Callable}
    (hp : (CodePart.routine p f).Of ps) :
    ∀ c, f.owner = some c → ∃ q ∈ ps, q.2 = c := by
  intro c hc
  obtain ⟨q, rfl, rfl⟩ := Option.map_eq_some_iff.1 (hp.1.symm.trans hc)
  exact ⟨q, hp.2 q rfl, rfl⟩

/-- The statements of the main core are checked at the top level. -/
theorem main_clean (hnew : NewApart definitions (Stmt.nodesAll u.statements)) :
    Clean (fun t => Progress definitions ps ds done t ∧ True)
      (stmts sub topLevel u.statements) fun _ t =>
      Progress definitions ps ds done t ∧ True ∧
        Stmt.ReadyAll t none false u.statements ∧ t.Stores (Stmt.storesAll u.statements) :=
  Settles.clean hnew (fun _ _ _ h => h)
    fun s x s' (h : stmts sub topLevel u.statements s = .ok (x, s')) => stmts_settles u.statements h

theorem bodies_clean (hall : ps.map (·.1) = u.classes) (hnew : NewApart definitions u.nodes) :
    Clean (Progress definitions ps u.definitions []) (bodies sub u ps) fun _ t =>
      Progress definitions ps u.definitions u.definitions t ∧
        (Stmt.ReadyAll t none false u.statements ∧ t.Stores (Stmt.storesAll u.statements)) ∧
        ∀ q ∈ ps, FieldsReady t q.1.fields := by
  let F : Findings := {
    around := fun _ => True
    main := fun t => Stmt.ReadyAll t none false u.statements ∧
    t.Stores (Stmt.storesAll u.statements)
    part := fun x t => ∀ p, x = .fields p → FieldsReady t p.1.fields
    main_lasts := fun _ _ hle h => ⟨h.1.mono hle, h.2.mono hle⟩
    part_lasts := fun _ _ _ hle h p hp => (h p hp).mono hle }
  have hF : F.Found sub definitions ps u.definitions := fun {x} _ _ _ hP hx hnext hnew => by
    cases x with
    | fields p =>
      exact (fieldInitializers_clean _ hnew fun _ _ hle h => ⟨trivial, hP hle h.2⟩).strengthen
        fun _ t h => ⟨by simpa [CodePart.definitions] using h.1, h.2.1.1, h.2.1.2,
          fun _ hp => by cases hp; exact h.2.2⟩
    | routine p f =>
      exact (definition_clean (d := f.definition) (by simpa [CodePart.definitions] using hnext) rfl
        (owner_mem hx) hnew
        fun _ _ hle h => ⟨trivial, hP hle h.2⟩).strengthen fun _ t h =>
        ⟨h.1, h.2.1, h.2.2, fun _ hp => by cases hp⟩
  exact ((bodies_found hF (main_clean (NewApart.append.1 hnew).2) hall hnew).weaken fun _ h =>
    ⟨h, trivial⟩).strengthen
    fun _ t h => ⟨h.1, h.2.2.1, fun q hq => ((forall_codeParts.1 h.2.2.2).1 q hq).1 q rfl⟩

end

end Check

/-! ## Accepted units -/

/-- The initial values of fields are stored in objects, not under names. -/
def SourceUnit.stores (u : SourceUnit) : List NameStore :=
  Stmt.storesAll u.statements ++ u.definitions.flatMap (·.body.stores)

/-- What the tables of an accepted unit say. -/
structure SourceUnit.Sound (u : SourceUnit) (t : Tables) : Prop where
  laid : t.scopes.Laid
  main : Stmt.ReadyAll t none false u.statements
  stores : t.Stores u.stores
  classNames : (u.classes.map (·.name)).Nodup
  classes : ∀ c ∈ u.classes, ∃ type id, t.types.class? c.name = some type ∧
    Check.MembersAt t type id c.fields ∧ Check.FieldsReady t c.fields
  registered : ∀ x type, t.types.class? x = some type → ∃ c ∈ u.classes, c.name = x
  definitions : ∀ (i : Nat) d, u.definitions[i]? = some d → Check.DefinitionReady t i d
  functions : ∀ (i : Nat) f, t.functions.functions.get? i = some f → i < u.definitions.length

/-- The nodes of definitions are the ones of functions and constructors. -/
theorem SourceUnit.exists_entry_of_definition (h : d ∈ u.definitions) :
    ∃ n ∈ u.nodes, n.id = d.node.id ∧ n.kind ≠ .new := by
  simp only [SourceUnit.definitions, ClassDef.definitions, List.mem_append, List.mem_flatMap,
    List.mem_map] at h
  simp only [SourceUnit.nodes, ClassDef.nodes, List.mem_append, List.mem_flatMap]
  rcases h with ⟨c, hc, ⟨m, hm, rfl⟩ | ⟨k, hk, rfl⟩⟩ | ⟨f, hf, rfl⟩
  · exact ⟨{ kind := .function, id := m.node.id },
      .inl (.inl ⟨c, hc, .inl (.inr ⟨m, hm, .head _⟩)⟩), rfl, NodeKind.noConfusion⟩
  · exact ⟨{ kind := .constructor, id := k.node.id },
      .inl (.inl ⟨c, hc, .inr ⟨k, hk, .head _⟩⟩), rfl, NodeKind.noConfusion⟩
  · exact ⟨{ kind := .function, id := f.node.id }, .inl (.inr ⟨f, hf, .head _⟩), rfl,
      NodeKind.noConfusion⟩

/-- Two entries with one number are the same entry. -/
theorem SourceUnit.newApart (h : (u.nodes.map (·.id)).Nodup) :
    Check.NewApart (fun n => ∃ d ∈ u.definitions, d.node.id = n) u.nodes := by
  rintro n hn hk ⟨d, hd, hid⟩
  obtain ⟨m, hm, hmid, hmk⟩ := exists_entry_of_definition hd
  have : m = n := List.inj_on_of_nodup_map h hm hn (hmid.trans hid)
  exact hmk (this ▸ hk)

theorem lookup_of_mem_nodup {p : String × α} :
    ∀ {ps : List (String × α)}, (ps.map (·.1)).Nodup → p ∈ ps → ps.lookup p.1 = some p.2
  | q :: ps, h, hp => by
    rw [List.map_cons, List.nodup_cons] at h
    rw [List.lookup_cons]
    rcases List.mem_cons.1 hp with rfl | hp
    · simp
    · have hne : p.1 ≠ q.1 := fun heq => h.1 (List.mem_map.2 ⟨p, hp, heq⟩)
      simpa [beq_eq_false_iff_ne.2 hne] using lookup_of_mem_nodup h.2 hp

/-- What the second pass leaves is sound. -/
theorem Check.Progress.sound {definitions : NodeId → Prop}
    (hp : Progress definitions ps u.definitions u.definitions t) (hall : ps.map (·.1) = u.classes)
    (hnames : (u.classes.map (·.name)).Nodup)
    (hmain : Stmt.ReadyAll t none false u.statements ∧ t.Stores (Stmt.storesAll u.statements))
    (hfields : ∀ q ∈ ps, FieldsReady t q.1.fields) : u.Sound t where
  laid := hp.checking.laid
  main := hmain.1
  stores := Tables.stores_append.2 ⟨hmain.2, fun q hq => by
    obtain ⟨d, hd, hq⟩ := List.mem_flatMap.1 hq
    obtain ⟨i, hi⟩ := List.getElem?_of_mem hd
    exact (hp.ready i d hi).stores q hq⟩
  classNames := hnames
  classes c hc := by
    rw [← hall] at hc
    obtain ⟨q, hq, rfl⟩ := List.mem_map.1 hc
    obtain ⟨id, hm⟩ := hp.members q hq
    exact ⟨q.2, id, (hp.classes _ _).2 ⟨q, hq, rfl, rfl⟩, hm, hfields q hq⟩
  registered x type hx := by
    obtain ⟨q, hq, hname, -⟩ := (hp.classes x type).1 hx
    exact ⟨q.1, by rw [← hall]; exact List.mem_map.2 ⟨q, hq, rfl⟩, hname⟩
  definitions := hp.ready
  functions := hp.bound

/-- The tables of an accepted unit are those of a run of the checker without a diagnostic. -/
theorem SourceUnit.check_run (h : u.check = .ok t) :
    ∃ s, Check.unit .bool u {} = .ok ((), s) ∧ s.diagnostics = #[] ∧ s.tables = t := by
  unfold SourceUnit.check SourceUnit.checkWith at h
  split at h
  · cases h
  · rename_i s hrun
    split at h
    · rename_i hempty
      cases h
      exact ⟨s, hrun, by simpa using hempty, rfl⟩
    · cases h

end Awl
