import Awl.Proofs.ExactUnit
import Awl.Proofs.Placed

/-!
# Every name is stored where lexical scoping says

The code of a unit is walked under the scopes that are around it: the statements of the main core
under the global scope alone, the initializers of fields and the functions under all global
variables, and the methods and constructors of a class also under its members.
`SourceUnit.check_addressed` says that in an accepted unit every use of a name has a declaration in
its walk, that the code generator takes its storage from the slot of that declaration, and that the
variables of a routine, the fields of a class and the global variables have slots of their own.
-/

namespace Awl

variable {p : ClassDef × ClassType} {d : Definition} {ps : TypedClasses} {owner : Option ClassType}
  {id : ScopeId} {u : SourceUnit} {t t' : Tables} {frame : Option ScopeId}
  {vs outer : List Variable} {c : ClassType} {globals : Origins} {x : String} {sc : Scope} {k : Nat}

/-! ## The walks of a unit -/

/-- The receiver, the parameters and the outermost variables of a function are in one scope. -/
def Definition.walk (d : Definition) (scopes : List Origins) : Walk :=
  let w : Walk := { scopes := [] :: scopes }
  let w := if d.isMethod then w.declare receiverName .receiver else w
  d.body.walk (d.parameters.foldl (fun w p => w.declare p.name (.node p.node.id)) w)

/-- The names of the members of a class, in its methods and constructors. -/
def ClassDef.origins (c : ClassDef) : Origins :=
  c.fields.map (fun d => (d.name, some (.node d.node.id))) ++ c.methods.map fun m => (m.name, none)

def ClassDef.fieldVariables (c : ClassDef) : List Variable :=
  c.fields.map fun d => ⟨d.name, .node d.node.id⟩

/-- The initializers of fields see global variables only. -/
def Declaration.walkInitializers (globals : Origins) (fields : List Declaration) : Walk :=
  fields.foldl (fun w d => Expr.walkOption d.initializer w) { scopes := [globals] }

def SourceUnit.mainWalk (u : SourceUnit) : Walk := Stmt.walkAll u.statements { scopes := [[]] }

/-- The names of all global variables. -/
def SourceUnit.globalOrigins (u : SourceUnit) : Origins := u.mainWalk.scopes.headD []

/-! ## Members -/

theorem lookup_members {α : Type} (methods : List FunctionDef) (g : Declaration → Option α)
    (x : String) (fields : List Declaration) : List.lookup x
    (fields.map (fun d => (d.name, g d)) ++ methods.map fun m => (m.name, none)) =
      ((fields.find? (x == ·.name)).map g).or ((methods.find? (x == ·.name)).map
        fun _ => none) := by
  induction fields with
  | nil =>
    induction methods with
    | nil => rfl
    | cons m methods ih =>
      rw [List.map_nil, List.nil_append] at ih ⊢
      rw [List.map_cons, List.lookup_cons, List.find?_cons, ih]
      cases x == m.name <;> rfl
  | cons d fields ih =>
    rw [List.map_cons, List.cons_append, List.lookup_cons, List.find?_cons, ih]
    cases x == d.name <;> rfl

theorem ClassDef.mem_fieldVariables {c : ClassDef} {o : Origin}
    (h : c.origins.lookup x = some (some o)) :
    ∃ d ∈ c.fields, x = d.name ∧ o = .node d.node.id := by
  rw [ClassDef.origins, lookup_members] at h
  cases hf : c.fields.find? (x == ·.name) with
  | none =>
    rw [hf] at h
    cases hm : c.methods.find? (x == ·.name) <;> simp [hm] at h
  | some d =>
    rw [hf] at h
    cases h
    exact ⟨d, List.mem_of_find?_eq_some hf, by simpa using List.find?_some hf, rfl⟩

namespace Check

/-- The nodes of the fields of a class have its member scope. -/
def FieldsAt (t : Tables) (p : ClassDef × ClassType) : Prop :=
  ∃ id, t.types.memberScope? p.2 = some id ∧ ∀ d ∈ p.1.fields,
    t.annotations.scope? d.node.id = some id

/-- Neither member scopes nor the scopes of nodes are lost. -/
structure Retains (t t' : Tables) : Prop where
  members : ∀ c id, t.types.memberScope? c = some id → t'.types.memberScope? c = some id
  placed : ∀ n id, t.annotations.scope? n = some id → t'.annotations.scope? n = some id

theorem Retains.refl (t : Tables) : Retains t t := ⟨fun _ _ h => h, fun _ _ h => h⟩

theorem Retains.trans {t1 t2 t3 : Tables} (h : Retains t1 t2) (h' : Retains t2 t3) :
    Retains t1 t3 :=
  ⟨fun c id hc => h'.members c id (h.members c id hc), fun n id hn =>
    h'.placed n id (h.placed n id hn)⟩

theorem FieldsAt.retains (h : FieldsAt t p) (hr : Retains t t') : FieldsAt t' p := by
  obtain ⟨id, hid, hf⟩ := h
  exact ⟨id, hr.members _ _ hid, fun d hd => hr.placed _ _ (hf d hd)⟩

variable {sub : Ty}

theorem setMemberScope_ok {r r' : TypeRegistry} (h : r.setMemberScope c id = .ok r') :
    r'.memberScope? c = some id ∧ ∀ c' id', r.memberScope? c' = some id' →
      r'.memberScope? c' = some id' := by
  unfold TypeRegistry.setMemberScope at h
  simp only [except_bind_eq_ok, Slots.fetch_eq_ok_iff] at h
  obtain ⟨old, hold, h⟩ := h
  cases old with
  | some _ => cases h
  | none =>
    simp only [except_bind_eq_ok, except_pure_eq_ok] at h
    obtain ⟨scopes, hs, rfl⟩ := h
    obtain ⟨-, -, hget⟩ := Slots.replace_ok hs
    refine ⟨by simp [TypeRegistry.memberScope?, hget], fun c' id' hc' => ?_⟩
    unfold TypeRegistry.memberScope? at hc' ⊢
    rw [hget]
    split
    · rename_i heq
      rw [heq, hold] at hc'
      cases hc'
    · exact hc'

theorem layOut_placed {scope : ScopeId} :
    ∀ {fields : List Declaration} {s s' : CheckState} {u : Unit},
      (fields.forM (declareField sub c scope) : Check Unit) s = .ok (u, s') →
      Retains s.tables s'.tables ∧ ∀ d ∈ fields, s'.tables.annotations.scope? d.node.id = some scope
  | [], s, s', u, h => by
    obtain ⟨-, rfl⟩ := pure_eq_ok.1 h
    exact ⟨.refl _, nofun⟩
  | d :: fields, s, s', u, h => by
    obtain ⟨_, s1, hd, h⟩ := bind_eq_ok.1 h
    obtain ⟨hr, hf⟩ := layOut_placed h
    simp only [declareField] at hd
    rw [bind_eq_ok] at hd
    obtain ⟨type, s2, htype, hd⟩ := hd
    obtain ⟨s3, hr3, -, -, hd⟩ := reportIf_bind hd
    obtain ⟨hw, -, -, hscope, -⟩ := bindName_ok hd
    have hle := ((resolveType_ok htype).1.trans hr3).works.tables_le.trans hw.tables_le
    refine ⟨.trans ⟨fun c id h => by rw [hle.types, h], hle.placed⟩ hr, fun d' hd' => ?_⟩
    rcases List.mem_cons.1 hd' with rfl | hd'
    · exact hr.placed _ _ hscope
    · exact hf d' hd'

theorem layOutClasses_placed : ∀ {ps : TypedClasses} {s s' : CheckState} {u : Unit},
    (ps.forM fun (d, c) => declareFields sub d c : Check Unit) s = .ok (u, s') →
    Retains s.tables s'.tables ∧ ∀ p ∈ ps, FieldsAt s'.tables p
  | [], s, s', u, h => by
    obtain ⟨-, rfl⟩ := pure_eq_ok.1 h
    exact ⟨.refl _, nofun⟩
  | (d, c) :: ps, s, s', u, h => by
    obtain ⟨_, s1, hd, h⟩ := bind_eq_ok.1 h
    obtain ⟨hr, hps⟩ := layOutClasses_placed h
    simp only [declareFields, bind_eq_ok, openChild_eq_ok, tables_eq_ok, lift_eq_ok,
      setTypes_eq_ok] at hd
    obtain ⟨id, _, ⟨t, -, rfl⟩, _, _, ⟨rfl, rfl⟩, r, _, ⟨hset, rfl⟩, _, _, rfl, hd⟩ := hd
    obtain ⟨hm, hmono⟩ := setMemberScope_ok hset
    obtain ⟨hr1, hf⟩ := layOut_placed hd
    have hr2 := hr1.trans hr
    refine ⟨⟨fun c id h => hr2.members c id (hmono c id h), hr2.placed⟩, fun p hp => ?_⟩
    rcases List.mem_cons.1 hp with rfl | hp
    · exact FieldsAt.retains ⟨id, hr1.members _ _ hm, hf⟩ hr
    · exact hps p hp

theorem declareTypes_placed {s s' : CheckState} (h : declareTypes sub u s = .ok (ps, s')) :
    ∀ p ∈ ps, FieldsAt s'.tables p := by
  simp only [declareTypes, bind_eq_ok] at h
  obtain ⟨_, s1, -, rs, s2, -, _, _, hloop, rfl, rfl⟩ := h
  exact (layOutClasses_placed hloop).2

/-! ## The scopes around routines -/

/-- The names of the global scope and of the members of classes, which no routine changes. -/
structure Ambient (ps : TypedClasses) (globals : Origins) (vs : List Variable)
    (t : Tables) : Prop where
  global : ∀ frame, t.Lexed frame ScopeTree.globalId [globals]
  members : ∀ p ∈ ps, ∃ id, t.types.memberScope? p.2 = some id ∧ ∀ frame,
    t.Lexed frame id [p.1.origins, globals]
  known : ∀ x o, globals.lookup x = some (some o) → ⟨x, o⟩ ∈ vs

theorem Ambient.keeps (h : Ambient ps globals vs t) (hle : t.Le t')
    (hk : t.scopes.Keeps none t'.scopes) : Ambient ps globals vs t' where
  global frame := (h.global frame).keeps hle hk (by nofun)
  members p hp := by
    obtain ⟨id, hid, hl⟩ := h.members p hp
    exact ⟨id, by rw [hle.types, hid], fun frame => (hl frame).keeps hle hk (by nofun)⟩
  known := h.known

/-- The scope of a member, after the first pass. -/
structure MembersShow (t : Tables) (p : ClassDef × ClassType) (id : ScopeId) : Prop where
  scope : t.types.memberScope? p.2 = some id
  shows : ∃ sc, t.scopes.scopes.get? id = some sc ∧ sc.parent = some ScopeTree.globalId ∧
    ScopeTree.globalId < id ∧ ∀ frame, t.OriginsAt frame id sc p.1.origins

theorem MembersShow.keeps (h : MembersShow t p id) (hle : t.Le t')
    (hk : t.scopes.Keeps (some ScopeTree.globalId) t'.scopes) : MembersShow t' p id := by
  obtain ⟨sc, hsc, hp, hlt, hn⟩ := h.shows
  obtain ⟨sc', hsc', hp', -, hb⟩ := hk id sc hsc
  have hne : some ScopeTree.globalId ≠ some id := fun h => Nat.ne_of_lt hlt (Option.some.inj h)
  exact ⟨by rw [hle.types, h.scope], sc', hsc', hp'.trans hp, hlt, fun frame =>
    (hn frame).mono hle (hb hne)⟩

/-! ## Routines -/

end Check

/-- The scope of the function that a node defines. -/
def Tables.frame? (t : Tables) (node : NodeId) : Option ScopeId :=
  (t.functions.lookup node).bind fun i => (t.functions.functions.get? i).bind (·.scope)

/-- The scopes around a function, or around a method or constructor of a class. -/
def Definition.scopesAround (globals : Origins) : Option ClassDef → List Origins
  | some c => [c.origins, globals]
  | none => [globals]

/-- The variables that these scopes bind. -/
def Definition.declaredAround (vs : List Variable) : Option ClassDef → List Variable
  | some c => vs ++ c.fieldVariables
  | none => vs

/-- What the walk over a definition has noted is in the tables. -/
def Tables.RecordsDefinition (t : Tables) (globals : Origins) (vs : List Variable)
    (c : Option ClassDef) (d : Definition) : Prop :=
  ∃ frame, t.frame? d.node.id = some frame ∧ frame ≠ ScopeTree.globalId ∧
    t.Records (some frame) (Definition.declaredAround vs c) frame
    (d.walk (Definition.scopesAround globals c))

theorem Tables.RecordsDefinition.mono {c : Option ClassDef} (h : t.RecordsDefinition globals vs c d)
    (hle : t.Le t') :
    t'.RecordsDefinition globals vs c d := by
  obtain ⟨frame, hf, hne, hr⟩ := h
  refine ⟨frame, ?_, hne, hr.mono hle⟩
  simp only [frame?, Option.bind_eq_some_iff] at hf ⊢
  obtain ⟨i, hi, f, hf, hs⟩ := hf
  obtain ⟨f', hf', hfle⟩ := hle.functions i f hf
  exact ⟨i, hle.calls _ _ hi, f', hf', hfle.2 frame hs⟩

namespace Check

open CheckState

variable {sub : Ty} {s s' : CheckState} {frame : ScopeId}

theorem parameters_walks : ∀ {ps : List (Parameter × Ty)} {s s' : CheckState} {u : Unit},
    (ps.forM fun (p, type) => declareParameter frame p type : Check Unit) s = .ok (u, s') → Walks
    frame (fun w => (ps.map (·.1)).foldl (fun w p => w.declare p.name (.node p.node.id)) w) s s'
  | [], s, s', u, h => by
    obtain ⟨-, rfl⟩ := pure_eq_ok.1 h
    exact .refl
  | (p, type) :: ps, s, s', u, h => by
    obtain ⟨_, s1, hp, h⟩ := bind_eq_ok.1 h
    exact (bindName_walks hp).seq (parameters_walks h)

/-- The receiver is bound in the empty scope of its method. -/
theorem enterReceiver_follows {u : Unit} (hsc : s.tables.scopes.scopes.get? frame = some sc)
    (hempty : sc.bindings = []) (h : enterReceiver frame owner s = .ok (u, s')) :
    s.Works s' ∧ s.tables.scopes.Keeps (some frame) s'.tables.scopes ∧ ∀ outer w,
      s.tables.Follows (some frame) outer frame frame w →
      s'.tables.Follows (some frame) outer frame frame
        (if owner.isSome then w.declare receiverName .receiver else w) := by
  cases owner with
  | none =>
    obtain ⟨-, rfl⟩ := pure_eq_ok.1 h
    exact ⟨.refl _, .refl _ _, fun _ _ hw => hw⟩
  | some c =>
    obtain ⟨free, h⟩ := discard_eq_ok.1 h
    obtain ⟨t, ht, rfl⟩ := declareIn_eq_ok.1 h
    have hw := Works.ofScopes (ScopeTree.declareIn_le ht)
    obtain rfl : free = true := by
      rw [(ScopeTree.declareIn_new ht hsc).1, hempty]
      rfl
    exact ⟨hw, ScopeTree.declareIn_keeps ht, fun _ _ hf => hf.declare hw.tables_le ht rfl⟩

theorem parameters_le {arguments : List Ty} (hown : owner.isSome = d.isMethod)
    (hlen : arguments.length = d.names.length) :
    d.parameters.length ≤ (parameterArguments owner arguments).length := by
  rw [Definition.names, ← hown] at hlen
  cases owner with
  | none => simpa [parameterArguments] using Nat.le_of_eq hlen.symm
  | some c =>
    simp only [Option.isSome_some, ↓reduceIte, List.singleton_append, List.length_cons,
      List.length_map] at hlen
    rw [parameterArguments, List.length_tail]
    omega

/-- Checking a definition follows its walk, and changes the names of no scope that was there. -/
theorem definition_walks {scopes : List Origins} {u : Unit} {i : FunctionId} {f : Function}
    (h : definition sub d.node owner d.parameters d.body s = .ok (u, s'))
    (hi : s.tables.functions.lookup d.node.id = some i)
    (hf : s.tables.functions.functions.get? i = some f)
    (hnone : f.scope = none) (hown : owner.isSome = d.isMethod)
    (hlen : f.signature.arguments.length = d.names.length)
    (hparent : ∀ parent, DefinedIn s.tables owner parent →
      ∀ frame, s.tables.Lexed frame parent scopes)
    (hknown : ∀ names ∈ scopes, ∀ x o, names.lookup x = some (some o) → ⟨x, o⟩ ∈ outer) :
    s.tables.Le s'.tables ∧ s.tables.scopes.Keeps none s'.tables.scopes ∧
      (s'.diagnostics = #[] → ∃ frame, s'.tables.frame? d.node.id = some frame ∧
        frame ≠ ScopeTree.globalId ∧ s'.tables.Records (some frame) outer frame
        (d.walk scopes)) := by
  obtain ⟨parent, frame, t, f', s1, s2, functions, hp, ht, hf', hr, hps, hat, hb⟩ :=
    definition_runs h hi
  obtain rfl := Option.mem_unique hf' hf
  obtain ⟨hid, owner', hsc, -, howner⟩ := ScopeTree.openChild_ok ht
  have hframe : t.scopes.get? frame =
      some { parent := some parent, kind := .function, owner := owner' } := by
    rw [hsc, hid]
    exact (Slots.get?_push ..).trans (if_pos rfl)
  have hnew : s.tables.scopes.scopes.get? frame = none := by
    rw [hid]
    exact (Slots.get?_eq_none_iff _ _).2 (Nat.le_refl _)
  have hopen := Works.ofScopes (ScopeTree.openChild_le ht)
  obtain ⟨hw1, hk1, hfol1⟩ := enterReceiver_follows hframe rfl hr
  have hparams := parameters_walks hps
  have hbody := (body_settles hb).toWalks
  have hfuns : s2.tables.functions.functions = s.tables.functions.functions :=
    hparams.works.functions.trans hw1.functions
  have hattach : s2.tables.Le { s2.tables with functions } := attachScope_le hat fun g hg => by
    rw [hfuns, hf] at hg
    exact Option.some.inj hg ▸ hnone
  have hle := (((hopen.tables_le.trans hw1.tables_le).trans hparams.works.tables_le).trans
    hattach).trans hbody.works.tables_le
  obtain ⟨hlexed, hlt⟩ := (hparent parent hp (some frame)).openChild hopen.tables_le ht
  refine ⟨hle, (ScopeTree.openChild_keeps ht).fresh hnew
    ((hk1.trans hparams.keeps).trans hbody.keeps), fun hd =>
    ⟨frame, ?_, Nat.ne_of_gt (Nat.zero_lt_of_lt hlt), ?_⟩⟩
  · obtain ⟨g, hg, hbind, hget⟩ := attachScope_ok hat
    simp only [Tables.frame?, Option.bind_eq_some_iff]
    refine ⟨i, hle.calls _ _ hi, { g with scope := some frame }, ?_, rfl⟩
    rw [hbody.works.functions, hget, if_pos rfl]
  · -- The frame of the function is new, so the walk starts with an empty scope.
    have hstart : ({ s.tables with scopes := t } : Tables).Follows (some frame) outer frame frame
        { scopes := [] :: scopes } := by
      refine ⟨⟨nofun, nofun, .nil⟩, hlexed,
        ⟨_, hframe, ?_, by simp⟩, fun names hmem x o hx => ?_⟩
      · rcases howner with ⟨-, rfl⟩ | ⟨hk, -⟩
        · rfl
        · cases hk
      · rcases List.mem_cons.1 hmem with rfl | hmem
        · cases hx
        · simpa using hknown names hmem x o hx
    have hd2 : s2.diagnostics = #[] := hbody.works.reports hd
    have h2 := hparams.follows hd2 (some frame) outer frame _ (hfol1 _ _ hstart)
    have h3 := h2.keeps hattach (.refl none _) (by nofun)
    have h4 := (hbody.follows hd (some frame) outer frame _ h3).toRecords
    have hzip : (d.parameters.zip (parameterArguments owner f'.signature.arguments)).map (·.1) =
        d.parameters := List.map_fst_zip (parameters_le hown hlen)
    rw [hzip] at h4
    rw [Definition.walk, ← hown]
    exact h4

/-! ## The second pass -/

section
variable {definitions : NodeId → Prop} {ps : TypedClasses} {ds done : List Definition}
  {globals : Origins} {vs : List Variable} {P : Tables → Prop}

theorem Ambient.known_around (h : Ambient ps globals vs t) (c : Option ClassDef) :
    ∀ names ∈ Definition.scopesAround globals c, ∀ x o, names.lookup x = some (some o) →
      ⟨x, o⟩ ∈ Definition.declaredAround vs c := by
  cases c with
  | none =>
    intro names hmem x o hx
    rw [List.mem_singleton.1 hmem] at hx
    exact h.known x o hx
  | some c =>
    intro names hmem x o hx
    rcases List.mem_cons.1 hmem with rfl | hmem
    · obtain ⟨d, hd, rfl, rfl⟩ := ClassDef.mem_fieldVariables hx
      exact List.mem_append_right _ (List.mem_map.2 ⟨d, hd, rfl⟩)
    · rw [List.mem_singleton.1 hmem] at hx
      exact List.mem_append_left _ (h.known x o hx)

/-- The next definition is checked. -/
theorem definition_recorded {rest : List Definition} {p : Option (ClassDef × ClassType)}
    {g : Callable} (hp : (CodePart.routine p g).Of ps) (hnext : ds = done ++ g.definition :: rest)
    (hnew : NewApart definitions g.body.nodes) (hP : Lasting P) :
    Clean (fun t => Progress definitions ps ds done t ∧ Ambient ps globals vs t ∧ P t)
      ((CodePart.routine p g).check sub) fun _ t =>
      Progress definitions ps ds (done ++ [g.definition]) t ∧ Ambient ps globals vs t ∧ P t ∧
        t.RecordsDefinition globals vs (p.map (·.1)) g.definition := by
  intro s u s' h hd
  obtain ⟨hd0, hprog⟩ := definition_clean hnext rfl (owner_mem hp) hnew hP s u s' h hd
  refine ⟨hd0, fun ⟨hpre, ham, hpast⟩ => ?_⟩
  obtain ⟨hi, f, hf, hlen, -⟩ := hpre.defined done.length g.definition (by rw [hnext]; simp)
  have hnone := hpre.pending done.length f (Nat.le_refl _) hf
  obtain ⟨hle, hk, hrec⟩ := definition_walks (d := g.definition) h hi hf hnone rfl hlen
      (fun parent hparent => by
    rw [hp.1] at hparent
    rcases hparent with ⟨hnone, rfl⟩ | ⟨c, hc, hm⟩
    · rw [Option.map_eq_none_iff.1 hnone]
      exact ham.global
    · obtain ⟨q, rfl, rfl⟩ := Option.map_eq_some_iff.1 hc
      obtain ⟨id, hid, hl⟩ := ham.members q (hp.2 q rfl)
      obtain rfl := Option.mem_unique hid hm
      exact hl) (ham.known_around (p.map (·.1)))
  exact ⟨(hprog ⟨hpre, hpast⟩).1, ham.keeps hle hk, (hprog ⟨hpre, hpast⟩).2, hrec hd⟩

/-- The initializers of fields are checked. -/
theorem fieldInitializers_recorded (fields : List Declaration)
    (hnew : NewApart definitions (fields.flatMap Declaration.nodes)) (hP : Lasting P) :
    Clean (fun t => Progress definitions ps ds done t ∧ Ambient ps globals vs t ∧ P t)
      (fields.forM (fieldInitializer sub c)) fun _ t =>
      Progress definitions ps ds done t ∧ Ambient ps globals vs t ∧ P t ∧
        t.Records none vs ScopeTree.globalId (Declaration.walkInitializers globals fields) := by
  refine ((Clean.forM (I := fun fs t => Progress definitions ps ds done t ∧
    Ambient ps globals vs t ∧
    P t ∧ t.Follows none vs ScopeTree.globalId ScopeTree.globalId
      (Declaration.walkInitializers globals fs)) fun fs d rest hl => ?_).weaken
      fun t ⟨hprog, ham, hp⟩ => ⟨hprog, ham, hp, ?_⟩).strengthen
    fun _ t h => ⟨h.1, h.2.1, h.2.2.1, h.2.2.2.toRecords⟩
  · have hd : NewApart definitions d.nodes := fun n hn => hnew n
      (List.mem_flatMap.2 ⟨d, by simp [hl], hn⟩)
    intro s u s' h hd'
    obtain ⟨hd0, hsettled⟩ := Settles.clean hd hP (fun _ _ _ h =>
      (fieldInitializer_settles h).2) s u s' h hd'
    obtain ⟨hreads, hwalks⟩ := fieldInitializer_settles h
    refine ⟨hd0, fun ⟨hprog, ham, hp, hf⟩ => ?_⟩
    obtain ⟨hprog', hp', -⟩ := hsettled ⟨hprog, hp⟩
    rw [Declaration.walkInitializers, List.foldl_append]
    refine ⟨hprog', ham.keeps hwalks.works.tables_le ?_, hp', hwalks.follows hd' _ _ _ _ hf⟩
    rw [hreads.scopes]
    exact .refl _ _
  · obtain ⟨g, hg, -, hk, ho⟩ := hprog.checking.laid.global
    refine ⟨⟨nofun, nofun, .nil⟩, ham.global none, ⟨g, hg, ho, by simp [hk]⟩,
      fun names hmem x o hx => ?_⟩
    rw [List.mem_singleton.1 hmem] at hx
    exact List.mem_append_left _ (ham.known x o hx)

/-- What the walks over the code of a class have noted is in the tables. -/
structure ClassRecorded (globals : Origins) (vs : List Variable) (c : ClassDef)
    (t : Tables) : Prop where
  initializers : t.Records none vs ScopeTree.globalId
    (Declaration.walkInitializers globals c.fields)
  definitions : ∀ d ∈ c.definitions, t.RecordsDefinition globals vs (some c) d

/-- What the first pass leaves: no global variable, and the members of classes. -/
structure Opened (ps : TypedClasses) (t : Tables) : Prop where
  global : ∀ frame, t.Lexed frame ScopeTree.globalId [[]]
  members : ∀ p ∈ ps, ∃ id, MembersShow t p id

/-- The statements of the main core are checked, and bind all global variables. -/
theorem main_recorded (hnew : NewApart definitions (Stmt.nodesAll u.statements)) :
    Clean (fun t => Progress definitions ps ds done t ∧ Opened ps t)
      (stmts sub topLevel u.statements) fun _ t => Progress definitions ps ds done t ∧
        Ambient ps u.globalOrigins u.mainWalk.declared t ∧
        t.Records none [] ScopeTree.globalId u.mainWalk := by
  intro s x s' h hd
  obtain ⟨hd0, hsettled⟩ := main_clean hnew s x s' h hd
  refine ⟨hd0, fun ⟨hprog, hopen⟩ => ?_⟩
  have hw := (stmts_settles u.statements h).toWalks
  have hle := hw.works.tables_le
  obtain ⟨g, hg, -, hk, ho⟩ := hprog.checking.laid.global
  have hfollows : ∀ frame, s'.tables.Follows frame [] ScopeTree.globalId ScopeTree.globalId
      u.mainWalk := by
    refine fun frame => hw.follows hd frame [] _ _ ⟨⟨nofun, nofun, .nil⟩, hopen.global frame,
      ⟨g, hg, ho, by simp [hk]⟩, fun names hmem x o hx => ?_⟩
    rw [List.mem_singleton.1 hmem] at hx
    cases hx
  -- The global scope is the outermost one, so that nothing is around its names.
  have hroot : u.mainWalk.scopes = [u.globalOrigins] := by
    obtain ⟨g', hg', hparent, -⟩ := (hsettled ⟨hprog, trivial⟩).1.checking.laid.global
    rw [SourceUnit.globalOrigins]
    cases hscopes : u.mainWalk.scopes with
    | nil => exact nomatch hscopes ▸ (hfollows none).lexed
    | cons names outer =>
      have hl := hscopes ▸ (hfollows none).lexed
      cases hl with
      | root => rfl
      | child hsc hp =>
        cases hg'.symm.trans hsc
        exact nomatch hparent.symm.trans hp
  have hglobal : ∀ frame, s'.tables.Lexed frame ScopeTree.globalId [u.globalOrigins] := fun frame =>
    hroot ▸ (hfollows frame).lexed
  refine ⟨(hsettled ⟨hprog, trivial⟩).1, ⟨hglobal, fun p hp => ?_, fun x o hx => ?_⟩,
    (hfollows none).toRecords⟩
  · obtain ⟨id, hm⟩ := hopen.members p hp
    obtain ⟨hscope, sc, hsc, hparent, hlt, hn⟩ := hm.keeps hle hw.keeps
    exact ⟨id, hscope, fun frame => .child hsc hparent hlt (hn frame) (hglobal frame)⟩
  · exact (hfollows none).known _ (by rw [hroot]; exact .head _) x o hx

/-- What the walks over a unit have noted is in the tables. -/
structure UnitRecorded (u : SourceUnit) (ps : TypedClasses) (t : Tables) : Prop where
  laid : t.scopes.Laid
  members : ∀ q ∈ ps, ∃ id, MembersAt t q.2 id q.1.fields
  ambient : Ambient ps u.globalOrigins u.mainWalk.declared t
  main : t.Records none [] ScopeTree.globalId u.mainWalk
  classes : ∀ q ∈ ps, ClassRecorded u.globalOrigins u.mainWalk.declared q.1 t
  functions : ∀ f ∈ u.functions, t.RecordsDefinition u.globalOrigins u.mainWalk.declared none
    (f.definition false)

/-- What checking records about a part of the code. -/
def CodePart.Recorded (globals : Origins) (vs : List Variable) (t : Tables) : CodePart → Prop
  | .fields q =>
    t.Records none vs ScopeTree.globalId (Declaration.walkInitializers globals q.1.fields)
  | .routine p f => t.RecordsDefinition globals vs (p.map (·.1)) f.definition

theorem bodies_recorded (hall : ps.map (·.1) = u.classes) (hnew : NewApart definitions u.nodes) :
    Clean (fun t => Progress definitions ps u.definitions [] t ∧ Opened ps t)
      (bodies sub u ps) fun _ t => UnitRecorded u ps t := by
  let F : Findings := {
    around := Ambient ps u.globalOrigins u.mainWalk.declared
    main := fun t => t.Records none [] ScopeTree.globalId u.mainWalk
    part := fun x t => x.Recorded u.globalOrigins u.mainWalk.declared t
    main_lasts := fun _ _ hle h => h.mono hle
    part_lasts := fun x _ _ hle h => by cases x <;> exact h.mono hle }
  have hF : F.Found sub definitions ps u.definitions := fun {x} _ _ _ hP hx hnext hnew => by
    cases x with
    | fields p =>
      rw [CodePart.definitions, List.append_nil]
      exact fieldInitializers_recorded _ hnew hP
    | routine p f =>
      exact definition_recorded hx (by simpa [CodePart.definitions] using hnext) hnew hP
  refine (bodies_found hF (main_recorded (NewApart.append.1 hnew).2) hall hnew).strengthen
    fun _ t h => ?_
  obtain ⟨hprog, hambient, hmain, hparts⟩ := h
  obtain ⟨hclasses, hfunctions⟩ := forall_codeParts.1 hparts
  refine ⟨hprog.checking.laid, hprog.members, hambient, hmain, fun q hq =>
    ⟨(hclasses q hq).1, fun d hd => ?_⟩, hfunctions⟩
  rw [← q.1.definitions_callables q.2] at hd
  obtain ⟨f, hf, rfl⟩ := List.mem_map.1 hd
  exact (hclasses q hq).2 f hf

end

/-! ## The first pass -/

/-- The scope of a class binds its fields, each under its own node, and reserves its methods. -/
theorem membersShow (hlaid : t.scopes.Laid) (hfields : p.1.MembersTyped u.type?)
    (hm : t.HasMembers u.type? p) (hat : FieldsAt t p) : ∃ id, MembersShow t p id := by
  obtain ⟨id, sc, hid, hsc, hparent, hshow⟩ := hm
  obtain ⟨id', hid', hplaced⟩ := hat
  obtain rfl := Option.mem_unique hid' hid
  have hne : id' ≠ ScopeTree.globalId := by
    rintro rfl
    obtain ⟨g, hg, hnone, -⟩ := hlaid.global
    cases hsc.symm.trans hg
    cases hparent.symm.trans hnone
  have hnames : ∀ x, ((p.1.fields.find? (x == ·.name)).map fun d => d.type.denotes u.type?).or
      ((p.1.methods.find? (x == ·.name)).map fun _ => none) =
      (sc.bindings.lookup x).map (·.type.asVariable) := by
    intro x
    rw [← hshow x, ClassDef.names, lookup_members]
  refine ⟨id', hid, sc, hsc, hparent, Nat.pos_of_ne_zero hne, fun frame =>
    ⟨fun x => ?_, fun x b hx hb => ?_, fun x o hx => ?_⟩⟩
  all_goals
    have hx' := hnames x
    rw [ClassDef.origins, lookup_members] at *
  · rw [← Option.map_eq_none_iff (f := fun b : Binding => b.type.asVariable), ← hx']
    cases p.1.fields.find? (x == ·.name) <;> cases p.1.methods.find? (x == ·.name) <;> simp
  · rw [hb] at hx'
    cases hf : p.1.fields.find? (x == ·.name) with
    | some d => simp [hf] at hx
    | none =>
      cases hm : p.1.methods.find? (x == ·.name) with
      | none => simp [hm] at hx
      | some m =>
        by_contra hfun
        simp [hf, Ty.asVariable, hfun] at hx'
  · cases hf : p.1.fields.find? (x == ·.name) with
    | none => cases hm : p.1.methods.find? (x == ·.name) <;> simp [hf] at hx
    | some d =>
      have hd := List.mem_of_find?_eq_some hf
      obtain ⟨τ, hτ, -⟩ := hfields.fields d hd
      simp only [hf, Option.map_some, Option.some_or, Option.some.injEq] at hx hx'
      subst hx
      refine ⟨hplaced d hd, ?_⟩
      cases hb : sc.bindings.lookup x with
      | none => simp [hb] at hx'
      | some b =>
        rw [hb, hτ] at hx'
        have hfun : b.type.isFunction = false := by
          by_contra hfun
          simp [Ty.asVariable, hfun] at hx'
        cases hk : b.offset with
        | none => cases hfun.symm.trans (hlaid.reserved id' sc x b hsc hb hk)
        | some k => exact ⟨b, k, rfl, hk⟩

/-- The tables of an accepted unit record the walks over it. -/
theorem unit_recorded {s : CheckState} (hids : (u.nodes.map (·.id)).Nodup)
    (h : unit .bool u {} = .ok ((), s)) (hd : s.diagnostics = #[]) :
    ∃ ps, ps.map (·.1) = u.classes ∧ (∀ p ∈ ps, p.1.MembersTyped u.type?) ∧
      UnitRecorded u ps s.tables := by
  obtain ⟨ps, s1, s2, htypes, hfuns, hdecl, htyped, hbodies⟩ := unit_bodies hids h hd
  have hall : ps.map (·.1) = u.classes := by rw [hdecl.classes htyped, map_fst_classTypes]
  have hdeclared := (declareTypes_sat u (fieldNodes_nodup hids)).of_run htypes
  have hcollects := (declareFunctions_sat hdeclared
    (callableNodes_nodup hids hdeclared.sublist)).of_run hfuns
  have hmembers : ∀ p ∈ ps, p.1.MembersTyped u.type? := fun p hp =>
    htyped.members p.1 (hall ▸ List.mem_map.2 ⟨p, hp, rfl⟩)
  have hopened : Opened ps s2.tables := by
    refine ⟨fun frame => ?_, fun p hp => ?_⟩
    · have hchain := hdecl.global
      cases hchain with
      | root hsc hp hn =>
        have hfree : ∀ x, _ = none := fun x => Option.map_eq_none_iff.1 (hn x).symm
        refine .root hsc hp ⟨fun x => iff_of_true rfl (hfree x), fun x b hx => ?_, fun x o hx => ?_⟩
        · cases hx
        · cases hx
      | child _ _ _ ho => cases ho
    · refine membersShow hdecl.whole.laid (hmembers p hp)
        (hdecl.members htyped p (hdecl.classes htyped ▸ hp)) ?_
      exact (declareTypes_placed htypes p hp).retains
        ⟨fun _ _ h => by rw [hcollects.registry, h], fun _ _ h => by rw [hcollects.annotations, h]⟩
  exact ⟨ps, hall, hmembers, (bodies_recorded hall (SourceUnit.newApart hids) s2 _ s hbodies hd).2
    ⟨hdecl.progress htyped, hopened⟩⟩

end Check

/-! ## Places -/

namespace Code.Emit

/-- The storage of a slot: a global word, a word of the receiver or a word of the frame. -/
def slotPlace (ctx : Context) (kind : ScopeKind) (k : Nat) : Emit Place := do
  let env ← read
  match kind with
  | .global => return .global (env.layout.global k)
  | .members =>
    let receiver ← match ctx.function with
      | some function => query (·.scopes.offset? function receiverName)
      | none => pure none
    let object ← loadPlace (.frame (← expect .receiver receiver))
    fieldPlace object k
  | .function | .block => return .frame k

/-- The storage of a name depends on the scope of its node and on the slot it has there. -/
theorem namePlace_eq {ctx : Context} {node : NodeId} {env : Env} {s : EmitState} {kind : ScopeKind}
    (hs : env.tables.annotations.scope? node = some id)
    (ho : env.tables.scopes.offset? id x = .ok (some k))
    (hk : env.tables.scopes.kind id = .ok kind) :
    namePlace ctx node x env s = slotPlace ctx kind k env s := by
  have hread : (read : Emit Env) env s = .ok (env, s) := rfl
  have hexpect : ∀ {α : Type} (what : Machine.Missing) (a : α),
      expect what (some a) env s = .ok (a, s) := fun _ _ => rfl
  have hquery : ∀ {α : Type} {q : Tables → Except Fault α} {a : α}, q env.tables = .ok a →
      query q env s = .ok (a, s) := by
    intro α q a hq
    unfold query
    rw [bind_run, hread]
    dsimp only
    rw [hq]
    rfl
  have hoffset : query (·.scopes.offset? id x) env s = .ok (some k, s) := hquery ho
  have hkind : query (·.scopes.kind id) env s = .ok (kind, s) := hquery hk
  unfold namePlace slotPlace
  cases kind <;> cases ctx.function <;>
    simp only [bind_run, hread, hs, hexpect, hoffset, hkind]

end Code.Emit

/-- The kind of storage and the slot of a variable. -/
def Variable.slot? (t : Tables) (frame : Option ScopeId) (v : Variable) :
    Option (ScopeKind × Nat) := do
  let id ← v.origin.scope? t frame
  let sc ← t.scopes.scopes.get? id
  let b ← sc.bindings.lookup v.name
  return (sc.kind, ← b.offset)

theorem Variable.At.slot?_eq {v : Variable} (h : v.At t frame id sc k) :
    v.slot? t frame = some (sc.kind, k) := by
  obtain ⟨b, hb, hk⟩ := h.slot
  simp [slot?, h.scope, h.isScope, hb, hk]

/-- Every use of a walk has the storage of its declaration, and every variable has a slot of its
own. Code with a frame has no variables but those of the frame. -/
structure Walk.Addressed (w : Walk) (t : Tables) (frame : Option ScopeId)
    (outer : List Variable) : Prop where
  uses : ∀ use ∈ w.uses, ∃ o kind k, use.origin = some o ∧ ⟨use.name, o⟩ ∈ outer ++ w.declared ∧
    Variable.slot? t frame ⟨use.name, o⟩ = some (kind, k) ∧
    ∀ (env : Code.Env) ctx s, env.tables = t →
      Code.Emit.namePlace ctx use.node use.name env s = Code.Emit.slotPlace ctx kind k env s
  slots : ∀ v ∈ w.declared, ∃ kind k, v.slot? t frame = some (kind, k) ∧ kind ≠ .members ∧
    (kind = .global → frame = none)
  apart : w.declared.Pairwise fun v v' => (v.slot? t frame).map (·.2) ≠ (v'.slot? t frame).map (·.2)

theorem Tables.Records.addressed {w : Walk} (hlaid : t.scopes.Laid)
    (h : t.Records frame outer (ScopeTree.frameOwner frame) w)
    (hframe : frame ≠ some ScopeTree.globalId) : w.Addressed t frame outer where
  uses use hu := by
    obtain ⟨o, id, sc, k, ho, hmem, hid, hat⟩ := h.uses use hu
    obtain ⟨b, hb, hk⟩ := hat.slot
    refine ⟨o, sc.kind, k, ho, hmem, hat.slot?_eq, fun env ctx s henv => ?_⟩
    subst henv
    exact Code.Emit.namePlace_eq hid
      (by rw [ScopeTree.offset?_eq hat.isScope, hb]; exact congrArg _ hk)
      (ScopeTree.kind_eq hat.isScope)
  slots v hv := by
    obtain ⟨id, sc, k, hat, howner, hkind⟩ := h.stored v hv
    refine ⟨sc.kind, k, hat.slot?_eq, hkind, fun hg => ?_⟩
    obtain ⟨g, hg', -, -, ho⟩ := hlaid.global
    obtain rfl := hlaid.single id sc hat.isScope hg
    cases hg'.symm.trans hat.isScope
    cases frame with
    | none => rfl
    | some f => exact absurd (congrArg some (howner.symm.trans ho)) hframe
  apart := by
    refine h.apart.imp_of_mem fun {v v'} hv hv' hne heq => ?_
    obtain ⟨id, sc, k, hat, ho, -⟩ := h.stored v hv
    obtain ⟨id', sc', k', hat', ho', -⟩ := h.stored v' hv'
    rw [hat.slot?_eq, hat'.slot?_eq] at heq
    obtain rfl : k = k' := by simpa using heq
    obtain ⟨b, hb, hk⟩ := hat.slot
    obtain ⟨b', hb', hk'⟩ := hat'.slot
    obtain ⟨rfl, hx⟩ := hlaid.apart _ _ _ _ _ _ _ _ _ hat.isScope hat'.isScope hb hb' hk hk'
      (ho.trans ho'.symm)
    exact hne (hat.scope.trans hat'.scope.symm) hx

/-! ## Accepted units -/

/-- Each field of a class has a slot of its own in the objects of the class. -/
theorem Check.UnitRecorded.fields (h : UnitRecorded u ps t) (hp : p ∈ ps)
    (hnames : (p.1.fields.map (·.name)).Nodup) :
    (∀ v ∈ p.1.fieldVariables, ∃ k, v.slot? t none = some (.members, k)) ∧
      p.1.fieldVariables.Pairwise fun v v' => (v.slot? t none).map (·.2) ≠
      (v'.slot? t none).map (·.2) := by
  obtain ⟨id, hid, hlexed⟩ := h.ambient.members p hp
  obtain ⟨id', hm⟩ := h.members p hp
  obtain rfl := Option.mem_unique hid hm.scope
  obtain ⟨sc, hsc, hkind, -⟩ := hm.isMembers
  have hat : ∀ d ∈ p.1.fields, ∃ k, Variable.At t none ⟨d.name, .node d.node.id⟩ id sc k := by
    intro d hd
    have hlookup : p.1.origins.lookup d.name = some (some (.node d.node.id)) := by
      have hmap : ((p.1.fields.map fun d => (d.name, some (Origin.node d.node.id))).map
          (·.1)).Nodup := by
        simpa [Function.comp_def] using hnames
      rw [ClassDef.origins, List.lookup_append,
        lookup_of_mem_nodup hmap (List.mem_map.2 ⟨d, hd, rfl⟩), Option.some_or]
    cases hlexed none with
    | child hsc' _ _ hn _ =>
      cases hsc.symm.trans hsc'
      obtain ⟨hs, b, k, hb, hk⟩ := hn.slot d.name _ hlookup
      exact ⟨k, hs, hsc, b, hb, hk⟩
  refine ⟨fun v hv => ?_, List.pairwise_map.2
    ((List.pairwise_map.1 hnames).imp_of_mem fun {d d'} hd hd' hne heq => ?_)⟩
  · obtain ⟨d, hd, rfl⟩ := List.mem_map.1 hv
    obtain ⟨k, hk⟩ := hat d hd
    exact ⟨k, hkind ▸ hk.slot?_eq⟩
  · obtain ⟨k, hk⟩ := hat d hd
    obtain ⟨k', hk'⟩ := hat d' hd'
    rw [hk.slot?_eq, hk'.slot?_eq] at heq
    obtain rfl : k = k' := by simpa using heq
    obtain ⟨b, hb, hbk⟩ := hk.slot
    obtain ⟨b', hb', hbk'⟩ := hk'.slot
    exact hne (h.laid.apart _ _ _ _ _ _ _ _ _ hsc hsc hb hb' hbk hbk' rfl).2

/-- What the code generator makes of the names of a unit. The code of the main core and the
initializers have no frame but the one at the root, a definition has the frame of its function. -/
structure SourceUnit.Addressed (u : SourceUnit) (t : Tables) : Prop where
  main : u.mainWalk.Addressed t none []
  fields : ∀ c ∈ u.classes, (∀ v ∈ c.fieldVariables, ∃ k, v.slot? t none = some (.members, k)) ∧
    c.fieldVariables.Pairwise fun v v' => (v.slot? t none).map (·.2) ≠ (v'.slot? t none).map (·.2)
  initializers : ∀ c ∈ u.classes,
    (Declaration.walkInitializers u.globalOrigins c.fields).Addressed t none u.mainWalk.declared
  members : ∀ c ∈ u.classes, ∀ d ∈ c.definitions, ∃ frame, t.frame? d.node.id = some frame ∧
    (d.walk [c.origins, u.globalOrigins]).Addressed t (some frame)
    (u.mainWalk.declared ++ c.fieldVariables)
  functions : ∀ f ∈ u.functions, ∃ frame, t.frame? f.node.id = some frame ∧
    ((f.definition false).walk [u.globalOrigins]).Addressed t (some frame) u.mainWalk.declared

/-- In an accepted unit, a name is stored where its declaration is, the one that lexical scoping
selects, and variables do not share slots. -/
theorem SourceUnit.check_addressed {u : SourceUnit} {t : Tables} (h : u.check = .ok t)
    (hids : (u.nodes.map (·.id)).Nodup) : u.Addressed t := by
  unfold SourceUnit.check SourceUnit.checkWith at h
  split at h
  · cases h
  rename_i s hrun
  split at h
  · rename_i hempty
    cases h
    obtain ⟨ps, hall, htyped, hrec⟩ := Check.unit_recorded hids hrun (by simpa using hempty)
    have hclass : ∀ c ∈ u.classes, ∃ p ∈ ps, p.1 = c := fun c hc => by
      rw [← hall] at hc
      simpa using hc
    refine ⟨hrec.main.addressed hrec.laid nofun, fun c hc => ?_, fun c hc => ?_,
      fun c hc d hd => ?_, fun f hf => ?_⟩
    · obtain ⟨p, hp, rfl⟩ := hclass c hc
      exact hrec.fields hp (htyped p hp).fieldNames
    · obtain ⟨p, hp, rfl⟩ := hclass c hc
      exact (hrec.classes p hp).initializers.addressed hrec.laid nofun
    · obtain ⟨p, hp, rfl⟩ := hclass c hc
      obtain ⟨frame, hframe, hne, hd⟩ := (hrec.classes p hp).definitions d hd
      exact ⟨frame, hframe, hd.addressed hrec.laid fun heq => hne (Option.some.inj heq)⟩
    · obtain ⟨frame, hframe, hne, hd⟩ := hrec.functions f hf
      exact ⟨frame, hframe, hd.addressed hrec.laid fun heq => hne (Option.some.inj heq)⟩
  · cases h

/-- A global variable, a variable of a block, a field and a variable of a method with the same name.
Each of the inner ones starts with the value of the one around it. -/
def shadowUnit : SourceUnit :=
  let x : Node → Expr := (.name · "x")
  { classes := [{
      node := 0
      name := "Cell"
      fields := [⟨1, .int, "x", some (x 2)⟩]
      methods := [⟨3, "get", [], .int, false, .block (.mk 4 [
        .declaration 5 ⟨6, .int, "x", some (x 7)⟩, .return 8 (some (x 9))])⟩]
      constructors := [] }]
    statements := [
      .declaration 10 ⟨11, .int, "x", some (.literal 12 (.int 1))⟩, .block 13 (.mk 14 [
        .declaration 15 ⟨16, .int, "x", some (x 17)⟩, .assignment 18 (.name 19 "x") (x 20)]),
      .assignment 21 (.name 22 "x") (x 23)] }

theorem shadowUnit_addressed : ∃ t, shadowUnit.check = .ok t ∧
    (shadowUnit.nodes.map (·.id)).Nodup ∧
    shadowUnit.mainWalk.uses = [⟨17, "x", some (.node 11)⟩, ⟨19, "x", some (.node 16)⟩,
      ⟨20, "x", some (.node 16)⟩, ⟨22, "x", some (.node 11)⟩, ⟨23, "x", some (.node 11)⟩] ∧
    (shadowUnit.classes.flatMap fun c =>
      (Declaration.walkInitializers shadowUnit.globalOrigins c.fields).uses ++ c.definitions.flatMap
        fun d => (d.walk [c.origins, shadowUnit.globalOrigins]).uses) =
      [⟨2, "x", some (.node 11)⟩, ⟨7, "x", some (.node 1)⟩, ⟨9, "x", some (.node 6)⟩] ∧
    shadowUnit.Addressed t := by
  have hok : shadowUnit.check.toBool = true := by decide +kernel
  have hids : (shadowUnit.nodes.map (·.id)).Nodup := by decide +kernel
  cases hc : shadowUnit.check with
  | error e => rw [hc] at hok; cases hok
  | ok t =>
    exact ⟨t, rfl, hids, by decide +kernel, by decide +kernel, SourceUnit.check_addressed hc hids⟩

end Awl
