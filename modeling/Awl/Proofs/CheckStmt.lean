import Awl.Proofs.CheckExpr
import Awl.Proofs.Lexical
import Awl.Proofs.Stores

/-!
# What the checker settles about code

Statements open scopes and bind names, so the scopes grow while they are checked
(`CheckState.Works`). `Check.Walks` says of one successful run that it takes tables which follow a
walk to tables which follow the walk over the code. `Check.Settles` adds that, if nothing has been
reported, the tables know everything about the code that was checked, now and later. Both compose
along a sequence of runs (`Settles.seq`), so that the cases of `expr_ok` and `stmt_settles` follow
the checker. The flag of `Stmt.Ready` is the checker's position: `next` has a block to go on with
exactly in a block of a switch that another one follows.
-/

namespace Awl

variable {e : Expr} {r : Typed} {u : Unit} {id scope : ScopeId} {x : String}
  {type : Ty} {node : Node}

/-- Checking statements adds entries of nodes, scopes and bindings. -/
structure CheckState.Works (s s' : CheckState) : Prop extends CheckState.Annotates none s s' where
  grown : s.tables.scopes.Le s'.tables.scopes

namespace CheckState

variable {s s' s1 s2 s3 : CheckState}

theorem Works.refl (s : CheckState) : s.Works s := ⟨.refl s, .refl _⟩

theorem Works.trans (h : s1.Works s2) (h' : s2.Works s3) : s1.Works s3 :=
  ⟨h.toAnnotates.trans h'.toAnnotates, h.grown.trans h'.grown⟩

theorem Reads.works (h : s.Reads none s') : s.Works s' :=
  ⟨h.toAnnotates, by rw [h.scopes]; exact .refl _⟩

theorem Works.tables_le (h : s.Works s') : s.tables.Le s'.tables := h.toAnnotates.tables_le h.grown

/-- A change of the scopes only. -/
theorem Works.ofScopes {t : ScopeTree} (h : s.tables.scopes.Le t) :
    s.Works { s with tables := { s.tables with scopes := t } } :=
  ⟨⟨List.prefix_rfl, rfl, rfl, fun _ _ h => h, fun _ _ h => h, fun _ _ h => h, fun _ _ _ => rfl,
    fun _ _ h => .inl h⟩, h⟩

end CheckState

namespace Check

open CheckState

variable {s s' s1 s2 : CheckState} {f g : Walk → Walk} {n : NodeEntry}

/-! ## Checking follows the walk -/

/-- Code with the walk `f` has been checked in a scope: if nothing has been reported, tables that
followed a walk up to the code now follow the walk over it. -/
structure Walks (scope : ScopeId) (f : Walk → Walk) (s s' : CheckState) : Prop where
  works : s.Works s'
  keeps : s.tables.scopes.Keeps (some scope) s'.tables.scopes
  adds : ∀ w, w.declared ⊆ (f w).declared
  follows : s'.diagnostics = #[] → ∀ frame outer owner w,
    s.tables.Follows frame outer owner scope w → s'.tables.Follows frame outer owner scope (f w)

/-- Code without names. -/
theorem Walks.ofReads (h : s.Reads none s') : Walks scope (fun w => w) s s' where
  works := h.works
  keeps := by rw [h.scopes]; exact .refl _ _
  adds _ := List.Subset.refl _
  follows _ _ _ _ _ hw := by
    have hk : s.tables.scopes.Keeps none s'.tables.scopes := by
      rw [h.scopes]
      exact .refl _ _
    exact hw.keeps h.tables_le hk (by nofun)

theorem Walks.refl : Walks scope (fun w => w) s s := .ofReads (.refl s)

theorem Walks.seq (h : Walks scope f s s1) (h' : Walks scope g s1 s2) :
    Walks scope (fun w => g (f w)) s s2 where
  works := h.works.trans h'.works
  keeps := h.keeps.trans h'.keeps
  adds w _ hv := h'.adds _ (h.adds w hv)
  follows hd frame outer owner w hw :=
    h'.follows hd frame outer owner _ (h.follows (h'.works.reports hd) frame outer owner w hw)

theorem Walks.reads (h : Walks scope f s s1) (h' : s1.Reads none s') : Walks scope f s s' :=
  h.seq (.ofReads h')

theorem Walks.afterReads (h : s.Reads none s1) (h' : Walks scope f s1 s') : Walks scope f s s' :=
  (Walks.ofReads h).seq h'

theorem Walks.openBlock {id : ScopeId} (ho : openChild scope .block s = .ok (id, s1))
    (h : Walks id f s1 s') : Walks scope (Walk.inBlock f) s s' := by
  obtain ⟨t, ht, rfl⟩ := openChild_eq_ok.1 ho
  have hw := Works.ofScopes (ScopeTree.openChild_le ht)
  have hnew : s.tables.scopes.scopes.get? id = none := by
    rw [(ScopeTree.openChild_ok ht).1]
    exact (Slots.get?_eq_none_iff _ _).2 (Nat.le_refl _)
  refine ⟨hw.trans h.works, ((ScopeTree.openChild_keeps ht).fresh hnew h.keeps).weaken, fun w =>
    h.adds { w with scopes := [] :: w.scopes }, fun hd frame outer owner w hf => ?_⟩
  exact hf.closeBlock hw.tables_le h.works.tables_le ht h.keeps
    (h.follows hd frame outer owner _ (hf.openBlock hw.tables_le ht))
    (h.adds { w with scopes := [] :: w.scopes })

/-- A name that has been found gets the scope that binds it. -/
theorem Walks.use {node : NodeId} {x : String} (hr : s.Reads none s')
    (h : s'.diagnostics = #[] → ∃ type id, type.isFunction = false ∧
      s.tables.scopes.resolveFrom scope x = .ok (some (type, id)) ∧
      s'.tables.annotations.scope? node = some id) :
    Walks scope (fun w => w.use node x) s s' where
  works := hr.works
  keeps := by rw [hr.scopes]; exact .refl _ _
  adds _ := List.Subset.refl _
  follows hd frame outer owner w hw := by
    obtain ⟨type, id, hf, hres, hs⟩ := h hd
    exact ((Walks.ofReads hr).follows hd frame outer owner w hw).use (hr.scopes ▸ hres) hf hs

/-! ## Code that is checked -/

section
variable {sub : Ty} {definitions : NodeId → Prop} {frame : Option ScopeId} {ns : List NodeEntry}

/-- What holds where the code of a routine is checked. The definitions are the nodes of functions,
which are bound before any code is checked. -/
structure Checking (definitions : NodeId → Prop) (frame : Option ScopeId) (scope : ScopeId)
    (t : Tables) : Prop where
  laid : t.scopes.Laid
  inside : t.scopes.Inside frame scope
  locks : t.scopes.LocksGlobal
  covered : ∀ n, (t.functions.lookup n).isSome → definitions n ∨ (t.annotations.type? n).isSome

/-- No new object has the node of a definition. -/
def NewApart (definitions : NodeId → Prop) (nodes : List NodeEntry) : Prop :=
  ∀ n ∈ nodes, n.kind = .new → ¬ definitions n.id

theorem NewApart.append {definitions : NodeId → Prop} {ms : List NodeEntry} :
    NewApart definitions (ns ++ ms) ↔ NewApart definitions ns ∧ NewApart definitions ms := by
  simp only [NewApart, List.mem_append, or_imp, forall_and]

theorem NewApart.cons {definitions : NodeId → Prop} :
    NewApart definitions (n :: ns) ↔ (n.kind = .new → ¬ definitions n.id) ∧
      NewApart definitions ns := by
  simp only [NewApart, List.mem_cons, forall_eq_or_imp]

theorem Checking.reads (h : Checking definitions frame scope s.tables) (hr : s.Reads none s') :
    Checking definitions frame scope s'.tables where
  laid := by rw [hr.scopes]; exact h.laid
  inside := by rw [hr.scopes]; exact h.inside
  locks := by rw [hr.scopes]; exact h.locks
  covered n hn := by
    rcases hr.covered n (by simp) hn with hn | hn
    · refine (h.covered n hn).imp_right fun ht => ?_
      obtain ⟨type, ht⟩ := Option.isSome_iff_exists.1 ht
      rw [hr.typed n type ht]
      rfl
    · exact .inr hn

/-- What is known about an expression whose check has reported nothing. -/
structure Checked (t : Tables) (frame : Option ScopeId) (e : Expr) (r : Typed) : Prop where
  sound : r.erroneous = false
  typed : t.annotations.type? e.id = some r.type
  ready : e.Ready t frame
  lock : r.type = .lock → e.isPlace = true → e.LockReady t frame

/-- A name that a routine may use as a value has a slot that it reaches. -/
theorem Checking.places (h : Checking definitions frame scope s.tables) {node : NodeId}
    (hr : s.tables.scopes.resolveFrom scope x = .ok (some (type, id)))
    (hf : type.isFunction = false)
    (hle : s.Reads none s') (hs : s'.tables.annotations.scope? node = some id) :
    ∃ sc k, s'.tables.Places node x id sc k ∧ s'.tables.scopes.Reaches frame sc ∧
      (type = .lock → sc.kind = .global) := by
  obtain ⟨sc, b, hsc, hb, rfl, hreach⟩ := h.inside.resolve h.laid hr
  obtain ⟨k, hk⟩ : ∃ k, b.offset = some k := by
    cases ho : b.offset with
    | some k => exact ⟨k, rfl⟩
    | none => exact absurd (h.laid.reserved id sc x b hsc hb ho) (by simp [hf])
  rw [← hle.scopes] at hreach hsc
  exact ⟨sc, k, ⟨hs, hsc, b, hb, hk⟩, hreach, fun hl =>
    h.locks id sc x b (by rw [← hle.scopes, hsc]) hb hl⟩

theorem nameType_checked {function : Option FunctionId} {position : SwitchPosition}
    (h : nameType sub ⟨scope, function, position⟩ node x s = .ok (r, s'))
    (hd : s'.diagnostics = #[]) (hc : Checking definitions frame scope s.tables) :
    r.erroneous = false ∧ s'.tables.HasName frame node.id x ∧
      (r.type = .lock → s'.tables.HasGlobal node.id x) := by
  obtain ⟨hr, hn⟩ := variableType_ok h
  obtain ⟨hsound, hf, id, hres, hs⟩ := hn hd
  obtain ⟨sc, k, hp, hreach, hl⟩ := hc.places hres hf hr hs
  exact ⟨hsound, ⟨id, sc, k, hp, hreach⟩, fun ht => ⟨id, sc, k, hp, hl ht⟩⟩

theorem fieldType_field {object : Typed} {o : Expr} {t : Tables} {span : Span}
    (h : fieldType sub span object x s = .ok (r, s')) (hd : s'.diagnostics = #[])
    (ho : Checked t frame o object)
    (hle : s.tables.Le t) : r.erroneous = false ∧ t.HasField o.id x := by
  obtain ⟨hs, c, id, b, k, hobj, hm, hb, hk, -⟩ := (fieldType_ok h).2 hd ho.sound
  obtain ⟨sc, hsc, hb⟩ := ScopeTree.binding?_ok hb
  obtain ⟨sc', hsc', hsle⟩ := hle.scopes id sc hsc
  exact ⟨hs, c, id, sc', b, k, hobj ▸ ho.typed,
    by rw [hle.types, hm], hsc', hsle.bindings _ _ hb.symm, hk⟩

end

variable {ns ms : List NodeEntry} {P Q : Tables → Option ScopeId → Prop}

/-- Code with these nodes and this walk has been checked in a scope: if nothing has been reported,
the tables have the property `P`, for the routine around the scope, now and when they have grown,
and are fit for the code that follows. -/
structure Settles (scope : ScopeId) (ns : List NodeEntry) (f : Walk → Walk)
    (P : Tables → Option ScopeId → Prop) (s s' : CheckState) : Prop extends Walks scope f s s' where
  settles : ∀ {definitions frame}, s'.diagnostics = #[] →
    Checking definitions frame scope s.tables →
    NewApart definitions ns → Checking definitions frame scope s'.tables ∧ ∀ {t},
    s'.tables.Le t → P t frame

theorem Settles.conclude (h : Settles scope ns f P s s')
    (hQ : s'.diagnostics = #[] → ∀ {t frame}, s'.tables.Le t → P t frame → Q t frame) :
    Settles scope ns f Q s s' :=
  { h with
    settles := fun hd hc hn => (h.settles hd hc hn).imp_right fun hp _ hle => hQ hd hle (hp hle) }

theorem Settles.weaken (h : Settles scope ns f P s s') (hQ : ∀ {t frame}, P t frame → Q t frame) :
    Settles scope ns f Q s s' := h.conclude fun _ _ _ _ => hQ

/-- One piece of code after another. -/
theorem Settles.seq (h : Settles scope ns f P s s1) (h' : Settles scope ms g Q s1 s2) :
    Settles scope (ns ++ ms) (fun w => g (f w)) (fun t frame => P t frame ∧ Q t frame) s s2 := by
  refine ⟨h.toWalks.seq h'.toWalks, fun hd hc hn => ?_⟩
  rw [NewApart.append] at hn
  obtain ⟨hc1, hp⟩ := h.settles (h'.works.reports hd) hc hn.1
  obtain ⟨hc2, hq⟩ := h'.settles hd hc1 hn.2
  exact ⟨hc2, fun hle => ⟨hp (h'.works.tables_le.trans hle), hq hle⟩⟩

/-- Nothing but entries of nodes is new. -/
theorem Settles.ofReads (h : s.Reads none s') :
    Settles scope [] (fun w => w) (fun _ _ => True) s s' :=
  ⟨.ofReads h, fun _ hc _ => ⟨hc.reads h, fun _ => trivial⟩⟩

theorem Settles.refl (hP : ∀ {t frame}, P t frame) : Settles scope [] (fun w => w) P s s :=
  (Settles.ofReads (.refl s)).weaken fun _ => hP

theorem Settles.reads (h : Settles scope ns f P s s1) (hr : s1.Reads none s') :
    Settles scope ns f P s s' :=
  ⟨h.toWalks.reads hr, fun hd hc hn => by
    obtain ⟨hc1, hp⟩ := h.settles (hr.reports hd) hc hn
    exact ⟨hc1.reads hr, fun hle => hp (hr.tables_le.trans hle)⟩⟩

theorem Settles.afterReads (hr : s.Reads none s1) (h : Settles scope ns f P s1 s') :
    Settles scope ns f P s s' :=
  ⟨h.toWalks.afterReads hr, fun hd hc hn => h.settles hd (hc.reads hr) hn⟩

theorem Settles.cons (h : Settles scope ns f P s s') : Settles scope (n :: ns) f P s s' :=
  { h with settles := fun hd hc hn => h.settles hd hc (NewApart.cons.1 hn).2 }

/-- Something has been reported. -/
theorem Walks.reported (h : Walks scope f s s') (hd : s'.diagnostics ≠ #[]) :
    Settles scope ns f P s s' :=
  { h with settles := fun hd' => absurd hd' hd }

/-- Code in a block of its own. -/
theorem Settles.openBlock (ho : openChild scope .block s = .ok (id, s1))
    (h : Settles id ns f P s1 s') :
    Settles scope ns (Walk.inBlock f) P s s' := by
  refine ⟨h.toWalks.openBlock ho, fun hd hc hn => ?_⟩
  obtain ⟨t, ht, rfl⟩ := openChild_eq_ok.1 ho
  obtain ⟨sc, hsc, -⟩ := hc.inside.owner hc.laid
  obtain ⟨hc2, hp⟩ := h.settles hd ⟨ScopeTree.openChild_laid ht (Slots.lt_of_get? hsc) hc.laid,
    hc.inside.openBlock hc.laid ht, ScopeTree.openChild_locks ht hc.locks, hc.covered⟩ hn
  exact ⟨⟨hc2.laid, hc.inside.mono ((ScopeTree.openChild_le ht).trans h.works.grown), hc2.locks,
    hc2.covered⟩, hp⟩

/-! ## Expressions -/

variable {sub : Ty} {ctx : Context} {span : Span} {p : Problem} {t : Target}

mutual

theorem expr_ok {ctx : Context} {s s' : CheckState} {r : Typed} : ∀ (e : Expr),
    expr sub ctx e s = .ok (r, s') → s.Reads none s' ∧
      Settles ctx.scope e.nodes e.walk (fun t frame => Checked t frame e r) s s'
  | .literal n l, h => by
    simp only [expr, bind_eq_ok, pure_eq_ok] at h
    obtain ⟨_, s1, ⟨rfl, hs1⟩, _, s2, ht, rfl, rfl⟩ := h
    subst s1
    obtain ⟨hr, -, -, -, ht, -⟩ := Reads.recordType (Reads.refl s).exempt ht
    exact ⟨hr, (Settles.ofReads hr).cons.conclude fun _ _ _ hle _ =>
      ⟨rfl, hle.typed _ _ ht, trivial, nofun⟩⟩
  | .name n x, h => by
    simp only [expr, bind_eq_ok] at h
    obtain ⟨typed, s1, h1, _, _, hrec, rfl, rfl⟩ := h
    obtain ⟨hr1, hname⟩ := variableType_ok h1
    obtain ⟨hr, hd, -, -, ht, hle⟩ := Reads.recordType hr1.exempt hrec
    refine ⟨hr, .use hr fun hd' => ?_, fun hd' hc _ => ⟨hc.reads hr, fun hle' => ?_⟩⟩
    · obtain ⟨-, hf, id, hres, hs⟩ := hname (hd.symm.trans hd')
      exact ⟨_, id, hf, hres, hle.placed _ _ hs⟩
    · obtain ⟨hs, hn, hl⟩ := nameType_checked h1 (hd.symm.trans hd') hc
      exact ⟨hs, hle'.typed _ _ ht, hn.mono (hle.trans hle'), fun h _ =>
        (hl h).mono (hle.trans hle')⟩
  | .enumValue n x member, h => by
    simp only [expr, bind_eq_ok] at h
    obtain ⟨typed, s1, h1, _, _, hrec, rfl, rfl⟩ := h
    obtain ⟨hr1, hc1⟩ := enumValueType_ok h1
    obtain ⟨hr, hd, -, -, ht, -⟩ := Reads.recordType hr1.exempt hrec
    refine ⟨hr, (Settles.ofReads hr).cons.conclude fun hd' _ _ hle _ => ?_⟩
    obtain ⟨hs, he⟩ := hc1 (hd.symm.trans hd')
    exact ⟨hs, hle.typed _ _ ht, by simpa only [Expr.Ready, hle.types, hr.types] using he, nofun⟩
  | .arrayLiteral n [], h => by
    simp only [expr, bind_eq_ok] at h
    obtain ⟨_, s1, hrep, _, _, ⟨rfl, rfl⟩, _, _, hrec, rfl, rfl⟩ := h
    obtain ⟨hrep, hne⟩ := report_reads hrep
    obtain ⟨hr, hd, -⟩ := Reads.recordType hrep.exempt hrec
    exact ⟨hr, (Walks.ofReads hr).reported (hd ▸ hne)⟩
  | .arrayLiteral n (e :: es), h => by
    simp only [expr, bind_eq_ok] at h
    obtain ⟨first, s2, he, erroneous, s3, hes, _, _, ⟨rfl, rfl⟩, _, _, hrec, rfl, rfl⟩ := h
    obtain ⟨hre, hce⟩ := expr_ok e he
    obtain ⟨hres, hces⟩ := elements_ok es hes
    obtain ⟨hr, -, -, -, ht, -⟩ := Reads.recordType (Reads.refl _).exempt hrec
    refine ⟨hre.trans (hres.trans hr), ((hce.seq hces).reads hr).cons.conclude
      fun _ _ _ hle ⟨hec, hes⟩ => ?_⟩
    obtain ⟨hs, hesr⟩ := hes hec.sound
    exact ⟨hs, hle.typed _ _ ht, And.intro hec.ready hesr, nofun⟩
  | .newArray n t length, h => by
    simp only [expr, bind_eq_ok] at h
    obtain ⟨element, s2, ht, value, s3, he, typed, s1, hna, _, _, hrec, rfl, rfl⟩ := h
    have hrt := (resolveType_ok ht).1
    obtain ⟨hre, hce⟩ := expr_ok length he
    obtain ⟨hrna, hs⟩ := newArrayType_ok hna
    obtain ⟨hr, -, -, -, ht, -⟩ := Reads.recordType hrna.exempt hrec
    exact ⟨hrt.trans (hre.trans hr), (Settles.afterReads hrt (hce.reads hr)).cons.conclude
      fun _ _ _ hle hec => ⟨hs, hle.typed _ _ ht, hec.ready, nofun⟩⟩
  | .index n a i, h => by
    simp only [expr, bind_eq_ok] at h
    obtain ⟨array, s2, ha, index, s3, hi, typed, s1, hel, _, _, hrec, rfl, rfl⟩ := h
    obtain ⟨hra, hca⟩ := expr_ok a ha
    obtain ⟨hri, hci⟩ := expr_ok i hi
    obtain ⟨hrel, hs⟩ := elementType_ok hel
    obtain ⟨hr, hd, -, -, ht, -⟩ := Reads.recordType hrel.exempt hrec
    refine ⟨hra.trans (hri.trans hr), ((hca.seq hci).reads hr).cons.conclude
      fun hd' _ _ hle ⟨hac, hic⟩ => ?_⟩
    exact ⟨hs (hd.symm.trans hd') hac.sound, hle.typed _ _ ht, And.intro hac.ready hic.ready,
      fun _ _ => And.intro hac.ready hic.ready⟩
  | .field n o x, h => by
    simp only [expr, bind_eq_ok] at h
    obtain ⟨object, s2, ho, typed, s1, hf, _, _, hrec, rfl, rfl⟩ := h
    obtain ⟨hro, hco⟩ := expr_ok o ho
    obtain ⟨hr, hd, -, -, ht, -⟩ := Reads.recordType (fieldType_ok hf).1.exempt hrec
    refine ⟨hro.trans hr, (hco.reads hr).cons.conclude fun hd' _ _ hle hoc => ?_⟩
    obtain ⟨hs, hfield⟩ := fieldType_field hf (hd.symm.trans hd') hoc (hr.tables_le.trans hle)
    exact ⟨hs, hle.typed _ _ ht, And.intro hfield hoc.ready, fun _ _ => And.intro hfield hoc.ready⟩
  | .call n f es, h => by
    simp only [expr, bind_eq_ok] at h
    obtain ⟨arguments, s2, hes, typed, s1, hcall, _, _, hrec, rfl, rfl⟩ := h
    obtain ⟨hres, hlen, hces⟩ := exprs_ok es hes
    obtain ⟨hrc, hcc⟩ := callType_ok hcall
    obtain ⟨hr, hd, -, -, ht, hle1⟩ := Reads.recordType hrc hrec
    refine ⟨hres.trans hr, (hces.reads hr).cons.conclude fun hd' _ _ hle ⟨hany, hesr⟩ => ?_⟩
    obtain ⟨hs, hcallee⟩ := hcc (hd.symm.trans hd') hany
    exact ⟨hs, hle.typed _ _ ht, And.intro (hlen ▸ hcallee.mono (hle1.trans hle)) hesr, nofun⟩
  | .methodCall n o f es, h => by
    simp only [expr, bind_eq_ok] at h
    obtain ⟨receiver, s2, ho, arguments, s3, hes, typed, s1, hcall, _, _, hrec, rfl, rfl⟩ := h
    obtain ⟨hro, hco⟩ := expr_ok o ho
    obtain ⟨hres, hlen, hces⟩ := exprs_ok es hes
    obtain ⟨hrc, hcc⟩ := methodCallType_ok hcall
    obtain ⟨hr, hd, -, -, ht, hle1⟩ := Reads.recordType hrc hrec
    refine ⟨hro.trans (hres.trans hr),
      ((hco.seq hces).reads hr).cons.conclude fun hd' _ _ hle ⟨hoc, hany, hesr⟩ => ?_⟩
    obtain ⟨hs, hcallee⟩ := hcc (hd.symm.trans hd') hoc.sound hany
    exact ⟨hs, hle.typed _ _ ht, And.intro (hlen ▸ hcallee.mono (hle1.trans hle))
      (And.intro hoc.ready hesr), nofun⟩
  | .new n c es, h => by
    simp only [expr, bind_eq_ok] at h
    obtain ⟨arguments, s2, hes, typed, s1, hnew, _, _, hrec, rfl, rfl⟩ := h
    obtain ⟨hres, hlen, hces⟩ := exprs_ok es hes
    obtain ⟨hrc, hcc⟩ := newType_ok hnew
    obtain ⟨hr, hd, hfun, hun, ht, hle1⟩ := Reads.recordType hrc hrec
    refine ⟨hres.trans hr, (hces.reads hr).toWalks, fun hd' hc hn => ?_⟩
    simp only [Expr.nodes, NewApart.cons] at hn
    obtain ⟨hc2, hes⟩ := hces.settles (hr.reports hd') hc hn.2
    obtain ⟨hany, -⟩ := hes hr.tables_le
    obtain ⟨hs, hcls, hcon⟩ := hcc (hd.symm.trans hd') hany
    refine ⟨hc2.reads hr, fun hle => ⟨hs, hle.typed _ _ ht, Expr.Ready.mono hle ?_, nofun⟩⟩
    refine ⟨by rw [hr.types]; exact hcls, ⟨by rw [ht]; rfl, ?_⟩, (hes hr.tables_le).2⟩
    rcases hcon with ⟨hsame, h0⟩ | hcallee
    · refine .inl ⟨?_, by omega⟩
      -- A binding of the node would be the one of a definition: the node has no type so far.
      rw [hfun, hsame, ← Option.not_isSome_iff_eq_none]
      intro hsome
      rcases hc2.covered n.id hsome with hdef | htyped
      · exact hn.1 trivial hdef
      · obtain ⟨type, htype⟩ := Option.isSome_iff_exists.1 htyped
        have := hrc.typed n.id type htype
        rw [hun] at this
        cases this
    · exact .inr (hlen ▸ hcallee.mono hle1)
  | .unary n op e, h => by
    simp only [expr, bind_eq_ok] at h
    obtain ⟨operand, s2, he, typed, s1, hu, _, _, hrec, rfl, rfl⟩ := h
    obtain ⟨hre, hce⟩ := expr_ok e he
    obtain ⟨hru, hcu⟩ := unaryType_ok hu
    obtain ⟨hr, hd, -, -, ht, -⟩ := Reads.recordType hru.exempt hrec
    exact ⟨hre.trans hr, (hce.reads hr).cons.conclude fun hd' _ _ hle hec =>
      ⟨hcu (hd.symm.trans hd') hec.sound, hle.typed _ _ ht, hec.ready, nofun⟩⟩
  | .binary n op l r', h => by
    simp only [expr, bind_eq_ok] at h
    obtain ⟨left, s2, hl, right, s3, hr', typed, s1, hb, _, _, hrec, rfl, rfl⟩ := h
    obtain ⟨hrl, hcl⟩ := expr_ok l hl
    obtain ⟨hrr, hcr⟩ := expr_ok r' hr'
    obtain ⟨hrb, hcb⟩ := binaryType_ok hb
    obtain ⟨hr, hd, -, -, ht, -⟩ := Reads.recordType hrb.exempt hrec
    exact ⟨hrl.trans (hrr.trans hr), ((hcl.seq hcr).reads hr).cons.conclude
      fun hd' _ _ hle ⟨hlc, hrc⟩ => ⟨hcb (hd.symm.trans hd') hlc.sound hrc.sound, hle.typed _ _ ht,
        And.intro hlc.ready hrc.ready, nofun⟩⟩

theorem exprs_ok {ctx : Context} {s s' : CheckState} {rs : List Typed} : ∀ (es : List Expr),
    exprs sub ctx es s = .ok (rs, s') → s.Reads none s' ∧ rs.length = es.length ∧
      Settles ctx.scope (Expr.nodesAll es) (Expr.walkAll es)
        (fun t frame => rs.any (·.erroneous) = false ∧ Expr.ReadyAll t frame es) s s'
  | [], h => by
    obtain ⟨rfl, rfl⟩ := pure_eq_ok.1 h
    exact ⟨.refl _, rfl, .refl ⟨rfl, trivial⟩⟩
  | e :: es, h => by
    simp only [exprs, bind_eq_ok] at h
    obtain ⟨r, s1, he, rs, _, hes, rfl, rfl⟩ := h
    obtain ⟨hre, hce⟩ := expr_ok e he
    obtain ⟨hres, hlen, hces⟩ := exprs_ok es hes
    exact ⟨hre.trans hres, by simp [hlen], (hce.seq hces).weaken fun ⟨hec, hany, hesr⟩ =>
      ⟨by simp [hec.sound, hany], And.intro hec.ready hesr⟩⟩

theorem elements_ok {ctx : Context} {s s' : CheckState} {first : Ty} {erroneous r : Bool} :
    ∀ (es : List Expr), elements sub ctx first erroneous es s = .ok (r, s') → s.Reads none s' ∧
      Settles ctx.scope (Expr.nodesAll es) (Expr.walkAll es)
        (fun t frame => erroneous = false → r = false ∧ Expr.ReadyAll t frame es) s s'
  | [], h => by
    obtain ⟨rfl, rfl⟩ := pure_eq_ok.1 h
    exact ⟨.refl _, .refl fun hs => ⟨hs, trivial⟩⟩
  | e :: es, h => by
    simp only [elements, bind_eq_ok] at h
    obtain ⟨value, s1, he, h⟩ := h
    obtain ⟨hre, hce⟩ := expr_ok e he
    split at h
    · simp only [bind_eq_ok] at h
      obtain ⟨_, s2, hrep, hes⟩ := h
      obtain ⟨hrep, hne⟩ := report_reads hrep
      obtain ⟨hres, hces⟩ := elements_ok es hes
      exact ⟨hre.trans (hrep.trans hres),
        ((hce.toWalks.reads hrep).seq hces.toWalks).reported fun hd => hne (hres.reports hd)⟩
    · obtain ⟨hres, hces⟩ := elements_ok es h
      refine ⟨hre.trans hres, (hce.seq hces).weaken fun ⟨hec, hes⟩ hs => ?_⟩
      obtain ⟨hr, hesr⟩ := hes (by simp [hs, hec.sound])
      exact ⟨hr, And.intro hec.ready hesr⟩

end

theorem expr_settles (h : expr sub ctx e s = .ok (r, s')) :
    Settles ctx.scope e.nodes e.walk (fun t frame => e.Ready t frame) s s' :=
  (expr_ok e h).2.weaken fun hc => hc.ready

/-! ## The parts of statements -/

theorem targetName_ok (h : target sub ctx (.name node x) s = .ok (r, s')) :
    s.Reads none s' ∧ (s'.diagnostics = #[] → r.erroneous = false ∧ r.type.isFunction = false ∧
      ∃ id, s.tables.scopes.resolveFrom ctx.scope x = .ok (some (r.type, id)) ∧
        s'.tables.annotations.scope? node.id = some id) := by
  simp only [target_name, bind_eq_ok] at h
  obtain ⟨_, s1, hv, _, _, hrec, rfl, rfl⟩ := h
  obtain ⟨hr, hv⟩ := variableType_ok hv
  obtain ⟨hr, hd, -, -, -, hle⟩ := Reads.recordType hr.exempt hrec
  refine ⟨hr, fun hd' => ?_⟩
  obtain ⟨hsound, hfun, id, hf, hs⟩ := hv (hd.symm.trans hd')
  exact ⟨hsound, hfun, id, hf, hle.placed _ _ hs⟩

/-- What is known about the left side of an assignment to a name: the variable that it means has the
type. -/
def Target.Binds (t : Tables) (r : Typed) : Target → Prop
  | .name n x => r.erroneous = false ∧ ∃ id sc b, t.annotations.scope? n.id = some id ∧
      t.scopes.scopes.get? id = some sc ∧ sc.bindings.lookup x = some b ∧ b.type = r.type
  | .index .. | .field .. => True

theorem target_settles (h : target sub ctx t s = .ok (r, s')) : Settles ctx.scope t.nodes t.walk
    (fun tables frame => t.Ready tables frame ∧ Target.Binds tables r t) s s' := by
  cases t with
  | name n x =>
    obtain ⟨hr, hname⟩ := targetName_ok h
    refine ⟨.use hr fun hd => ?_, fun hd hc _ => ⟨hc.reads hr, fun hle => ?_⟩⟩
    · obtain ⟨-, hf, id, hres, hs⟩ := hname hd
      exact ⟨_, id, hf, hres, hs⟩
    · obtain ⟨hsound, hf, id, hres, hs⟩ := hname hd
      obtain ⟨sc, k, hp, hreach, -⟩ := hc.places hres hf hr hs
      obtain ⟨sc0, b, hsc, hb, htype, -⟩ := hc.inside.resolve hc.laid hres
      obtain ⟨sc', hsc', hsle⟩ := hle.scopes id sc0 (hr.scopes ▸ hsc)
      have hname : s'.tables.HasName _ n.id x := ⟨id, sc, k, hp, hreach⟩
      exact ⟨hname.mono hle, hsound, id, sc', b, hle.placed _ _ hs, hsc',
        hsle.bindings _ _ hb, htype⟩
  | index n a i =>
    simp only [target, bind_eq_ok] at h
    obtain ⟨array, s1, ha, index, s2, hi, typed, s3, hel, _, _, hrec, rfl, rfl⟩ := h
    obtain ⟨hr, -⟩ := Reads.recordType (elementType_ok hel).1.exempt hrec
    exact (((expr_settles ha).seq (expr_settles hi)).reads hr).cons.weaken fun h => ⟨h, trivial⟩
  | field n o x =>
    simp only [target, bind_eq_ok] at h
    obtain ⟨object, s1, ho, typed, s2, hf, _, _, hrec, rfl, rfl⟩ := h
    obtain ⟨hr, hd, -⟩ := Reads.recordType (fieldType_ok hf).1.exempt hrec
    refine ((expr_ok o ho).2.reads hr).cons.conclude fun hd' _ _ hle hoc =>
      ⟨And.intro ?_ hoc.ready, trivial⟩
    exact (fieldType_field hf (hd.symm.trans hd') hoc (hr.tables_le.trans hle)).2

/-- Binding a name and recording what it means, the end of every declaration: of variables, fields
and parameters. -/
theorem bindName_ok {n : NodeId}
    (h : (do
      if !(← declareIn scope x type) then report p span
      recordType n type
      recordScope n scope : Check Unit) s = .ok (u, s')) :
    s.Works s' ∧ s'.tables.functions = s.tables.functions ∧
      s'.tables.annotations.type? n = some type ∧ s'.tables.annotations.scope? n = some scope ∧
      ∃ free t, s.tables.scopes.declareIn scope x type = .ok (free, t) ∧ s'.tables.scopes = t ∧
        (s'.diagnostics = #[] → free = true) := by
  simp only [bind_eq_ok, declareIn_eq_ok] at h
  obtain ⟨free, s1, ⟨t, ht, rfl⟩, h⟩ := h
  obtain ⟨s2, hr2, hd2, htab, h⟩ := reportIf_bind h
  simp only [bind_eq_ok] at h
  obtain ⟨_, s3, hrec, hsc⟩ := h
  obtain ⟨hr3, hd3, hf3, -, htype, -⟩ := Reads.recordType (Reads.refl s2).exempt hrec
  obtain ⟨-, a, rfl, htypes, hget⟩ := recordScope_ok hsc
  obtain ⟨hr4, -, hscope⟩ := recordScope_reads hsc
  refine ⟨(Works.ofScopes (ScopeTree.declareIn_le ht)).trans
    (hr2.works.trans (hr3.works.trans hr4.works)), ?_, hr4.typed _ _ htype, hscope, free, t, ht,
    ?_, fun hd => ?_⟩
  · exact hf3.trans (by rw [htab])
  · exact hr3.scopes.trans hr2.scopes
  · simpa using hd2 (hr3.reports hd)

/-- A new name gets the scope in which it is declared. -/
theorem bindName_walks {n : NodeId}
    (h : (do
      if !(← declareIn scope x type) then report p span
      recordType n type
      recordScope n scope : Check Unit) s = .ok (u, s')) :
    Walks scope (fun w => w.declare x (.node n)) s s' := by
  obtain ⟨hw, -, -, hscope, free, t, ht, rfl, hfree⟩ := bindName_ok h
  refine ⟨hw, ScopeTree.declareIn_keeps ht, fun w => List.subset_append_left .., ?_⟩
  intro hd frame outer owner w hf
  exact hf.declare hw.tables_le (hfree hd ▸ ht) hscope

/-- A value that has passed the comparison with an expected type has that type. -/
theorem expectType_eq {value : Typed} {purpose : Purpose}
    (h : expectType value type span purpose s = .ok (u, s'))
    (hd : s'.diagnostics = #[]) (hv : value.erroneous = false) : value.type = type := by
  simpa [hv] using (reportIf_ok h).2 hd

theorem declaration_settles {d : Declaration} (h : declaration sub ctx d s = .ok (u, s')) :
    Settles ctx.scope d.nodes d.walk (fun t frame => (Expr.ReadyOption t frame d.initializer ∧
      t.HasName frame d.node.id d.name) ∧ t.Stores d.stores) s s' := by
  simp only [declaration, bind_eq_ok] at h
  obtain ⟨type, s1, htype, h⟩ := h
  obtain ⟨s2, hr2, -, -, h⟩ := reportIf_bind h
  simp only [bind_eq_ok, tables_eq_ok, lift_eq_ok] at h
  obtain ⟨_, s3, ⟨rfl, hs3⟩, global, s4, ⟨hg, hs4⟩, h⟩ := h
  subst s3 s4
  obtain ⟨s3, hr3, hlock, htab, h⟩ := reportIf_bind h
  -- The initializer is checked before the name is bound.
  obtain ⟨s4, hini, h⟩ : ∃ s4, Settles ctx.scope (Expr.nodesOption d.initializer)
      (Expr.walkOption d.initializer)
      (fun t frame => Expr.ReadyOption t frame d.initializer ∧
        ∀ e, d.initializer = some e → t.annotations.type? e.id = some type) s3 s4 ∧ (do
        if !(← declareIn ctx.scope d.name type) then report (.redeclared d.name) d.node.span
        recordType d.node.id type
        recordScope d.node.id ctx.scope : Check Unit) s4 = .ok (u, s') := by
    cases hi : d.initializer with
    | none =>
      rw [hi] at h
      exact ⟨s3, .refl ⟨trivial, fun _ he => by cases he⟩, h⟩
    | some e =>
      simp only [hi] at h
      rw [bind_eq_ok] at h
      obtain ⟨value, s5, he, h⟩ := h
      rw [bind_eq_ok] at h
      obtain ⟨_, s6, hex, h⟩ := h
      refine ⟨s6, ((expr_ok e he).2.reads (expectType_ok hex)).conclude fun hd _ _ _ hc =>
        ⟨hc.ready, ?_⟩, h⟩
      rintro _ ⟨⟩
      rw [hc.typed, expectType_eq hex hd hc.sound]
  refine .afterReads ((resolveType_ok htype).1.trans (hr2.trans hr3))
    ⟨hini.toWalks.seq (bindName_walks h), fun hd hc hn => ?_⟩
  obtain ⟨hw, hfun, -, hscope, free, t, ht, rfl, hfree⟩ := bindName_ok h
  obtain ⟨hc4, hready⟩ := hini.settles (hw.reports hd) hc (NewApart.cons.1 hn).2
  have hin := hc4.inside.mono hw.grown
  have hlaid := ScopeTree.declareIn_laid ht hc4.laid
  obtain ⟨sc, k, hsc, hb⟩ := ScopeTree.declareIn_binds (hfree hd ▸ ht)
  refine ⟨⟨hlaid, hin, ScopeTree.declareIn_locks ht ?_ hc4.locks, fun n hn => ?_⟩, fun hle => ?_⟩
  · intro hl sc hsc
    obtain ⟨sc', hsc', rfl⟩ := ScopeTree.isGlobal_ok hg
    have hnone : sc'.parent = none := by
      simpa [hl] using hlock (hini.works.reports (hw.reports hd))
    obtain ⟨sc'', hsc'', hle⟩ := (hr3.works.trans hini.works).grown _ _ hsc'
    rw [hsc''] at hsc
    cases hsc
    exact hc4.laid.root _ _ hsc'' (hle.parent.trans hnone)
  · rw [hfun] at hn
    refine (hc4.covered n hn).imp_right fun hty => ?_
    obtain ⟨type', hty⟩ := Option.isSome_iff_exists.1 hty
    rw [hw.typed n type' hty]
    rfl
  · obtain ⟨hini', htyped⟩ := hready (hw.tables_le.trans hle)
    have hname : s'.tables.HasName _ d.node.id d.name :=
      ⟨ctx.scope, sc, k, ⟨hscope, hsc, _, hb, rfl⟩, hin.reaches hlaid hsc⟩
    refine ⟨⟨hini', hname.mono hle⟩, fun q hq => ?_⟩
    obtain ⟨e, he, rfl⟩ := List.mem_map.1 hq
    obtain ⟨sc', hsc', hsle⟩ := hle.scopes _ _ hsc
    exact ⟨ctx.scope, sc', _, hle.placed _ _ hscope, hsc', hsle.bindings _ _ hb,
      htyped e (by simpa using he)⟩

theorem condition_settles {construct : Construct}
    (h : condition sub ctx construct e s = .ok (u, s')) :
    Settles ctx.scope e.nodes e.walk (fun t frame => e.Ready t frame) s s' := by
  rw [condition, bind_eq_ok] at h
  obtain ⟨value, s1, he, h⟩ := h
  exact (expr_settles he).reads (reportIf_ok h).1

theorem lockOperand_settles {operation : LockOperation}
    (h : lockOperand sub ctx operation e s = .ok (u, s')) :
    Settles ctx.scope e.nodes e.walk (fun t frame => e.LockReady t frame) s s' := by
  rw [lockOperand, bind_eq_ok] at h
  obtain ⟨lock, s1, he, h⟩ := h
  have hes := (expr_ok e he).2
  split at h
  · obtain ⟨hr, hne⟩ := report_reads h
    exact (hes.toWalks.reads hr).reported hne
  · rename_i htype
    obtain ⟨hr, hplace⟩ := reportIf_ok h
    refine (hes.reads hr).conclude fun hd _ _ _ hc => hc.lock ?_ ?_
    · simpa [hc.sound] using htype
    · simpa [hc.sound] using hplace hd

theorem returnStatement_settles {value : Option Expr}
    (h : returnStatement sub ctx span value s = .ok (u, s')) :
    Settles ctx.scope (Expr.nodesOption value) (Expr.walkOption value)
      (fun t frame => Expr.ReadyOption t frame value) s s' := by
  unfold returnStatement at h
  cases hf : ctx.function with
  | none =>
    simp only [hf, bind_eq_ok] at h
    obtain ⟨_, s1, hr, h⟩ := h
    obtain ⟨hr, hne⟩ := report_reads hr
    have hw : Walks ctx.scope (Expr.walkOption value) s1 s' := by
      cases value with
      | none =>
        obtain ⟨-, rfl⟩ := pure_eq_ok.1 h
        exact .refl
      | some e =>
        obtain ⟨_, he⟩ := discard_eq_ok.1 h
        exact (expr_ok e he).2.toWalks
    exact (hw.afterReads hr).reported fun hd => hne (hw.works.reports hd)
  | some function =>
    simp only [hf, bind_eq_ok, tables_eq_ok, lift_eq_ok] at h
    obtain ⟨_, s1, ⟨rfl, hs1⟩, f, s2, ⟨-, hs2⟩, h⟩ := h
    subst s1 s2
    cases value with
    | none => exact Settles.ofReads (reportIf_ok h).1
    | some e =>
      simp only [bind_eq_ok] at h
      obtain ⟨v, s1, he, h⟩ := h
      refine (expr_settles he).reads ?_
      split at h
      · exact (report_reads h).1
      · exact expectType_ok h

/-! ## Statements -/

theorem assignment_settles {n : Node} (h : stmt sub ctx (.assignment n t e) s = .ok (u, s')) :
    Settles ctx.scope (t.nodes ++ e.nodes) (fun w => e.walk (t.walk w))
      (fun tables frame => (t.Ready tables frame ∧ e.Ready tables frame) ∧
        tables.Stores (t.stores e)) s s' := by
  simp only [stmt, bind_eq_ok] at h
  obtain ⟨r, s1, ht, v, s2, hv, h⟩ := h
  have hr : s2.Reads none s' := by
    split at h
    · exact expectType_ok h
    · obtain ⟨-, rfl⟩ := pure_eq_ok.1 h
      exact .refl _
  refine (((target_settles ht).seq (expr_ok e hv).2).reads hr).conclude
    fun hd tables _ _ ⟨⟨htr, hb⟩, hc⟩ => ⟨⟨htr, hc.ready⟩, ?_⟩
  cases t with
  | index | field => exact tables.stores_nil
  | name m x =>
    obtain ⟨hsound, id, sc, b, hid, hsc, hx, htype⟩ := hb
    rw [if_pos (by simpa using hsound)] at h
    refine List.forall_mem_singleton.2 ⟨id, sc, b, hid, hsc, hx, ?_⟩
    rw [hc.typed, expectType_eq h hd hc.sound, htype]

/-- Code without stores. -/
theorem Settles.noStores (h : Settles scope ns f P s s') :
    Settles scope ns f (fun t frame => P t frame ∧ t.Stores []) s s' :=
  h.weaken fun h => ⟨h, Tables.stores_nil _⟩

mutual

theorem stmt_settles {ctx : Context} {s s' : CheckState} {u : Unit} : ∀ (st : Stmt),
    stmt sub ctx st s = .ok (u, s') → Settles ctx.scope st.nodes st.walk
      (fun t frame => st.Ready t frame (ctx.position == .followed) ∧ t.Stores st.stores) s s'
  | .declaration _ d, h => declaration_settles h
  | .assignment n t value, h => assignment_settles h
  | .ifElse _ c b e, h => by
    simp only [stmt, bind_eq_ok] at h
    obtain ⟨_, s1, hc, _, s2, hb, he⟩ := h
    exact (((condition_settles hc).seq (block_settles b hb)).seq
      (optionalBlock_settles e he)).weaken
      fun ⟨⟨hc, hb, sb⟩, he, se⟩ => ⟨⟨hc, hb, he⟩, Tables.stores_append.2 ⟨sb, se⟩⟩
  | .whileLoop _ c b, h => by
    simp only [stmt, bind_eq_ok] at h
    obtain ⟨_, s1, hc, hb⟩ := h
    exact ((condition_settles hc).seq (block_settles b hb)).weaken and_assoc.2
  | .doLoop _ b c, h => by
    simp only [stmt, bind_eq_ok] at h
    obtain ⟨_, s1, hb, hc⟩ := h
    exact ((block_settles b hb).seq (condition_settles hc)).weaken fun ⟨⟨hb, sb⟩, hc⟩ =>
      ⟨⟨hb, hc⟩, sb⟩
  | .forLoop _ i c st b, h => by
    simp only [stmt, bind_eq_ok] at h
    obtain ⟨id, s1, ho, _, s2, hi, _, s3, hc, _, s4, hst, hb⟩ := h
    have h1 := ((optionalStmt_settles i hi).seq (condition_settles hc)).seq
      (optionalStmt_settles st hst)
    exact .openBlock ho ((h1.seq (block_settles b hb)).weaken
      fun ⟨⟨⟨⟨hi, si⟩, hc⟩, hst, sst⟩, hb, sb⟩ =>
      ⟨⟨hi, hc, hst, hb⟩, Tables.stores_append.2 ⟨si, Tables.stores_append.2 ⟨sst, sb⟩⟩⟩)
  | .block _ b, h => block_settles b h
  | .switch _ d cs f, h => by
    simp only [stmt, bind_eq_ok] at h
    obtain ⟨r, s1, hd, _, s2, hcs, hf⟩ := h
    have hfb : Settles ctx.scope (Block.nodesOption f) (Block.walkOption f)
        (fun t frame => Block.ReadyOption t frame false f ∧ t.Stores (Block.storesOption f)) s2
        s' :=
      optionalBlock_settles f hf
    exact (((expr_settles hd).seq (switchCases_settles cs hcs)).seq hfb).weaken
      fun ⟨⟨hd, hcs, scs⟩, hf, sf⟩ => ⟨⟨hd, hcs, hf⟩, Tables.stores_append.2 ⟨scs, sf⟩⟩
  | .next n, h => by
    obtain ⟨hr, hp⟩ := reportIf_ok h
    simp only [Stmt.Ready]
    exact ((Settles.ofReads hr).conclude fun hd _ _ _ _ => by simpa using hp hd).noStores
  | .return n v, h => (returnStatement_settles h).noStores
  | .expression _ e, h => by
    simp only [stmt, discard_eq_ok] at h
    obtain ⟨r, he⟩ := h
    exact (expr_settles he).noStores
  | .acquire _ e, h => (lockOperand_settles h).noStores
  | .release _ e, h => (lockOperand_settles h).noStores

theorem optionalStmt_settles {ctx : Context} {s s' : CheckState} {u : Unit} :
    ∀ (st : Option Stmt), optionalStmt sub ctx st s = .ok (u, s') →
    Settles ctx.scope (Stmt.nodesOption st) (Stmt.walkOption st) (fun t frame =>
      Stmt.ReadyOption t frame (ctx.position == .followed) st ∧
        t.Stores (Stmt.storesOption st)) s s'
  | none, h => by
    obtain ⟨-, rfl⟩ := pure_eq_ok.1 h
    exact .refl ⟨trivial, Tables.stores_nil _⟩
  | some st, h => stmt_settles st h

theorem stmts_settles {ctx : Context} {s s' : CheckState} {u : Unit} : ∀ (ss : List Stmt),
    stmts sub ctx ss s = .ok (u, s') →
    Settles ctx.scope (Stmt.nodesAll ss) (Stmt.walkAll ss) (fun t frame =>
      Stmt.ReadyAll t frame (ctx.position == .followed) ss ∧ t.Stores (Stmt.storesAll ss)) s s'
  | [], h => by
    obtain ⟨-, rfl⟩ := pure_eq_ok.1 h
    exact .refl ⟨trivial, Tables.stores_nil _⟩
  | st :: ss, h => by
    simp only [stmts, bind_eq_ok] at h
    obtain ⟨_, s1, hst, hss⟩ := h
    exact ((stmt_settles st hst).seq (stmts_settles ss hss)).weaken
      fun ⟨⟨hst, sst⟩, hss, sss⟩ => ⟨⟨hst, hss⟩, Tables.stores_append.2 ⟨sst, sss⟩⟩

theorem block_settles {ctx : Context} {s s' : CheckState} {u : Unit} : ∀ (b : Block),
    block sub ctx b s = .ok (u, s') → Settles ctx.scope b.nodes b.walk
      (fun t frame => b.Ready t frame (ctx.position == .followed) ∧ t.Stores b.stores) s s'
  | .mk _ ss, h => by
    simp only [block, bind_eq_ok] at h
    obtain ⟨id, s1, ho, hss⟩ := h
    exact .openBlock ho (stmts_settles ss hss)

theorem optionalBlock_settles {ctx : Context} {s s' : CheckState} {u : Unit} :
    ∀ (b : Option Block), optionalBlock sub ctx b s = .ok (u, s') →
    Settles ctx.scope (Block.nodesOption b) (Block.walkOption b) (fun t frame =>
      Block.ReadyOption t frame (ctx.position == .followed) b ∧
        t.Stores (Block.storesOption b)) s s'
  | none, h => by
    obtain ⟨-, rfl⟩ := pure_eq_ok.1 h
    exact .refl ⟨trivial, Tables.stores_nil _⟩
  | some b, h => block_settles b h

theorem switchCases_settles {ctx : Context} {r : Typed} {fallback : Bool} {s s' : CheckState}
    {u : Unit} : ∀ (cs : List Case),
    switchCases sub ctx r fallback cs s = .ok (u, s') →
    Settles ctx.scope (Case.nodesAll cs) (Case.walkAll cs)
      (fun t frame => Case.ReadyAll t frame fallback cs ∧ t.Stores (Case.storesAll cs)) s s'
  | [], h => by
    obtain ⟨-, rfl⟩ := pure_eq_ok.1 h
    exact .refl ⟨trivial, Tables.stores_nil _⟩
  | .mk n v b :: cs, h => by
    simp only [switchCases] at h
    rw [bind_eq_ok] at h
    obtain ⟨value, s1, hv, h⟩ := h
    obtain ⟨s2, hr, -, -, h⟩ := reportIf_bind h
    simp only [bind_eq_ok] at h
    obtain ⟨_, s3, hb, hcs⟩ := h
    have hbs : Settles ctx.scope b.nodes b.walk
        (fun t frame => b.Ready t frame (!cs.isEmpty || fallback) ∧ t.Stores b.stores) s2 s3 := by
      cases hflag : !cs.isEmpty || fallback with
      | true => exact block_settles b (by rw [hflag] at hb; exact hb)
      | false => exact block_settles b (by rw [hflag] at hb; exact hb)
    exact ((((expr_settles hv).reads hr).seq hbs).seq (switchCases_settles cs hcs)).weaken
      fun ⟨⟨hv, hb, sb⟩, hcs, scs⟩ => ⟨⟨hv, hb, hcs⟩, Tables.stores_append.2 ⟨sb, scs⟩⟩

end

end Check

end Awl
