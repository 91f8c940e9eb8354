import Awl.Proofs.Ready
import Awl.Proofs.Runs
import Awl.Syntax.Nodes
import Awl.Typing.Stmt

/-!
# The steps of checking an expression

Every step of `Check.expr` only adds entries of nodes to the tables, each once (`CheckState.Reads`).
If nothing has been reported, the result is not marked as erroneous unless an operand is. That is
what makes the marks harmless: a rule that stays silent because an operand is erroneous is never
reached without a report.
-/

namespace Awl

variable {arguments : List Typed} {node : Node} {n : NodeId} {p : Problem} {id scope : ScopeId}
  {span : Span} {name x : String} {type : Ty} {u : Unit} {isMethod : Bool}

/-! ## Annotations -/

/-- Checking code adds entries of nodes. The function of a node is settled before its type: a node
with a type keeps what it had, and a node that gets a function gets a type. Only the node `skip`,
whose type comes last, is exempt. -/
structure CheckState.Annotates (skip : Option NodeId) (s s' : CheckState) : Prop where
  adds : s.diagnostics.toList <+: s'.diagnostics.toList
  types : s'.tables.types = s.tables.types
  functions : s'.tables.functions.functions = s.tables.functions.functions
  typed : ∀ n type, s.tables.annotations.type? n = some type →
    s'.tables.annotations.type? n = some type
  placed : ∀ n id, s.tables.annotations.scope? n = some id →
    s'.tables.annotations.scope? n = some id
  calls : ∀ n f, s.tables.functions.lookup n = some f → s'.tables.functions.lookup n = some f
  frozen : ∀ n, some n ≠ skip → (s.tables.annotations.type? n).isSome →
    s'.tables.functions.lookup n = s.tables.functions.lookup n
  covered : ∀ n, some n ≠ skip → (s'.tables.functions.lookup n).isSome →
    (s.tables.functions.lookup n).isSome ∨ (s'.tables.annotations.type? n).isSome

/-- Checking an expression leaves the scopes alone. -/
structure CheckState.Reads (skip : Option NodeId) (s s' : CheckState) : Prop extends
    CheckState.Annotates skip s s' where
  scopes : s'.tables.scopes = s.tables.scopes

namespace CheckState

variable {s s' s1 s2 s3 : CheckState} {skip : Option NodeId}

/-- A run that ends without reports started without any. -/
theorem Annotates.reports (h : s.Annotates skip s') (hd : s'.diagnostics = #[]) :
    s.diagnostics = #[] := by
  have hp := h.adds
  simpa [hd] using hp

theorem Annotates.refl (s : CheckState) : s.Annotates none s :=
  ⟨List.prefix_rfl, rfl, rfl, fun _ _ h => h, fun _ _ h => h, fun _ _ h => h, fun _ _ _ => rfl,
    fun _ _ h => .inl h⟩

theorem Annotates.trans (h : s1.Annotates none s2) (h' : s2.Annotates skip s3) :
    s1.Annotates skip s3 where
  adds := h.adds.trans h'.adds
  types := h'.types.trans h.types
  functions := h'.functions.trans h.functions
  typed n type hn := h'.typed n type (h.typed n type hn)
  placed n id hn := h'.placed n id (h.placed n id hn)
  calls n f hn := h'.calls n f (h.calls n f hn)
  frozen n hs hn := by
    obtain ⟨type, ht⟩ := Option.isSome_iff_exists.1 hn
    rw [h'.frozen n hs (by rw [h.typed n type ht]; rfl), h.frozen n (by simp) hn]
  covered n hs hn := by
    rcases h'.covered n hs hn with hn | hn
    · rcases h.covered n (by simp) hn with hn | hn
      · exact .inl hn
      · obtain ⟨type, ht⟩ := Option.isSome_iff_exists.1 hn
        exact .inr (by rw [h'.typed n type ht]; rfl)
    · exact .inr hn

theorem Reads.refl (s : CheckState) : s.Reads none s := ⟨.refl s, rfl⟩

theorem Reads.trans (h : s1.Reads none s2) (h' : s2.Reads skip s3) : s1.Reads skip s3 :=
  ⟨h.toAnnotates.trans h'.toAnnotates, h'.scopes.trans h.scopes⟩

theorem Reads.exempt (h : s.Reads none s') : s.Reads skip s' :=
  ⟨⟨h.adds, h.types, h.functions, h.typed, h.placed, h.calls, fun n _ hn => h.frozen n (by simp) hn,
    fun n _ hn => h.covered n (by simp) hn⟩, h.scopes⟩

theorem Annotates.tables_le (h : s.Annotates none s') (hs : s.tables.scopes.Le s'.tables.scopes) :
    s.tables.Le s'.tables where
  types := h.types
  scopes := hs
  functions id f hf := ⟨f, by rw [Tables.function?, h.functions]; exact hf, .refl f⟩
  typed := h.typed
  placed := h.placed
  calls := h.calls
  frozen n hn := h.frozen n (by simp) hn

theorem Reads.tables_le (h : s.Reads none s') : s.tables.Le s'.tables :=
  h.toAnnotates.tables_le (by rw [h.scopes]; exact .refl _)

end CheckState

theorem Ty.class?_eq_some {c : ClassType} : type.class? = some c ↔ type = .object c := by
  cases type <;> simp [Ty.class?]

theorem FunctionTable.resolveCall_eq_some {t : FunctionTable} {arguments : List Ty}
    {id : FunctionId}
    (h : t.resolveCall name arguments isMethod = some id) : ∃ f, t.functions.get? id = some f ∧
    f.signature.arguments = arguments ∧ f.signature.isMethod = isMethod := by
  obtain ⟨hlt, hp, -⟩ := List.findIdx?_eq_some_iff_getElem.1 h
  refine ⟨t.functions.toList[id], ?_, ?_⟩
  · rw [Slots.get?, ← Array.getElem?_toList]
    exact List.getElem?_eq_getElem hlt
  · simp only [Function.matches, Bool.and_eq_true, beq_iff_eq] at hp
    exact ⟨hp.2, hp.1.2⟩

namespace Check

variable {s s' : CheckState} {c : Prop}

open CheckState

theorem report_reads (h : report p span s = .ok (u, s')) :
    s.Reads none s' ∧ s'.diagnostics ≠ #[] := by
  rw [report_eq_ok] at h
  subst h
  have hne : s.diagnostics.push { problem := p, span } ≠ #[] := by simp
  exact ⟨⟨⟨⟨[{ problem := p, span }], by simp⟩, rfl, rfl, fun _ _ h => h, fun _ _ h => h,
      fun _ _ h => h, fun _ _ _ =>
    rfl, fun _ _ h => .inl h⟩, rfl⟩, hne⟩

/-- An answer after a report. -/
theorem reportReturn_ok {C : Prop} {r r' : Typed}
    (h : (do report p span; return r') s = .ok (r, s')) :
    s.Reads none s' ∧ (s'.diagnostics = #[] → C) := by
  simp only [bind_eq_ok] at h
  obtain ⟨_, _, hr, -, rfl⟩ := h
  obtain ⟨hr, hd⟩ := report_reads hr
  exact ⟨hr, fun hd' => absurd hd' hd⟩

/-- A report under a condition: if nothing was reported, the condition does not hold. -/
theorem reportIf_ok [Decidable c] (h : (if c then report p span else pure ()) s = .ok (u, s')) :
    s.Reads none s' ∧ (s'.diagnostics = #[] → ¬ c) := by
  split at h
  · obtain ⟨hr, hd⟩ := report_reads h
    exact ⟨hr, fun hd' => absurd hd' hd⟩
  · obtain ⟨-, rfl⟩ := pure_eq_ok.1 h
    exact ⟨.refl s', fun _ => ‹_›⟩

/-- A report under a condition, and what follows it. -/
theorem reportIf_bind {α : Type} [Decidable c] {k : Check α} {a : α}
    (h : (if c then (do report p span; k) else k) s = .ok (a, s')) :
    ∃ s1, s.Reads none s1 ∧ (s1.diagnostics = #[] → ¬ c) ∧ s1.tables = s.tables ∧
      k s1 = .ok (a, s') := by
  split at h
  · simp only [bind_eq_ok] at h
    obtain ⟨_, s1, hr, h⟩ := h
    obtain ⟨hr', hd⟩ := report_reads hr
    rw [report_eq_ok] at hr
    exact ⟨s1, hr', fun hd' => absurd hd' hd, by rw [hr], h⟩
  · exact ⟨s, .refl s, fun _ => ‹_›, rfl, h⟩

theorem expectType_ok {value : Typed} {purpose : Purpose}
    (h : expectType value type span purpose s = .ok (u, s')) : s.Reads none s' :=
  (reportIf_ok h).1

theorem resolveType_ok {sub : Ty} {te : TypeExpr} (h : resolveType sub span te s = .ok (type, s')) :
    s.Reads none s' ∧ s'.tables = s.tables := by
  induction te generalizing type with
  | array element ih =>
    simp only [resolveType, bind_eq_ok] at h
    obtain ⟨_, _, he, rfl, rfl⟩ := h
    exact ih he
  | named name =>
    simp only [resolveType, bind_eq_ok, tables_eq_ok] at h
    obtain ⟨_, s1, ⟨rfl, hs1⟩, h⟩ := h
    subst s1
    cases hl : s.tables.types.lookup name with
    | some t =>
      rw [hl] at h
      obtain ⟨-, rfl⟩ := pure_eq_ok.1 h
      exact ⟨.refl s', rfl⟩
    | none =>
      rw [hl] at h
      simp only [bind_eq_ok] at h
      obtain ⟨_, _, hr, rfl, rfl⟩ := h
      exact ⟨(report_reads hr).1, by rw [report_eq_ok.1 hr]⟩
  | _ =>
    obtain ⟨-, rfl⟩ := pure_eq_ok.1 h
    exact ⟨.refl s', rfl⟩

theorem recordScope_reads (h : recordScope n id s = .ok (u, s')) :
    s.Reads none s' ∧ s'.diagnostics = s.diagnostics ∧
      s'.tables.annotations.scope? n = some id := by
  obtain ⟨hn, a, rfl, htypes, hget⟩ := recordScope_ok h
  refine ⟨⟨⟨List.prefix_rfl, rfl, rfl, fun m type hm => ?_, fun m id' hm => ?_, fun _ _ h =>
      h, fun _ _ _ =>
    rfl, fun _ _ h => .inl h⟩, rfl⟩, rfl, by simp [hget]⟩
  · simpa [Annotations.type?, htypes] using hm
  · by_cases hmn : m = n
    · rw [hmn, hn] at hm
      cases hm
    · simpa [hget, hmn] using hm

/-- The type of a node comes last: with it, the exemption of the node ends. -/
theorem Reads.recordType {s1 : CheckState} (h1 : s.Reads (some n) s1)
    (h : recordType n type s1 = .ok (u, s')) :
    s.Reads none s' ∧ s'.diagnostics = s1.diagnostics ∧ s'.tables.functions = s1.tables.functions ∧
      s1.tables.annotations.type? n = none ∧ s'.tables.annotations.type? n = some type ∧
      s1.tables.Le s'.tables := by
  obtain ⟨hn, a, rfl, hscopes, hget⟩ := recordType_ok h
  have htyped : ∀ m type', s1.tables.annotations.type? m = some type' → a.type? m = some type' := by
    intro m type' hm
    by_cases hmn : m = n
    · rw [hmn, hn] at hm
      cases hm
    · simpa [hget, hmn] using hm
  have hplaced : ∀ m, a.scope? m = s1.tables.annotations.scope? m := fun m => by
    simp [Annotations.scope?, hscopes]
  refine ⟨⟨⟨h1.adds, h1.types, h1.functions, fun m t hm => htyped m t (h1.typed m t hm),
    fun m id hm => ?_, h1.calls, fun m _ hm => ?_, fun m _ hm => ?_⟩, h1.scopes⟩, rfl, rfl, hn,
    by simp [hget], ⟨rfl, .refl _, fun _ f hf => ⟨f, hf, .refl f⟩, htyped, fun m id hm =>
      (hplaced m).trans hm, fun _ _ h => h, fun _ _ => rfl⟩⟩
  · exact (hplaced m).trans (h1.placed m id hm)
  · refine h1.frozen m (fun he => ?_) hm
    obtain ⟨t, ht⟩ := Option.isSome_iff_exists.1 hm
    have := h1.typed m t ht
    rw [Option.some.inj he, hn] at this
    cases this
  · by_cases hmn : m = n
    · exact .inr (by simp [hget, hmn])
    · rcases h1.covered m (by simpa using hmn) hm with hm | hm
      · exact .inl hm
      · obtain ⟨t, ht⟩ := Option.isSome_iff_exists.1 hm
        exact .inr (by rw [htyped m t ht]; rfl)

theorem bindFunction_reads {f : FunctionId} (h : bindFunction n f s = .ok (u, s')) :
    s.Reads (some n) s' ∧ s'.diagnostics = s.diagnostics ∧
      s'.tables.functions.lookup n = some f := by
  obtain ⟨hn, t, rfl, hf, hget⟩ := bindFunction_ok h
  refine ⟨⟨⟨List.prefix_rfl, rfl, hf, fun _ _ h => h, fun _ _ h => h, fun m g hm => ?_,
    fun m hs _ => ?_, fun m hs hm => ?_⟩, rfl⟩, rfl, by simp [hget]⟩
  · by_cases hmn : m = n
    · rw [hmn, hn] at hm
      cases hm
    · simpa [hget, hmn] using hm
  · have hmn : m ≠ n := by simpa using hs
    simp [hget, hmn]
  · have hmn : m ≠ n := by simpa using hs
    exact .inl (by simpa [hget, hmn] using hm)

/-! ## The rules

For each rule: what it does to the state, and what it has settled if nothing has been reported. -/

variable {sub : Ty} {span : Span} {r : Typed} {ctx : Context}

/-- The type of a name that must be a variable, with what is reported if it is a method or if it is
not bound. -/
def variableType (sub : Ty) (ctx : Context) (node : Node) (x : String)
    (asMethod unbound : Problem) : Check Typed := do
  match ← resolveFrom ctx.scope x with
  | some (type, scope) =>
    if type.isFunction then
      report asMethod node.span
      return .error sub
    else
      recordScope node.id scope
      return .sound type
  | none =>
    report unbound node.span
    return .error sub

theorem target_name (n : Node) (x : String) : target sub ctx (.name n x) = (do
    let r ← variableType sub ctx n x (.assignmentToUndeclared x) (.assignmentToUndeclared x)
    recordType n.id r.type
    return r) := by
  unfold target variableType
  rw [bind_assoc]
  refine bind_congr fun found => ?_
  cases found with
  | none => rfl
  | some found =>
    dsimp only
    split <;> rw [bind_assoc] <;> rfl

theorem variableType_ok {p q : Problem} (h : variableType sub ctx node x p q s = .ok (r, s')) :
    s.Reads none s' ∧ (s'.diagnostics = #[] → r.erroneous = false ∧ r.type.isFunction = false ∧
      ∃ id, s.tables.scopes.resolveFrom ctx.scope x = .ok (some (r.type, id)) ∧
        s'.tables.annotations.scope? node.id = some id) := by
  simp only [variableType, bind_eq_ok, resolveFrom_eq_ok] at h
  obtain ⟨found, s1, ⟨hf, hs1⟩, h⟩ := h
  subst s1
  cases found with
  | none => exact reportReturn_ok h
  | some found =>
    obtain ⟨type, id⟩ := found
    dsimp only at h
    split at h
    · exact reportReturn_ok h
    · rename_i hfun
      simp only [bind_eq_ok] at h
      obtain ⟨_, _, hr, rfl, rfl⟩ := h
      obtain ⟨hr, -, hs⟩ := recordScope_reads hr
      exact ⟨hr, fun _ => ⟨rfl, Bool.eq_false_iff.2 hfun, id, hf, hs⟩⟩

theorem enumValueType_ok {member : String} (h : enumValueType sub span x member s = .ok (r, s')) :
    s.Reads none s' ∧ (s'.diagnostics = #[] → r.erroneous = false ∧
      (s.tables.types.enum? x).isSome) := by
  simp only [enumValueType, bind_eq_ok, tables_eq_ok] at h
  obtain ⟨_, s1, ⟨rfl, hs1⟩, h⟩ := h
  subst s1
  cases he : s.tables.types.enum? x with
  | none =>
    simp only [he] at h
    exact reportReturn_ok h
  | some e =>
    simp only [he] at h
    split at h
    · exact reportReturn_ok h
    · obtain ⟨rfl, rfl⟩ := pure_eq_ok.1 h
      exact ⟨.refl _, fun _ => ⟨rfl, rfl⟩⟩

theorem newArrayType_ok {element : Ty} {length : Typed}
    (h : newArrayType span element length s = .ok (r, s')) :
    s.Reads none s' ∧ r.erroneous = false := by
  obtain ⟨s1, hr, -, -, h⟩ := reportIf_bind h
  obtain ⟨rfl, rfl⟩ := pure_eq_ok.1 h
  exact ⟨hr, rfl⟩

theorem elementType_ok {array index : Typed}
    (h : elementType sub span array index s = .ok (r, s')) : s.Reads none s' ∧
    (s'.diagnostics = #[] → array.erroneous = false → r.erroneous = false) := by
  obtain ⟨s1, hr, -, -, h⟩ := reportIf_bind h
  split at h
  · obtain ⟨rfl, rfl⟩ := pure_eq_ok.1 h
    exact ⟨hr, fun _ ha => by simp_all⟩
  · cases he : array.type.element? with
    | some element =>
      rw [he] at h
      obtain ⟨rfl, rfl⟩ := pure_eq_ok.1 h
      exact ⟨hr, fun _ _ => rfl⟩
    | none =>
      simp only [he] at h
      exact (reportReturn_ok h).imp_left hr.trans

theorem fieldType_ok {object : Typed} (h : fieldType sub span object x s = .ok (r, s')) :
    s.Reads none s' ∧ (s'.diagnostics = #[] → object.erroneous = false → r.erroneous = false ∧
      ∃ c id b k, object.type = .object c ∧ s.tables.types.memberScope? c = some id ∧
        s.tables.scopes.binding? id x = .ok (some b) ∧ b.offset = some k ∧ b.type = r.type) := by
  rw [fieldType] at h
  split at h
  · obtain ⟨rfl, rfl⟩ := pure_eq_ok.1 h
    exact ⟨.refl _, fun _ ho => by simp_all⟩
  · cases hc : object.type.class? with
    | none =>
      simp only [hc] at h
      exact reportReturn_ok h
    | some c =>
      simp only [hc, bind_eq_ok, memberScope_eq_ok, binding?_eq_ok] at h
      obtain ⟨id, s1, ⟨hm, hs1⟩, found, s2, ⟨hb, hs2⟩, h⟩ := h
      subst s1 s2
      split at h
      · obtain ⟨rfl, rfl⟩ := pure_eq_ok.1 h
        exact ⟨.refl _, fun _ _ => ⟨rfl, c, id, _, _, Ty.class?_eq_some.1 hc, hm, hb, rfl, rfl⟩⟩
      · exact reportReturn_ok h

theorem callType_ok
    (h : callType sub node name arguments isMethod s = .ok (r, s')) :
    s.Reads (some node.id) s' ∧ (s'.diagnostics = #[] → arguments.any (·.erroneous) = false →
      r.erroneous = false ∧ s'.tables.HasCallee node.id arguments.length isMethod) := by
  simp only [callType, bind_eq_ok, tables_eq_ok] at h
  obtain ⟨_, s1, ⟨rfl, hs1⟩, h⟩ := h
  subst s1
  cases hf : s.tables.functions.resolveCall name (arguments.map (·.type)) isMethod with
  | some function =>
    simp only [hf, bind_eq_ok, lift_eq_ok] at h
    obtain ⟨_, s1, hb, f, _, ⟨-, rfl⟩, rfl, rfl⟩ := h
    obtain ⟨hb, -, hl⟩ := bindFunction_reads hb
    obtain ⟨f', hf', ha, hm⟩ := FunctionTable.resolveCall_eq_some hf
    refine ⟨hb, fun _ hany => ⟨hany, function, f', hl, ?_, by simp [ha], hm⟩⟩
    rw [Tables.function?, hb.functions, hf']
  | none =>
    simp only [hf] at h
    split at h
    · obtain ⟨rfl, rfl⟩ := pure_eq_ok.1 h
      exact ⟨(Reads.refl _).exempt, fun _ hany => by simp_all⟩
    · split at h <;> exact (reportReturn_ok h).imp_left Reads.exempt

theorem methodCallType_ok {receiver : Typed} {method : String}
    (h : methodCallType sub node receiver method arguments s = .ok (r, s')) :
    s.Reads (some node.id) s' ∧ (s'.diagnostics = #[] → receiver.erroneous = false →
      arguments.any (·.erroneous) = false →
      r.erroneous = false ∧ s'.tables.HasCallee node.id (arguments.length + 1) true) := by
  rw [methodCallType] at h
  split at h
  · obtain ⟨rfl, rfl⟩ := pure_eq_ok.1 h
    exact ⟨(Reads.refl _).exempt, fun _ hr => by simp_all⟩
  · split at h
    · exact (reportReturn_ok h).imp_left Reads.exempt
    · obtain ⟨hr, hc⟩ := callType_ok h
      exact ⟨hr, fun hd hrec hany => hc hd (by simp [hrec, hany])⟩

theorem newType_ok {c : String} (h : newType sub node c arguments s = .ok (r, s')) :
    s.Reads (some node.id) s' ∧ (s'.diagnostics = #[] → arguments.any (·.erroneous) = false →
      r.erroneous = false ∧ (s.tables.types.class? c).isSome ∧
        (s'.tables.functions = s.tables.functions ∧ arguments.length = 0 ∨
          s'.tables.HasCallee node.id (arguments.length + 1) true)) := by
  simp only [newType, bind_eq_ok, tables_eq_ok] at h
  obtain ⟨_, s1, ⟨rfl, hs1⟩, h⟩ := h
  subst s1
  cases hc : s.tables.types.class? c with
  | none =>
    simp only [hc] at h
    exact (reportReturn_ok h).imp_left Reads.exempt
  | some cls =>
    simp only [hc] at h
    cases hf : s.tables.functions.resolveCall constructorName
        (.object cls :: arguments.map (·.type)) true with
    | some function =>
      simp only [hf, bind_eq_ok] at h
      obtain ⟨_, _, hb, rfl, rfl⟩ := h
      obtain ⟨hb, -, hl⟩ := bindFunction_reads hb
      obtain ⟨f', hf', ha, hm⟩ := FunctionTable.resolveCall_eq_some hf
      refine ⟨hb, fun _ _ => ⟨rfl, rfl, .inr ⟨function, f', hl, ?_, by simp [ha], hm⟩⟩⟩
      rw [Tables.function?, hb.functions, hf']
    | none =>
      simp only [hf] at h
      obtain ⟨s1, hr, hd, ht, h⟩ := reportIf_bind h
      obtain ⟨rfl, rfl⟩ := pure_eq_ok.1 h
      refine ⟨hr.exempt, fun hd' hany => ⟨rfl, rfl, .inl ⟨by rw [ht], ?_⟩⟩⟩
      have := hd hd'
      simpa [hany] using this

theorem unaryType_ok {op : UnaryOp} {operand : Typed}
    (h : unaryType span op operand s = .ok (r, s')) :
    s.Reads none s' ∧ (s'.diagnostics = #[] → operand.erroneous = false → r.erroneous = false) := by
  rw [unaryType] at h
  split at h
  · obtain ⟨rfl, rfl⟩ := pure_eq_ok.1 h
    exact ⟨.refl _, fun _ ho => by simp_all⟩
  · split at h
    · exact reportReturn_ok h
    · obtain ⟨rfl, rfl⟩ := pure_eq_ok.1 h
      exact ⟨.refl _, fun _ _ => rfl⟩

theorem binaryType_ok {op : BinaryOp} {left right : Typed}
    (h : binaryType span op left right s = .ok (r, s')) :
    s.Reads none s' ∧ (s'.diagnostics = #[] → left.erroneous = false → right.erroneous = false →
      r.erroneous = false) := by
  rw [binaryType] at h
  split at h
  · obtain ⟨rfl, rfl⟩ := pure_eq_ok.1 h
    exact ⟨.refl _, fun _ hl hr => by simp_all⟩
  · split at h
    · exact reportReturn_ok h
    · obtain ⟨rfl, rfl⟩ := pure_eq_ok.1 h
      exact ⟨.refl _, fun _ _ _ => rfl⟩

end Check

end Awl
