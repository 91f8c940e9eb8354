import Mathlib.Data.List.Find
import Awl.Proofs.CheckUnit
import Awl.Proofs.Judging

/-!
# Overloads

A function is told apart by its identity: its name, its argument types and whether it is a method.
An `Update` is a call that may change a table of functions, and `definitions` are the functions that
a sequence of updates has defined, each with the number that its call answered. A table lists these
definitions and nothing else (`listed_applyAll`), no two of them of one identity
(`identities_applyAll`). So the calls of an identity mean one function, whatever comes later
(`resolveCall_exact`).
-/

namespace Awl

/-- What a call says about the function that it means. The type of the result is no part of it. -/
def Function.identity (f : Function) : String × List Ty × Bool :=
  (f.name, f.signature.arguments, f.signature.isMethod)

theorem Function.matches_eq (f : Function) (name : String) (arguments : List Ty) (isMethod : Bool) :
    f.matches name arguments isMethod = (f.identity == (name, arguments, isMethod)) := by
  rw [Bool.eq_iff_iff]
  simp only [Function.matches, identity, Bool.and_eq_true, beq_iff_eq, Prod.mk.injEq]
  tauto

namespace FunctionTable

variable {t t' : FunctionTable} {name : String} {arguments : List Ty} {isThread isMethod : Bool}
  {id : FunctionId} {owner : Option ClassType} {signature : Signature}

/-! ## Sequences of updates -/

inductive Update where
  | define (name : String) (signature : Signature) (isThread : Bool) (owner : Option ClassType)
  | attachScope (function : FunctionId) (scope : ScopeId)
  | bind (node : NodeId) (function : FunctionId)

/-- The table after an update. A refused definition leaves it as it is, and so does a scope for a
function that does not exist. -/
def apply (t : FunctionTable) : Update → FunctionTable
  | .define name signature isThread owner =>
    match t.define name signature isThread owner with
    | some (_, t') => t'
    | none => t
  | .attachScope function scope =>
    match t.attachScope function scope with
    | .ok t' => t'
    | .error _ => t
  | .bind node function => (t.bind node function).2

def applyAll (t : FunctionTable) (us : List Update) : FunctionTable := us.foldl apply t

/-- The function that an update defines, with the number that the call answers. -/
def defined (t : FunctionTable) : Update → List (FunctionId × Function)
  | .define name signature isThread owner =>
    match t.define name signature isThread owner with
    | some (id, _) => [(id, { name, signature, isThread, owner })]
    | none => []
  | _ => []

/-- The functions that a sequence of updates defines, in this order. -/
def definitions (t : FunctionTable) : List Update → List (FunctionId × Function)
  | [] => []
  | u :: us => t.defined u ++ (t.apply u).definitions us

/-- The functions of one name, in the order of their definition. -/
def overloads (t : FunctionTable) (name : String) : List FunctionId :=
  (t.entries.filter fun (_, f) => f.name == name).map (·.1)

/-! ## What a table lists -/

/-- The functions as they were defined, with their numbers. -/
def listed (t : FunctionTable) : List (FunctionId × Function) :=
  t.heads.zipIdx.map fun (f, i) => (i, f)

theorem mem_listed {f : Function} : (id, f) ∈ t.listed ↔ ∃ g,
    t.get id = .ok g ∧ f = { g with scope := none } := by
  have hmem : (id, f) ∈ t.listed ↔ (f, id) ∈ t.heads.zipIdx := by
    simp only [listed]
    grind
  rw [hmem, List.mk_mem_zipIdx_iff_getElem?, heads_getElem?, Option.map_eq_some_iff]
  simp only [get, Slots.fetch_eq_ok_iff, @eq_comm _ f]

/-- A property of functions that does not depend on their scopes picks the same numbers from the
list. -/
theorem filter_entries (p : Function → Bool) (hp : ∀ f, p { f with scope := none } = p f) :
    (t.entries.filter fun (_, f) => p f).map (·.1) =
      (t.listed.filter fun (_, f) => p f).map (·.1) := by
  have hlisted : t.listed = t.entries.map fun (i, f) => (i, { f with scope := none }) := by
    simp only [listed, heads, entries, Slots.entries, List.zipIdx_map, List.map_map]
    rfl
  rw [hlisted, List.filter_map, List.map_map]
  simp only [Function.comp_def, hp]

theorem threads_eq (t : FunctionTable) :
    t.threads = (t.listed.filter fun (_, f) => f.isThread).map (·.1) :=
  filter_entries (·.isThread) fun _ => rfl

theorem overloads_eq (t : FunctionTable) (name : String) :
    t.overloads name = (t.listed.filter fun (_, f) => f.name == name).map (·.1) :=
  filter_entries (·.name == name) fun _ => rfl

theorem resolveCall_eq (t : FunctionTable) (name : String) (arguments : List Ty) (isMethod : Bool) :
    t.resolveCall name arguments isMethod =
      (t.listed.find? fun (_, f) => f.identity == (name, arguments, isMethod)).map (·.1) := by
  have hheads : t.resolveCall name arguments isMethod =
      t.heads.findIdx? fun f => f.identity == (name, arguments, isMethod) := by
    simp only [resolveCall, heads, List.findIdx?_map, Function.comp_def, Function.matches_eq,
      Function.identity]
  rw [hheads, List.findIdx?_eq_fst_find?_zipIdx, listed, List.find?_map, Option.map_map]
  rfl

theorem resolveCall_eq_none_iff : t.resolveCall name arguments isMethod = none ↔
    ∀ p ∈ t.listed, p.2.identity ≠ (name, arguments, isMethod) := by
  simp only [resolveCall_eq, Option.map_eq_none_iff, List.find?_eq_none, beq_iff_eq]

/-- The search for a function goes through the overloads of its name. -/
theorem resolveCall_eq_find?_overloads (t : FunctionTable) (name : String) (arguments : List Ty)
    (isMethod : Bool) :
    t.resolveCall name arguments isMethod = (t.overloads name).find? fun i =>
      (t.get i).toOption.any fun f => f.identity == (name, arguments, isMethod) := by
  rw [resolveCall_eq, overloads_eq, List.find?_map, List.find?_filter]
  refine congrArg (Option.map _) (List.find?_congr fun p hp => ?_)
  obtain ⟨g, hg, hf⟩ := mem_listed.1 hp
  have hidentity : p.2.identity = g.identity := by rw [hf]; rfl
  have hname : p.2.name = p.2.identity.1 := rfl
  simp only [Function.comp_apply, hg, Except.toOption, hname, hidentity]
  by_cases heq : g.identity = (name, arguments, isMethod)
  · simp [heq]
  · simp [heq]

/-! ## One update -/

theorem define_eq_some_iff :
    t.define name signature isThread owner = some (id, t') ↔
      t.resolveCall name signature.arguments signature.isMethod = none ∧ id = t.functions.nextId ∧
        t' = { t with functions := t.functions.push { name, signature, isThread, owner } } := by
  unfold define
  cases t.resolveCall name signature.arguments signature.isMethod with
  | some i => simp
  | none => simp [@eq_comm _ id, @eq_comm _ t']

theorem listed_define (h : t.define name signature isThread owner = some (id, t')) :
    t'.listed = t.listed ++ [(id, ({ name, signature, isThread, owner } : Function))] := by
  obtain ⟨-, rfl, rfl⟩ := define_eq_some_iff.1 h
  simp [listed, heads, Slots.toList, Slots.push, Slots.nextId, Slots.size, List.zipIdx_append]

theorem heads_attachScope {scope : ScopeId} (h : t.attachScope id scope = .ok t') :
    t'.heads = t.heads := by
  obtain ⟨f, hf, -, hget⟩ := Check.attachScope_ok h
  refine List.ext_getElem? fun j => ?_
  rw [heads_getElem?, heads_getElem?, hget]
  split
  · rename_i hj
    rw [hj, hf]
    rfl
  · rfl

theorem listed_apply (t : FunctionTable) (u : Update) :
    (t.apply u).listed = t.listed ++ t.defined u := by
  cases u with
  | define name signature isThread owner =>
    cases h : t.define name signature isThread owner with
    | none => simp [apply, defined, h]
    | some r => simp [apply, defined, h, listed_define h]
  | attachScope function scope =>
    cases h : t.attachScope function scope with
    | error e => simp [apply, defined, h]
    | ok t' => simp [apply, defined, h, listed, heads_attachScope h]
  | bind node function => simp [apply, defined, bind, listed, heads]

/-- Only a function of a new identity is defined. -/
theorem identities_apply (u : Update) (h : (t.listed.map (·.2.identity)).Nodup) :
    ((t.apply u).listed.map (·.2.identity)).Nodup := by
  cases u with
  | define name signature isThread owner =>
    cases hd : t.define name signature isThread owner with
    | none => simpa [listed_apply, defined, hd] using h
    | some r =>
      have hnew := resolveCall_eq_none_iff.1 (define_eq_some_iff.1 hd).1
      rw [listed_apply, defined, hd, List.map_append, List.nodup_append']
      refine ⟨h, List.nodup_singleton _, ?_⟩
      simp only [List.map_cons, List.map_nil, List.disjoint_singleton, List.mem_map,
        not_exists, not_and]
      exact hnew
  | attachScope function scope => simpa [listed_apply, defined] using h
  | bind node function => simpa [listed_apply, defined] using h

/-! ## All updates -/

theorem listed_applyAll (us : List Update) (t : FunctionTable) :
    (t.applyAll us).listed = t.listed ++ t.definitions us := by
  induction us generalizing t with
  | nil => simp [applyAll, definitions]
  | cons u us ih =>
    show ((t.apply u).applyAll us).listed = _
    rw [ih, listed_apply, definitions, List.append_assoc]

theorem identities_applyAll (us : List Update) (h : (t.listed.map (·.2.identity)).Nodup) :
    ((t.applyAll us).listed.map (·.2.identity)).Nodup := by
  induction us generalizing t with
  | nil => exact h
  | cons u us ih => exact ih (identities_apply u h)

/-- A call that means a function means it after any updates. -/
theorem resolveCall_applyAll (us : List Update)
    (h : t.resolveCall name arguments isMethod = some id) :
    (t.applyAll us).resolveCall name arguments isMethod = some id := by
  rw [resolveCall_eq] at h
  obtain ⟨p, hp, rfl⟩ := Option.map_eq_some_iff.1 h
  rw [resolveCall_eq, listed_applyAll, List.find?_append, hp]
  rfl

theorem resolveCall_eq_some_iff (h : (t.listed.map (·.2.identity)).Nodup) :
    t.resolveCall name arguments isMethod = some id ↔
      ∃ f, t.get id = .ok f ∧ f.identity = (name, arguments, isMethod) := by
  rw [resolveCall_eq, Option.map_eq_some_iff]
  constructor
  · rintro ⟨⟨i, f⟩, hfind, rfl⟩
    obtain ⟨g, hg, rfl⟩ := mem_listed.1 (List.mem_of_find?_eq_some hfind)
    have hbeq := List.find?_some hfind
    exact ⟨g, hg, beq_iff_eq.1 hbeq⟩
  · rintro ⟨g, hg, hidentity⟩
    have hmem : (id, { g with scope := none }) ∈ t.listed := mem_listed.2 ⟨g, hg, rfl⟩
    cases hfind : t.listed.find? fun (_, f) => f.identity == (name, arguments, isMethod) with
    | none => exact absurd (beq_iff_eq.2 hidentity) (List.find?_eq_none.1 hfind _ hmem)
    | some p =>
      have hp : p.2.identity = (name, arguments, isMethod) := by simpa using List.find?_some hfind
      obtain rfl := List.inj_on_of_nodup_map h (List.mem_of_find?_eq_some hfind) hmem
        (hp.trans hidentity.symm)
      exact ⟨_, rfl, rfl⟩

/-- **Overload resolution.** Whatever updates are made: at most one function has an identity, and a
call of the identity means this one; a function can be defined exactly if no call means it yet,
whatever its result type is, and a refused definition changes nothing; what a call means once, it
means after any later updates; and the threads and the overloads of a name are the functions that
were defined as such, in the order of their definition. -/
theorem resolveCall_exact (us later : List Update) (name : String) (arguments : List Ty)
    (isMethod : Bool) :
    let t := applyAll {} us
    (∀ i j f g, t.get i = .ok f → t.get j = .ok g → f.identity = (name, arguments, isMethod) →
      g.identity = (name, arguments, isMethod) → i = j) ∧
    (∀ i, t.resolveCall name arguments isMethod = some i ↔
      ∃ f, t.get i = .ok f ∧ f.identity = (name, arguments, isMethod)) ∧
    (∀ result isThread owner,
      ((∃ id t', t.define name ⟨arguments, result, isMethod⟩ isThread owner = some (id, t')) ↔
        t.resolveCall name arguments isMethod = none) ∧
      (t.define name ⟨arguments, result, isMethod⟩ isThread owner = none →
        t.apply (.define name ⟨arguments, result, isMethod⟩ isThread owner) = t) ∧
      ∀ id t', t.define name ⟨arguments, result, isMethod⟩ isThread owner = some (id, t') →
        (t'.applyAll later).resolveCall name arguments isMethod = some id) ∧
    (∀ i, t.resolveCall name arguments isMethod = some i →
      (t.applyAll later).resolveCall name arguments isMethod = some i) ∧
    t.threads = ((definitions {} us).filter fun (_, f) => f.isThread).map (·.1) ∧
    (∀ n, t.overloads n = ((definitions {} us).filter fun (_, f) => f.name == n).map (·.1)) ∧
    t.resolveCall name arguments isMethod = (t.overloads name).find? fun i =>
      (t.get i).toOption.any fun f => f.identity == (name, arguments, isMethod) := by
  intro t
  have hdistinct : (t.listed.map (·.2.identity)).Nodup := identities_applyAll us List.nodup_nil
  have hlisted : t.listed = definitions {} us := listed_applyAll us {}
  refine ⟨fun i j f g hi hj hf hg => ?_, fun i => resolveCall_eq_some_iff hdistinct,
    fun result isThread owner => ?_, fun i => resolveCall_applyAll later,
    by rw [threads_eq, hlisted], fun n => by rw [overloads_eq, hlisted],
    resolveCall_eq_find?_overloads ..⟩
  · exact congrArg Prod.fst (List.inj_on_of_nodup_map hdistinct (mem_listed.2 ⟨f, hi, rfl⟩)
      (mem_listed.2 ⟨g, hj, rfl⟩) (hf.trans hg.symm))
  · refine ⟨?_,
      fun hnone => by simp [apply, hnone], fun id t' hsome => resolveCall_applyAll later ?_⟩
    · simp [define_eq_some_iff]
    · -- The new function is the last of the list and the first of its identity.
      have hnone := resolveCall_eq_none_iff.1 (define_eq_some_iff.1 hsome).1
      rw [resolveCall_eq, listed_define hsome, List.find?_append]
      have hold : t.listed.find? (fun (_, f) => f.identity == (name, arguments, isMethod)) = none :=
        List.find?_eq_none.2 fun p hp => by simpa using hnone p hp
      rw [hold]
      simp [Function.identity]

end FunctionTable

end Awl
