import Awl.Proofs.Addressing
import Awl.Proofs.Listing
import Awl.Proofs.Overloads
import Awl.Proofs.Resolution

/-!
# What is recorded once

A node is bound to one function, a label to one position, and a class has one member scope. A second
attempt is refused in each case, and a label and a class keep what they have
(`Program.label_applyAll`, `TypeRegistry.memberScope?_applyAll`). A table of functions answers that
the node was taken and keeps the new function all the same (`FunctionTable.lookup_applyAll`). A
label also has a name of its own for as long as there is a program (`Program.label_name_inj`).
-/

namespace Awl

/-! ## Functions of nodes -/

namespace FunctionTable

/-- The function that an update would have a node refer to. -/
def Update.binds? (n : NodeId) : Update → Option FunctionId
  | .bind m f => if m = n then some f else none
  | _ => none

theorem bind_fst (t : FunctionTable) (n : NodeId) (f : FunctionId) :
    (t.bind n f).1 = (t.lookup n).isNone := by
  rw [bind, lookup, Std.TreeMap.contains_eq_isSome_getElem?, Option.not_isSome]

theorem lookup_bind (t : FunctionTable) (n m : NodeId) (f : FunctionId) :
    (t.bind n f).2.lookup m = if n = m then some f else t.lookup m := by
  simp only [bind, lookup, Std.TreeMap.getElem?_insert, Std.LawfulEqCmp.compare_eq_iff_eq]

theorem lookup_apply (t : FunctionTable) (u : Update) (n : NodeId) :
    (t.apply u).lookup n = (u.binds? n).or (t.lookup n) := by
  cases u with
  | define name signature isThread owner =>
    cases h : t.define name signature isThread owner with
    | none => simp [apply, h, Update.binds?]
    | some r =>
      obtain ⟨-, -, hr⟩ := define_eq_some_iff.1 h
      simp [apply, h, Update.binds?, hr, lookup]
  | attachScope f scope =>
    cases h : t.attachScope f scope with
    | error e => simp [apply, h, Update.binds?]
    | ok t' => simp [apply, h, Update.binds?, lookup, (Check.attachScope_ok h).choose_spec.2.1]
  | bind m f =>
    rw [apply, lookup_bind, Update.binds?]
    split <;> rfl

/-- A node refers to the function of the last attempt to bind it. -/
theorem lookup_applyAll (us : List Update) (t : FunctionTable) (n : NodeId) :
    (t.applyAll us).lookup n = (us.filterMap (Update.binds? n)).getLast?.or (t.lookup n) := by
  induction us generalizing t with
  | nil => rfl
  | cons u us ih =>
    show ((t.apply u).applyAll us).lookup n = _
    rw [ih, lookup_apply]
    cases hu : u.binds? n with
    | none => simp [hu]
    | some f =>
      cases h : (us.filterMap (Update.binds? n)).getLast? <;> simp [hu, h, List.getLast?_cons]

end FunctionTable

/-! ## Member scopes -/

namespace TypeRegistry

variable {r : TypeRegistry} {c : ClassType} {scope : ScopeId}

inductive Update where
  | defineEnum (name : String) (values : List String)
  | defineClass (name : String)
  | setMemberScope (c : ClassType) (scope : ScopeId)
  | clear

/-- The registry after an update. One that is refused leaves it as it is. -/
def apply (r : TypeRegistry) : Update → TypeRegistry
  | .defineEnum name values =>
    match r.defineEnum name values with
    | .ok (_, r') => r'
    | .error _ => r
  | .defineClass name =>
    match r.defineClass name with
    | .ok (_, r') => r'
    | .error _ => r
  | .setMemberScope c scope =>
    match r.setMemberScope c scope with
    | .ok r' => r'
    | .error _ => r
  | .clear => r.clear

def applyAll (r : TypeRegistry) (us : List Update) : TypeRegistry := us.foldl apply r

theorem setMemberScope_again (h : r.memberScope? c = some scope) (id : ScopeId) :
    r.setMemberScope c id = .error .writtenTwice := by
  rw [setMemberScope, Slots.fetch_eq_ok_iff.2 (Option.join_eq_some_iff.1 h)]
  rfl

theorem memberScope?_apply (h : r.memberScope? c = some scope) (u : Update) :
    (r.apply u).memberScope? c = some scope := by
  cases u with
  | defineEnum name values =>
    cases hd : r.isDefined name <;> simpa [apply, defineEnum, hd, memberScope?] using h
  | defineClass name =>
    cases hd : r.isDefined name with
    | true => simpa [apply, defineClass, hd] using h
    | false =>
      have hne : c.index ≠ r.memberScopes.nextId :=
        Nat.ne_of_lt (Slots.lt_of_get? (Option.join_eq_some_iff.1 h))
      simpa [apply, defineClass, hd, memberScope?, Slots.get?_push, hne] using h
  | setMemberScope c' scope' =>
    cases hr : r.setMemberScope c' scope' with
    | error e => simpa [apply, hr] using h
    | ok r' => simpa [apply, hr] using (Check.setMemberScope_ok hr).2 c scope h
  | clear => exact h

theorem memberScope?_applyAll (us : List Update) (h : r.memberScope? c = some scope) :
    (r.applyAll us).memberScope? c = some scope := by
  induction us generalizing r with
  | nil => exact h
  | cons u us ih => exact ih (memberScope?_apply h u)

end TypeRegistry

/-! ## Labels -/

namespace Machine.Program

variable {p : Program} {l m : LabelId} {e e' : Label}

theorem label_eq_iff : p.label l = .ok e ↔ p.names[l]? = some e.name ∧ p.target? l = e.target := by
  rw [label_eq_ok_iff, names_getElem?, target?]
  cases p.labels.get? l with
  | none => simp
  | some e' => cases e; cases e'; simp

theorem label_applyAll (us : List Update) (h : p.label l = .ok e) (ht : e.target.isSome) :
    (p.applyAll us).label l = .ok e := by
  obtain ⟨hname, htarget⟩ := label_eq_iff.1 h
  refine label_eq_iff.2 ⟨?_, ?_⟩
  · rw [names_applyAll, List.getElem?_append_left (List.getElem?_eq_some_iff.1 hname).1, hname]
  · rw [target?_applyAll, htarget, Option.or_of_isSome ht]

theorem bind_again (h : p.label l = .ok e) (ht : e.target.isSome) (i : InstructionId) :
    p.bind l i = .error (.labelRebound e.name) := by
  rw [bind, h]
  exact if_pos ht

theorem bind_first (h : p.label l = .ok e) (ht : e.target = none) (i : InstructionId) :
    ∃ p', p.bind l i = .ok p' ∧ p'.label l = .ok { e with target := i } := by
  obtain ⟨hname, htarget⟩ := label_eq_iff.1 h
  have hlt : l < p.labels.size := length_names p ▸ (List.getElem?_eq_some_iff.1 hname).1
  obtain ⟨labels, hlabels⟩ := Slots.replace_eq_ok hlt
  have hbind : p.bind l i = .ok { p with labels } := by
    rw [bind, h]
    refine (if_neg (by simp [ht])).trans ?_
    rw [hlabels]
    rfl
  obtain ⟨-, hnames, htargets⟩ := bind_ok hbind
  refine ⟨_, hbind, label_eq_iff.2 ⟨hnames ▸ hname, ?_⟩⟩
  rw [htargets, htarget, ht]
  simp

/-- Two labels of one name are the same: the name ends in the number of the label, behind the last
`_`. -/
theorem created_inj {us : List Update} {l m : LabelId} {name : String}
    (hl : (created us)[l]? = some name) (hm : (created us)[m]? = some name) : l = m := by
  have hends : ∀ k, (created us)[k]? = some name →
      ∃ base, name.toList.reverse = (toString k).toList.reverse ++ '_' :: base := fun k hk => by
    rw [created, List.getElem?_map, List.getElem?_zipIdx] at hk
    obtain ⟨q, hq, rfl⟩ := Option.map_eq_some_iff.1 hk
    obtain ⟨base, -, rfl⟩ := Option.map_eq_some_iff.1 hq
    exact ⟨base.toList.reverse, by simp⟩
  have hdigits : ∀ k : Nat, '_' ∉ (toString k).toList.reverse := fun k hk =>
    absurd (Text.natText_isWord k '_' (List.mem_reverse.1 hk)) (by decide)
  obtain ⟨base, hbase⟩ := hends l hl
  obtain ⟨base', hbase'⟩ := hends m hm
  obtain ⟨heq, -⟩ := Text.append_cons_inj (hdigits l) (hdigits m) (hbase.symm.trans hbase')
  exact Text.natText_inj (List.reverse_injective heq)

/-- **Names of labels.** Whatever updates are made, with any names: two labels have the same full
name exactly if they are the same label. -/
theorem label_name_inj (cores : Nat) (us : List Update)
    (hl : (applyAll { cores } us).label l = .ok e)
    (hm : (applyAll { cores } us).label m = .ok e') : e.name = e'.name ↔ l = m := by
  have hnames : (applyAll { cores } us).names = created us := names_applyAll us { cores }
  have hl' := (label_eq_iff.1 hl).1
  have hm' := (label_eq_iff.1 hm).1
  rw [hnames] at hl' hm'
  constructor
  · intro heq
    exact created_inj hl' (heq ▸ hm')
  · rintro rfl
    exact Option.some.inj (hl'.symm.trans hm')

/-- Names that end like the number of a label. -/
def numberedNames : List Update := [.createLabel "f_1", .createLabel "f", .createLabel "f_1"]

theorem numberedNames_apart :
    (applyAll { cores := 1 } numberedNames).label 0 = .ok { name := "f_1_0" } ∧
    (applyAll { cores := 1 } numberedNames).label 1 = .ok { name := "f_1" } ∧
    ("f_1_0" = "f_1" ↔ (0 : LabelId) = 1) :=
  ⟨by decide,
    by decide, @label_name_inj 0 1 ⟨"f_1_0", none⟩ ⟨"f_1", none⟩ 1 numberedNames (by decide)
    (by decide)⟩

end Machine.Program

/-! ## Second attempts -/

open Machine

/-- **Write-once entries.** Whatever updates are made to the functions, the labels and the classes
of a program: a label with a position cannot be bound, nor can a class with a member scope be given
one, the attempt changes nothing, and what was recorded first is there after any later updates. A
node that refers to a function is refused a second one. It keeps the first for as long as this is
not attempted; the refused function takes its place, and nothing else changes. An entry that has not
been written takes what it is given. -/
theorem written_once (cores : Nat) (fs fs' : List FunctionTable.Update)
    (ls ls' : List Program.Update) (cs cs' : List TypeRegistry.Update) :
    let t := FunctionTable.applyAll {} fs
    let p := Program.applyAll { cores } ls
    let r := TypeRegistry.applyAll {} cs
    (∀ n f, (t.bind n f).1 = (t.lookup n).isNone ∧ (t.bind n f).2.functions = t.functions ∧
      ∀ m, (t.bind n f).2.lookup m = if n = m then some f else t.lookup m) ∧
    (∀ n f, t.lookup n = some f → (∀ u ∈ fs', u.binds? n = none) →
      (t.applyAll fs').lookup n = some f) ∧
    (∀ l e i, p.label l = .ok e →
      (e.target = none → ∃ p', p.bind l i = .ok p' ∧ p'.label l = .ok { e with target := i }) ∧
      (e.target.isSome → p.bind l i = .error (.labelRebound e.name) ∧ p.apply (.bind l i) = p ∧
        (p.applyAll ls').label l = .ok e)) ∧
    ∀ c id, c.index < r.memberScopes.size →
      (r.memberScope? c = none → ∃ r', r.setMemberScope c id = .ok r' ∧
        r'.memberScope? c = some id) ∧
      ∀ scope, r.memberScope? c = some scope → r.setMemberScope c id = .error .writtenTwice ∧
        r.apply (.setMemberScope c id) = r ∧ (r.applyAll cs').memberScope? c = some scope := by
  intro t p r
  refine ⟨fun n f => ⟨?_, rfl, fun m => ?_⟩, fun n f hn hlater => ?_, fun l e i hl =>
    ⟨fun ht => ?_, fun ht => ?_⟩,
    fun c id hc => ⟨fun hnone => ?_, fun scope hscope => ?_⟩⟩
  · exact t.bind_fst n f
  · exact t.lookup_bind n m f
  · rw [FunctionTable.lookup_applyAll, List.filterMap_eq_nil_iff.2 hlater, hn]
    rfl
  · exact Program.bind_first hl ht i
  · have hagain := Program.bind_again hl ht i
    exact ⟨hagain, by rw [Program.apply, hagain], Program.label_applyAll ls' hl ht⟩
  · obtain ⟨old, hold⟩ := Slots.exists_of_lt hc
    obtain rfl : old = none := by simpa [TypeRegistry.memberScope?, hold] using hnone
    obtain ⟨r', hr', -, -, hget⟩ := TypeRegistry.exists_setMemberScope id hold
    exact ⟨r', hr', by simp [TypeRegistry.memberScope?, hget]⟩
  · have hagain := TypeRegistry.setMemberScope_again hscope id
    exact ⟨hagain,
      by rw [TypeRegistry.apply, hagain], TypeRegistry.memberScope?_applyAll cs' hscope⟩

/-- A node is bound to one function and then to another. The second attempt is refused, but the node
does not refer to the first one any more. -/
theorem rebound_node : let t := FunctionTable.applyAll {} [.bind 0 0]
    t.lookup 0 = some 0 ∧ (t.bind 0 1).1 = false ∧ (t.bind 0 1).2.lookup 0 = some 1 := by decide

end Awl
