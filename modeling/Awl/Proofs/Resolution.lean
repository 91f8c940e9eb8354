import Awl.Proofs.Segments

/-!
# Resolution of labels

An `Update` is a call that may change a program, `created` are the names of the labels that a
sequence of updates creates, and `bound` are the labels that it binds, each with its position. A
later attempt to bind a label is refused, so the position of a label in the end is the one that it
was bound to first (`target?_applyAll`).

`Program.resolve` goes through the labels in the order in which the instructions refer to them, and
fails at the first one without a position (`failure?_resolve`). If there is none, it changes nothing
but the operands that are labels (`resolve_exact`).
-/

namespace Awl.Machine

open Code

variable {γ ε α β : Type} {l : LabelId}

/-! ## The first failure -/

/-- The error of an outcome. -/
def failure? : Except ε α → Option ε
  | .ok _ => none
  | .error e => some e

theorem failure?_eq_some_iff {x : Except ε α} {e : ε} : failure? x = some e ↔ x = .error e := by
  cases x <;> simp [failure?]

theorem failure?_bind_pure (x : Except ε α) (f : α → β) :
    failure? (x >>= fun a => pure (f a)) = failure? x := by
  cases x <;> rfl

theorem failure?_mapM (f : α → Except ε β) (as : List α) :
    failure? (as.mapM f) = as.findSome? fun a => failure? (f a) := by
  induction as with
  | nil => rfl
  | cons a as ih =>
    rw [List.mapM_cons, List.findSome?_cons]
    cases h : f a with
    | error e => rfl
    | ok b =>
      show failure? (as.mapM f >>= fun bs => pure (b :: bs)) = _
      rw [failure?_bind_pure, ih]
      rfl

theorem findSome?_filterMap (f : α → Option β) (g : β → Option γ) (as : List α) :
    (as.filterMap f).findSome? g = as.findSome? fun a => (f a).bind g := by
  induction as with
  | nil => rfl
  | cons a as ih => cases h : f a <;> simp [List.findSome?_cons, h, ih]

theorem findSome?_flatMap (f : α → List β) (g : β → Option γ) (as : List α) :
    (as.flatMap f).findSome? g = as.findSome? fun a => (f a).findSome? g := by
  induction as with
  | nil => rfl
  | cons a as ih =>
    rw [List.flatMap_cons, List.findSome?_append, ih, List.findSome?_cons]
    cases (f a).findSome? g <;> rfl

namespace Program

variable {p p' : Program} {target : InstructionId}

/-- The labels that the instructions refer to, in instruction and operand order. -/
def references (p : Program) : List LabelId := p.instructions.toList.flatMap Instruction.labels

theorem failure?_resolveOperand (p : Program) (o : Operand) :
    failure? (p.resolveOperand o) = o.label?.bind fun l => failure? (p.position l) := by
  rcases o with r | (v | l) | a | (l | n | r) | op
  case immediate.label | target.label => exact failure?_bind_pure ..
  all_goals rfl

/-- A program fails to resolve at the first reference that has no position. -/
theorem failure?_resolve (p : Program) :
    failure? p.resolve = p.references.findSome? fun l => failure? (p.position l) := by
  have hinstruction : ∀ i : Instruction,
      failure? (p.resolveInstruction i) = i.labels.findSome? fun l =>
      failure? (p.position l) := fun i => by
    rw [resolveInstruction, failure?_bind_pure, failure?_mapM, Instruction.labels,
      findSome?_filterMap]
    simp only [failure?_resolveOperand]
  rw [resolve, failure?_bind_pure, failure?_mapM, references, findSome?_flatMap]
  simp only [hinstruction]

theorem label_eq_ok_iff {entry : Label} : p.label l = .ok entry ↔ p.labels.get? l = some entry := by
  rw [label, Slots.fetch]
  cases p.labels.get? l <;> simp [orFault]

theorem failure?_position (h : l < p.labels.size) :
    ∃ entry, p.labels.get? l = some entry ∧ failure? (p.position l) =
      if p.target? l = none then some (.unresolvedLabel entry.name) else none := by
  obtain ⟨⟨name, target⟩, hentry⟩ := Slots.exists_of_lt h
  refine ⟨_, hentry, ?_⟩
  rw [position, label_eq_ok_iff.2 hentry, target?, hentry]
  cases target with
  | none => rfl
  | some n => rfl

/-! ## Sequences of updates -/

inductive Update where
  | push (i : Instruction)
  | createLabel (name : String)
  | bind (l : LabelId) (target : InstructionId)
  | setComment (id : InstructionId) (comment : String)

/-- The program after an update. One that is refused leaves it as it is. -/
def apply (p : Program) : Update → Program
  | .push i => (p.push i).2
  | .createLabel name => (p.createLabel name).2
  | .bind l target =>
    match p.bind l target with
    | .ok p' => p'
    | .error _ => p
  | .setComment id comment =>
    match p.setComment id comment with
    | .ok p' => p'
    | .error _ => p

def applyAll (p : Program) (us : List Update) : Program := us.foldl apply p

/-- The name of the label that an update creates. -/
def Update.created? : Update → Option String
  | .createLabel name => some name
  | _ => none

/-- The labels that a sequence of updates creates, under the names that they are listed with. -/
def created (us : List Update) : List String :=
  (us.filterMap Update.created?).zipIdx.map fun (name, l) => name ++ "_" ++ toString l

/-- The label that an update binds, with its position. -/
def binds (p : Program) : Update → List (LabelId × InstructionId)
  | .bind l target =>
    match p.bind l target with
    | .ok _ => [(l, target)]
    | .error _ => []
  | _ => []

/-- The labels that a sequence of updates binds, in this order. -/
def bound (p : Program) : List Update → List (LabelId × InstructionId)
  | [] => []
  | u :: us => p.binds u ++ (p.apply u).bound us

/-! ## What updates do to labels -/

/-- The names of the labels. -/
def names (p : Program) : List String := p.labels.toList.map (·.name)

theorem names_getElem? (p : Program) (m : LabelId) :
    p.names[m]? = (p.labels.get? m).map (·.name) := by
  simp [names, Slots.toList, Slots.get?]

theorem length_names (p : Program) : p.names.length = p.labels.size := by
  simp [names, Slots.toList, Slots.size]

theorem bind_ok (h : p.bind l target = .ok p') : p'.cores = p.cores ∧ p'.names = p.names ∧
    ∀ m, p'.target? m = (p.target? m).or ([(l, target)].lookup m) := by
  obtain ⟨entry, hentry, h⟩ := except_bind_eq_ok.1 h
  have hget := label_eq_ok_iff.1 hentry
  cases ht : entry.target with
  | some n =>
    rw [ht] at h
    cases h
  | none =>
    rw [ht] at h
    obtain ⟨labels, hr, h⟩ := except_bind_eq_ok.1 h
    cases except_pure_eq_ok.1 h
    cases hreplace : p.labels.replace l { entry with target } with
    | error e =>
      rw [hreplace] at hr
      cases hr
    | ok labels' =>
      rw [hreplace] at hr
      cases hr
      have hall := (Slots.replace_ok hreplace).2.2
      refine ⟨rfl, List.ext_getElem? fun m => ?_, fun m => ?_⟩
      · by_cases hm : m = l
        · simp [names_getElem?, hall, hm, hget]
        · simp [names_getElem?, hall, hm]
      · by_cases hm : m = l
        · simp [target?, hall, hm, hget, ht]
        · simp [target?, hall, hm]

theorem setComment_ok {id : InstructionId} {comment : String}
    (h : p.setComment id comment = .ok p') :
    p'.labels = p.labels ∧ p'.cores = p.cores := by
  obtain ⟨i, -, h⟩ := except_bind_eq_ok.1 h
  obtain ⟨instructions, -, h⟩ := except_bind_eq_ok.1 h
  cases except_pure_eq_ok.1 h
  exact ⟨rfl, rfl⟩

theorem target?_createLabel (p : Program) (name : String) (m : LabelId) :
    (p.createLabel name).2.target? m = p.target? m := by
  simp only [createLabel, target?, Slots.get?_push]
  split
  · rename_i hm
    have hnone : p.labels.get? p.labels.nextId = none :=
      (Slots.get?_eq_none_iff _ _).2 (Nat.le_refl _)
    rw [hm, hnone]
    rfl
  · rfl

/-- An update adds the label that it creates, and the position of the one that it binds. -/
theorem apply_spec (p : Program) (u : Update) : (p.apply u).cores = p.cores ∧ (p.apply u).names =
    p.names ++ (u.created?.map fun name => name ++ "_" ++ toString p.labels.size).toList ∧
    ∀ m, (p.apply u).target? m = (p.target? m).or ((p.binds u).lookup m) := by
  cases u with
  | push i => simp [apply, binds, push, names, target?, Update.created?]
  | createLabel name =>
    refine ⟨rfl, ?_, fun m => by simp [apply, binds, target?_createLabel]⟩
    simp [apply, createLabel, names, Update.created?, Slots.toList, Slots.push, Slots.nextId]
  | setComment id comment =>
    cases h : p.setComment id comment with
    | error e => simp [apply, binds, h, Update.created?]
    | ok p' => simp [apply, binds, h, names, target?, setComment_ok h, Update.created?]
  | bind l target =>
    cases h : p.bind l target with
    | error e => simp [apply, binds, h, Update.created?]
    | ok p' => simp [apply, binds, h, bind_ok h, Update.created?]

/-- The position of a label is the one that it was bound to first. -/
theorem target?_applyAll (us : List Update) (p : Program) (m : LabelId) :
    (p.applyAll us).target? m = (p.target? m).or ((p.bound us).lookup m) := by
  induction us generalizing p with
  | nil => simp [applyAll, bound]
  | cons u us ih =>
    show ((p.apply u).applyAll us).target? m = _
    rw [ih, (p.apply_spec u).2.2, bound, List.lookup_append, Option.or_assoc]

theorem names_applyAll (us : List Update) (p : Program) : (p.applyAll us).names =
    p.names ++ ((us.filterMap Update.created?).zipIdx p.labels.size).map
      fun (name, l) => name ++ "_" ++ toString l := by
  induction us generalizing p with
  | nil => simp [applyAll]
  | cons u us ih =>
    show ((p.apply u).applyAll us).names = _
    have hsize : (p.apply u).labels.size = p.labels.size + u.created?.toList.length := by
      rw [← length_names, (p.apply_spec u).2.1, List.length_append, length_names]
      cases u.created? <;> rfl
    rw [ih, (p.apply_spec u).2.1, hsize]
    cases hu : u.created? with
    | none => simp [hu]
    | some name => simp [hu]

theorem cores_applyAll (us : List Update) (p : Program) : (p.applyAll us).cores = p.cores := by
  induction us generalizing p with
  | nil => rfl
  | cons u us ih => exact (ih _).trans (p.apply_spec u).1

/-! ## Resolved programs -/

/-- An operand of a resolved program, where labels stand for given positions. -/
inductive Resolved (position : LabelId → Option InstructionId) : Operand → Operand → Prop
  | immediate {l : LabelId} {n : InstructionId} : position l = some n →
      Resolved position (.immediate (.label l)) (.immediate (.value (positionValue n)))
  | target {l : LabelId} {n : InstructionId} : position l = some n →
      Resolved position (.target (.label l)) (.target (.absolute n))
  | other {o : Operand} : o.label? = none → Resolved position o o

theorem Resolved.label?_eq_none {position : LabelId → Option InstructionId} {o o' : Operand}
    (h : Resolved position o o') : o'.label? = none := by
  cases h with
  | immediate _ => rfl
  | target _ => rfl
  | other h => exact h

theorem resolveOperand_resolved {o o' : Operand} (h : p.resolveOperand o = .ok o') :
    Resolved p.target? o o' := by
  have hposition : ∀ {l : LabelId} {f : InstructionId → Operand},
      (p.position l >>= fun n => pure (f n) : Except CodeError Operand) = .ok o' →
        ∃ n, p.target? l = some n ∧ o' = f n := fun h => by
    obtain ⟨n, hn, h⟩ := except_bind_eq_ok.1 h
    exact ⟨n, position_eq_ok_iff.1 hn, except_pure_eq_ok.1 h⟩
  rcases o with r | (v | l) | a | (l | n | r) | op
  case immediate.label =>
    obtain ⟨n, hn, rfl⟩ := hposition h
    exact .immediate hn
  case target.label =>
    obtain ⟨n, hn, rfl⟩ := hposition h
    exact .target hn
  all_goals
    cases h
    exact .other rfl

theorem resolve_ok {r : ResolvedProgram} (h : p.resolve = .ok r) :
    r.cores = p.cores ∧ r.labels = p.labelNames ∧
      List.Forall₂ (fun i j => j.opcode = i.opcode ∧ j.comment = i.comment ∧
      List.Forall₂ (Resolved p.target?) i.operands j.operands) p.instructions.toList
      r.instructions := by
  obtain ⟨instructions, hall, h⟩ := except_bind_eq_ok.1 h
  cases except_pure_eq_ok.1 h
  refine ⟨rfl, rfl, (mapM_eq_ok_iff.1 hall).imp fun i j hij => ?_⟩
  obtain ⟨operands, hoperands, hij⟩ := except_bind_eq_ok.1 hij
  cases except_pure_eq_ok.1 hij
  exact ⟨rfl, rfl, (mapM_eq_ok_iff.1 hoperands).imp fun _ _ => resolveOperand_resolved⟩

/-- The names of the labels with a position, in the order of the labels. -/
def namesAt (position : InstructionId) (labels : List Label) : List String :=
  (labels.filter (·.target == some position)).map (·.name)

/-- One more label under the names by position. -/
def addName (names : Std.TreeMap Nat (List String)) (l : Label) : Std.TreeMap Nat (List String) :=
  match l.target with
  | some target => names.insert target (names.getD target [] ++ [l.name])
  | none => names

theorem addName_spec (names : Std.TreeMap Nat (List String)) (l : Label) (position : Nat) :
    (addName names l).getD position [] = names.getD position [] ++ namesAt position [l] ∧
      (position ∈ addName names l ↔ position ∈ names ∨ namesAt position [l] ≠ []) := by
  unfold addName namesAt
  cases ht : l.target with
  | none => simp [ht]
  | some n =>
    simp only [Std.TreeMap.getD_insert]
    by_cases hn : n = position
    · simp [ht, hn]
    · simp [ht, hn]

theorem foldl_addName (labels : List Label) (names : Std.TreeMap Nat (List String))
    (position : Nat) : (labels.foldl addName names).getD position [] =
      names.getD position [] ++ namesAt position labels ∧
      (position ∈ labels.foldl addName names ↔ position ∈ names ∨
        namesAt position labels ≠ []) := by
  induction labels generalizing names with
  | nil => simp [namesAt]
  | cons l labels ih =>
    have hcons : namesAt position (l :: labels) = namesAt position [l] ++
        namesAt position labels := by
      rw [namesAt, namesAt, namesAt, ← List.map_append, ← List.filter_append]
      rfl
    obtain ⟨hgetD, hmem⟩ := addName_spec names l position
    rw [List.foldl_cons, (ih _).1, (ih _).2, hgetD, hmem, hcons]
    simp [or_iff_not_imp_left]

theorem labels_eq (p : Program) :
    p.labels.toList = p.names.zipIdx.map fun (name, l) => { name, target := p.target? l } := by
  refine List.ext_getElem? fun l => ?_
  rw [List.getElem?_map, List.getElem?_zipIdx, names_getElem?,
    show p.labels.toList[l]? = p.labels.get? l from Array.getElem?_toList]
  cases h : p.labels.get? l with
  | none => rfl
  | some entry => simp [target?, h]

/-- A label stands at its position under its name. -/
theorem namesAt_labels (p : Program) (position : InstructionId) : namesAt position p.labels.toList =
    (p.names.zipIdx.filter fun (_, l) => p.target? l == some position).map (·.1) := by
  rw [labels_eq, namesAt, List.filter_map, List.map_map]
  rfl

theorem positionValue_of_le {n : Nat} (h : 2147483648 ≤ n) (h' : n < 4294967296) :
    positionValue n = n - 4294967296 := by
  unfold positionValue
  have hmod := Int.bmod_def n 4294967296
  split at hmod <;> omega

/-- **Resolution of labels.** Let a program be the outcome of some updates, and let its instructions
refer only to labels that were created. It fails to resolve exactly if some reference is to a label
that was never bound, and then the error names the first such one. Otherwise all that changes are
the labels among the operands: each becomes the position that the label was bound to first, as a
target the position itself and as an immediate its signed word of 32 bits. The names at a position
are those of the labels bound to it, in the order of their creation. -/
theorem resolve_exact (cores : Nat) (us : List Update)
    (h : ∀ l ∈ (applyAll { cores } us).references, l < (created us).length) :
    let p := applyAll { cores } us
    let position := fun l => (bound { cores } us).lookup l
    ((∃ e, p.resolve = .error e) ↔ ∃ l ∈ p.references, position l = none) ∧
    (∀ l, p.references.find? (fun l => (position l).isNone) = some l →
      ∃ name, (created us)[l]? = some name ∧ p.resolve = .error (.unresolvedLabel name)) ∧
    (∀ r, p.resolve = .ok r →
      r.cores = cores ∧ r.instructions.length = p.size ∧
      List.Forall₂ (fun i j => j.opcode = i.opcode ∧ j.comment = i.comment ∧
        List.Forall₂ (Resolved position) i.operands j.operands) p.instructions.toList
        r.instructions ∧
      (∀ j ∈ r.instructions, j.labels = []) ∧
      ∀ n, r.labels.getD n [] = ((created us).zipIdx.filter fun (_, l) => position l == some n).map
        (·.1) ∧
        (n ∈ r.labels ↔ r.labels.getD n [] ≠ [])) ∧
    ∀ n, (n < 2147483648 → positionValue n = n) ∧
      (2147483648 ≤ n → n < 4294967296 → positionValue n = n - 4294967296) := by
  intro p position
  have hnames : p.names = created us := names_applyAll us { cores }
  have htarget : p.target? = position := funext fun l => target?_applyAll us { cores } l
  have hsize : (created us).length = p.labels.size := by rw [← hnames, length_names]
  have hposition : ∀ l ∈ p.references, ∃ name, (created us)[l]? = some name ∧
      failure? (p.position l) =
      if position l = none then some (.unresolvedLabel name) else none := fun l hl => by
    obtain ⟨entry, hentry, hfail⟩ := failure?_position (hsize ▸ h l hl)
    rw [htarget] at hfail
    exact ⟨entry.name, by rw [← hnames, names_getElem?, hentry]; rfl, hfail⟩
  refine ⟨?_, fun l hl => ?_, fun r hr => ?_, fun n => ⟨positionValue_of_lt, positionValue_of_le⟩⟩
  · rw [show (∃ e, p.resolve = .error e) ↔ (failure? p.resolve).isSome by
      simp only [Option.isSome_iff_exists, failure?_eq_some_iff], failure?_resolve,
        List.findSome?_isSome_iff]
    refine exists_congr fun l => and_congr_right fun hl => ?_
    obtain ⟨name, -, hfail⟩ := hposition l hl
    rw [hfail]
    split <;> simp_all
  · obtain ⟨hunbound, before, after, hsplit, hbefore⟩ := List.find?_eq_some_iff_append.1 hl
    obtain ⟨name, hname, hfail⟩ := hposition l (by rw [hsplit]; simp)
    refine ⟨name, hname, failure?_eq_some_iff.1 ?_⟩
    have hnone : before.findSome? (fun l => failure? (p.position l)) = none := by
      refine List.findSome?_eq_none_iff.2 fun m hm => ?_
      obtain ⟨_, -, hfail⟩ := hposition m (by rw [hsplit]; simp [hm])
      rw [hfail, if_neg]
      simpa [Option.isSome_iff_ne_none] using hbefore m hm
    rw [failure?_resolve, hsplit, List.findSome?_append, hnone, Option.none_or, List.findSome?_cons,
      hfail, if_pos (Option.isNone_iff_eq_none.1 hunbound)]
  · obtain ⟨hcores, hlabels, hall⟩ := resolve_ok hr
    rw [htarget] at hall
    refine ⟨hcores.trans (cores_applyAll us { cores }),
      hall.length_eq.symm.trans Array.length_toList, hall,
      fun j hj => ?_, fun n => ?_⟩
    · obtain ⟨i, -, -, -, hij⟩ := forall₂_mem_right hall hj
      refine List.filterMap_eq_nil_iff.2 fun o ho => ?_
      obtain ⟨_, -, hresolved⟩ := forall₂_mem_right hij ho
      exact hresolved.label?_eq_none
    · obtain ⟨hgetD, hmem⟩ : r.labels.getD n [] = namesAt n p.labels.toList ∧
          (n ∈ r.labels ↔ namesAt n p.labels.toList ≠ []) := by
        rw [hlabels]
        exact (foldl_addName p.labels.toList {} n).imp (·.trans (by simp)) (·.trans (by simp))
      exact ⟨by rw [hgetD, namesAt_labels, hnames, htarget], hgetD ▸ hmem⟩

/-- A jump forward and a jump back, an attempt to bind the first label once more, and two labels at
one position, one of them without a reference. -/
def crossedJumps : List Update := [
  .createLabel "start", .createLabel "end", .bind 0 0, .push { opcode := .nop, operands := [] },
  .push { opcode := .const, operands := [.immediate (.label 1), .register .a] },
  .push { opcode := .jump, operands := [.target (.label 1)] },
  .push { opcode := .jump, operands := [.target (.label 0)] },
  .bind 0 3, .createLabel "unused", .bind 2 4, .bind 1 4, .setComment 0 "first"]

theorem crossedJumps_resolved : (∀ l ∈ (applyAll { cores := 2 } crossedJumps).references, l < 3) ∧
    ∃ r, (applyAll { cores := 2 } crossedJumps).resolve = .ok r ∧ r.cores = 2 ∧
      r.instructions.length = 4 ∧
      (∀ j ∈ r.instructions, j.labels = []) ∧ r.labels.getD 4 [] = ["end_1", "unused_2"] := by
  have hcreated : ∀ l ∈ (applyAll { cores := 2 } crossedJumps).references,
      l < (created crossedJumps).length := by
    decide
  obtain ⟨hfails, -, hok, -⟩ := resolve_exact 2 crossedJumps hcreated
  refine ⟨hcreated, ?_⟩
  cases hr : (applyAll { cores := 2 } crossedJumps).resolve with
  | error e => exact absurd (hfails.1 ⟨e, hr⟩) (by decide)
  | ok r =>
    obtain ⟨hcores, hsize, -, hnone, hnames⟩ := hok r hr
    exact ⟨r, rfl, hcores, hsize, hnone, (hnames 4).1.trans (by decide)⟩

/-- A label for a position beyond the signed words. -/
def farLabel : List Update := [
  .createLabel "far", .bind 0 2147483648,
  .push { opcode := .const, operands := [.immediate (.label 0), .register .a] }]

/-- The immediate is not the position that its label was bound to. -/
theorem farLabel_not_position : (bound { cores := 1 } farLabel).lookup 0 = some 2147483648 ∧
    ∃ r, (applyAll { cores := 1 } farLabel).resolve = .ok r ∧
      r.instructions.map (·.operands) = [[.immediate (.value (-2147483648)), .register .a]] := by
  refine ⟨by decide, ?_⟩
  have hview : (applyAll { cores := 1 } farLabel).resolve.toOption.map
    (·.instructions.map (·.operands)) =
      some [[.immediate (.value (-2147483648)), .register .a]] := by decide
  cases hr : (applyAll { cores := 1 } farLabel).resolve with
  | error e =>
    rw [hr] at hview
    cases hview
  | ok r =>
    rw [hr] at hview
    exact ⟨r, rfl, Option.some.inj hview⟩

end Program

end Awl.Machine
