import Awl.Proofs.Listing

/-!
# Reading a listing back

The plain listing of a program determines it (`ResolvedProgram.listing_injective`). A listing
consists of words and lines. A word ends at the first character that is neither a letter nor a
digit, and a line ends at the first line feed, so that the text up to there can be told from what
follows.
-/

namespace Awl

namespace Text

variable {α : Type} {text : α → String} {a : Char} {x y : α} {rest rest' : List Char}

/-- The texts of values are words, a different one for each of them. -/
structure Spells (text : α → String) : Prop where
  word : ∀ x, IsWord (text x).toList
  inj : ∀ x y, (text x).toList = (text y).toList → x = y

theorem Spells.not_mem (h : Spells text) (ha : a.isAlphanum = false) (x : α) :
    a ∉ (text x).toList := fun hmem =>
  absurd ((h.word x a hmem).symm.trans ha) nofun

/-- A word can be told from what follows. -/
theorem Spells.told (h : Spells text) (ha : a.isAlphanum = false)
    (heq : (text x).toList ++ a :: rest = (text y).toList ++ a :: rest') : x = y ∧ rest = rest' :=
  (append_cons_inj (h.not_mem ha x) (h.not_mem ha y) heq).imp_left (h.inj x y)

theorem nat_spells : Spells (toString : Nat → String) := ⟨natText_isWord, fun _ _ => natText_inj⟩

theorem Styled.plainChars_singleton (p : Piece) : Styled.plainChars [p] = p.text.toList :=
  List.append_nil _

end Text

namespace Machine

open Text

theorem OpCode.spells : Spells OpCode.text := by
  refine ⟨fun op => by cases op <;> decide, fun op op' h => ?_⟩
  cases op <;> cases op' <;> first | rfl | exact absurd h (by decide)

theorem Register.spells : Spells Register.text := by
  refine ⟨fun r => by cases r <;> decide, fun r r' h => ?_⟩
  cases r <;> cases r' <;> first | rfl | exact absurd h (by decide)

theorem Operator.spells : Spells Operator.text := by
  refine ⟨fun op => by cases op <;> decide, fun op op' h => ?_⟩
  cases op <;> cases op' <;> first | rfl | exact absurd h (by decide)

theorem signedText_toList (v : Int) : (signedText v).toList =
    if v < 0 then "(-".toList ++ ((toString (-v).toNat).toList ++ [')']) else
    (toString v.toNat).toList := by
  unfold signedText
  rw [Int.toString_eq_repr, Int.repr_eq_if]
  split
  · rw [if_neg (by omega)]
    simp
  · rw [if_pos (by omega)]
    rfl

section

variable {i i' : Instruction} {o o' : Operand} {os os' : List Operand} {rest rest' : List Char}
  {w w' k : Nat}

/-- A constant ends at the next blank. -/
theorem signedText_inj {v v' : Int}
    (h : (signedText v).toList ++ ' ' :: rest = (signedText v').toList ++ ' ' :: rest') :
    v = v' ∧ rest = rest' := by
  have hblank : ∀ v, ' ' ∉ (signedText v).toList := fun v => by
    rw [signedText_toList]
    split <;> simp +decide [nat_spells.not_mem, -Nat.toString_eq_repr]
  have hneg : ∀ v, '(' ∈ (signedText v).toList ↔ v < 0 := fun v => by
    rw [signedText_toList]
    split <;> simp +decide [nat_spells.not_mem, *, -Nat.toString_eq_repr]
  obtain ⟨heq, hrest⟩ := append_cons_inj (hblank v) (hblank v') h
  have hsign : v < 0 ↔ v' < 0 := by rw [← hneg, heq, hneg]
  refine ⟨?_, hrest⟩
  rw [signedText_toList, signedText_toList] at heq
  by_cases hv : v < 0
  · rw [if_pos hv, if_pos (hsign.1 hv), List.append_cancel_left_eq,
      List.append_cancel_right_eq] at heq
    have := natText_inj heq
    omega
  · rw [if_neg hv, if_neg (mt hsign.2 hv)] at heq
    have := natText_inj heq
    omega

theorem tagged_inj {tag tag' : String} {p p' : Piece} (hword : ' ' ∉ tag.toList)
    (hword' : ' ' ∉ tag'.toList)
    (h : (tagged tag [p]).plainChars ++ rest = (tagged tag' [p']).plainChars ++ rest') :
    tag.toList = tag'.toList ∧ p.text.toList ++ ')' :: rest = p'.text.toList ++ ')' :: rest' := by
  have hchars : ∀ (tag : String) (p : Piece) (rest : List Char),
      (tagged tag [p]).plainChars ++ rest =
      '(' :: (tag.toList ++ ' ' :: (p.text.toList ++ ')' :: rest)) := fun tag p rest => by
    simp [tagged, Piece.text, Styled.plainChars]
  rw [hchars, hchars] at h
  exact append_cons_inj hword hword' (List.cons.inj h).2

/-- Operands of one kind that refer to no label can be told from what follows. -/
theorem Operand.styled_inj (hkind : o.kind = o'.kind) (hl : o.label? = none)
    (hl' : o'.label? = none)
    (h : o.styled.plainChars ++ ' ' :: rest = o'.styled.plainChars ++ ' ' :: rest') :
    o = o' ∧ rest = rest' := by
  rcases o with r | ⟨v | l⟩ | ⟨a | r⟩ | ⟨l | n | r⟩ | op <;>
    rcases o' with r' | ⟨v' | l'⟩ | ⟨a' | r'⟩ | ⟨l' | n' | r'⟩ | op' <;>
    first | (cases hkind; done) | (cases hl; done) | (cases hl'; done) |
      simp only [styled, Register.styled, Styled.plainChars_singleton] at h
  case register.register => exact (Register.spells.told rfl h).imp_left (congrArg _)
  case immediate.value.immediate.value =>
    exact (signedText_inj h).imp_left (congrArg (immediate <| .value ·))
  case operator.operator => exact (Operator.spells.told rfl h).imp_left (congrArg _)
  -- An address or a target stands in parentheses, with a word that says which one it is.
  all_goals
    obtain ⟨htag, h⟩ := tagged_inj (by decide) (by decide) h
    first | exact absurd htag (by decide) | skip
  all_goals have hblank : ' ' :: rest = ' ' :: rest' → rest = rest' := fun h => (List.cons.inj h).2
  case address.direct.address.direct =>
    exact (nat_spells.told rfl h).imp (congrArg (address <| .direct ·)) hblank
  case address.indirect.address.indirect =>
    exact (Register.spells.told rfl h).imp (congrArg (address <| .indirect ·)) hblank
  case target.absolute.target.absolute =>
    exact (nat_spells.told rfl h).imp (congrArg (target <| .absolute ·)) hblank
  case target.indirect.target.indirect =>
    exact (Register.spells.told rfl h).imp (congrArg (target <| .indirect ·)) hblank

/-- The blank in front of an operand, or in front of what follows the last one. -/
theorem operands_blank (os : List Operand) (rest : List Char) :
    ∃ cs, (os.flatMap fun o => ' ' :: o.styled.plainChars) ++ ' ' :: rest = ' ' :: cs := by
  cases os <;> exact ⟨_, rfl⟩

theorem operands_inj (hkinds : os.map Operand.kind = os'.map Operand.kind)
    (hl : ∀ o ∈ os, o.label? = none) (hl' : ∀ o ∈ os', o.label? = none)
    (h : (os.flatMap fun o => ' ' :: o.styled.plainChars) ++ ' ' :: rest =
      (os'.flatMap fun o => ' ' :: o.styled.plainChars) ++ ' ' :: rest') :
      os = os' ∧ rest = rest' := by
  induction os generalizing os' with
  | nil =>
    obtain rfl := List.map_eq_nil_iff.1 hkinds.symm
    exact ⟨rfl, (List.cons.inj h).2⟩
  | cons o os ih =>
    cases os' with
    | nil => cases hkinds
    | cons o' os' =>
      obtain ⟨hkind, hkinds'⟩ := List.cons.inj hkinds
      obtain ⟨ho, hos⟩ := List.forall_mem_cons.1 hl
      obtain ⟨ho', hos'⟩ := List.forall_mem_cons.1 hl'
      obtain ⟨cs, hcs⟩ := operands_blank os rest
      obtain ⟨cs', hcs'⟩ := operands_blank os' rest'
      simp only [List.flatMap_cons, List.cons_append, List.append_assoc, hcs, hcs', List.cons.injEq,
        true_and] at h
      obtain ⟨rfl, rfl⟩ := Operand.styled_inj hkind ho ho' h
      obtain ⟨rfl, hrest⟩ := ih hkinds' hos hos' (hcs.trans hcs'.symm)
      exact ⟨rfl, hrest⟩

/-- An instruction that the instruction set has, without labels and with a comment on one line. -/
structure Instruction.Listable (i : Instruction) : Prop where
  built : Instruction.make i.opcode i.operands = .ok { i with comment := none }
  resolved : i.labels = []
  oneLine : ∀ comment, i.comment = some comment → '\n' ∉ comment.toList

theorem Instruction.Listable.kinds (h : i.Listable) :
    i.listedOperands.map Operand.kind = i.opcode.operands := by
  have htakes : i.opcode.takes (i.operands.map Operand.kind) = true := by
    refine Decidable.byContradiction fun hno => ?_
    have hbuilt := h.built
    rw [make, if_neg hno] at hbuilt
    cases hbuilt
  simp only [OpCode.takes, Bool.and_eq_true, decide_eq_true_eq, List.isPrefixOf_iff_prefix,
    List.length_map] at htakes
  obtain ⟨hlength, hkinds⟩ := htakes
  unfold listedOperands
  split
  · rename_i operator left right hop hos
    rw [hop, hos] at hkinds
    simp_all [OpCode.operands]
  · rename_i hshort
    refine hkinds.eq_of_length_le ?_
    rw [List.length_map]
    refine Decidable.byContradiction fun hlt => ?_
    cases hop : i.opcode with
    | compute =>
      rw [hop] at hlength hlt
      simp only [OpCode.required, OpCode.operands, List.length] at hlength hlt
      match hos : i.operands with
      | [] | [_] | [_, _] | _ :: _ :: _ :: _ :: _ => simp [hos] at hlength hlt
      | [operator, left, right] => exact hshort operator left right hop hos
    | _ =>
      rw [hop] at hlength hlt
      exact hlt hlength

theorem Instruction.Listable.label? (h : i.Listable) : ∀ o ∈ i.listedOperands, o.label? = none := by
  have hl := List.filterMap_eq_nil_iff.1 h.resolved
  unfold listedOperands
  split
  · rename_i operator left right _ hos
    rw [hos] at hl
    simpa using hl
  · exact hl

theorem Instruction.styled_toList (i : Instruction) : i.styled.plainChars =
    i.opcode.text.toList ++ i.listedOperands.flatMap fun o => ' ' :: o.styled.plainChars := by
  rw [styled, Styled.plainChars_cons, Styled.plainChars, List.flatMap_assoc]
  rfl

theorem Instruction.styled_inj (hi : i.Listable) (hi' : i'.Listable)
    (h : i.styled.plainChars ++ ' ' :: rest = i'.styled.plainChars ++ ' ' :: rest') :
    i.opcode = i'.opcode ∧ i.listedOperands = i'.listedOperands ∧ rest = rest' := by
  rw [styled_toList, styled_toList, List.append_assoc, List.append_assoc] at h
  obtain ⟨cs, hcs⟩ := operands_blank i.listedOperands rest
  obtain ⟨cs', hcs'⟩ := operands_blank i'.listedOperands rest'
  rw [hcs, hcs'] at h
  obtain ⟨hop, hrest⟩ := OpCode.spells.told rfl h
  refine ⟨hop, operands_inj ?_ hi.label? hi'.label? (by rw [hcs, hcs', hrest])⟩
  rw [hi.kinds, hi'.kinds, hop]

namespace ResolvedProgram

variable {p q : ResolvedProgram} {l l' : List Instruction}

/-- A program of instructions that can be listed. A name of a label is on one line, and labels stand
at positions of instructions only. -/
structure Listable (p : ResolvedProgram) : Prop where
  instructions : ∀ i ∈ p.instructions, i.Listable
  oneLine : ∀ position, ∀ name ∈ p.labelsAt position, '\n' ∉ name.toList
  placed : ∀ position names, p.labels[position]? = some names →
    position < p.instructions.length ∧ names ≠ []

end ResolvedProgram

end

end Machine

end Awl
