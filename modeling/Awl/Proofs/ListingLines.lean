import Awl.Proofs.ReadingBack

/-!
# The lines of a listing

A listing has one line for each instruction and for each label, and seven others, if no name of a
label and no comment spreads over several lines (`ResolvedProgram.listing_count`). They have names
of the unit in them as they are, and what follows a line feed in such a name is read as code.
-/

namespace Awl

namespace Text

theorem count_lines (lines : List (List Char)) : (lines.flatMap (· ++ ['\n'])).count '\n' =
    lines.length + lines.flatten.count '\n' := by
  induction lines with
  | nil => rfl
  | cons line lines ih =>
    simp only [List.flatMap_cons, List.flatten_cons, List.count_append, ih, List.length_cons,
      List.count_singleton_self]
    omega

end Text

namespace Machine

open Text

/-- The line of a label. -/
def labelComment (name : String) : String := "    -- " ++ (name ++ ":")

/-- The line of an instruction. -/
def codeLine (width position : Nat) (i : Instruction) : List Char :=
  (padRight commentColumn (lineStart position i)).plainChars ++
    ' ' :: (positionComment width position i.comment).toList

namespace ResolvedProgram

/-- The number of labels in front of instructions. -/
def labelCount (p : ResolvedProgram) : Nat :=
  ((List.range p.instructions.length).flatMap p.labelsAt).length

/-- The lines of the instructions and their labels. -/
def bodyLines (p : ResolvedProgram) : List (List Char) :=
  p.instructions.zipIdx.flatMap fun (i, position) =>
    (p.labelsAt position).map (labelComment · |>.toList) ++
    [codeLine (toString p.instructions.length).length position i]

/-- All lines. -/
def lines (p : ResolvedProgram) : List (List Char) :=
  ["import Sprockell", "", "prog :: [Instruction]", "prog = ["].map String.toList ++ p.bodyLines ++
    ["  ]", "", "main = run (replicate " ++ toString p.cores ++ " prog)"].map String.toList

theorem bodyLines_text (p : ResolvedProgram) :
    p.body.plainChars = p.bodyLines.flatMap (· ++ ['\n']) := by
  rw [body, bodyLines, Styled.plainChars, List.flatMap_assoc, List.flatMap_assoc]
  refine congrArg (List.flatMap · _) (funext fun x => ?_)
  obtain ⟨i, position⟩ := x
  rw [List.flatMap_append, List.flatMap_append, List.flatMap_assoc, List.flatMap_map]
  simp [labelLine, labelComment, instructionLine, codeLine, Styled.plainChars, Piece.text]

theorem listing_text (p : ResolvedProgram) :
    (p.listing.render .plain).toList = p.lines.flatMap (· ++ ['\n']) := by
  rw [Styled.render, String.toList_ofList, listing, Styled.plainChars_append,
    Styled.plainChars_append, bodyLines_text, lines, List.flatMap_append, List.flatMap_append]
  simp [header, footer, Styled.plainChars, Piece.text]

theorem lines_length (p : ResolvedProgram) :
    p.lines.length = 7 + p.instructions.length + p.labelCount := by
  have hbody : p.bodyLines.length = p.instructions.length + p.labelCount := by
    rw [labelCount, List.range_eq_range', bodyLines]
    generalize (toString p.instructions.length).length = w
    generalize p.instructions = l, 0 = k
    induction l generalizing k with
    | nil => rfl
    | cons i l ih =>
      simp only [List.zipIdx_cons, List.flatMap_cons, List.length_append, List.length_map,
        List.length_cons, ih, List.range'_succ, List.length_nil]
      omega
  simp only [lines, List.length_append, List.length_map, List.length_cons, List.length_nil, hbody]
  omega

/-- Every line but those of label names and comments with a line feed in them is one line. -/
theorem listing_count (p : ResolvedProgram) : (p.listing.render .plain).toList.count '\n' =
    7 + p.instructions.length + p.labelCount + p.lines.flatten.count '\n' := by
  rw [listing_text, count_lines, lines_length]

/-- A variable with a line feed in its name. What follows it is read as an instruction. -/
def brokenName : SourceUnit :=
  { statements := [.declaration 0 ⟨1, .int, "a\n  , EndProg", none⟩] }

theorem brokenName_lines : ¬ ∀ p, brokenName.compile {} = .ok p →
    (p.listing.render .plain).toList.count '\n' = 7 + p.instructions.length + p.labelCount := by
  intro hall
  have h : ((brokenName.compile {}).toOption.bind fun p => p.instructions[7]?.bind (·.comment)) =
      some "declare a\n  , EndProg" := by decide +kernel
  cases hr : brokenName.compile {} with
  | error e =>
    rw [hr] at h
    cases h
  | ok p =>
    rw [hr] at h
    obtain ⟨i, hi, hcomment⟩ := Option.bind_eq_some_iff.1
      (show p.instructions[7]?.bind _ = _ from h)
    have hcount := hall p hr
    rw [listing_count, Nat.add_eq_left, List.count_eq_zero] at hcount
    have hline : codeLine (toString p.instructions.length).length 7 i ∈ p.lines :=
      List.mem_append_left _ (List.mem_append_right _ (List.mem_flatMap.2
        ⟨(i, 7), List.mk_mem_zipIdx_iff_getElem?.2 hi, List.mem_append_right _ (.head _)⟩))
    refine hcount (List.mem_flatten.2 ⟨_, hline, List.mem_append_right _ (.tail _ ?_)⟩)
    rw [hcomment, positionComment, String.toList_append]
    exact List.mem_append_right _ (by decide)

end ResolvedProgram

end Machine

end Awl
