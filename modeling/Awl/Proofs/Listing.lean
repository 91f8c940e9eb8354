import Awl.CommandLine

/-!
# What a listing says

A listing is a text for a file or for a terminal with colors. A terminal shows a text as it is if
the text has no control characters but line feeds (`shown_of_shows`), and it does not show the
escape sequences around a colored piece (`shown_painted`). So the colored listing without its escape
sequences is the plain one, and comments start at the same column in both (`listing_strips`).
-/

namespace Awl

/-! ## What a terminal shows -/

namespace Text

/-- A character that a terminal executes instead of showing it. -/
def IsControl (c : Char) : Prop := c.toNat < 0x20 ∨ 0x7F ≤ c.toNat ∧ c.toNat ≤ 0x9F

instance (c : Char) : Decidable (IsControl c) := inferInstanceAs (Decidable (_ ∨ _))

/-- A text that reaches the screen as it is. -/
def Shows (cs : List Char) : Prop := ∀ c ∈ cs, c = '\n' ∨ ¬ IsControl c

instance (cs : List Char) : Decidable (Shows cs) := List.decidableBAll _ cs

variable {cs cs' : List Char} {t : Styled}

/-- A text up to the first `a` can be told from what follows. -/
theorem append_cons_inj {a : Char} {rest rest' : List Char} (ha : a ∉ cs) (ha' : a ∉ cs')
    (h : cs ++ a :: rest = cs' ++ a :: rest') : cs = cs' ∧ rest = rest' := by
  induction cs generalizing cs' with
  | nil =>
    cases cs' with
    | nil => exact ⟨rfl, (List.cons.inj h).2⟩
    | cons c cs' => exact absurd (.head _) ((List.cons.inj h).1 ▸ ha')
  | cons c cs ih =>
    cases cs' with
    | nil => exact absurd (.head _) ((List.cons.inj h).1 ▸ ha)
    | cons c' cs' =>
      obtain ⟨rfl, htail⟩ := List.cons.inj h
      obtain ⟨rfl, hrest⟩ := ih (List.not_mem_of_not_mem_cons ha)
        (List.not_mem_of_not_mem_cons ha') htail
      exact ⟨rfl, hrest⟩

/-- Letters and digits. -/
def IsWord (cs : List Char) : Prop := ∀ c ∈ cs, c.isAlphanum = true

instance (cs : List Char) : Decidable (IsWord cs) := List.decidableBAll _ cs

theorem natText_isWord (n : Nat) : IsWord (toString n).toList := by
  intro c hc
  rw [Nat.toString_eq_repr, Nat.toList_repr] at hc
  simp [Char.isAlphanum, Nat.isDigit_of_mem_toDigits (by decide) (by decide) hc]

theorem natText_inj {m n : Nat} (h : (toString m).toList = (toString n).toList) : m = n := by
  simp only [Nat.toString_eq_repr, Nat.toList_repr] at h
  simpa only [Nat.ofDigitChars_ten_toDigits] using congrArg (Nat.ofDigitChars 10 · 0) h

theorem natText_shows (n : Nat) : Shows (toString n).toList := by
  intro c hc
  rw [Nat.toString_eq_repr, Nat.toList_repr] at hc
  have hdigit := Nat.isDigit_of_mem_toDigits (by decide) (by decide) hc
  simp [Char.isDigit, UInt32.le_iff_toNat_le] at hdigit
  refine .inr fun hn => ?_
  unfold IsControl at hn
  omega

theorem shown_of_shows (h : Shows cs) (rest : List Char) :
    shown .ground (cs ++ rest) = cs ++ shown .ground rest := by
  induction cs with
  | nil => rfl
  | cons c cs ih =>
    obtain ⟨hc, hcs⟩ := List.forall_mem_cons.1 h
    have hstate : TerminalState.ground.next c = .ground ∧ TerminalState.ground.output c = [c] := by
      rcases hc with rfl | hc
      · decide
      · simp only [IsControl, TerminalState.next, TerminalState.output] at hc ⊢
        grind
    rw [List.cons_append, shown, hstate.1, hstate.2, ih hcs]
    rfl

theorem strip_of_shows (h : Shows cs) : strip cs = cs := by
  simpa only [strip, shown, List.append_nil] using shown_of_shows h []

theorem shown_start (color : Color) (rest : List Char) :
    shown .ground (color.start ++ rest) = shown .ground rest := by
  cases color <;> rfl

/-- There is no reset inside a text without escape characters. -/
theorem resume_eq_self (color : Color) (h : Shows cs) : color.resume cs = cs := by
  fun_induction Color.resume color cs with
  | case1 cs ih => exact absurd (h '\x1b' (.head _)) (by decide)
  | case2 c cs _ ih => rw [ih fun x hx => h x (.tail _ hx)]
  | case3 => rfl

theorem shown_painted {p : Piece} (h : Shows p.text.toList) (rest : List Char) :
    shown .ground (p.painted ++ rest) = p.text.toList ++ shown .ground rest := by
  cases p with
  | plain s => exact shown_of_shows h rest
  | colored color s =>
    rw [Piece.text] at h ⊢
    rw [Piece.painted, Color.paint, resume_eq_self color h, List.append_assoc, List.append_assoc,
      shown_start, shown_of_shows h]
    rfl

@[simp] theorem shows_append : Shows (cs ++ cs') ↔ Shows cs ∧ Shows cs' := List.forall_mem_append

@[simp] theorem Styled.plainChars_cons (p : Piece) (t : Styled) :
    Styled.plainChars (p :: t) = p.text.toList ++ t.plainChars := rfl

@[simp] theorem Styled.plainChars_append (t t' : Styled) :
    Styled.plainChars (t ++ t') = t.plainChars ++ t'.plainChars := List.flatMap_append

/-- Without its escape sequences, a colored text is the plain one. -/
theorem Styled.strip_paintedChars (h : Shows t.plainChars) :
    strip t.paintedChars = t.plainChars := by
  induction t with
  | nil => rfl
  | cons p t ih =>
    rw [plainChars_cons, shows_append] at h
    exact (shown_painted h.1 _).trans (congrArg (p.text.toList ++ ·) (ih h.2))

/-- The same holds for every style. -/
theorem Styled.strip_render (h : Shows t.plainChars) (style : Style) :
    strip (t.render style).toList = t.plainChars := by
  unfold render
  rw [String.toList_ofList]
  cases style with
  | plain => exact strip_of_shows h
  | color => exact strip_paintedChars h
  | file => rw [strip_paintedChars h, strip_of_shows h]

theorem Styled.shows_flatMap {α : Type} {l : List α} {f : α → Styled}
    (h : ∀ a ∈ l, Shows (f a).plainChars) :
    Shows (Styled.plainChars (l.flatMap f)) := by
  intro c hc
  rw [plainChars, List.flatMap_assoc, List.mem_flatMap] at hc
  obtain ⟨a, ha, hc⟩ := hc
  exact h a ha c hc

end Text

/-! ## Listings -/

namespace Machine

open Text

variable {p : ResolvedProgram}

theorem signedText_shows (v : Int) : Shows (signedText v).toList := by
  unfold signedText
  rw [Int.toString_eq_repr, Int.repr_eq_if]
  have hnat := fun n : Nat => natText_shows n
  split
  · rw [if_neg (by omega)]
    simp +decide only [String.toList_append, shows_append, ← Nat.toString_eq_repr, hnat, and_true]
  · rw [if_pos (by omega)]
    exact hnat _

theorem Operand.shows (o : Operand) : Shows o.styled.plainChars := by
  have hregister : ∀ r : Register, Shows r.text.toList := fun r => by cases r <;> decide
  have hoperator : ∀ op : Operator, Shows op.text.toList := fun op => by cases op <;> decide
  rcases o with r | ⟨v | l⟩ | ⟨a | r⟩ | ⟨l | n | r⟩ | op <;>
    simp +decide only [styled, Register.styled, tagged, labelText, Piece.text,
      Styled.plainChars_cons, Styled.plainChars_append, String.toList_append, shows_append,
      natText_shows, hregister, hoperator, signedText_shows, and_true]

theorem Instruction.shows (i : Instruction) : Shows i.styled.plainChars := by
  rw [styled, Styled.plainChars_cons, shows_append]
  refine ⟨?_, Styled.shows_flatMap fun o _ => ?_⟩
  · cases i.opcode <;> decide
  · rw [Styled.plainChars_cons, shows_append]
    exact ⟨by decide, o.shows⟩

theorem shows_spaces (n : Nat) : Shows (spaces n).toList := by
  intro c hc
  rw [spaces, String.toList_ofList] at hc
  rw [List.eq_of_mem_replicate hc]
  decide

/-- A text is filled up from the width of its own line, in whichever style it is written. -/
theorem padRight_render {t : Styled} (h : Shows t.plainChars) (width : Nat) (style : Style) :
    (padRight width t).render style = t.render style ++
      spaces (width - (strip (t.render style).toList).length) := by
  have hpad : padRight width t = t ++ [.plain (spaces (width - t.plainChars.length))] := by
    rw [padRight, Styled.strip_paintedChars h]
  have hchars : (padRight width t).plainChars =
      t.plainChars ++ (spaces (width - t.plainChars.length)).toList := by
    simp [hpad, Piece.text, Styled.plainChars]
  have hshows : Shows (padRight width t).plainChars := by
    rw [hchars, shows_append]
    exact ⟨h, shows_spaces _⟩
  rw [Styled.strip_render h]
  cases style with
  | plain => simp only [Styled.render, hchars, String.ofList_append, String.ofList_toList]
  | color => simp [Styled.render, hpad, Styled.paintedChars, Piece.painted]
  | file =>
    simp only [Styled.render, Styled.strip_paintedChars hshows, Styled.strip_paintedChars h, hchars,
      String.ofList_append, String.ofList_toList]

theorem lineStart_shows (position : Nat) (i : Instruction) :
    Shows (lineStart position i).plainChars := by
  rw [lineStart, Styled.plainChars_cons, shows_append]
  refine ⟨?_, i.shows⟩
  split <;> decide

theorem positionComment_shows (width position : Nat) (comment : Option String)
    (h : ∀ c, comment = some c → Shows c.toList) :
    Shows (positionComment width position comment).toList := by
  have htext : Shows ("-- " ++ padLeft width (toString position)).toList := by
    simp +decide only [padLeft, String.toList_append, shows_append, shows_spaces, and_true,
      natText_shows]
  unfold positionComment
  cases comment with
  | none => exact htext
  | some c =>
    rw [String.toList_append, String.toList_append, shows_append, shows_append]
    exact ⟨⟨htext, by decide⟩, h c rfl⟩

namespace ResolvedProgram

/-- The names of labels and the comments have no control characters. -/
structure Visible (p : ResolvedProgram) : Prop where
  labels : ∀ position, ∀ name ∈ p.labelsAt position, ∀ c ∈ name.toList, ¬ IsControl c
  comments : ∀ i ∈ p.instructions, ∀ comment, i.comment = some comment →
    ∀ c ∈ comment.toList, ¬ IsControl c

theorem Visible.shows (h : p.Visible) : Shows p.listing.plainChars := by
  simp only [listing, footer, Styled.plainChars_append, shows_append]
  refine ⟨⟨by decide, Styled.shows_flatMap fun ⟨i, position⟩ hi => ?_⟩, ?_⟩
  · rw [Styled.plainChars_append, shows_append]
    refine ⟨Styled.shows_flatMap fun name hname => ?_, ?_⟩
    · have hshows : Shows name.toList := fun c hc => .inr (h.labels position name hname c hc)
      simp +decide only [labelLine, Piece.text, Styled.plainChars_cons, String.toList_append,
        shows_append, hshows, and_true]
    · have hcomment := positionComment_shows (toString p.instructions.length).length
        position i.comment fun comment hc c hmem =>
        .inr (h.comments i (List.fst_mem_of_mem_zipIdx hi) comment hc c hmem)
      simp +decide only [instructionLine, padRight, Piece.text, Styled.plainChars_cons,
        Styled.plainChars_append, shows_append, lineStart_shows, hcomment, shows_spaces, and_true]
  · simp +decide only [Piece.text, Styled.plainChars_cons, String.toList_append, shows_append,
      natText_shows, and_true]

/-- Without its escape sequences the colored listing is the plain one, and a file holds that text
whether or not the screen has colors. In every style, comments start at the same column: the line in
front of a comment is filled up from its own width without escape sequences, and without them it is
the plain line. -/
theorem listing_strips (h : p.Visible) :
    strip (p.listing.render .color).toList = (p.listing.render .plain).toList ∧
    (∀ colors, CommandLine.fileText colors p.listing = p.listing.render .plain) ∧
    ∀ position i style, (padRight commentColumn (lineStart position i)).render style =
        (lineStart position i).render style ++
          spaces (commentColumn - (strip ((lineStart position i).render style).toList).length) ∧
      strip ((lineStart position i).render style).toList =
        ((lineStart position i).render .plain).toList := by
  have hall := Styled.strip_render h.shows
  refine ⟨?_, fun colors => ?_, fun position i style => ?_⟩
  · rw [hall, Styled.render, String.toList_ofList]
  · rw [CommandLine.fileText, hall, Styled.render]
  · have hshows := lineStart_shows position i
    refine ⟨padRight_render hshows _ style, ?_⟩
    rw [Styled.strip_render hshows, Styled.render, String.toList_ofList]

/-- A loop of two instructions. -/
def addLoop : ResolvedProgram where
  instructions := [
    { opcode := .compute
      operands := [.operator .add, .register .a, .register .b]
      comment := some "größer" },
    { opcode := .jump, operands := [.target (.absolute 0)] }]
  labels := (∅ : Std.TreeMap Nat (List String)).insert 0 ["loop_0"]
  cores := 1

theorem addLoop_visible : addLoop.Visible := by
  refine ⟨fun position name hname => ?_, fun i hi comment hc => ?_⟩
  · rw [labelsAt, addLoop, Std.TreeMap.getD_insert] at hname
    split at hname
    · rw [List.mem_singleton.1 hname]
      exact @of_decide_eq_true _ (List.decidableBAll _ _) rfl
    · cases hname
  · simp only [addLoop, List.mem_cons, List.not_mem_nil, or_false] at hi
    rcases hi with rfl | rfl
    · cases hc
      exact @of_decide_eq_true _ (List.decidableBAll _ _) rfl
    · cases hc

theorem addLoop_strips :
    addLoop.Visible ∧ addLoop.listing.render .color ≠ addLoop.listing.render .plain ∧
    strip (addLoop.listing.render .color).toList = (addLoop.listing.render .plain).toList :=
  ⟨addLoop_visible, by decide +kernel, (listing_strips addLoop_visible).1⟩

end ResolvedProgram

end Machine

end Awl
