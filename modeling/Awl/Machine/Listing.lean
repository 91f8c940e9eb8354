import Awl.Machine.Program
import Awl.Text.Styled

/-!
# Listings

A program in the form that the machine's simulator reads: one instruction per line, with label
names, positions and descriptions as comments.
-/

namespace Awl.Machine

open Text (Styled)

/-- The number of a label that has no position yet. -/
def labelText (l : LabelId) : String := "LabelId(" ++ toString l ++ ")"

/-- A negative number stands in parentheses. -/
def signedText (v : Int) : String := if v < 0 then "(" ++ toString v ++ ")" else toString v

def Register.styled (r : Register) : Styled := [.colored .yellow r.text]

/-- An operand in parentheses, with the word that says what it is. -/
def tagged (tag : String) (operand : Styled) : Styled :=
  [.plain "(", .colored .green tag, .plain " "] ++ operand ++ [.plain ")"]

def Operand.styled : Operand → Styled
  | .register r => r.styled
  | .immediate (.value v) => [.plain (signedText v)]
  | .immediate (.label l) | .target (.label l) => [.colored .brightRed (labelText l)]
  | .address (.direct a) => tagged "DirAddr" [.plain (toString a)]
  | .address (.indirect r) => tagged "IndAddr" r.styled
  | .target (.absolute n) => tagged "Abs" [.plain (toString n)]
  | .target (.indirect r) => tagged "Ind" r.styled
  | .operator o => [.plain o.text]

/-- The operands as they are listed: `compute` always shows where its result goes. -/
def Instruction.listedOperands (i : Instruction) : List Operand :=
  match i.opcode, i.operands with
  | .compute, [operator, left, right] => [operator, left, right, right]
  | _, operands => operands

def Instruction.styled (i : Instruction) : Styled :=
  .colored .cyan i.opcode.text :: i.listedOperands.flatMap fun o => .plain " " :: o.styled

/-- The column from which comments are written. -/
def commentColumn : Nat := 48

def spaces (n : Nat) : String := String.ofList (List.replicate n ' ')

def padLeft (width : Nat) (text : String) : String := spaces (width - text.length) ++ text

/-- Fills a text up to a width. What counts are the characters that a terminal shows. -/
def padRight (width : Nat) (t : Styled) : Styled :=
  t ++ [.plain (spaces (width - (Text.strip t.paintedChars).length))]

def labelLine (name : String) : Styled :=
  [.plain "    ", .colored .brightRed ("-- " ++ name ++ ":"), .plain "\n"]

/-- The comment of an instruction. Positions are aligned at a width. -/
def positionComment (width position : Nat) (comment : Option String) : String :=
  let text := "-- " ++ padLeft width (toString position)
  match comment with
  | some c => text ++ ": " ++ c
  | none => text

/-- The line of an instruction up to its comment. -/
def lineStart (position : Nat) (i : Instruction) : Styled :=
  .plain (if position = 0 then "    " else "  , ") :: i.styled

def instructionLine (width position : Nat) (i : Instruction) : Styled :=
  padRight commentColumn (lineStart position i)
    ++ [.plain " ", .colored .brightBlack (positionComment width position i.comment), .plain "\n"]

namespace ResolvedProgram

/-- The names of the labels at a position. -/
def labelsAt (p : ResolvedProgram) (position : Nat) : List String := p.labels.getD position []

def header : Styled := [
  .colored .magenta "import Sprockell", .plain "\n\n",
  .colored .blue "prog", .plain " :: [", .colored .green "Instruction", .plain "]\n",
  .colored .blue "prog", .plain " = [\n"]

def footer (cores : Nat) : Styled := [
  .plain "  ]\n\n",
  .colored .blue "main", .plain " = run (", .colored .blue "replicate",
  .plain (" " ++ toString cores ++ " "), .colored .blue "prog", .plain ")\n"]

/-- The lines of all instructions, with the labels of each in front of it. -/
def body (p : ResolvedProgram) : Styled :=
  let width := (toString p.instructions.length).length
  p.instructions.zipIdx.flatMap fun (i, position) =>
    (p.labelsAt position).flatMap labelLine ++ instructionLine width position i

def listing (p : ResolvedProgram) : Styled := header ++ p.body ++ footer p.cores

end ResolvedProgram

end Awl.Machine
