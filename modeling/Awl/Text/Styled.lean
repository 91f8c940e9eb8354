import Awl.Text.Escapes

/-!
# Styled text

A styled text is a list of pieces, some of them colored. It is rendered in one of three styles:
plain, colored with terminal escape sequences, or as it is written to a file (colored, then
stripped of its escape sequences).
-/

namespace Awl.Text

inductive Color where
  | red | green | yellow | blue | magenta | cyan | white | brightBlack | brightRed | boldRed
  deriving DecidableEq, Repr

/-- The parameters of the escape sequence that selects the color. -/
def Color.code : Color → List Char
  | .red => ['3', '1']
  | .green => ['3', '2']
  | .yellow => ['3', '3']
  | .blue => ['3', '4']
  | .magenta => ['3', '5']
  | .cyan => ['3', '6']
  | .white => ['3', '7']
  | .brightBlack => ['9', '0']
  | .brightRed => ['9', '1']
  | .boldRed => ['1', ';', '3', '1']

/-- Selects a color. -/
def Color.start (c : Color) : List Char := ['\x1b', '['] ++ c.code ++ ['m']

/-- Selects the terminal's own color again. -/
def colorReset : List Char := ['\x1b', '[', '0', 'm']

/-- Selects the color again after every reset inside a colored text. -/
def Color.resume (c : Color) : List Char → List Char
  | '\x1b' :: '[' :: '0' :: 'm' :: cs => colorReset ++ c.start ++ c.resume cs
  | x :: cs => x :: c.resume cs
  | [] => []

/-- The text between the sequences that select the color and the terminal's own. -/
def Color.paint (c : Color) (text : List Char) : List Char :=
  c.start ++ c.resume text ++ colorReset

inductive Piece where
  | plain (text : String)
  | colored (color : Color) (text : String)
  deriving DecidableEq, Repr

def Piece.text : Piece → String
  | .plain t | .colored _ t => t

/-- The characters of a piece on a terminal with colors. -/
def Piece.painted : Piece → List Char
  | .plain t => t.toList
  | .colored c t => c.paint t.toList

inductive Style where
  | plain
  | color
  /-- As a file holds it: the colored text without its escape sequences. -/
  | file
  deriving DecidableEq, Repr

abbrev Styled := List Piece

/-- The characters of the text without any color. -/
def Styled.plainChars (t : Styled) : List Char := t.flatMap fun p => p.text.toList

/-- The characters of the text on a terminal with colors. -/
def Styled.paintedChars (t : Styled) : List Char := t.flatMap Piece.painted

def Styled.render (style : Style) (t : Styled) : String :=
  String.ofList <| match style with
  | .plain => t.plainChars
  | .color => t.paintedChars
  | .file => strip t.paintedChars

end Awl.Text
