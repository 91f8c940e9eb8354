/-!
# Terminal escape sequences

`strip` removes escape sequences from a text the way a terminal reads them: an escape character
opens a sequence, the characters after it belong to the sequence until its final character, and
control characters are executed instead of shown. What is left are the characters a terminal would
show, and the line feeds.

A device control string is read byte by byte, and the byte of the string terminator ends it also in
the middle of a character. The bytes of that character that are left over stand alone.
-/

namespace Awl.Text

/-- Where a terminal stands between two characters. -/
inductive TerminalState where
  /-- Outside of any sequence: characters are shown. -/
  | ground
  | escape
  | escapeIntermediate
  /-- After `ESC [`: a control sequence. -/
  | csiEntry
  | csiParam
  | csiIntermediate
  | csiIgnore
  /-- After `ESC P`: a device control string. -/
  | dcsEntry
  | dcsParam
  | dcsIntermediate
  | dcsIgnore
  | dcsPassthrough
  /-- After `ESC ]`: an operating system command. -/
  | oscString
  /-- After `ESC X`, `ESC ^` or `ESC _`: a string without effect. -/
  | otherString
  deriving DecidableEq, Repr

namespace TerminalState

/-- The transitions that are the same in every sequence: cancel, substitute and escape. -/
def anywhere (s : TerminalState) (n : Nat) : TerminalState :=
  if n == 0x18 || n == 0x1A then ground else if n == 0x1B then escape else s

/-- The bytes of `c` that follow the first string terminator among them. -/
def terminated (c : Char) : Option (List UInt8) :=
  match (String.utf8EncodeChar c).dropWhile (· ≠ 0x9C) with
  | [] => none
  | _ :: rest => some rest

/-- The state after the character `c`. -/
def next (s : TerminalState) (c : Char) : TerminalState :=
  let n := c.toNat
  match s with
  | ground => if n == 0x1B then escape else ground
  | escape =>
    if 0x20 ≤ n && n ≤ 0x2F then escapeIntermediate
    else if n == 0x50 then dcsEntry
    else if n == 0x5B then csiEntry
    else if n == 0x5D then oscString
    else if n == 0x58 || n == 0x5E || n == 0x5F then otherString
    else if 0x30 ≤ n && n ≤ 0x7E then ground
    else s.anywhere n
  | escapeIntermediate => if 0x30 ≤ n && n ≤ 0x7E then ground else s.anywhere n
  | csiEntry =>
    if 0x20 ≤ n && n ≤ 0x2F then csiIntermediate
    else if 0x30 ≤ n && n ≤ 0x3F then csiParam
    else if 0x40 ≤ n && n ≤ 0x7E then ground
    else s.anywhere n
  | csiParam =>
    if 0x20 ≤ n && n ≤ 0x2F then csiIntermediate
    else if 0x3C ≤ n && n ≤ 0x3F then csiIgnore
    else if 0x40 ≤ n && n ≤ 0x7E then ground
    else s.anywhere n
  | csiIntermediate =>
    if 0x30 ≤ n && n ≤ 0x3F then csiIgnore
    else if 0x40 ≤ n && n ≤ 0x7E then ground
    else s.anywhere n
  | csiIgnore => if 0x40 ≤ n && n ≤ 0x7E then ground else s.anywhere n
  | dcsEntry =>
    if 0x20 ≤ n && n ≤ 0x2F then dcsIntermediate
    else if 0x30 ≤ n && n ≤ 0x3F then dcsParam
    else if 0x40 ≤ n && n ≤ 0x7E then dcsPassthrough
    else s.anywhere n
  | dcsParam =>
    if 0x20 ≤ n && n ≤ 0x2F then dcsIntermediate
    else if 0x3C ≤ n && n ≤ 0x3F then dcsIgnore
    else if 0x40 ≤ n && n ≤ 0x7E then dcsPassthrough
    else s.anywhere n
  | dcsIntermediate =>
    if 0x30 ≤ n && n ≤ 0x3F then dcsIgnore
    else if 0x40 ≤ n && n ≤ 0x7E then dcsPassthrough
    else s.anywhere n
  | dcsPassthrough => if (terminated c).isSome then ground else s.anywhere n
  | oscString => if n == 0x07 then ground else s.anywhere n
  | dcsIgnore | otherString => s.anywhere n

/-- What is shown of a byte that is no character by itself: nothing of a control, and a replacement
character of any other. -/
def loneByte (b : UInt8) : List Char := if b ≤ 0x9F then [] else ['\uFFFD']

/-- What reaches the screen of the character `c`. Of the control characters only the line feed does,
and inside a string not even that one. -/
def output (s : TerminalState) (c : Char) : List Char :=
  let n := c.toNat
  match s with
  | ground => if n == 0x0A || (0x20 ≤ n && !(0x80 ≤ n && n ≤ 0x9F)) then [c] else []
  | escape | escapeIntermediate | csiEntry | csiParam | csiIntermediate | csiIgnore =>
    if n == 0x0A then [c] else []
  | dcsPassthrough => ((terminated c).getD []).flatMap loneByte
  | _ => []

end TerminalState

/-- What is shown of `cs` by a terminal in state `s`. -/
def shown (s : TerminalState) : List Char → List Char
  | [] => []
  | c :: cs => s.output c ++ shown (s.next c) cs

/-- The text without escape sequences and control characters other than the line feed. -/
def strip (cs : List Char) : List Char := shown .ground cs

end Awl.Text
