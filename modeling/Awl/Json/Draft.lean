import Awl.Json.Number

/-!
# Reading JSON text

`Document.read` reads a text into a `Draft`: the value as far as the text spells one, with a note at
the place where the text breaks off. A reader of the draft meets the parts in text order, so the
first problem of a text is also the first one it meets.

Some texts are wrong only if they are looked at: a string with half a surrogate pair or a number out
of range can be passed over. Such parts keep their own error and the text goes on after them.
`Document.problem?` is the first error of a text that is passed over as a whole.
-/

namespace Awl.Json

/-- How the text of an array goes on after its last readable item. -/
inductive ArrayEnd where
  | closed
  /-- The text ends. -/
  | ended
  /-- Neither a comma nor the end of the array. -/
  | stray
  /-- The array is closed right after a comma. -/
  | commaClosed
  /-- The text ends right after a comma. -/
  | commaEnded
  deriving DecidableEq, Repr

/-- How the text of an object goes on after its last readable member. -/
inductive ObjectEnd where
  | closed
  | ended
  | stray
  | commaClosed
  | commaEnded
  /-- Something other than a string stands where a key is due. -/
  | noKey
  /-- The string where a key is due is malformed: its error when read and when passed over. -/
  | badKey (read skipped : SyntaxError)

inductive Draft where
  /-- The text ends where a value is due. -/
  | missing
  /-- A character that starts no value. -/
  | stray
  | null
  | bool (b : Bool)
  | number (value : Except SyntaxError Number)
  | string (contents : Except SyntaxError String)
  /-- A misspelled word. -/
  | badWord (e : SyntaxError)
  | badNumber (e : SyntaxError)
  /-- A malformed string: its error when read and when passed over. -/
  | badString (read skipped : SyntaxError)
  /-- A key without a colon after it. -/
  | noColon (e : SyntaxError)
  | array (items : List Draft) (ending : ArrayEnd)
  /-- The keys keep their own error, if they have one. -/
  | object (members : List (Except SyntaxError String × Draft)) (ending : ObjectEnd)

/-! ## Strings -/

def isBlank (c : Char) : Bool := c == ' ' || c == '\n' || c == '\t' || c == '\r'

def skipBlank (cs : List Char) : List Char := cs.dropWhile isBlank

/-- The character written by a backslash and `c`. -/
def escapeValue (c : Char) : Option Char :=
  match c with
  | '"' => some '"'
  | '\\' => some '\\'
  | '/' => some '/'
  | 'b' => some '\x08'
  | 'f' => some '\x0c'
  | 'n' => some '\n'
  | 'r' => some '\r'
  | 't' => some '\t'
  | _ => none

def hexDigit (c : Char) : Option Nat :=
  if c.isDigit then some (c.toNat - '0'.toNat)
  else if 'a' ≤ c && c ≤ 'f' then some (c.toNat - 'a'.toNat + 10)
  else if 'A' ≤ c && c ≤ 'F' then some (c.toNat - 'A'.toNat + 10)
  else none

/-- The number written by four hexadecimal digits. -/
def hexValue (a b c d : Char) : Option Nat := do
  return (((← hexDigit a) * 16 + (← hexDigit b)) * 16 + (← hexDigit c)) * 16 + (← hexDigit d)

/-- The error of an escape whose four digits do not all follow: the text has ended if less than four
bytes are left. -/
def shortHex (rest : List Char) : SyntaxError :=
  if (rest.take 4).foldl (fun n c => n + c.utf8Size) 0 < 4 then .endInString else .invalidEscape

def isLeading (n : Nat) : Bool := 0xD800 ≤ n && n ≤ 0xDBFF

def isTrailing (n : Nat) : Bool := 0xDC00 ≤ n && n ≤ 0xDFFF

/-- The character of a surrogate pair. -/
def pairValue (leading trailing : Nat) : Char :=
  Char.ofNat (0x10000 + (leading - 0xD800) * 0x400 + (trailing - 0xDC00))

/-- Puts a character in front of what is read after it. -/
def consChar (c : Char) :
    Except SyntaxError (List Char × List Char) → Except SyntaxError (List Char × List Char) :=
  Except.map fun (cs, rest) => (c :: cs, rest)

/-- Reads a string after its opening quote: its contents and the text after the closing quote. A
surrogate must come in a pair. -/
def readString : List Char → Except SyntaxError (List Char × List Char)
  | [] => .error .endInString
  | '"' :: rest => .ok ([], rest)
  | '\\' :: 'u' :: a :: b :: c :: d :: rest =>
    match hexValue a b c d with
    | none => .error .invalidEscape
    | some n =>
      if isTrailing n then .error .loneSurrogate
      else if isLeading n then
        match rest with
        | '\\' :: 'u' :: a :: b :: c :: d :: rest =>
          match hexValue a b c d with
          | none => .error .invalidEscape
          | some m =>
            if isTrailing m then consChar (pairValue n m) (readString rest)
            else .error .loneSurrogate
        | '\\' :: 'u' :: rest => .error (shortHex rest)
        | ['\\'] => .error .endInString
        | [] => .error .endInString
        | _ => .error .endOfHexEscape
      else consChar (Char.ofNat n) (readString rest)
  | '\\' :: 'u' :: rest => .error (shortHex rest)
  | ['\\'] => .error .endInString
  | '\\' :: e :: rest =>
    match escapeValue e with
    | none => .error .invalidEscape
    | some c => consChar c (readString rest)
  | c :: rest => if c.toNat < 0x20 then .error .controlCharacter else consChar c (readString rest)

/-- Passes over a string after its opening quote. Surrogates are not looked at. -/
def skipString : List Char → Except Break (List Char)
  | [] => .error ⟨.endInString, []⟩
  | '"' :: rest => .ok rest
  | '\\' :: 'u' :: a :: b :: c :: d :: rest =>
    match hexValue a b c d with
    | none => .error ⟨.invalidEscape, rest⟩
    | some _ => skipString rest
  | '\\' :: 'u' :: rest => .error ⟨shortHex rest, []⟩
  | ['\\'] => .error ⟨.endInString, []⟩
  | '\\' :: e :: rest =>
    match escapeValue e with
    | none => .error ⟨.invalidEscape, rest⟩
    | some _ => skipString rest
  | c :: rest =>
    if c.toNat < 0x20 then .error ⟨.controlCharacter, c :: rest⟩ else skipString rest

/-- The contents of the string after an opening quote. -/
def stringContents (cs : List Char) : Except SyntaxError String :=
  (readString cs).map fun (contents, _) => String.ofList contents

/-- The error of a string, if it has one. -/
def stringError (cs : List Char) (otherwise : SyntaxError) : SyntaxError :=
  match readString cs with
  | .error e => e
  | .ok _ => otherwise

/-! ## Values -/

/-- The text after a part. If the text breaks off in the part, the text after the character that
breaks it off is the error. -/
abbrev After := Except (List Char) (List Char)

/-- Reads the rest of a word. -/
def readWord (word : List Char) (cs : List Char) : Except Break (List Char) :=
  match word, cs with
  | [], cs => .ok cs
  | _ :: _, [] => .error ⟨.endInValue, []⟩
  | w :: ws, c :: cs => if w == c then readWord ws cs else .error ⟨.expectedWord, cs⟩

namespace Draft

/-- What stands here, for a message that something else was expected. -/
def found : Draft → Except SyntaxError Found
  | missing => .error .endInValue
  | stray => .error .expectedValue
  | null => .ok .null
  | bool b => .ok (.bool b)
  | number value => value.map .number
  | string contents => contents.map .string
  | badWord e => .error e
  | badNumber e => .error e
  | badString e _ => .error e
  | noColon e => .error e
  | array .. => .ok .sequence
  | object .. => .ok .map

/-- A word and the text after it. -/
def ofWord (d : Draft) (rest : Except Break (List Char)) : Draft × After :=
  match rest with
  | .ok rest => (d, .ok rest)
  | .error e => (badWord e.error, .error e.rest)

/-- A number and the text after it. -/
def ofNumber (t : Except Break (NumberText × List Char)) : Draft × After :=
  match t with
  | .ok (t, rest) => (number t.value, .ok rest)
  | .error e => (badNumber e.error, .error e.rest)

/-- Reads a value that is neither an array nor an object, from a text without leading blanks. -/
def readScalar (cs : List Char) : Draft × After :=
  match cs with
  | [] => (missing, .error [])
  | 'n' :: rest => ofWord null (readWord ['u', 'l', 'l'] rest)
  | 't' :: rest => ofWord (bool true) (readWord ['r', 'u', 'e'] rest)
  | 'f' :: rest => ofWord (bool false) (readWord ['a', 'l', 's', 'e'] rest)
  | '-' :: rest => ofNumber (NumberText.scan true rest)
  | '"' :: rest =>
    match skipString rest with
    | .ok after => (string (stringContents rest), .ok after)
    | .error e => (badString (stringError rest e.error) e.error, .error e.rest)
  | c :: rest =>
    if c.isDigit then ofNumber (NumberText.scan false (c :: rest)) else (stray, .error rest)

mutual

/-- Reads a value. The fuel bounds the number of values, items and members that are read. -/
def readValue (fuel : Nat) (cs : List Char) : Draft × After :=
  match fuel with
  | 0 => (missing, .error [])
  | fuel + 1 =>
    match skipBlank cs with
    | '[' :: rest =>
      let (items, ending, after) := readItems fuel true rest
      (array items ending, after)
    | '\x7b' :: rest =>
      let (members, ending, after) := readMembers fuel true rest
      (object members ending, after)
    | cs => readScalar cs

/-- Reads the items of an array from here on. -/
def readItems (fuel : Nat) (first : Bool) (cs : List Char) : List Draft × ArrayEnd × After :=
  match fuel with
  | 0 => ([], .ended, .error [])
  | fuel + 1 =>
    match skipBlank cs with
    | [] => ([], .ended, .error [])
    | ']' :: rest => ([], .closed, .ok rest)
    | c :: rest =>
      if first then readItemsFrom fuel (c :: rest)
      else if c == ',' then
        match skipBlank rest with
        | [] => ([], .commaEnded, .error [])
        | ']' :: rest => ([], .commaClosed, .error rest)
        | rest => readItemsFrom fuel rest
      else ([], .stray, .error rest)

/-- Reads an item and those after it. -/
def readItemsFrom (fuel : Nat) (cs : List Char) : List Draft × ArrayEnd × After :=
  match fuel with
  | 0 => ([], .ended, .error [])
  | fuel + 1 =>
    match readValue fuel cs with
    | (d, .error rest) => ([d], .ended, .error rest)
    | (d, .ok rest) =>
      let (ds, ending, after) := readItems fuel false rest
      (d :: ds, ending, after)

/-- Reads the members of an object from here on. -/
def readMembers (fuel : Nat) (first : Bool) (cs : List Char) :
    List (Except SyntaxError String × Draft) × ObjectEnd × After :=
  match fuel with
  | 0 => ([], .ended, .error [])
  | fuel + 1 =>
    match skipBlank cs with
    | [] => ([], .ended, .error [])
    | '\x7d' :: rest => ([], .closed, .ok rest)
    | c :: rest =>
      if first then readMembersFrom fuel (c :: rest)
      else if c == ',' then
        match skipBlank rest with
        | [] => ([], .commaEnded, .error [])
        | '\x7d' :: rest => ([], .commaClosed, .error rest)
        | rest => readMembersFrom fuel rest
      else ([], .stray, .error rest)

/-- Reads a member and those after it. -/
def readMembersFrom (fuel : Nat) (cs : List Char) :
    List (Except SyntaxError String × Draft) × ObjectEnd × After :=
  match fuel with
  | 0 => ([], .ended, .error [])
  | fuel + 1 =>
    match cs with
    | '"' :: rest =>
      match skipString rest with
      | .error e => ([], .badKey (stringError rest e.error) e.error, .error e.rest)
      | .ok after =>
        let key := stringContents rest
        match skipBlank after with
        | [] => ([(key, noColon .endInObject)], .ended, .error [])
        | ':' :: rest =>
          match readValue fuel rest with
          | (d, .error rest) => ([(key, d)], .ended, .error rest)
          | (d, .ok rest) =>
            let (ms, ending, after) := readMembers fuel false rest
            ((key, d) :: ms, ending, after)
        | _ :: rest => ([(key, noColon .expectedColon)], .ended, .error rest)
    | cs => ([], .noKey, .error (cs.drop 1))

end

end Draft

/-- A text read as one value. -/
structure Document where
  value : Draft
  /-- Whether there is more text than the value and blanks. -/
  trailing : Bool := false
  /-- The place up to which the text was read: its end, or after the character that breaks it off or
  trails behind the value. -/
  place : Position := {}

/-- Reads a text. No more values, items and members can be in it than three for each character. -/
def Document.read (text : String) : Document :=
  let cs := text.toList
  match Draft.readValue (3 * cs.length + 3) cs with
  | (value, .error rest) => { value, place := .before cs rest }
  | (value, .ok rest) =>
    match skipBlank rest with
    | [] => { value, place := .before cs [] }
    | _ :: rest => { value, trailing := true, place := .before cs rest }

/-! ## Passing over values -/

/-- The problem met when an array's end is passed over. -/
def ArrayEnd.skipped : ArrayEnd → Option SyntaxError
  | .closed => none
  | .ended => some .endInList
  | .stray => some .expectedListCommaOrEnd
  | .commaClosed => some .expectedValue
  | .commaEnded => some .endInValue

/-- The problem met when an object's end is passed over. -/
def ObjectEnd.skipped : ObjectEnd → Option SyntaxError
  | .closed => none
  | .ended | .commaEnded => some .endInObject
  | .stray => some .expectedObjectCommaOrEnd
  | .commaClosed | .noKey => some .keyMustBeString
  | .badKey _ e => some e

namespace Draft

mutual

/-- The first problem met when a value is passed over. -/
def skipped : Draft → Option SyntaxError
  | missing => some .endInValue
  | stray => some .expectedValue
  | null | bool _ | number _ | string _ => none
  | badWord e => some e
  | badNumber _ => some .invalidNumber
  | badString _ e => some e
  | noColon e => some e
  | array items ending => skippedItems items <|> ending.skipped
  | object members ending => skippedMembers members <|> ending.skipped

def skippedItems : List Draft → Option SyntaxError
  | [] => none
  | d :: ds => d.skipped <|> skippedItems ds

def skippedMembers : List (Except SyntaxError String × Draft) → Option SyntaxError
  | [] => none
  | (_, d) :: ms => d.skipped <|> skippedMembers ms

end

end Draft

/-- The problem met when a whole text is passed over. It is met at the document's `place`. -/
def Document.problem? (d : Document) : Option SyntaxError :=
  d.value.skipped <|> if d.trailing then some .trailingCharacters else none

end Awl.Json
