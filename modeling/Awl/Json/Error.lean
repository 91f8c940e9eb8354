import Awl.Text.Quoted
import Awl.Decimal.Shortest

/-!
# Errors of reading JSON

A `SyntaxError` says how a text stops being JSON, a `Position` where. A `DecodeError` is a syntax
error or says how a well-formed value fails to be what is expected of it; `message` and `category`
give its wording.
-/

namespace Awl.Json

inductive SyntaxError where
  | endInValue
  | endInList
  | endInObject
  | endInString
  | expectedColon
  | expectedListCommaOrEnd
  | expectedObjectCommaOrEnd
  | expectedWord
  | expectedValue
  | invalidEscape
  | invalidNumber
  | numberOutOfRange
  | controlCharacter
  | keyMustBeString
  | loneSurrogate
  | trailingComma
  | trailingCharacters
  | endOfHexEscape
  | nestedTooDeep
  deriving DecidableEq, Repr

def SyntaxError.message : SyntaxError → String
  | .endInValue => "EOF while parsing a value"
  | .endInList => "EOF while parsing a list"
  | .endInObject => "EOF while parsing an object"
  | .endInString => "EOF while parsing a string"
  | .expectedColon => "expected `:`"
  | .expectedListCommaOrEnd => "expected `,` or `]`"
  | .expectedObjectCommaOrEnd => "expected `,` or `\x7d`"
  | .expectedWord => "expected ident"
  | .expectedValue => "expected value"
  | .invalidEscape => "invalid escape"
  | .invalidNumber => "invalid number"
  | .numberOutOfRange => "number out of range"
  | .controlCharacter => "control character (\\u0000-\\u001F) found while parsing a string"
  | .keyMustBeString => "key must be a string"
  | .loneSurrogate => "lone leading surrogate in hex escape"
  | .trailingComma => "trailing comma"
  | .trailingCharacters => "trailing characters"
  | .endOfHexEscape => "unexpected end of hex escape"
  | .nestedTooDeep => "recursion limit exceeded"

/-- Whether the text ends too early. -/
def SyntaxError.isEnd : SyntaxError → Bool
  | .endInValue | .endInList | .endInObject | .endInString => true
  | _ => false

/-- A syntax error, and the text after the character that shows it. -/
structure Break where
  error : SyntaxError
  rest : List Char

/-- A place in a text: the number of its line, and the bytes of that line in front of it. -/
structure Position where
  line : Nat := 1
  column : Nat := 0
  deriving DecidableEq, Repr

namespace Position

/-- The place after one more character. -/
def advance (p : Position) (c : Char) : Position :=
  if c == '\n' then { line := p.line + 1 } else { p with column := p.column + c.utf8Size }

/-- The place in front of the end `rest` of the text `cs`. -/
def before (cs rest : List Char) : Position := (cs.take (cs.length - rest.length)).foldl advance {}

def text (p : Position) : String := "line " ++ toString p.line ++ " column " ++ toString p.column

end Position

/-- A number as it is read: without fraction and exponent it is an integer as long as it fits into
64 bits, in all other cases it is a floating point number. -/
inductive Number where
  | natural (n : Nat)
  /-- The number `-n`, for a positive `n`. -/
  | negative (n : Nat)
  | float (x : Float)

/-- The digits of a finite number, positional from `10 ^ -5` up to `10 ^ 16` and with a signed
exponent outside; a positional number always has a fraction. -/
def floatDigits (d : Decimal) : String :=
  let digits := toString d.digits
  let length : Int := digits.length
  let point := length + d.exponent
  let cut (n : Int) : String × String :=
    (String.ofList (digits.toList.take n.toNat), String.ofList (digits.toList.drop n.toNat))
  let zeros (n : Int) : String := String.ofList (List.replicate n.toNat '0')
  if 0 ≤ d.exponent ∧ point ≤ 16 then digits ++ zeros d.exponent ++ ".0"
  else if 0 < point ∧ point ≤ 16 then (cut point).1 ++ "." ++ (cut point).2
  else if -5 < point ∧ point ≤ 0 then "0." ++ zeros (-point) ++ digits
  else
    let mantissa := if length == 1 then digits else (cut 1).1 ++ "." ++ (cut 1).2
    mantissa ++ (if 0 < point then "e+" else "e") ++ toString (point - 1)

/-- A double by its sign, its significand and its exponent; the flag marks the first number of a
binade. -/
def floatParts (x : Float) : Bool × Nat × Int × Bool :=
  let bits : Nat := x.toBits.toNat
  let fraction : Nat := bits % Nat.pow 2 52
  let exponent : Nat := bits / Nat.pow 2 52 % Nat.pow 2 11
  let negative := bits / Nat.pow 2 63 == 1
  if exponent == 0 then (negative, fraction, -1074, false)
  else (negative, Nat.pow 2 52 + fraction, (exponent : Int) - 1075, fraction == 0 && exponent != 1)

def floatText (x : Float) : String :=
  let (negative, m, q, first) := floatParts x
  let digits := if m == 0 then "0.0" else floatDigits (.shortest m q first)
  if negative then "-" ++ digits else digits

/-- What stands in a text where something else is expected. -/
inductive Found where
  | null
  | bool (b : Bool)
  | number (n : Number)
  | string (s : String)
  | sequence
  | map
  /-- A variant that is only named. -/
  | unitVariant

def Found.describe : Found → String
  | .null => "null"
  | .bool b => "boolean `" ++ toString b ++ "`"
  | .number (.natural n) => "integer `" ++ toString n ++ "`"
  | .number (.negative n) => "integer `-" ++ toString n ++ "`"
  | .number (.float x) => "floating point `" ++ floatText x ++ "`"
  | .string s => "string " ++ Text.quoted s
  | .sequence => "sequence"
  | .map => "map"
  | .unitVariant => "unit variant"

inductive DecodeError where
  | malformed (e : SyntaxError)
  | invalidType (found : Found) (expected : String)
  | invalidValue (found : Found) (expected : String)
  | invalidLength (length : Nat) (expected : String)
  | missingField (name : String)
  | duplicateField (name : String)
  | unknownVariant (name : String) (known : List String)

/-- A list of alternatives: two are joined by "or", more are counted out. -/
def alternatives (names : List String) : String :=
  match names.map fun n => "`" ++ n ++ "`" with
  | [a] => a
  | [a, b] => a ++ " or " ++ b
  | all => "one of " ++ ", ".intercalate all

def DecodeError.message : DecodeError → String
  | .malformed e => e.message
  | .invalidType found expected => "invalid type: " ++ found.describe ++ ", expected " ++ expected
  | .invalidValue found expected => "invalid value: " ++ found.describe ++ ", expected " ++ expected
  | .invalidLength n expected => "invalid length " ++ toString n ++ ", expected " ++ expected
  | .missingField name => "missing field `" ++ name ++ "`"
  | .duplicateField name => "duplicate field `" ++ name ++ "`"
  | .unknownVariant name known =>
    "unknown variant `" ++ name ++ "`, expected " ++ alternatives known

/-- The kinds of decode errors: the text is no JSON, ends too early, or holds other data. -/
inductive Category where
  | malformed
  | ended
  | data
  deriving DecidableEq, Repr

def DecodeError.category : DecodeError → Category
  | .malformed e => if e.isEnd then .ended else .malformed
  | _ => .data

end Awl.Json
