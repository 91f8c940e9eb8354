/-!
# JSON values

`Value` is the JSON that the library writes: numbers are integers, and an object keeps its members
in the order in which they were given. `Value.text` is the compact text of a value.
-/

namespace Awl.Json

inductive Value where
  | null
  | bool (b : Bool)
  | int (n : Int)
  | string (s : String)
  | array (items : List Value)
  | object (members : List (String × Value))

/-- A value that may be absent. -/
def Value.ofOption {α : Type} (f : α → Value) : Option α → Value
  | none => .null
  | some a => f a

/-- A number as a value. -/
def Value.nat (n : Nat) : Value := .int n

/-- How a character is written inside a string: quotes, backslashes and control characters are
escaped, everything else stands as it is. -/
def escapedChar (c : Char) : List Char :=
  match c with
  | '"' => ['\\', '"']
  | '\\' => ['\\', '\\']
  | '\x08' => ['\\', 'b']
  | '\t' => ['\\', 't']
  | '\n' => ['\\', 'n']
  | '\x0c' => ['\\', 'f']
  | '\r' => ['\\', 'r']
  | c =>
    if c.toNat < 0x20 then
      ['\\', 'u', '0', '0', Nat.digitChar (c.toNat / 16), Nat.digitChar (c.toNat % 16)]
    else [c]

def stringChars (s : String) : List Char := '"' :: s.toList.flatMap escapedChar ++ ['"']

mutual

/-- The characters of a value's compact text. -/
def Value.chars : Value → List Char
  | .null => ['n', 'u', 'l', 'l']
  | .bool true => ['t', 'r', 'u', 'e']
  | .bool false => ['f', 'a', 'l', 's', 'e']
  | .int n => (toString n).toList
  | .string s => stringChars s
  | .array items => '[' :: itemChars items ++ [']']
  | .object members => '\x7b' :: memberChars members ++ ['\x7d']

def itemChars : List Value → List Char
  | [] => []
  | [v] => v.chars
  | v :: vs => v.chars ++ ',' :: itemChars vs

def memberChars : List (String × Value) → List Char
  | [] => []
  | [(key, v)] => stringChars key ++ ':' :: v.chars
  | (key, v) :: ms => stringChars key ++ ':' :: v.chars ++ ',' :: memberChars ms

end

/-- The compact text of a value. -/
def Value.text (v : Value) : String := String.ofList v.chars

end Awl.Json
