import Awl.Json.Error

/-!
# Numbers in JSON

A number is scanned into the digits of its parts (`NumberText`) and then given a value. The value of
a number with a fraction or an exponent is computed in floating point arithmetic from as many
leading digits as fit into 64 bits.
-/

namespace Awl.Json

/-- The parts of a number: digits of the whole part, of the fraction and of the exponent. -/
structure NumberText where
  negative : Bool
  whole : List Char
  fraction : Option (List Char) := none
  /-- Whether the exponent is negative, and its digits. -/
  exponent : Option (Bool × List Char) := none

namespace NumberText

/-- The error at a place where a digit is due. -/
def digitDue : List Char → Break
  | [] => ⟨.endInValue, []⟩
  | _ :: rest => ⟨.invalidNumber, rest⟩

/-- Scans the exponent of a number, if one follows. -/
def scanExponent (t : NumberText) (cs : List Char) : Except Break (NumberText × List Char) :=
  let read (negative : Bool) (cs : List Char) : Except Break (NumberText × List Char) :=
    match cs.takeWhile Char.isDigit with
    | [] => .error (digitDue cs)
    | ds => .ok ({ t with exponent := some (negative, ds) }, cs.dropWhile Char.isDigit)
  let signed (cs : List Char) : Except Break (NumberText × List Char) :=
    match cs with
    | '+' :: rest => read false rest
    | '-' :: rest => read true rest
    | rest => read false rest
  match cs with
  | 'e' :: rest => signed rest
  | 'E' :: rest => signed rest
  | rest => .ok (t, rest)

/-- Scans the fraction of a number, if one follows, and its exponent. -/
def scanFraction (t : NumberText) (cs : List Char) : Except Break (NumberText × List Char) :=
  match cs with
  | '.' :: rest =>
    match rest.takeWhile Char.isDigit with
    | [] => .error (digitDue rest)
    | ds => scanExponent { t with fraction := some ds } (rest.dropWhile Char.isDigit)
  | rest => scanExponent t rest

/-- Scans a number whose sign has been read. The whole part has no leading zero. -/
def scan (negative : Bool) (cs : List Char) : Except Break (NumberText × List Char) :=
  match cs.takeWhile Char.isDigit with
  | [] => .error (digitDue cs)
  | '0' :: _ :: _ => .error ⟨.invalidNumber, cs.drop 2⟩
  | ds => scanFraction { negative, whole := ds } (cs.dropWhile Char.isDigit)

/-- The value of a digit. -/
def digitValue (c : Char) : Nat := c.toNat - '0'.toNat

/-- The number written by decimal digits. -/
def ofDigits (ds : List Char) : Nat := ds.foldl (fun n c => n * 10 + digitValue c) 0

/-- Whether a number fits into 64 bits. -/
def fits (n : Nat) : Bool := n < 18446744073709551616

/-- Appends digits to a significand for as long as it fits into 64 bits; the second part is what is
left of the digits. -/
def extend (significand : Nat) : List Char → Nat × List Char
  | [] => (significand, [])
  | c :: cs =>
    let longer := significand * 10 + digitValue c
    if fits longer then extend longer cs else (significand, c :: cs)

/-- The largest power of ten that a double represents is `10 ^ 308`. -/
def maxPower : Nat := 308

def powerOfTen (n : Nat) : Float := Float.ofScientific 1 false n

/-- Scales by a power of ten; a number too large for a double is out of range. Each step takes at
most `10 ^ 308` off a negative exponent, and a few steps reach zero. -/
def scale (fuel : Nat) (x : Float) (exponent : Int) : Except SyntaxError Float :=
  match fuel with
  | 0 => .ok x
  | fuel + 1 =>
    if exponent.natAbs ≤ maxPower then
      if 0 ≤ exponent then
        let y := x * powerOfTen exponent.natAbs
        if y.isInf then .error .numberOutOfRange else .ok y
      else .ok (x / powerOfTen exponent.natAbs)
    else if x == 0.0 then .ok x
    else if 0 ≤ exponent then .error .numberOutOfRange
    else scale fuel (x / powerOfTen maxPower) (exponent + maxPower)

/-- An exponent from `2 ^ 31` on is beyond any double. -/
def exponentLimit : Nat := 2147483648

/-- The value of a number that is not an integer of at most 64 bits. -/
def floatValue (t : NumberText) : Except SyntaxError Float := do
  let (significand, dropped) := extend 0 t.whole
  let (significand, unread) := extend significand (t.fraction.getD [])
  let exponent : Int := dropped.length + unread.length - (t.fraction.getD []).length
  let x ← match t.exponent with
    | none => scale 8 significand.toUInt64.toFloat exponent
    | some (negative, ds) =>
      let n := ofDigits ds
      if n < exponentLimit then
        scale 8 significand.toUInt64.toFloat (if negative then exponent - n else exponent + n)
      else if significand != 0 && !negative then .error .numberOutOfRange
      else .ok 0.0
  return if t.negative then -x else x

/-- The value of a number. There is no integer minus zero: `-0` is a floating point number. -/
def value (t : NumberText) : Except SyntaxError Number :=
  let n := ofDigits t.whole
  if t.fraction.isNone && t.exponent.isNone && fits n then
    if !t.negative then .ok (.natural n)
    else if 0 < n && n ≤ 9223372036854775808 then .ok (.negative n)
    else .ok (.float (-n.toUInt64.toFloat))
  else t.floatValue.map .float

end NumberText

end Awl.Json
