/-!
# Shortest decimals

`shortest m q` is the decimal with the fewest digits among those that round to the binary number
`m * 2 ^ q`, and of those the nearest one. The numbers that round to it form an interval around it,
up to halfway to its two neighbours; for each count of digits only the two decimals next to the
number can be the nearest one inside.
-/

namespace Awl

/-- The decimal number `digits * 10 ^ exponent`. -/
structure Decimal where
  digits : Nat
  exponent : Int
  deriving DecidableEq, Repr

namespace Decimal

/-- Drops the zeros at the end of the digits, at most `fuel` of them. -/
def trim (fuel : Nat) (d : Decimal) : Decimal :=
  match fuel with
  | 0 => d
  | fuel + 1 =>
    if d.digits % 10 == 0 && d.digits != 0 then
      trim fuel ⟨d.digits / 10, d.exponent + 1⟩
    else d

/-- An interval of fractions with one denominator, and the fraction that it is around. -/
structure Around where
  low : Nat
  value : Nat
  high : Nat
  denominator : Nat
  /-- Whether the ends belong to the interval. -/
  closed : Bool

namespace Around

/-- Whether `d * 10 ^ k` is in the interval. -/
def contains (a : Around) (d : Nat) (k : Int) : Bool :=
  let x := d * Nat.pow 10 k.toNat * a.denominator
  let scale := Nat.pow 10 (-k).toNat
  if a.closed then a.low * scale ≤ x && x ≤ a.high * scale
  else a.low * scale < x && x < a.high * scale

/-- The largest `d` with `d * 10 ^ k` not above the value. -/
def below (a : Around) (k : Int) : Nat :=
  a.value * Nat.pow 10 (-k).toNat / (Nat.pow 10 k.toNat * a.denominator)

/-- Whether the value is nearer to `(d + 1) * 10 ^ k` than to `d * 10 ^ k`; a value halfway between
them counts as nearer to the even one. -/
def nearerAbove (a : Around) (d : Nat) (k : Int) : Bool :=
  let twice := 2 * a.value * Nat.pow 10 (-k).toNat
  let middle := (2 * d + 1) * (Nat.pow 10 k.toNat * a.denominator)
  middle < twice || (middle == twice && d % 2 == 1)

/-- The decimal with exponent `k` that is nearest to the value, if it is in the interval. -/
def nearest? (a : Around) (k : Int) : Option Decimal :=
  let d := a.below k
  match a.contains d k, a.contains (d + 1) k with
  | true, true => some ⟨if a.nearerAbove d k then d + 1 else d, k⟩
  | true, false => some ⟨d, k⟩
  | false, true => some ⟨d + 1, k⟩
  | false, false => none

/-- The exponent of the first digit of the value, at least `-fuel`. -/
def magnitude (a : Around) (fuel : Nat) : Int :=
  let whole := a.value / a.denominator
  if whole != 0 then ((Nat.toDigits 10 whole).length : Int) - 1
  else
    match (List.range fuel).find? fun j => a.denominator ≤ a.value * Nat.pow 10 (j + 1) with
    | some j => -((j : Int) + 1)
    | none => -(fuel : Int)

end Around

/-- The interval of the numbers that round to `m * 2 ^ q`. It is narrower below the first number of
a binade. -/
def around (m : Nat) (q : Int) (firstOfBinade : Bool) : Around :=
  let scale := Nat.pow 2 (q - 2).toNat
  { low := (4 * m - if firstOfBinade then 1 else 2) * scale
    value := 4 * m * scale
    high := (4 * m + 2) * scale
    denominator := Nat.pow 2 (2 - q).toNat
    closed := m % 2 == 0 }

/-- The shortest decimal that rounds to `m * 2 ^ q`. Seventeen digits always suffice. -/
def shortest (m : Nat) (q : Int) (firstOfBinade : Bool) : Decimal :=
  let a := around m q firstOfBinade
  let top := a.magnitude 400
  match (List.range 17).findSome? fun (n : Nat) => a.nearest? (top - (n : Int)) with
  | some d => d.trim 20
  | none => ⟨0, 0⟩

end Decimal

end Awl
