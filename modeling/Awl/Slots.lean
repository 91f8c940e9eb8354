import Awl.Fault

/-!
# Numbered slots

`Slots α` keeps values under the numbers `0, 1, 2, …` in the order in which they were added. The
number of a value is its id, and it never changes. Ids are 32-bit words where they are read
(`idOfNat`). Tables of `2 ^ 32` entries are out of scope: the ids that are given do not wrap.
-/

namespace Awl

structure Slots (α : Type) where
  items : Array α := #[]
  deriving DecidableEq, Repr

namespace Slots

variable {α : Type}

/-- The number of ids, `2 ^ 32`. -/
def idCount : Nat := 4294967296

/-- The id written as the number `n`: an id is a 32-bit word, a larger number keeps its low bits. -/
def idOfNat (n : Nat) : Nat := n % idCount

def empty : Slots α := {}

def size (s : Slots α) : Nat := s.items.size

def isEmpty (s : Slots α) : Bool := s.items.isEmpty

/-- The id that the next `push` gives. -/
def nextId (s : Slots α) : Nat := s.size

/-- Adds a value. Its id is `nextId` of the slots before. -/
def push (s : Slots α) (a : α) : Slots α := { items := s.items.push a }

def get? (s : Slots α) (id : Nat) : Option α := s.items[id]?

/-- The value at `id`. Throws `outOfRange` if there is none. -/
def fetch (s : Slots α) (id : Nat) : Except Fault α :=
  match s.get? id with
  | some a => .ok a
  | none => .error .outOfRange

/-- Puts `a` in place of the value at `id`. Throws `outOfRange` if there is none. -/
def replace (s : Slots α) (id : Nat) (a : α) : Except Fault (Slots α) :=
  if id < s.size then .ok { items := s.items.setIfInBounds id a } else .error .outOfRange

def toList (s : Slots α) : List α := s.items.toList

/-- The values with their ids, in id order. -/
def entries (s : Slots α) : List (Nat × α) := s.toList.zipIdx.map fun (a, i) => (i, a)

/-- The slots as a map from ids, `{Id(0): a, Id(1): b}` for ids called `Id`. -/
def describe (idName : String) (text : α → String) (s : Slots α) : String :=
  let entry := fun ((id, a) : Nat × α) => idName ++ "(" ++ toString id ++ "): " ++ text a
  "\x7b" ++ ", ".intercalate (s.entries.map entry) ++ "\x7d"

/-! ## The view `get?` -/

theorem get?_empty (id : Nat) : (empty : Slots α).get? id = none := by
  simp [empty, get?]

theorem get?_push (s : Slots α) (a : α) (id : Nat) :
    (s.push a).get? id = if id = s.nextId then some a else s.get? id := by
  unfold push get? nextId size
  rw [Array.getElem?_push]

theorem size_push (s : Slots α) (a : α) : (s.push a).size = s.size + 1 := by
  simp [push, size]

theorem get?_eq_none_iff (s : Slots α) (id : Nat) : s.get? id = none ↔ s.size ≤ id := by
  simp [get?, size]

theorem fetch_eq_ok_iff {s : Slots α} {id : Nat} {a : α} :
    s.fetch id = .ok a ↔ s.get? id = some a := by
  unfold fetch; split <;> simp_all

end Slots

end Awl
