import Awl.Slots
import Awl.Text.Quoted

/-!
# Symbols

A symbol is a small number that stands for a string. A `SymbolTable` gives equal strings the same
symbol and different strings different ones. Interning has two steps, so that several callers may
share a table: `lookup` only reads, `insert` looks once more before it adds. A table of `2 ^ 32`
strings, where 32-bit symbols would wrap, is out of scope.
-/

namespace Awl

structure Symbol where
  index : Nat
  deriving DecidableEq, Repr

structure SymbolTable where
  strings : Slots String := .empty
  /-- The symbol of every string in `strings`. -/
  indices : List (String × Symbol) := []

namespace SymbolTable

/-- The symbol that `s` already has. -/
def lookup (t : SymbolTable) (s : String) : Option Symbol := t.indices.lookup s

/-- The symbol of `s`, a new one unless another caller has inserted `s` since it was looked up. -/
def insert (t : SymbolTable) (s : String) : Symbol × SymbolTable :=
  match t.lookup s with
  | some symbol => (symbol, t)
  | none =>
    let symbol := ⟨t.strings.nextId⟩
    (symbol, { strings := t.strings.push s, indices := (s, symbol) :: t.indices })

/-- The symbol of `s`, looked up first and inserted if it has none. -/
def intern (t : SymbolTable) (s : String) : Symbol × SymbolTable :=
  match t.lookup s with
  | some symbol => (symbol, t)
  | none => t.insert s

/-- The string that `symbol` stands for. -/
def value? (t : SymbolTable) (symbol : Symbol) : Option String := t.strings.get? symbol.index

/-- A symbol with its string, for messages. -/
def describe (t : SymbolTable) (symbol : Symbol) : Option String :=
  (t.value? symbol).map fun s => "Symbol(" ++ Text.quoted s ++ ")"

end SymbolTable

end Awl
