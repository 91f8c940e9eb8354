/-!
# Faults

A fault is what happens when a table is used outside its contract: an id nobody handed out, a
write-once entry written again. It is not an error of the program being compiled, so it carries no
text; an operation that can be misused answers in `Except Fault`.
-/

namespace Awl

inductive Fault where
  /-- An id that the table never handed out. -/
  | outOfRange
  /-- A write-once entry is written a second time. -/
  | writtenTwice
  /-- An entry is read before it is written. -/
  | unset
  /-- A second global scope is opened. -/
  | secondGlobal
  /-- A parent chain that does not end in the global scope. -/
  | endlessChain
  /-- A call passes more arguments than its frame has slots. -/
  | frameOverflow
  /-- A routine starts while registers are still in use. -/
  | registersHeld
  deriving DecidableEq, Repr

end Awl
