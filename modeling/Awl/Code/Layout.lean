import Awl.Machine.Error

/-!
# Static layout

The top of shared memory holds the heap pointer, the lock of the allocator, a start flag for each
thread and the global variables, in this order. The heap grows from address 0 towards them.
-/

namespace Awl.Code

open Machine

structure StaticLayout where
  /-- The address of the first static word. -/
  base : Nat
  threads : Nat
  globals : Nat
  deriving DecidableEq, Repr

namespace StaticLayout

/-- The number of static words. -/
def required (threads globals : Nat) : Nat := 2 + threads + globals

/-- The layout in a shared memory of a given size. -/
def place (sharedMemory threads globals : Nat) : Except CodeError StaticLayout :=
  let words := required threads globals
  if sharedMemory < words then .error (.sharedMemoryExhausted words sharedMemory)
  else .ok { base := sharedMemory - words, threads, globals }

/-- The word that holds the next free heap address. -/
def heapPointer (l : StaticLayout) : Nat := l.base

/-- The lock that heap allocation takes. -/
def allocatorLock (l : StaticLayout) : Nat := l.base + 1

/-- The word that starts a thread when it is not zero. -/
def threadFlag (l : StaticLayout) (thread : Nat) : Nat := l.base + 2 + thread

/-- The word of the global variable with this offset. -/
def global (l : StaticLayout) (offset : Nat) : Nat := l.base + 2 + l.threads + offset

end StaticLayout

end Awl.Code
