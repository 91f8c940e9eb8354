import Awl.Machine.Error

/-!
# Register allocation

Registers for the values of expressions. The one that has been free for the longest time is handed
out first; those in use are kept in the order of their allocation, in which calls save them.
-/

namespace Awl.Code

open Machine

/-- The registers that hold values of expressions. -/
def generalPurpose : List Register := [.a, .b, .c, .d, .e]

structure Registers where
  /-- The free registers, the next one first. -/
  free : List Register := generalPurpose
  /-- The registers in use, the oldest one first. -/
  inUse : List Register := []
  deriving DecidableEq, Repr

namespace Registers

def allocate (r : Registers) : Except CodeError (Register × Registers) :=
  match r.free with
  | [] => .error .registersExhausted
  | x :: free => .ok (x, { free, inUse := r.inUse ++ [x] })

/-- Gives a register back. Throws `doubleFree` if it is not in use. -/
def release (r : Registers) (x : Register) : Except CodeError Registers :=
  if x ∈ r.inUse then .ok { free := r.free ++ [x], inUse := r.inUse.erase x }
  else .error (.doubleFree x)

def allFree (r : Registers) : Bool := r.inUse.isEmpty

end Registers

end Awl.Code
