import Awl.Proofs.Straight

/-!
# Requests to the shared memory

A core that shares its memory with others does not wait for the shared memory. It issues a request
and goes on; the request takes effect later, and its reply, if there is one, arrives then.
`Core.issue` is the part of an instruction that the core does at once, `Request.serve` the part that
the shared memory does.
-/

namespace Awl.Machine

/-- What a core asks of the shared memory. -/
inductive Request where
  | read (address : Int)
  | write (address value : Int)
  | testAndSet (address : Int)
  deriving DecidableEq

namespace Request

def address : Request → Int
  | .read a | .write a _ | .testAndSet a => a

/-- Whether the core gets a reply. -/
def isAnswered : Request → Bool
  | .read _ | .testAndSet _ => true
  | .write .. => false

/-- The replies to a request, and the shared memory after it. -/
def serve : Request → Memory → List Int × Memory
  | .read a, m => ([m a], m)
  | .write a v, m => ([], m.write a v)
  | .testAndSet a, m => if m a = 0 then ([1], m.write a 1) else ([0], m)

variable {q : Request} {m : Memory}

theorem serve_of_ne {a : Int} (h : q.address ≠ a) : (q.serve m).2 a = m a := by
  cases q with
  | read b => rfl
  | write b v => exact Memory.write_of_ne m v (Ne.symm h)
  | testAndSet b =>
    simp only [serve]
    split
    · exact Memory.write_of_ne m 1 (Ne.symm h)
    · rfl

theorem serve_replies (h : q.isAnswered = false) : (q.serve m).1 = [] := by
  cases q with
  | write b v => rfl
  | read b => cases h
  | testAndSet b => cases h

end Request

/-- The request that an instruction makes. -/
def Core.request? (c : Core) : OpCode → List Operand → Option Request
  | .read, [.address a] => some (.read (c.address a))
  | .write, [.register r, .address a] => some (.write (c.address a) (c.value r))
  | .testAndSet, [.address a] => some (.testAndSet (c.address a))
  | _, _ => none

/-- What an instruction does to the core before its request, if there is one, takes effect. -/
def Core.issue (P : Program) (opcode : OpCode) (operands : List Operand) (c : Core) : Option Core :=
  match c.request? opcode operands with
  | some _ => some c.next
  | none => (exec P opcode operands c fun _ => 0).map (·.1)

/-- The instruction at the position of a core, with the request that it makes. -/
def Core.start (P : Program) (c : Core) : Option (Core × Option Request) :=
  (P.fetch? c.pc).bind fun i => (c.issue P i.opcode i.operands).map fun c' =>
    (c', c.request? i.opcode i.operands)

/-- A core that gets replies. -/
def Core.get (c : Core) (replies : List Int) : Core := { c with replies := c.replies ++ replies }

variable {P : Program} {c : Core} {m : Memory}

/-- An instruction without a request neither reads nor writes the shared memory. -/
theorem exec_of_request?_eq_none {opcode : OpCode} {operands : List Operand} (m' : Memory)
    (h : c.request? opcode operands = none) :
    exec P opcode operands c m = (exec P opcode operands c m').map fun s => (s.1, m) := by
  unfold exec
  split
  case h_1 | h_2 | h_3 | h_7 | h_11 => rw [Option.map_map]; rfl
  case h_4 | h_5 | h_8 | h_9 | h_14 => rfl
  case h_6 =>
    split
    · rfl
    · rw [Option.map_map]
      rfl
  case h_10 | h_12 | h_13 => cases h
  case h_15 => rfl

theorem start_of_has {i : Nat} {x : Ins} (h : P.Has i x.1 x.2) (hpc : c.pc = i) :
    c.start P = (c.issue P x.1 x.2).map fun c' => (c', c.request? x.1 x.2) := by
  obtain ⟨comment, h⟩ := h
  have hfetch : P.fetch? c.pc = some { opcode := x.1, operands := x.2, comment } := by
    rw [hpc]
    exact h
  rw [Core.start, hfetch]
  rfl

end Awl.Machine
