import Mathlib.Data.Int.Bitwise
import Mathlib.Logic.Relation
import Awl.Proofs.EmitRun

/-!
# The machine

What a core does with the instructions of a program. Words are integers. A core has registers, a
private memory with a stack that grows downwards, and the replies of the shared memory that it has
not received yet. An operand that is a label stands for the position that the label is bound to.

`step` serves the requests of a core at once, from a shared memory that no one else uses. Where
other cores may write to it, a core takes a step for some contents of the shared memory
(`Core.Step`).
-/

namespace Awl.Machine

/-- A memory, private or shared: a flat array of words. -/
abbrev Memory := Int → Int

/-- The memory with another word at an address. -/
def Memory.write (m : Memory) (address value : Int) : Memory :=
  fun a => if a = address then value else m a

@[simp] theorem Memory.write_same (m : Memory) (a v : Int) : m.write a v a = v := if_pos rfl

theorem Memory.write_of_ne (m : Memory) {a b : Int} (v : Int) (h : b ≠ a) :
    m.write a v b = m b := if_neg h

structure Core where
  registers : Register → Int
  memory : Memory
  /-- The replies of the shared memory, the oldest one first. -/
  replies : List Int
  /-- The position of the next instruction. -/
  pc : Int

/-- The word that stands for the truth of a condition. -/
def truth (p : Prop) [Decidable p] : Int := if p then 1 else 0

/-- The result of an operator. There is none for a division by zero. -/
def Operator.apply : Operator → Int → Int → Option Int
  | .add, x, y => some (x + y)
  | .sub, x, y => some (x - y)
  | .mul, x, y => some (x * y)
  | .div, x, y => if y = 0 then none else some (x.fdiv y)
  | .mod, x, y => if y = 0 then none else some (x.fmod y)
  | .equal, x, y => some (truth (x = y))
  | .notEqual, x, y => some (truth (x ≠ y))
  | .greater, x, y => some (truth (x > y))
  | .less, x, y => some (truth (x < y))
  | .greaterEqual, x, y => some (truth (x ≥ y))
  | .lessEqual, x, y => some (truth (x ≤ y))
  | .and, x, y => some (x.land y)
  | .or, x, y => some (x.lor y)
  | .xor, x, y => some (x.xor y)

namespace Core

/-- The word in a register. -/
def value (c : Core) : Register → Int
  | .zero => 0
  | .pc => c.pc
  | r => c.registers r

/-- Puts a word into a register. -/
def set (c : Core) (r : Register) (v : Int) : Core :=
  { c with registers := fun x => if x = r then v else c.registers x }

/-- Goes on to the next instruction. -/
def next (c : Core) : Core := { c with pc := c.pc + 1 }

/-- Goes to a position. -/
def goto (c : Core) (pc : Int) : Core := { c with pc }

/-- Writes a word of the private memory. -/
def store (c : Core) (address value : Int) : Core :=
  { c with memory := c.memory.write address value }

/-- Adds a reply of the shared memory. -/
def reply (c : Core) (v : Int) : Core := { c with replies := c.replies ++ [v] }

def address (c : Core) : Address → Int
  | .direct a => a
  | .indirect r => c.value r

end Core

/-- The value of an immediate operand. -/
def Program.immediate? (p : Program) : Immediate → Option Int
  | .value v => some v
  | .label l => (p.target? l).map Int.ofNat

/-- The position that a jump goes to. -/
def Program.goal? (p : Program) (c : Core) : Target → Option Int
  | .label l => (p.target? l).map Int.ofNat
  | .absolute position => some position
  | .indirect r => some (c.value r)

/-- The instruction at a position. -/
def Program.fetch? (p : Program) : Int → Option Instruction
  | .ofNat i => p.instructions.get? i
  | .negSucc _ => none

/-- The effect of an instruction on a core and the shared memory. A core that is done, that waits
for a reply or that divides by zero does not go on. -/
def exec (p : Program) (opcode : OpCode) (operands : List Operand) (c : Core) (m : Memory) :
    Option (Core × Memory) :=
  match opcode, operands with
  | .const, [.immediate i, .register r] => (p.immediate? i).map fun v => (c.next.set r v, m)
  | .compute, [.operator op, .register x, .register y] =>
    (op.apply (c.value x) (c.value y)).map fun v => (c.next.set y v, m)
  | .compute, [.operator op, .register x, .register y, .register z] =>
    (op.apply (c.value x) (c.value y)).map fun v => (c.next.set z v, m)
  | .load, [.address a, .register r] => some (c.next.set r (c.memory (c.address a)), m)
  | .store, [.register r, .address a] => some (c.next.store (c.address a) (c.value r), m)
  | .branch, [.register r, .target t] =>
    if c.value r = 0 then some (c.next, m) else (p.goal? c t).map fun pc => (c.goto pc, m)
  | .jump, [.target t] => (p.goal? c t).map fun pc => (c.goto pc, m)
  | .push, [.register r] =>
    some ((c.next.set .sp (c.value .sp - 1)).store (c.value .sp - 1) (c.value r), m)
  | .pop, [.register r] =>
    some ((c.next.set .sp (c.value .sp + 1)).set r (c.memory (c.value .sp)), m)
  | .read, [.address a] => some (c.next.reply (m (c.address a)), m)
  | .receive, [.register r] => c.replies.head?.map fun v =>
    ({ c.next with replies := c.replies.tail }.set r v, m)
  | .write, [.register r, .address a] => some (c.next, m.write (c.address a) (c.value r))
  | .testAndSet, [.address a] =>
    if m (c.address a) = 0 then some (c.next.reply 1, m.write (c.address a) 1)
    else some (c.next.reply 0, m)
  | .nop, [] => some (c.next, m)
  | _, _ => none

/-- One step of a core. -/
def step (p : Program) (c : Core) (m : Memory) : Option (Core × Memory) :=
  (p.fetch? c.pc).bind fun i => exec p i.opcode i.operands c m

/-- The run from here comes to a state with `Q`. -/
inductive Reach (p : Program) (Q : Core → Memory → Prop) : Core → Memory → Prop
  | here {c : Core} {m : Memory} : Q c m → Reach p Q c m
  | next {c c' : Core} {m m' : Memory} : step p c m = some (c', m') → Reach p Q c' m' →
      Reach p Q c m

namespace Reach

variable {p : Program} {Q R : Core → Memory → Prop} {c : Core} {m : Memory}

theorem bind (h : Reach p Q c m) (k : ∀ c' m', Q c' m' → Reach p R c' m') : Reach p R c m := by
  induction h with
  | here hq => exact k _ _ hq
  | next hs _ ih => exact .next hs ih

theorem mono (h : Reach p Q c m) (k : ∀ c' m', Q c' m' → R c' m') : Reach p R c m :=
  h.bind fun c' m' hq => .here (k c' m' hq)

end Reach

/-! ## Registers -/

namespace Core

variable (c : Core) (r x : Register) (v w a : Int)

theorem value_set_of_ne {r x : Register} (h : x ≠ r) : (c.set r v).value x = c.value x := by
  cases x <;> simp only [value, set, if_neg h]

/-- A register that keeps what is written to it. -/
theorem value_set_self {r : Register} (hz : r ≠ .zero) (hp : r ≠ .pc) :
    (c.set r v).value r = v := by
  cases r <;> simp_all only [value, set, if_true, ne_eq, not_true]

theorem value_congr {c c' : Core} {r : Register} (h : c'.registers = c.registers) (hp : r ≠ .pc) :
    c'.value r = c.value r := by
  cases r <;> simp_all only [value, ne_eq, not_true]

@[simp] theorem value_zero : c.value .zero = 0 := rfl

@[simp] theorem set_memory : (c.set r v).memory = c.memory := rfl

@[simp] theorem set_replies : (c.set r v).replies = c.replies := rfl

@[simp] theorem set_pc : (c.set r v).pc = c.pc := rfl

@[simp] theorem next_memory : c.next.memory = c.memory := rfl

@[simp] theorem next_replies : c.next.replies = c.replies := rfl

@[simp] theorem next_pc : c.next.pc = c.pc + 1 := rfl

@[simp] theorem goto_memory : (c.goto a).memory = c.memory := rfl

@[simp] theorem goto_replies : (c.goto a).replies = c.replies := rfl

@[simp] theorem goto_pc : (c.goto a).pc = a := rfl

@[simp] theorem store_memory : (c.store a v).memory = c.memory.write a v := rfl

@[simp] theorem store_replies : (c.store a v).replies = c.replies := rfl

@[simp] theorem store_pc : (c.store a v).pc = c.pc := rfl

@[simp] theorem reply_memory : (c.reply v).memory = c.memory := rfl

@[simp] theorem reply_replies : (c.reply v).replies = c.replies ++ [v] := rfl

@[simp] theorem reply_pc : (c.reply v).pc = c.pc := rfl

theorem value_next {r : Register} (h : r ≠ .pc) : c.next.value r = c.value r := value_congr rfl h

theorem value_goto {r : Register} (h : r ≠ .pc) : (c.goto a).value r = c.value r :=
  value_congr rfl h

theorem value_store {r : Register} : (c.store a v).value r = c.value r := by
  cases r <;> rfl

end Core

end Awl.Machine
