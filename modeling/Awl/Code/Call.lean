import Awl.Code.Emit

/-!
# Calls

A frame of `n` slots lies directly above the saved frame pointer, the return address and the slot of
the result:

    arp + n    last variable
    ...
    arp + 1    first argument
    arp        frame pointer of the caller
    arp - 1    return address
    arp - 2    result
    ...        registers saved by the caller

The caller builds the whole record and saves its registers below it. It lets the frame pointer point
at the new record just before it jumps, and restores the frame and stack pointers afterwards. The
callee writes its result and jumps back.
-/

namespace Awl.Code

open Machine

namespace Emit

/-- Calls the routine at a label. `pushArguments` pushes the arguments, the last one first. The
result is in a fresh register. -/
def call (entry : LabelId) (frameSize arguments : Nat) (pushArguments : Emit Unit) :
    Emit Register := do
  if frameSize < arguments then throw (.fault .frameOverflow)
  pushZeros (frameSize - arguments)
  pushArguments
  let returnLabel ← createLabel "return"
  push .arp
  constantLabel returnLabel .arp
  push .arp
  push .zero
  let saved ← inUse
  saved.forM push
  constant (saved.length + 2) .arp
  compute .add .sp .arp .arp
  jump (.label entry)
  anchor returnLabel
  saved.reverse.forM pop
  -- The frame pointer still points at the record of the callee.
  let result ← allocate
  constant (frameSize + 1) result
  compute .add .arp result .sp
  constant 2 result
  compute .sub .arp result result
  load (.indirect result) result
  load (.indirect .arp) .arp
  return result

/-- Pushes a value that is not needed any more. -/
def pushLast (r : Register) : Emit Unit := do
  push r
  release r

/-- Calls a function. -/
def callFunction (f : FunctionId) (arguments : Nat) (pushArguments : Emit Unit) :
    Emit Register := do
  let scope ← frameScope f
  let frameSize ← query (·.scopes.frameSize scope)
  let label ← entry f
  let first ← here
  let result ← call label frameSize arguments pushArguments
  comment first ("call " ++ (← entryName f))
  return result

/-- Allocates as many words of the heap as a register says, and releases the register. -/
def alloc (size : Register) : Emit Register := do
  call (← read).allocator 1 1 (pushLast size)

/-- Runs the routine that initializes the fields of an object. -/
def initializeObject (entry : LabelId) (object : Register) : Emit Unit := do
  let result ← call entry 1 1 (push object)
  release result

/-- Starts a thread. The register is the result of the call. -/
def launch (f : FunctionId) (name : String) : Emit Register := do
  let env ← read
  let thread ← expect .thread (env.threads.findIdx? (· == f))
  let r ← allocate
  let first ← here
  constant 1 r
  writeShared r (.direct (env.layout.threadFlag thread))
  comment first ("launch " ++ name)
  return r

/-- Stores the result, if there is one, and jumps to the return address. -/
def jumpBack (result : Option Register) : Emit Unit := do
  let r ← allocate
  match result with
  | none => pure ()
  | some value =>
    constant 2 r
    compute .sub .arp r r
    store value (.indirect r)
  constant 1 r
  compute .sub .arp r r
  load (.indirect r) r
  jump (.indirect r)
  release r

/-- Builds the outermost record of a core. To return from it is to jump to `exit`. -/
def enterRootFrame (frameSize : Nat) (exit : LabelId) : Emit Unit := do
  pushZeros frameSize
  push .arp
  constantLabel exit .arp
  push .arp
  push .zero
  constant 2 .arp
  compute .add .sp .arp .arp

/-- The allocator, a routine that all cores share. It takes a number of words and answers with the
heap pointer, which it moves on under a lock. -/
def allocatorRoutine : Emit Unit := do
  let env ← read
  let locked ← createLabel "alloc_locked"
  let lock := .direct env.layout.allocatorLock
  let heap := .direct env.layout.heapPointer
  let base ← allocate
  let size ← allocate
  let first ← here
  testAndSet lock
  bind env.allocator first
  comment first "allocate heap memory"
  receive base
  branch base locked
  jump (.label env.allocator)
  let start ← here
  readShared heap
  bind locked start
  receive base
  constant 1 size
  compute .add .arp size size
  load (.indirect size) size
  compute .add base size size
  writeShared size heap
  writeShared .zero lock
  release size
  jumpBack (some base)
  release base

/-- Tries to take a lock until it is free. -/
def acquire (lock : Address) : Emit Unit := do
  let retry ← createLabel "acquire"
  let acquired ← createLabel "acquired"
  let r ← allocate
  let first ← here
  testAndSet lock
  bind retry first
  receive r
  branch r acquired
  jump (.label retry)
  anchor acquired
  release r

end Emit

end Awl.Code
