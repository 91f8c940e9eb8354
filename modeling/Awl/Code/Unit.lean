import Awl.Code.Stmt

/-!
# Code of a unit

Every core runs the same program. Its first instructions send each thread core to its thread; core 0
falls through into the main code. After it come the functions, the routines that initialize fields,
the allocator and the threads.
-/

namespace Awl.Code

open Machine

/-- A program with what is needed to run its threads. -/
structure Generated where
  program : Program
  layout : StaticLayout
  /-- The thread functions. The one at index `i` runs on core `i + 1`. -/
  threads : List FunctionId

/-- The address of the word that starts a thread. -/
def Generated.threadFlag? (g : Generated) (f : FunctionId) : Option Nat :=
  (g.threads.findIdx? (· == f)).map g.layout.threadFlag

/-- The name of a function in labels. -/
def functionLabel (f : Function) : String :=
  match f.owner with
  | some c => if f.isConstructor then c.name ++ ".new" else c.name ++ "." ++ f.name
  | none => f.name

/-- Whether a class has fields to initialize. -/
def hasInitializers (c : ClassDef) : Bool := c.fields.any (·.initializer.isSome)

/-- The definitions that the functions of a table come from, in source order. -/
def definitions (functions : FunctionTable) (u : SourceUnit) : List (FunctionId × FunctionBody) :=
  let bodies := u.classes.flatMap (fun c =>
    c.methods.map (fun m => (m.node.id, m.body))
      ++ c.constructors.map (fun k => (k.node.id, FunctionBody.block k.body)))
    ++ u.functions.map (fun f => (f.node.id, f.body))
  bodies.filterMap fun (node, body) => (functions.lookup node).map (·, body)

namespace Emit

/-- Sends the thread cores to their threads, which are numbered from `index` on. -/
def dispatch (index : Nat) : List FunctionId → Emit Unit
  | [] => pure ()
  | f :: fs => do
    let r ← allocate
    let first ← here
    constant (index + 1) r
    compute .equal .sprId r r
    branch r (← entry f)
    release r
    let name := (← query (·.functions.get f)).name
    comment first ("core " ++ toString (index + 1) ++ " runs thread " ++ name)
    dispatch (index + 1) fs

/-- The code of core 0. -/
def mainCode (statements : List Stmt) : Emit Unit := do
  let exit ← createLabel "main_exit"
  let frameSize ← query fun t => t.scopes.frameSize ScopeTree.globalId
  let first ← here
  enterRootFrame frameSize exit
  comment first "main"
  stmts {} statements
  let last ← here
  endProgram
  bind exit last

/-- The code of a function that can be called. To run off its end is to return. -/
def function (f : FunctionId) (body : FunctionBody) : Emit Unit := do
  requireAllFree
  let context := { function := some (← frameScope f) }
  let first ← here
  match body with
  | .block b =>
    stmts context b.statements
    jumpBack none
  | .expression e => returnStatement context (some e)
  bind (← entry f) first
  comment first ("function " ++ (← entryName f))

/-- Stores the initial values of fields into the object that the routine is called with. -/
def initializeFields (scope : ScopeId) : List Declaration → Emit Unit
  | [] => pure ()
  | field :: fields => do
    match field.initializer with
    | none => pure ()
    | some initializer =>
      let offset ← expect .fieldOffset (← query (·.scopes.offset? scope field.name))
      let value ← expr {} initializer
      let object ← loadPlace (.frame 0)
      writeElement object offset value
      release object
      release value
    initializeFields scope fields

/-- The routine that initializes the fields of a class. -/
def initializerRoutine (c : ClassDef) (label : LabelId) : Emit Unit := do
  requireAllFree
  let scope ← memberScope c.name
  let first ← here
  initializeFields scope c.fields
  jumpBack none
  bind label first
  comment first ("initialize fields of " ++ c.name)

/-- The code of a thread. It waits until its flag is set. -/
def thread (index : Nat) (f : FunctionId) (body : FunctionBody) : Emit Unit := do
  let flag := (← read).layout.threadFlag index
  let label ← entry f
  let r ← allocate
  let first ← here
  readShared (.direct flag)
  bind label first
  receive r
  compute .equal .zero r r
  branch r label
  release r
  comment first ("thread " ++ (← entryName f) ++ " waits for its flag")
  let scope ← frameScope f
  let exit ← createLabel "thread_exit"
  enterRootFrame (← query (·.scopes.frameSize scope)) exit
  match body with
  | .block b => stmts { function := some scope } b.statements
  | .expression e => release (← expr { function := some scope } e)
  let last ← here
  endProgram
  bind exit last

/-- The code of all threads, which are numbered from `index` on. -/
def threads (index : Nat) : List (FunctionId × FunctionBody) → Emit Unit
  | [] => pure ()
  | (f, body) :: rest => do
    thread index f body
    threads (index + 1) rest

/-- The code of a unit. -/
def unit (u : SourceUnit) : Emit Unit := do
  let env ← read
  dispatch 0 env.threads
  mainCode u.statements
  let bodies := definitions env.tables.functions u
  let callable := bodies.filter fun (f, _) => !env.threads.contains f
  callable.forM fun (f, body) => function f body
  u.classes.forM fun c =>
    match env.initializers.lookup c.name with
    | some label => initializerRoutine c label
    | none => pure ()
  allocatorRoutine
  threads 0 (env.threads.filterMap fun f => (bodies.lookup f).map (f, ·))

end Emit

/-- Adds a label for each name. -/
def createLabels (p : Program) : List String → List LabelId × Program
  | [] => ([], p)
  | name :: names =>
    let (l, p) := p.createLabel name
    let (ls, p) := createLabels p names
    (l :: ls, p)

/-- Generates the program of a unit from its tables. -/
def generate (u : SourceUnit) (tables : Tables) (options : Options) :
    Except CodeError Generated := do
  let threads := tables.functions.threads
  let globals ← orFault (tables.scopes.frameSize ScopeTree.globalId)
  let layout ← StaticLayout.place options.sharedMemory threads.length globals
  let program : Program := { cores := threads.length + 1 }
  let functions := tables.functions.functions.toList
  let (entries, program) := createLabels program (functions.map functionLabel)
  let classes := (u.classes.filter hasInitializers).filter fun c =>
    (tables.types.class? c.name).isSome
  let names := classes.map (·.name)
  let (labels, program) := createLabels program (names.map (· ++ ".init"))
  let (allocator, program) := program.createLabel "alloc"
  let env := {
    tables, options, layout, threads, allocator
    entries := { items := entries.toArray }
    -- Of two classes with one name, the last one counts.
    initializers := (names.zip labels).reverse }
  let ((), s) ← ((Emit.unit u).run env).run { program }
  return { program := s.program, layout, threads }

end Awl.Code
