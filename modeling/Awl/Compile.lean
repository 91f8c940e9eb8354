import Awl.Code.Unit
import Awl.Machine.Listing
import Awl.Typing.Unit

/-!
# Compilation

From a unit to its finished program: checking, code generation, resolution of labels.
-/

namespace Awl

open Machine Code

inductive CompileError where
  /-- The unit is not well typed. -/
  | rejected (diagnostics : List Diagnostic)
  /-- The unit has no program. -/
  | internal (error : CodeError)

def CompileError.message : CompileError → String
  | .rejected ds => "compilation failed with " ++ toString ds.length ++ " error(s)"
  | .internal e => "internal compiler error: " ++ e.message

def CheckError.toCompileError : CheckError → CompileError
  | .rejected ds => .rejected ds
  | .fault f => .internal (.fault f)

/-- The program of a unit. Nothing is generated for a unit that is not well typed. -/
def SourceUnit.compile (u : SourceUnit) (options : Options) :
    Except CompileError ResolvedProgram := do
  let tables ← u.check.mapError CheckError.toCompileError
  let generated ← (generate u tables options).mapError CompileError.internal
  generated.program.resolve.mapError CompileError.internal

end Awl
