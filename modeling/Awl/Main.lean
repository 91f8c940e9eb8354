import Awl.CommandLine

/-!
# The program

The command line on the files of the system.
-/

namespace Awl.CommandLine

/-- The file error for a failed operation of the system. -/
def fileErrorOf : IO.Error → FileError
  | .noFileOrDirectory .. => .notFound
  | .inappropriateType .. => .isADirectory
  | e => .other (toString e)

def systemFiles : FileAccess IO where
  isFile path := do
    try
      discard <| IO.FS.readBinFile path
      return true
    catch _ => return false
  contents path := do
    match String.fromUTF8? (← IO.FS.readBinFile path) with
    | some text => return .ok text
    | none => return .error (.other "stream did not contain valid UTF-8")
  write path text := do
    try
      IO.FS.writeFile path text
      return .ok ()
    catch e => return .error (fileErrorOf e)

/-- Whether a variable of the environment is set, and set to anything but 0. -/
def environmentSwitch (name : String) : IO (Option Bool) := do
  return (← IO.getEnv name).map (· ≠ "0")

/-- Whether the output is colored: as the environment says, and otherwise on a terminal. -/
def showsColors : IO Bool := do
  if (← environmentSwitch "CLICOLOR_FORCE") == some true then return true
  if (← environmentSwitch "NO_COLOR").isSome then return false
  return (← environmentSwitch "CLICOLOR").getD true && (← (← IO.getStdout).isTty)

end Awl.CommandLine

open Awl.CommandLine in
def main (args : List String) : IO UInt32 := do
  let outcome ← run systemFiles (← showsColors) args
  IO.print outcome.stdout
  IO.eprint outcome.stderr
  return outcome.exit.toUInt32
