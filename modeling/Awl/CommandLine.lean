import Awl.Compile
import Awl.Files
import Awl.Syntax.Decode

/-!
# The command line

`awlc` reads units from files, compiles them as one, and writes the listing. Arguments are looked at
from left to right; the first one that is wrong, or that asks for the version or for help, decides.
-/

namespace Awl.CommandLine

open Text (Styled)

/-! ## Arguments -/

structure Settings where
  /-- The files of the units, which are merged in this order. -/
  sources : List String := []
  /-- The number of words of shared memory. -/
  sharedMemory : Option Nat := none
  noComments : Bool := false
  noColor : Bool := false
  /-- The file that the listing is written to. -/
  output : Option String := none
  checkOnly : Bool := false
  deriving DecidableEq, Repr

/-- Why nothing is compiled. -/
inductive Stop where
  | version
  | help
  /-- The arguments are wrong. -/
  | usage (text : String)
  deriving DecidableEq, Repr

inductive OptionName where
  | sharedMemory | noComments | noColor | output | checkOnly | help | version
  deriving DecidableEq, Repr

def OptionName.long : OptionName → String
  | .sharedMemory => "shared-memory"
  | .noComments => "no-comments"
  | .noColor => "no-color"
  | .output => "output"
  | .checkOnly => "check-only"
  | .help => "help"
  | .version => "version"

def OptionName.short? : OptionName → Option Char
  | .output => some 'o'
  | .help => some 'h'
  | .version => some 'V'
  | _ => none

def OptionName.all : List OptionName :=
  [.sharedMemory, .noComments, .noColor, .output, .checkOnly, .help, .version]

def OptionName.takesValue : OptionName → Bool
  | .sharedMemory | .output => true
  | _ => false

/-- What an argument is. -/
inductive Argument where
  | value (text : String)
  /-- After this one all arguments are values. -/
  | escape
  | option (name : OptionName) (attached : Option String)
  | unknown

/-- The text after the first equals sign, and the text before it. -/
def splitAtEquals (cs : List Char) : String × Option String :=
  let name := cs.takeWhile (· ≠ '=')
  match cs.dropWhile (· ≠ '=') with
  | [] => (String.ofList name, none)
  | _ :: value => (String.ofList name, some (String.ofList value))

def longOption (cs : List Char) : Argument :=
  let (name, value) := splitAtEquals cs
  match OptionName.all.find? (·.long == name) with
  | some option => .option option value
  | none => .unknown

/-- An option of one letter. A value may follow directly, with or without an equals sign. -/
def shortOption (letter : Char) (rest : List Char) : Argument :=
  match OptionName.all.find? (·.short? == some letter) with
  | none => .unknown
  | some option =>
    if !option.takesValue then .option option none
    else match rest with
      | [] => .option option none
      | '=' :: value => .option option (some (String.ofList value))
      | value => .option option (some (String.ofList value))

def Argument.ofText (text : String) : Argument :=
  match text.toList with
  | ['-', '-'] => .escape
  | '-' :: '-' :: cs => longOption cs
  | '-' :: letter :: rest => shortOption letter rest
  | _ => .value text

/-- A decimal number with an optional sign. -/
def signedNumber (text : String) : Option Int :=
  let digits := fun cs =>
    if cs.isEmpty || !cs.all Char.isDigit then none
    else some (cs.foldl (fun n c => n * 10 + (c.toNat - '0'.toNat)) 0)
  match text.toList with
  | '+' :: cs => (digits cs).map Int.ofNat
  | '-' :: cs => (digits cs).map fun n => -Int.ofNat n
  | cs => (digits cs).map Int.ofNat

/-- A number of words of memory. -/
def memorySize (text : String) : Except Stop Nat :=
  match signedNumber text with
  | some n =>
    if 0 ≤ n && n ≤ 4294967295 then .ok n.toNat
    else .error (.usage (text ++ " is not in 0..=4294967295"))
  | none => .error (.usage ("invalid value '" ++ text ++ "' for '--shared-memory'"))

/-- A file name, which is not empty. -/
def fileName (text : String) : Except Stop String :=
  if text.isEmpty then .error (.usage "a value is required") else .ok text

namespace Settings

def addSource (s : Settings) (text : String) : Except Stop Settings := do
  return { s with sources := s.sources ++ [← fileName text] }

def repeated (name : OptionName) : Stop :=
  .usage ("the argument '--" ++ name.long ++ "' cannot be used multiple times")

/-- Sets an option that takes a value. -/
def setValue (s : Settings) (name : OptionName) (value : String) : Except Stop Settings := do
  match name with
  | .sharedMemory =>
    if s.sharedMemory.isSome then throw (repeated name)
    return { s with sharedMemory := some (← memorySize value) }
  | .output =>
    if s.output.isSome then throw (repeated name)
    return { s with output := some (← fileName value) }
  | _ => throw (.usage ("unexpected value for '--" ++ name.long ++ "'"))

/-- Sets an option that takes no value. -/
def setFlag (s : Settings) (name : OptionName) : Except Stop Settings := do
  match name with
  | .noComments =>
    if s.noComments then throw (repeated name)
    return { s with noComments := true }
  | .noColor =>
    if s.noColor then throw (repeated name)
    return { s with noColor := true }
  | .checkOnly =>
    if s.checkOnly then throw (repeated name)
    return { s with checkOnly := true }
  | .help => throw .help
  | .version => throw .version
  | _ => throw (.usage ("a value is required for '--" ++ name.long ++ "'"))

/-- Reads arguments into settings. -/
def read (s : Settings) : List String → Except Stop Settings
  | [] => .ok s
  | text :: rest =>
    match Argument.ofText text with
    | .escape => rest.foldlM addSource s
    | .unknown => .error (.usage ("unexpected argument '" ++ text ++ "' found"))
    | .value v => do (← s.addSource v).read rest
    | .option name (some value) => do (← s.setValue name value).read rest
    | .option name none =>
      if name.takesValue then
        match rest with
        | [] => .error (.usage ("a value is required for '--" ++ name.long ++ "'"))
        | next :: rest =>
          match Argument.ofText next with
          | .value v => do (← s.setValue name v).read rest
          | _ => .error (.usage ("a value is required for '--" ++ name.long ++ "'"))
      else do (← s.setFlag name).read rest

def options (s : Settings) : Code.Options :=
  { sharedMemory := s.sharedMemory.getD 256, comments := !s.noComments }

end Settings

/-! ## Running -/

structure Outcome where
  exit : Nat
  stdout : String := ""
  stderr : String := ""
  deriving DecidableEq, Repr

def versionText : String := "awlc 0.1.0\n"

def helpText : String :=
  "Awesome Language compiler for the Sprockell multi-core machine\n\n"
    ++ "Usage: awlc [OPTIONS] [SOURCE_FILES]...\n\n"
    ++ "Arguments:\n"
    ++ "  [SOURCE_FILES]...  JSON encoded compilation units, merged in order\n\n"
    ++ "Options:\n"
    ++ "      --shared-memory <SHARED_MEMORY>  "
    ++ "Words of shared memory on the target machine [default: 256]\n"
    ++ "      --no-comments                    Leave descriptive comments out of the listing\n"
    ++ "      --no-color                       Disable colored output\n"
    ++ "  -o, --output <OUTPUT>                Write the listing to a file instead of stdout\n"
    ++ "      --check-only                     Stop after type checking\n"
    ++ "  -h, --help                           Print help\n"
    ++ "  -V, --version                        Print version\n"

/-- Wrong arguments give exit code 2. -/
def Stop.outcome : Stop → Outcome
  | .version => { exit := 0, stdout := versionText }
  | .help => { exit := 0, stdout := helpText }
  | .usage text => { exit := 2, stderr := "error: " ++ text ++ "\n" }

/-- A line that starts with the word `error`. -/
def errorLine (text : String) : Styled := [.colored .boldRed "error", .plain (": " ++ text ++ "\n")]

/-- What is shown about a unit that has no program. -/
def errorReport (e : CompileError) : Styled :=
  let summary := errorLine e.message
  match e with
  | .rejected ds => ds.flatMap (fun d => d.styled ++ [.plain "\n"]) ++ summary
  | .internal _ => summary

def screenStyle (colors : Bool) : Text.Style := if colors then .color else .plain

/-- A failure with a report. -/
def failure (colors : Bool) (report : Styled) : Outcome :=
  { exit := 1, stderr := report.render (screenStyle colors) }

/-- The text of a listing in a file: what the screen would show, without escape sequences. -/
def fileText (colors : Bool) (listing : Styled) : String :=
  String.ofList (Text.strip (listing.render (screenStyle colors)).toList)

section

variable {m : Type → Type} [Monad m] (files : FileAccess m)

/-- The first of several paths that is not a file. -/
def firstMissing : List String → m (Option String)
  | [] => return none
  | path :: paths => do
    if ← files.isFile path then firstMissing paths else return some path

/-- Reads units and adds them to `u`. The error is a text for the user. -/
def readUnits (u : SourceUnit) (nextId : NodeId) : List String → m (Except String SourceUnit)
  | [] => return .ok u
  | path :: paths => do
    let failed := fun text => .error ("failed to read '" ++ path ++ "': " ++ text)
    match ← files.contents path with
    | .error e => return failed e.message
    | .ok text =>
      match SourceUnit.ofText nextId text with
      | .error e => return failed e.message
      | .ok (v, nextId) => readUnits (u.merge v) nextId paths

/-- Writes the listing to a file, or shows it. -/
def deliver (colors : Bool) (output : Option String) (listing : Styled) : m Outcome := do
  match output with
  | none => return { exit := 0, stdout := listing.render (screenStyle colors) }
  | some path =>
    match ← files.write path (fileText colors listing) with
    | .ok () => return { exit := 0 }
    | .error e =>
      return failure colors (errorLine ("failed to write '" ++ path ++ "': " ++ e.message))

/-- Checks or compiles a unit. -/
def process (colors : Bool) (s : Settings) (u : SourceUnit) : m Outcome := do
  if s.checkOnly then
    match u.check with
    | .ok _ => return { exit := 0 }
    | .error e => return failure colors (errorReport e.toCompileError)
  else
    match u.compile s.options with
    | .ok program => deliver files colors s.output program.listing
    | .error e => return failure colors (errorReport e)

/-- Runs the program. `colors` is whether the terminal shows colors. -/
def run (colors : Bool) (arguments : List String) : m Outcome := do
  match Settings.read {} arguments with
  | .error stop => return stop.outcome
  | .ok s =>
    let colors := colors && !s.noColor
    if s.sources.isEmpty then return (Stop.usage "Missing source files!").outcome
    match ← firstMissing files s.sources with
    | some path => return (Stop.usage ("Input path '" ++ path ++ "' is not a file!")).outcome
    | none =>
      match ← readUnits files {} 0 s.sources with
      | .error text => return failure colors (errorLine text)
      | .ok u => process files colors s u

end

end Awl.CommandLine
