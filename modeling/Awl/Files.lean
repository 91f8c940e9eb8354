/-!
# Files

The operations on files that the command line needs, in any monad (`FileAccess`), and a tree of
files in memory that has them (`Disk`). A relative path starts in the working directory; besides
files and directories there are a few devices. Every directory may be written to.
-/

namespace Awl

inductive FileError where
  | notFound
  | notADirectory
  | isADirectory
  | nameTooLong
  | noSpace
  | other (text : String)
  deriving DecidableEq, Repr

def FileError.message : FileError → String
  | .notFound => "No such file or directory (os error 2)"
  | .notADirectory => "Not a directory (os error 20)"
  | .isADirectory => "Is a directory (os error 21)"
  | .noSpace => "No space left on device (os error 28)"
  | .nameTooLong => "File name too long (os error 36)"
  | .other text => text

structure FileAccess (m : Type → Type) where
  isFile : String → m Bool
  contents : String → m (Except FileError String)
  /-- Replaces the contents of a file, or creates it. -/
  write : String → String → m (Except FileError Unit)

/-- Things that text can be sent to. -/
inductive Device where
  /-- Takes every text and keeps none. -/
  | null
  /-- Takes every text, too. -/
  | zero
  /-- Takes nothing. -/
  | full
  /-- The standard output of the program. -/
  | stdout
  /-- The standard error of the program. -/
  | stderr
  deriving DecidableEq, Repr

namespace Device

def all : List Device := [null, zero, full, stdout, stderr]

def name : Device → String
  | null => "null"
  | zero => "zero"
  | full => "full"
  | stdout => "stdout"
  | stderr => "stderr"

/-- The device at a place. -/
def at? (place : List String) : Option Device :=
  all.find? fun device => ["dev", device.name] == place

end Device

/-- A tree of files. The place of a file is the list of the names on the way to it from the root,
and the directories on the way exist. -/
structure Disk where
  files : List (List String × String) := []
  /-- The texts that were sent to devices. -/
  sent : List (Device × String) := []
  deriving DecidableEq, Repr

namespace Disk

/-- The most bytes that a name may have. -/
def maxName : Nat := 255

/-- The most bytes that a path may have. -/
def maxPath : Nat := 4095

/-- The place of the working directory. -/
def home : List String := ["tmp", "work"]

/-- Directories that exist without a file in them. -/
def systemDirectories : List (List String) :=
  [["bin"], ["dev"], ["etc"], ["lib"], ["usr"], ["var"]]

/-- The names of a path. The flag is whether the path ends in a slash. -/
def names (path : String) : List String × Bool :=
  let parts := path.splitOn "/"
  (parts.filter (· ≠ ""), parts.getLast? == some "")

def isDirectory (d : Disk) (place : List String) : Bool :=
  place.isPrefixOf home || systemDirectories.contains place
    || d.files.any fun (p, _) => place.isPrefixOf p && place.length < p.length

/-- Whether something is at a place that is no directory. -/
def isTaken (d : Disk) (place : List String) : Bool :=
  (d.files.lookup place).isSome || (Device.at? place).isSome

/-- Enters directories one after the other, from the directory at `place` on. Above the root is the
root. -/
def enter (d : Disk) (place : List String) : List String → Except FileError (List String)
  | [] => .ok place
  | "." :: names => d.enter place names
  | ".." :: names => d.enter place.dropLast names
  | name :: names =>
    let place := place ++ [name]
    if maxName < name.utf8ByteSize then .error .nameTooLong
    else if d.isDirectory place then d.enter place names
    else if d.isTaken place then .error .notADirectory
    else .error .notFound

/-- The place that a path names. Throws `isADirectory` if no file can be there. -/
def locate (d : Disk) (path : String) : Except FileError (List String) := do
  if path.isEmpty then throw .notFound
  if maxPath < path.utf8ByteSize then throw .nameTooLong
  let (names, slash) := names path
  let directory ← d.enter (if path.startsWith "/" then [] else home) names.dropLast
  match names.getLast? with
  | none | some "." | some ".." => throw .isADirectory
  | some name =>
    let place := directory ++ [name]
    if slash || d.isDirectory place then throw .isADirectory
    if maxName < name.utf8ByteSize then throw .nameTooLong
    return place

/-- The text of a file. -/
def contents (d : Disk) (path : String) : Except FileError String := do
  match d.files.lookup (← d.locate path) with
  | some text => return text
  | none => throw .notFound

def isFile (d : Disk) (path : String) : Bool := (d.contents path).isOk

/-- Adds a file in front of all others. -/
def add (d : Disk) (place : List String) (text : String) : Disk :=
  { d with files := (place, text) :: d.files.filter fun (p, _) => p ≠ place }

def write (d : Disk) (path text : String) : Except FileError Disk := do
  let place ← d.locate path
  match Device.at? place with
  | none => return d.add place text
  | some .full => throw .noSpace
  | some device => return { d with sent := d.sent ++ [(device, text)] }

/-- The text that was sent to a device. -/
def sentTo (d : Disk) (device : Device) : String :=
  String.join ((d.sent.filter (·.1 == device)).map (·.2))

/-- A disk with files of given paths in the working directory. -/
def ofFiles (files : List (String × String)) : Disk :=
  files.foldl (fun d (path, text) => d.add (home ++ (names path).1) text) {}

def access : FileAccess (StateM Disk) where
  isFile path := return (← get).isFile path
  contents path := return (← get).contents path
  write path text := do
    match (← get).write path text with
    | .ok d =>
      set d
      return .ok ()
    | .error e => return .error e

end Disk

end Awl
