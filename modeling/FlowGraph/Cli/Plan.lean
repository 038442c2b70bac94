/-! # Plans

    What a command does to the outside, as data: lines to print, a file to
    read or to write, and what to do with the result. Running a plan decides
    nothing.

    `Plan.runOn` runs a plan on a directory that is held in memory, without a
    terminal.
-/

namespace FlowGraph

namespace Cli

/-- Why a file could not be read. -/
inductive ReadFailure where
  | notFound
  | permissionDenied
  | notText
  | other (reason : String)
  deriving DecidableEq, Repr

def ReadFailure.message (path : String) : ReadFailure → String
  | .notFound => s!"cannot find file '{path}'"
  | .permissionDenied => s!"permission denied reading '{path}'"
  | .notText => s!"'{path}' contains invalid UTF-8 data"
  | .other reason => s!"error reading '{path}': {reason}"

inductive Plan where
  | exit (code : Nat)
  /-- Bytes for the standard output. -/
  | print (bytes : ByteArray) (next : Plan)
  /-- A line for the standard error output. -/
  | report (line : String) (next : Plan)
  | read (path : String) (next : Except ReadFailure String → Plan)
  /-- A failure to write is given by its reason. -/
  | write (path : String) (bytes : ByteArray) (next : Except String Unit → Plan)
  /-- Asks whether the standard output is a terminal. -/
  | terminal (next : Bool → Plan)

namespace Plan

/-- Prints lines of text. -/
def printLines (lines : List String) (next : Plan) : Plan :=
  .print (String.join (lines.map (· ++ "\n"))).toUTF8 next

/-- Reports lines one after the other. -/
def reportLines : List String → Plan → Plan
  | [], next => next
  | line :: rest, next => .report line (reportLines rest next)

/-- Reports an error and gives up. -/
def fail (reason : String) : Plan := .report ("error: " ++ reason) (.exit 1)

end Plan

/-! ## A directory in memory -/

/-- The names in a path; an empty one or a dot adds nothing. -/
def pathNames (path : String) : List String :=
  (path.splitOn "/").filter fun name => name != "" && name != "."

/-- Why a path does not lead to a file. -/
inductive PathFailure where
  | missing
  | notADirectory
  | isADirectory
  | nameTooLong
  deriving DecidableEq, Repr

def PathFailure.reason : PathFailure → String
  | .missing => "No such file or directory (os error 2)"
  | .notADirectory => "Not a directory (os error 20)"
  | .isADirectory => "Is a directory (os error 21)"
  | .nameTooLong => "File name too long (os error 36)"

/-- A directory on the way of a path: one that the names lead to from the
    directory in memory, or one outside of it, where nothing is known. -/
inductive Place where
  | inside (names : List String)
  | outside
  deriving DecidableEq, Repr

def Place.parent : Place → Place
  | .inside [] => .outside
  | .inside names => .inside names.dropLast
  | .outside => .outside

/-- What a name in a directory stands for. -/
inductive Entry where
  | directory (names : List String)
  | file (names : List String) (bytes : ByteArray)

/-- Files and directories by the names in their paths. -/
structure Disk where
  files : List (List String × ByteArray)
  directories : List (List String)

namespace Disk

/-- The names lead to a directory: to the one in memory, one that was made,
    or one on the way to another or to a file. -/
def isDirectory (d : Disk) (names : List String) : Bool :=
  names.isEmpty || d.directories.any names.isPrefixOf ||
    d.files.any fun file => names.isPrefixOf file.1.dropLast

/-- The files of the directory itself by their names, without those in the
    directories below it. -/
def ownFiles (d : Disk) : List (String × ByteArray) :=
  d.files.filterMap fun
    | ([name], bytes) => some (name, bytes)
    | _ => none

/-- The longest name, in bytes. -/
def nameLimit : Nat := 255

/-- The bytes that a path must stay below. -/
def pathLimit : Nat := 4096

/-- Looks a name up. -/
def entry? (d : Disk) (place : Place) (name : String) : Except PathFailure (Option Entry) :=
  if nameLimit < name.utf8ByteSize then .error .nameTooLong
  else match place with
    | .outside => .ok none
    | .inside above =>
      let names := above ++ [name]
      if d.isDirectory names then .ok (some (.directory names))
      else .ok ((d.files.lookup names).map (.file names))

/-- Goes on to the directory of that name. -/
def enter (d : Disk) (place : Place) (name : String) : Except PathFailure Place :=
  if name == "." then .ok place
  else if name == ".." then .ok place.parent
  else do
    match ← d.entry? place name with
    | none => .error .missing
    | some (.file _ _) => .error .notADirectory
    | some (.directory names) => .ok (.inside names)

/-- The end of a path: a name in a directory, or the directory itself if the
    path ends with dots or is the root. -/
inductive Goal where
  | directory
  | name (place : Place) (name : String)

/-- Walks along a path up to its last name. -/
def walk (d : Disk) (path : String) : Except PathFailure Goal := do
  if path == "" then throw .missing
  if pathLimit ≤ path.utf8ByteSize then throw .nameTooLong
  let names := (path.splitOn "/").filter (· != "")
  let start := if path.startsWith "/" then Place.outside else .inside []
  let place ← names.dropLast.foldlM d.enter start
  match names.getLast? with
  | none | some "." | some ".." => return .directory
  | some name => return .name place name

/-- Only a directory may be meant by a path that ends with a slash. -/
def meansDirectory (path : String) : Bool := path.endsWith "/"

def find (d : Disk) (path : String) : Except PathFailure ByteArray := do
  match ← d.walk path with
  | .directory => throw .isADirectory
  | .name place name =>
    match ← d.entry? place name with
    | none => throw .missing
    | some (.directory _) => throw .isADirectory
    | some (.file _ bytes) => if meansDirectory path then throw .notADirectory else return bytes

def read (d : Disk) (path : String) : Except ReadFailure String :=
  match d.find path with
  | .error .missing => .error .notFound
  | .error failure => .error (.other failure.reason)
  | .ok bytes =>
    match String.fromUTF8? bytes with
    | some text => .ok text
    | none => .error .notText

/-- The disk with a file at the path. A file outside is not kept. -/
def place (d : Disk) (path : String) (bytes : ByteArray) : Except PathFailure Disk := do
  match ← d.walk path with
  | .directory => throw .isADirectory
  | .name place name =>
    if meansDirectory path then throw .isADirectory
    match ← d.entry? place name, place with
    | some (.directory _), _ => throw .isADirectory
    | _, .outside => return d
    | _, .inside above =>
      let names := above ++ [name]
      return { d with files := (names, bytes) :: d.files.filter fun file => file.1 != names }

def write (d : Disk) (path : String) (bytes : ByteArray) : Except String Disk :=
  (d.place path bytes).mapError PathFailure.reason

end Disk

/-- What a command leaves behind. -/
structure Report where
  code : Nat
  output : ByteArray
  errors : String
  disk : Disk

/-- Runs a plan on a directory in memory. -/
def Plan.runOn (disk : Disk) : Plan → Report
  | .exit code => ⟨code, .empty, "", disk⟩
  | .print bytes next =>
    let report := next.runOn disk
    { report with output := bytes ++ report.output }
  | .report line next =>
    let report := next.runOn disk
    { report with errors := line ++ "\n" ++ report.errors }
  | .read path next => (next (disk.read path)).runOn disk
  | .write path bytes next =>
    match disk.write path bytes with
    | .ok disk => (next (.ok ())).runOn disk
    | .error reason => (next (.error reason)).runOn disk
  | .terminal next => (next false).runOn disk

end Cli

end FlowGraph
