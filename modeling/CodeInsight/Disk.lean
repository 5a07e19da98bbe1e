import CodeInsight.Text.Encoding
import CodeInsight.Failure
import CodeInsight.Order
import CodeInsight.Path

/-!
# A tree of files

The part of a file system that a project needs: files and directories with the operations to read,
write, move and remove them. A location is the list of names on the way from the root.
-/

namespace CodeInsight

inductive Entry where
  | file (content : Bytes)
  | directory
  deriving DecidableEq, Repr

/-- Files and directories. The root is always a directory. -/
structure Disk where
  cwd : List Text
  entries : List (List Text × Entry)
  deriving DecidableEq, Repr

namespace Disk

/-- Longest name of a file, in bytes. -/
def maxName : Nat := 255

def entry? (disk : Disk) (location : List Text) : Option Entry :=
  if location = [] then some .directory else disk.entries.lookup location

def put (disk : Disk) (location : List Text) (entry : Entry) : Disk :=
  { disk with
    entries := (location, entry) :: disk.entries.filter fun e => e.1 ≠ location }

def drop (disk : Disk) (location : List Text) : Disk :=
  { disk with entries := disk.entries.filter fun e => e.1 ≠ location }

/-- The location one step on, if a name may stand there. -/
def step (here : List Text) (piece : Text) : Except FileError (List Text) :=
  if Path.isIdle piece then .ok here
  else if piece = ['.', '.'] then .ok here.dropLast
  else if maxName < Text.size piece then .error (.other none)
  else .ok (here ++ [piece])

/-- Follows the pieces of a path. Every step starts from a directory. -/
def follow (disk : Disk) : List Text → List Text → Except FileError (List Text)
  | here, [] => .ok here
  | here, piece :: rest =>
    match disk.entry? here with
    | none => .error .missing
    | some (.file _) => .error (.other none)
    | some .directory => do disk.follow (← step here piece) rest

def start (disk : Disk) (path : String) : List Text := if Path.isAbsolute path then [] else disk.cwd

/-- The location of a path, whose last name need not exist. -/
def locate (disk : Disk) (path : String) : Except FileError (List Text) :=
  if path = "" then .error .missing
  else if path.toList.contains '\x00' then .error (.other none)
  else disk.follow (disk.start path) (Path.segments path)

def present (disk : Disk) (path : String) : Bool :=
  match disk.locate path with
  | .ok location => (disk.entry? location).isSome
  | .error _ => false

def read (disk : Disk) (path : String) : Except FileError Bytes := do
  match disk.entry? (← disk.locate path) with
  | some (.file content) => return content
  | some .directory => throw (.other none)
  | none => throw .missing

def readText (disk : Disk) (path : String) : Except FileError Text := do
  match Text.decode? (← disk.read path) with
  | some text => return text
  | none => throw .notText

def write (disk : Disk) (path : String) (content : Bytes) : Except FileError Disk := do
  let location ← disk.locate path
  match disk.entry? location with
  | some .directory => throw (.other none)
  | _ => return disk.put location (.file content)

def makeAlong (disk : Disk) : List Text → List Text → Except FileError Disk
  | here, [] =>
    match disk.entry? here with
    | none => .ok (disk.put here .directory)
    | some .directory => .ok disk
    | some (.file _) => .error (.other none)
  | here, piece :: rest =>
    match disk.entry? here with
    | none => do (disk.put here .directory).makeAlong (← step here piece) rest
    | some .directory => do disk.makeAlong (← step here piece) rest
    | some (.file _) => .error (.other none)

def makeDirectory (disk : Disk) (path : String) : Except FileError Disk :=
  disk.makeAlong (disk.start path) (Path.segments path)

def makeParents (disk : Disk) (path : String) : Except FileError Disk :=
  disk.makeAlong (disk.start path) (Path.segments path).dropLast

/-- Moves a file to a place in a directory that exists. -/
def rename (disk : Disk) (source target : String) : Except FileError Disk := do
  let origin ← disk.locate source
  let location ← disk.locate target
  match disk.entry? origin, disk.entry? location with
  | some (.file content), some (.file _) | some (.file content), none =>
    return (disk.drop origin).put location (.file content)
  | none, _ => throw .missing
  | _, _ => throw (.other none)

def remove (disk : Disk) (path : String) : Except FileError Disk := do
  let location ← disk.locate path
  match disk.entry? location with
  | some (.file _) => return disk.drop location
  | some .directory => throw (.other none)
  | none => throw .missing

/-- The path of a file seen from a directory that holds it. -/
def fileBelow? (dir : List Text) (entry : List Text × Entry) : Option String :=
  match entry.2 with
  | .file _ =>
    if dir.isPrefixOf entry.1 then some (Path.ofSegments (entry.1.drop dir.length)) else none
  | .directory => none

def filesBelow (disk : Disk) (dir : String) : List String :=
  match disk.locate dir with
  | .ok location => stableSort (fun a b => a ≤ b) (disk.entries.filterMap (fileBelow? location))
  | .error _ => []

end Disk

end CodeInsight
