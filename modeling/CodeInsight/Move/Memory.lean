import CodeInsight.Move

/-!
# Files in memory

A file system that is a map from paths to contents. Every call is recorded, and any call can be made
to fail; a call that fails changes no file.
-/

namespace CodeInsight.Move

inductive Action where
  | present | read | move | write
  deriving DecidableEq, Repr

def Action.name : Action → String
  | present => "exists"
  | read => "read"
  | move => "move"
  | write => "write"

structure Call where
  action : Action
  paths : List String
  deriving DecidableEq, Repr

structure Memory where
  files : List (String × Bytes)
  calls : List Call
  /-- The calls to fail, by action and number, counted from one. -/
  refused : List (Action × Nat)
  deriving DecidableEq, Repr

namespace Memory

def get? (m : Memory) (path : String) : Option Bytes := m.files.lookup path

def erase (m : Memory) (path : String) : Memory :=
  { m with files := m.files.filter fun f => f.1 ≠ path }

def put (m : Memory) (path : String) (content : Bytes) : Memory :=
  { m with files := (path, content) :: (m.erase path).files }

def record (m : Memory) (action : Action) (paths : List String) : Memory :=
  { m with calls := m.calls ++ [⟨action, paths⟩] }

def refuses (m : Memory) (action : Action) : Bool :=
  m.refused.contains (action, (m.calls.filter fun c => c.action = action).length)

def refusal (action : Action) : FileError := .other (some (action.name ++ " refused"))

/-- The calls on files in memory. A refused question whether a file is there is answered by no. -/
def fileSystem : FileSystem Memory where
  present path m :=
    let m := m.record .present [path]
    (!m.refuses .present && (m.get? path).isSome, m)
  read path m :=
    let m := m.record .read [path]
    if m.refuses .read then (.error (refusal .read), m)
    else match m.get? path with
      | some content => (.ok content, m)
      | none => (.error .missing, m)
  move source target m :=
    let m := m.record .move [source, target]
    if m.refuses .move then (.error (refusal .move), m)
    else match m.get? source with
      | some content => (.ok (), (m.erase source).put target content)
      | none => (.error .missing, m)
  write path content m :=
    let m := m.record .write [path]
    if m.refuses .write then (.error (refusal .write), m) else (.ok (), m.put path content)

/-- Memory before the next move: no call is recorded, and others are to fail. -/
def fresh (m : Memory) (refused : List (Action × Nat)) : Memory := { m with calls := [], refused }

def moveClass (m : Memory) (table : Autoload.Table) (name newName : ClassName) :
    Except Failure (String × String) × Memory :=
  run fileSystem FileModel.ofText table name newName m

end Memory

end CodeInsight.Move
