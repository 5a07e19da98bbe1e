import CodeInsight.Analysis
import CodeInsight.Autoload.Table
import CodeInsight.Disk

/-!
# Projects

A project is a directory together with the autoload table that tells where its classes are. Models
of files are kept by path and serve again as long as the text of the file stays the same. A lookup
of a class gives the class alone; the models of the files read for it are kept afterwards, by asking
which names were looked up.
-/

namespace CodeInsight

structure KeptModel where
  digest : String
  file : FileModel
  deriving DecidableEq, Repr

structure Workspace where
  root : String
  disk : Disk
  table : Autoload.Table
  models : PathMap KeptModel
  deriving DecidableEq, Repr

namespace Workspace

/-- A path below the project's directory, seen from there; any other path as it is. -/
def relative (ws : Workspace) (path : String) : String := Path.relativeTo ws.root path

def load (ws : Workspace) (path : String) : Except Failure Text :=
  match ws.disk.readText (Path.join ws.root path) with
  | .ok text => .ok text
  | .error .missing => .error (.sourceNotFound path)
  | .error e => .error (.unreadable (Path.join ws.root path) e)

/-! ## Models of files -/

/-- The model kept for a path, if it is one of this text. -/
def known? (ws : Workspace) (path : String) (text : Text) : Option FileModel :=
  ((ws.models.find? path).filter fun k => k.digest = Digest.ofText text).map KeptModel.file

def model (ws : Workspace) (path : String) (text : Text) : Except Failure FileModel :=
  match ws.known? path text with
  | some file => .ok file
  | none => FileModel.ofText path text

def keep (ws : Workspace) (path : String) (text : Text) (file : FileModel) : Workspace :=
  { ws with models := ws.models.insert path ⟨Digest.ofText text, file⟩ }

def reflect (ws : Workspace) (path : String) (text : Text) :
    Except Failure FileModel × Workspace :=
  match ws.known? path text with
  | some file => (.ok file, ws)
  | none =>
    match FileModel.ofText path text with
    | .ok file => (.ok file, ws.keep path text file)
    | .error failure => (.error failure, ws)

def reflectFile (ws : Workspace) (path : String) : Except Failure FileModel × Workspace :=
  match ws.load path with
  | .ok text => ws.reflect path text
  | .error failure => (.error failure, ws)

def invalidate (ws : Workspace) (path : String) : Workspace :=
  { ws with models := ws.models.erase path }

/-! ## Classes -/

def singleClass (file : FileModel) : Except Failure ClassModel :=
  match file.classes with
  | [c] => .ok c
  | cs => .error (.classNotFound file.path cs.length)

def classIn (file : FileModel) (path : String) (name : ClassName) : Except Failure ClassModel :=
  match file.find? name with
  | some c => .ok c
  | none => .error (.classNotFound path file.classes.length)

def classNamed (ws : Workspace) (name : ClassName) : Except Failure ClassModel := do
  let path ← ws.table.pathOf name
  let text ← ws.load path
  let file ← ws.model path text
  classIn file path name

/-- Finds classes through the autoload table. -/
def lookup (ws : Workspace) : Lookup := fun name => (ws.classNamed name).toOption

/-- The class of a name with its path, its file and the project that keeps the file's model. -/
def target (ws : Workspace) (name : ClassName) :
    Except Failure (String × FileModel × ClassModel) × Workspace :=
  match ws.table.pathOf name with
  | .error failure => (.error failure, ws)
  | .ok path =>
    match ws.reflectFile path with
    | (.error failure, ws) => (.error failure, ws)
    | (.ok file, ws) => ((classIn file path name).map fun c => (path, file, c), ws)

/-! ## Models read on the way -/

/-- Finds classes as a file sees them, its own first; without a file, through the autoload table
alone. -/
def lookupFrom (ws : Workspace) : Option FileModel → Lookup
  | some file => ws.lookup.within file
  | none => ws.lookup

/-- Keeps the model of the file of a class, unless the file that asks declares the class itself. -/
def keepClass (asking : Option FileModel) (ws : Workspace) (name : ClassName) : Workspace :=
  if (asking.bind fun file => file.find? name).isSome then ws else (ws.target name).2

def keepFamily (asking : Option FileModel) (ws : Workspace) (name : ClassName) : Workspace :=
  (Hierarchy.queries (ws.lookupFrom asking) name).foldl (keepClass asking) ws

/-- Keeps the models of the files that tell the members of values of some types. -/
def keepReceivers (asking : Option FileModel) (ws : Workspace) (receivers : List InferredType) :
    Workspace :=
  (receivers.filterMap InferredType.class?).foldl (keepFamily asking) ws

end Workspace

end CodeInsight
