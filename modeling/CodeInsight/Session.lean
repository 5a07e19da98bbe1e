import CodeInsight.Completion
import CodeInsight.Config
import CodeInsight.Generation
import CodeInsight.Move

/-!
# Sessions

A session serves requests on a project one after the other. It keeps the models of files, the last
analysis of every path, and the providers and generators in use. Paths are those of the project;
absolute paths below its directory are taken as well.
-/

namespace CodeInsight

structure Session where
  workspace : Workspace
  analyses : Analyses
  providers : List Provider
  generators : Generators
  backend : Backend

namespace Session

def start (disk : Disk) (config : Config) : Except Failure Session := do
  let table ← Autoload.Table.ofMappings config.autoload
  return { workspace := { root := config.root, disk, table, models := [] }
           analyses := []
           providers := Completion.defaults
           generators := Generators.defaults
           backend := config.backend }

def withWorkspace (s : Session) (ws : Workspace) : Session := { s with workspace := ws }

def withDisk (s : Session) (disk : Disk) : Session :=
  { s with workspace := { s.workspace with disk } }

abbrev Request (α : Type) := Session → Except Failure α × Session

def asking {α : Type} (f : Session → Except Failure α) : Request α := fun s => (f s, s)

/-! ## Offsets -/

/-- The project after texts of a path were analysed: the models of the files read for a new analysis
are kept. -/
def afterAnalysis (path : String) (s : Session) (analyses : Analyses) : Workspace :=
  match analyses.fresh? s.analyses path with
  | some a => s.workspace.keepReceivers (some a.file) a.receivers
  | none => s.workspace

/-- The session after an offset of a text was looked at. The models of all files that were read for
it are kept: those read for a new analysis, and those read for the offset itself. -/
def looked {α : Type} (path : String) (text : Text) (offset : Nat) (s : Session) :
    Except Failure α × Analyses → Except Failure α × Session
  | (.error failure, analyses) => (.error failure, { s with analyses })
  | (.ok answer, analyses) =>
    let ws := s.afterAnalysis path analyses
    let ws := match analyses.find? path with
      | some a => ws.keepReceivers (some a.file) (Resolution.receivers ws.lookup a text offset)
      | none => ws
    (.ok answer, { s with workspace := ws, analyses })

def resolveIn (path : String) (text : Text) (offset : Nat) : Request Resolution := fun s =>
  s.looked path text offset (Resolution.resolve s.workspace.lookup path text offset s.analyses)

def resolve (path : String) (offset : Nat) : Request Resolution := fun s =>
  let path := s.workspace.relative path
  match s.workspace.load path with
  | .ok text => s.resolveIn path text offset
  | .error failure => (.error failure, s)

def completeIn (path : String) (text : Text) (offset : Nat) : Request (List Suggestion) := fun s =>
  s.looked path text offset
    (Completion.complete s.workspace.lookup s.providers path text offset s.analyses)

def complete (path : String) (offset : Nat) : Request (List Suggestion) := fun s =>
  let path := s.workspace.relative path
  match s.workspace.load path with
  | .ok text => s.completeIn path text offset
  | .error failure => (.error failure, s)

/-- The scopes of a text, which must parse as it is. -/
def scopesIn (path : String) (text : Text) : Request (List Scope) := fun s =>
  match Analyses.analyse s.workspace.lookup path text s.analyses with
  | (.error failure, analyses) => (.error failure, { s with analyses })
  | (.ok a, analyses) =>
    (.ok a.forest.scopes, { s with workspace := s.afterAnalysis path analyses, analyses })

def addProvider (s : Session) (p : Provider) : Session := { s with providers := s.providers ++ [p] }

/-! ## Classes -/

def classPath (name : ClassName) : Request String := asking fun s => s.workspace.table.pathOf name

def className (path : String) : Request ClassName :=
  asking fun s => s.workspace.table.classOf (s.workspace.relative path)

def reflect (path : String) : Request FileModel := fun s =>
  let (answer, ws) := s.workspace.reflectFile path
  (answer, s.withWorkspace ws)

def reflectIn (path : String) (text : Text) : Request FileModel := fun s =>
  let (answer, ws) := s.workspace.reflect path text
  (answer, s.withWorkspace ws)

def classFromSource (path : String) (text : Text) : Request ClassName := fun s =>
  let (answer, ws) := s.workspace.reflect (s.workspace.relative path) text
  ((answer.bind Workspace.singleClass).map ClassModel.name, s.withWorkspace ws)

def classFromFile (path : String) : Request ClassName := fun s =>
  let (answer, s) := s.reflect (s.workspace.relative path)
  ((answer.bind Workspace.singleClass).map ClassModel.name, s)

structure Explanation where
  path : String
  model : ClassModel
  members : MemberTable
  deriving DecidableEq, Repr

/-- The only class of a file with all its members. -/
def explain (path : String) : Request Explanation := fun s =>
  let path := s.workspace.relative path
  match s.reflect path with
  | (.error failure, s) => (.error failure, s)
  | (.ok file, s) =>
    match Workspace.singleClass file with
    | .error failure => (.error failure, s)
    | .ok c =>
      (.ok ⟨path, c, Hierarchy.members (s.workspace.lookup.within file) c⟩,
        s.withWorkspace (s.workspace.keepFamily (some file) c.name))

def reflectClass (name : ClassName) : Request ClassModel := fun s =>
  let (answer, ws) := s.workspace.target name
  (answer.map fun (_, _, c) => c, s.withWorkspace ws)

def askHierarchy {α : Type} (ask : Lookup → ClassModel → α) (name : ClassName) : Request α :=
  fun s =>
    match s.reflectClass name with
    | (.error failure, s) => (.error failure, s)
    | (.ok c, s) =>
      (.ok (ask s.workspace.lookup c), s.withWorkspace (s.workspace.keepFamily none name))

def ancestry (name : ClassName) : Request (List ClassModel) := askHierarchy Hierarchy.ancestry name

def members (name : ClassName) : Request MemberTable := askHierarchy Hierarchy.members name

def invalidate (s : Session) (path : String) : Session :=
  s.withWorkspace (s.workspace.invalidate path)

/-- Takes another autoload table. Kept models and analyses stay. -/
def reload (mappings : List Autoload.Mapping) : Request Autoload.Table := fun s =>
  match Autoload.Table.ofMappings mappings with
  | .ok table => (.ok table, s.withWorkspace { s.workspace with table })
  | .error failure => (.error failure, s)

/-! ## Generation and moves -/

def generate (kind : String) (name : ClassName) (options : Generation.Options) : Request Edit :=
  fun s =>
    let (answer, ws) := s.generators.generate s.workspace kind name options
    (answer, s.withWorkspace ws)

def register (s : Session) (kind : String) (g : Generator) : Session :=
  { s with generators := s.generators.register kind g }

def changed (disk : Disk) : Except FileError Disk → Except FileError Unit × Disk
  | .ok after => (.ok (), after)
  | .error e => (.error e, disk)

/-- How version control moves a file of a project: its answer, and the files afterwards. It is
another program, which may do anything to them. -/
abbrev VersionControl := (root source target : String) → Disk → Except FileError Unit × Disk

/-- Version control moves only files that it tracks, and a plain tree of files has none of these. -/
def untracked : VersionControl := fun _ _ _ disk => (.error (.other none), disk)

/-- Moves a file. The directories of the target are made. -/
def moveFile (git : VersionControl) (backend : Backend) (root source target : String)
    (disk : Disk) :
    Except FileError Unit × Disk :=
  match disk.makeParents (Path.join root target) with
  | .error e => (.error e, disk)
  | .ok disk =>
    match backend with
    | .simple => changed disk (disk.rename (Path.join root source) (Path.join root target))
    | .git => git root source target disk

def fileSystem (git : VersionControl) (backend : Backend) (root : String) : FileSystem Disk where
  present path disk := (disk.present (Path.join root path), disk)
  read path disk := (disk.read (Path.join root path), disk)
  move source target disk := moveFile git backend root source target disk
  write path content disk := changed disk (disk.write (Path.join root path) content)

/-- The project after a class was to be moved. The model of its file is kept once the file was
read, and forgotten once the file was moved, even if it was moved back. -/
def afterMove (ws : Workspace) (name : ClassName) : Except Failure (String × String) → Workspace
  | .ok (source, _) => ws.invalidate source
  | .error (.inconsistentMove source _ _) => ws.invalidate source
  | .error (.moveFailed _ _ _) => (ws.target name).2
  | .error (.classNotFound _ _) => (ws.target name).2
  | .error _ => ws

def moveOn (files : FileSystem Disk) (name newName : ClassName) : Request (String × String) :=
  fun s =>
    let ws := s.workspace
    match Move.run files ws.model ws.table name newName ws.disk with
    | (answer, disk) => (answer, s.withWorkspace { afterMove ws name answer with disk })

def moveClass (name newName : ClassName) (git : VersionControl := untracked) :
    Request (String × String) := fun s =>
  s.moveOn (fileSystem git s.backend s.workspace.root) name newName

end Session

end CodeInsight
