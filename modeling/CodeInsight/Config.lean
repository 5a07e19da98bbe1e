import CodeInsight.Autoload.Composer
import CodeInsight.Toml.Parse

/-!
# Configuration

Settings are read from a file of the user and a file of the project. What the project's file sets
counts, setting by setting. Without an autoload table in either file, the project's package file
tells it.
-/

namespace CodeInsight

inductive Backend where
  /-- By renaming them. -/
  | simple
  /-- Through version control. -/
  | git
  deriving DecidableEq, Repr

def Backend.named? : String → Option Backend
  | "simple" => some .simple
  | "git" => some .git
  | _ => none

def Backend.name : Backend → String
  | simple => "simple"
  | git => "git"

structure Settings where
  autoload : Option (List Autoload.Mapping)
  backend : Option Backend
  deriving DecidableEq, Repr

namespace Settings

def none : Settings := ⟨.none, .none⟩

def mapping? : String × Toml.Node → Option Autoload.Mapping
  | (ns, .string dir) => some ⟨ns, dir⟩
  | _ => .none

/-- The key under which a date or a time is the only value of a table. -/
def momentKey : String := "$__toml_private_datetime"

/-- The autoload table that a value is, in ascending order of namespaces. A date counts as a
table. -/
def autoloadOf? : Toml.Node → Option (List Autoload.Mapping)
  | .table _ entries => do
    let mappings ← entries.mapM mapping?
    return stableSort (fun a b => a.ns ≤ b.ns) mappings
  | .moment text => some [⟨momentKey, text⟩]
  | _ => .none

def isVoid : Toml.Node → Bool
  | .table _ [] => true
  | .array [] => true
  | _ => false

/-- The backend that a value names, as a string or as the only key of a table. -/
def backendOf? : Toml.Node → Option Backend
  | .string name => Backend.named? name
  | .table _ [(name, value)] => if isVoid value then Backend.named? name else .none
  | _ => .none

/-- A setting that may be absent but not malformed. -/
def optional {α : Type} (read? : Toml.Node → Option α) : Option Toml.Node → Option (Option α)
  | some node => (read? node).map some
  | .none => some .none

/-- What the entries of a document set. Other entries are ignored. -/
def ofEntries? (entries : Toml.Entries) : Option Settings := do
  return ⟨← optional autoloadOf? (entries.lookup "autoload"),
    ← optional backendOf? (entries.lookup "filesystem")⟩

/-- What a configuration file sets; a missing one sets nothing. -/
def ofFile (disk : Disk) (path : String) : Except Failure Settings :=
  match disk.readText path with
  | .ok text =>
    match (Toml.parse? text).bind ofEntries? with
    | some settings => .ok settings
    | .none => .error (.invalidConfiguration path)
  | .error .missing => .ok none
  | .error e => .error (.unreadable path e)

def override (a b : Settings) : Settings := ⟨b.autoload <|> a.autoload, b.backend <|> a.backend⟩

end Settings

structure Config where
  root : String
  autoload : List Autoload.Mapping
  backend : Backend
  deriving DecidableEq, Repr

namespace Config

def projectFile : String := ".phpactor.toml"

/-- The place of a user's configuration file below the directory for such files. -/
def userFile : String := "phpactor/phpactor.toml"

def load (disk : Disk) (root : String) (user : Option String) : Except Failure Config := do
  let general ← match user with
    | some path => Settings.ofFile disk path
    | none => pure Settings.none
  let own ← Settings.ofFile disk (Path.join root projectFile)
  let settings := general.override own
  return { root
           autoload := settings.autoload.getD (Autoload.ofPackage disk root)
           backend := settings.backend.getD .simple }

end Config

end CodeInsight
