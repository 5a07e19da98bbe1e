import CodeInsight.Command

/-!
# The program

Reads the part of the file system that a request may touch, serves the request and writes back what
it changed. The answer is printed as JSON, an error as a JSON object on the error stream.
-/

namespace CodeInsight

namespace Program

/-- Files with these endings are read; of others only the presence counts. -/
def readEndings : List String := [Autoload.extension, ".json", ".toml"]

def changed (disk : Disk) (change : Disk → Except FileError Disk) : Disk :=
  match change disk with
  | .ok disk => disk
  | .error _ => disk

/-- Adds the file or directory at an absolute path, if there is one. The content of a file is read
if `whole` asks for it or if its ending tells. -/
def addPath (disk : Disk) (path : String) (whole : Bool) : IO Disk := do
  let place := (← IO.currentDir) / path
  if ← place.isDir then return changed disk (·.makeDirectory path)
  unless ← place.pathExists do return disk
  let content ←
    if whole || readEndings.any (fun ending => path.endsWith ending) then
      match ← (IO.FS.readBinFile place).toBaseIO with
      | .ok content => pure content.toList
      | .error _ => return disk
    else pure []
  return changed (changed disk (·.makeParents path)) (·.write path content)

/-- Adds a directory with everything below it, except what hidden directories hold. -/
def addTree (disk : Disk) (dir : String) : IO Disk := do
  let top := (← IO.currentDir) / dir
  unless ← top.isDir do return disk
  let below ← top.walkDir fun d => return d == top || !(d.fileName.getD "").startsWith "."
  below.foldlM (fun disk path => addPath disk path.toString false)
    (changed disk (·.makeDirectory dir))

def userFile : IO (Option String) := do
  let home := (← IO.getEnv "HOME").map (Path.join · ".config")
  let dir := (← IO.getEnv "XDG_CONFIG_HOME").filter Path.isAbsolute <|> home
  return dir.map (Path.join · Config.userFile)

/-- The files that an invocation may touch: the project's, those of its autoload directories, the
user's configuration file and the files that the arguments name. -/
def snapshot (here root : String) (user : Option String) (args : List String) : IO Disk := do
  let mut disk ← addTree (changed ⟨Path.steps here, []⟩ (·.makeDirectory here)) root
  for path in user.toList ++ args.map (Path.join root) do
    disk ← addPath disk path true
  match Config.load disk root user with
  | .ok config =>
    for mapping in config.autoload do
      unless (Path.steps root).isPrefixOf (Path.steps (Path.join root mapping.dir)) do
        disk ← addTree disk (Path.join root mapping.dir)
    return disk
  | .error _ => return disk

def absolute (location : List Text) : String := "/" ++ Path.ofSegments location

def writeBack (before after : Disk) : IO Unit := do
  for (location, entry) in after.entries do
    if before.entry? location ≠ some entry then
      match entry with
      | .directory => IO.FS.createDirAll (absolute location)
      | .file content =>
        IO.FS.createDirAll (absolute location.dropLast)
        IO.FS.writeBinFile (absolute location) ⟨content.toArray⟩
  for (location, _) in before.entries do
    if after.entry? location = none then IO.FS.removeFile (absolute location)

def usage : String :=
  "usage: [--cwd DIR] offset-info PATH OFFSET | complete PATH OFFSET |\n" ++
  "  generate-snippet KIND CLASS [--options JSON] | class-move FROM TO | class-path CLASS |\n" ++
  "  class-name PATH | explain PATH"

def run (args : List String) : IO UInt32 := do
  match Command.ofArguments? args with
  | none =>
    IO.eprintln usage
    return 2
  | some (cwd, _) =>
    let here := (← IO.currentDir).toString
    let user ← userFile
    let before ← snapshot here (Path.join here (cwd.getD here)) user args
    let outcome := Command.run before here user args
    writeBack before outcome.disk
    if let some answer := outcome.answer then IO.println answer.pretty
    if let some error := outcome.error then
      IO.eprintln (Json.object [("error", .string error)]).compact
    return outcome.status.toUInt32

end Program

end CodeInsight

def main (args : List String) : IO UInt32 := CodeInsight.Program.run args
