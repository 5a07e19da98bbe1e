import CodeInsight.Autoload.Root
import CodeInsight.Disk
import CodeInsight.Json.Parse

/-!
# Autoload tables of packages

The file `composer.json` of a package tells where its classes are. A namespace has one directory or
several. A file that is missing or malformed tells nothing.
-/

namespace CodeInsight.Autoload

def sections : List String := ["autoload", "autoload-dev"]

def directories : Json → List String
  | .string dir => [dir]
  | .array dirs => dirs.filterMap Json.string?
  | _ => []

def sectionMappings (package : Json) (name : String) : List Mapping :=
  match ((package.get? name).bind fun s => s.get? "psr-4").bind Json.object? with
  | some entries =>
    entries.flatMap fun (ns, dirs) => (directories dirs).map fun dir => Mapping.normal ⟨ns, dir⟩
  | none => []

def packageMappings (package : Json) : List Mapping := sections.flatMap (sectionMappings package)

def ofPackage (disk : Disk) (root : String) : List Mapping :=
  match disk.readText (Path.join root "composer.json") with
  | .ok text => ((Json.parse? text).map packageMappings).getD []
  | .error _ => []

end CodeInsight.Autoload
