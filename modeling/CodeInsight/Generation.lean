import CodeInsight.Generation.Property
import CodeInsight.Generation.Skeleton
import CodeInsight.Edit
import CodeInsight.Workspace

/-!
# Generators

A generator answers a class name and options with an edit. Generators are known by the kind of
snippet they produce. A generator with nothing to add answers with an edit that changes nothing.
-/

namespace CodeInsight

structure Generator where
  generate : Workspace → ClassName → Generation.Options → Except Failure Edit × Workspace

namespace Generator

def contractOwners (ws : Workspace) (file : FileModel) (c : ClassModel) : List ClassModel :=
  (Hierarchy.ancestry (ws.lookup.within file) c).drop 1

/-- Keeps the models of the files that the ancestors of a class are read from. Nothing is missing in
an interface, so its ancestors are not read. -/
def keepOwners (ws : Workspace) (file : FileModel) (c : ClassModel) : Workspace :=
  match c.kind with
  | .isInterface => ws
  | _ => ws.keepFamily (some file) c.name

/-- Writes stubs of missing methods before the closing brace of a class. -/
def missingMethods : Generator where
  generate ws name _ :=
    match ws.target name with
    | (.error failure, ws) => (.error failure, ws)
    | (.ok (path, file, c), ws) =>
      (.ok ⟨path, .empty (c.body.stop - 1),
        Generation.stubs c (contractOwners ws file c)⟩, keepOwners ws file c)

/-- Declares missing properties after the opening brace of a class. -/
def missingProperties : Generator where
  generate ws name _ :=
    match ws.target name with
    | (.error failure, ws) => (.error failure, ws)
    | (.ok (path, file, c), ws) =>
      let place := min (c.body.start + 1) c.body.stop
      match ws.load path with
      | .error failure => (.error failure, ws)
      | .ok text =>
        (.ok ⟨path, .empty place,
          Generation.declarations c (contractOwners ws file c) (Text.after text place)⟩,
          keepOwners ws file c)

/-- Writes a new class to the place where it belongs. -/
def skeleton : Generator where
  generate ws name options :=
    let edit := do
      let kind ← Generation.kindOption options
      let path ← ws.table.pathOf name
      return ⟨path, .empty 0, Generation.skeleton name kind⟩
    (edit, ws)

def fixed (edit : Edit) : Generator where
  generate ws _ _ := (.ok edit, ws)

end Generator

/-- Generators by kind, in ascending order. -/
abbrev Generators := List (String × Generator)

namespace Generators

def register (kind : String) (g : Generator) : Generators → Generators
  | [] => [(kind, g)]
  | (k, h) :: rest =>
    if kind = k then (kind, g) :: rest
    else if kind < k then (kind, g) :: (k, h) :: rest
    else (k, h) :: register kind g rest

def defaults : Generators :=
  [("class", .skeleton), ("implement_missing_methods", .missingMethods),
   ("implement_missing_properties", .missingProperties)]

def kinds (gs : Generators) : List String := gs.map Prod.fst

def generate (gs : Generators) (ws : Workspace) (kind : String) (name : ClassName)
    (options : Generation.Options) : Except Failure Edit × Workspace :=
  match gs.lookup kind with
  | some g => g.generate ws name options
  | none => (.error (.unknownGenerator kind), ws)

end Generators

end CodeInsight
