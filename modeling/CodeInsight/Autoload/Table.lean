import CodeInsight.Text.Alphanumeric
import CodeInsight.Autoload.Root
import CodeInsight.ClassName
import CodeInsight.Failure
import CodeInsight.Order

/-!
# The autoload table

The table maps class names to project-relative paths and back. A class belongs to the longest
namespace that its name begins with, a file to the longest directory that holds it. Tables in which
one file would have two class names are refused.
-/

namespace CodeInsight.Autoload

def extension : String := ".php"

/-! ## Conflicts -/

/-- The class name below a namespace that a path below a directory stands for. -/
def nameOfPath (path : Text) : Text := Text.replaceChar '/' '\\' path

/-- The path below a directory that a class name below a namespace stands for. -/
def pathOfName (name : Text) : Text := Text.replaceChar '\\' '/' name

/-- Two mappings in the order of their directories, the shorter first. -/
def nested (a b : Mapping) : Mapping × Mapping :=
  if byteLength b.dir < byteLength a.dir then (b, a) else (a, b)

/-- Two mappings give some file two class names: one directory lies in the other, but the inner
namespace is not the outer one continued by the path between them. -/
def conflict? (a b : Mapping) : Option Failure := do
  let (outer, inner) := nested a b
  let between ← Text.dropLeading? inner.dir.toList outer.dir.toList
  if outer.ns ++ String.ofList (nameOfPath between) = inner.ns then none
  else some (.conflictingRoots inner.ns outer.dir inner.dir)

def firstConflict? : List Mapping → Option Failure
  | [] => none
  | m :: rest => rest.findSome? (conflict? m) <|> firstConflict? rest

/-! ## Tables -/

def dropRepeats : List Mapping → List Mapping
  | [] => []
  | [m] => [m]
  | a :: b :: rest => if a = b then dropRepeats (b :: rest) else a :: dropRepeats (b :: rest)

/-- Mappings in normal form, those with longer namespaces first. -/
structure Table where
  mappings : List Mapping
  deriving DecidableEq, Repr

namespace Table

def empty : Table := ⟨[]⟩

def before (a b : Mapping) : Bool := byteLength b.ns ≤ byteLength a.ns

/-- The table of a list of mappings, unless two of them conflict. Entries with namespaces of one
length keep their order. -/
def ofMappings (mappings : List Mapping) : Except Failure Table :=
  let normal := dropRepeats (mappings.map Mapping.normal)
  match firstConflict? normal with
  | some failure => .error failure
  | none => .ok ⟨stableSort before normal⟩

/-! ## From class to path -/

/-- The path that a mapping gives to a class, if the class lies in its namespace. -/
def pathBy? (name : Text) (m : Mapping) : Option String := do
  let below ← Text.dropLeading? name m.ns.toList
  guard (below ≠ [])
  return m.dir ++ String.ofList (pathOfName below) ++ extension

def pathOf (table : Table) (c : ClassName) : Except Failure String :=
  if isBuiltinType c.text then .error (.sourceNotFound c.text)
  else match table.mappings.findSome? (pathBy? c.text.toList) with
    | some path => .ok path
    | none => .error (.sourceNotFound c.text)

/-! ## From path to class -/

/-- The longer of two directories; of equal ones the later. -/
def longerDir (best : Option Mapping) (m : Mapping) : Option Mapping :=
  match best with
  | some b => if byteLength b.dir ≤ byteLength m.dir then some m else some b
  | none => some m

def holder? (table : Table) (path : Text) : Option Mapping :=
  (table.mappings.filter fun m => m.dir.toList.isPrefixOf path).foldl longerDir none

def isWordPath (path : Text) : Bool :=
  path ≠ [] && (Text.splitOn '/' path).all fun piece =>
    piece ≠ [] && piece.all Text.isIdentifierPart

/-- The class that a path must declare. Paths whose class is found elsewhere have none. -/
def classOf (table : Table) (path : String) : Except Failure ClassName := do
  let notFound : Failure := .sourceNotFound path
  let normal := withoutDot (forwardSlashes path.toList)
  let some stem := Text.dropTrailing? normal extension.toList | throw notFound
  let some m := table.holder? stem | throw notFound
  let below := stem.drop m.dir.toList.length
  if !isWordPath below then throw notFound
  let c := ClassName.ofText (m.ns ++ String.ofList (nameOfPath below))
  let back ← table.pathOf c
  if back ≠ String.ofList normal then throw notFound
  return c

end Table

end CodeInsight.Autoload
