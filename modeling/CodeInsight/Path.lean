import CodeInsight.Text.Basic

/-!
# Paths

Paths are written with slashes. Two spellings name one path when they have the same components:
repeated slashes and dots between components do not count.
-/

namespace CodeInsight.Path

def isAbsolute (path : String) : Bool := path.toList.head? = some '/'

def segments (path : String) : List Text := Text.splitOn '/' path.toList

def isIdle (piece : Text) : Bool := piece = [] || piece = ['.']

/-- The steps of a path, without empty pieces and dots. -/
def steps (path : String) : List Text := (segments path).filter fun piece => !isIdle piece

/-- The components of a path: its root, or the dot it begins with, and its steps. -/
def components (path : String) : List Text :=
  if isAbsolute path then ['/'] :: steps path
  else if (segments path).head? = some ['.'] then ['.'] :: steps path
  else steps path

/-- A path taken relative to a directory, unless it is absolute. -/
def join (dir path : String) : String :=
  if isAbsolute path then path
  else if dir = "" || dir.toList.getLast? = some '/' then dir ++ path
  else dir ++ "/" ++ path

def ofSegments (pieces : List Text) : String := String.ofList (List.intercalate ['/'] pieces)

/-- What remains of a list of pieces after the given steps, if it begins with them. -/
def after? : List Text → List Text → Option (List Text)
  | pieces, [] => some pieces
  | [], _ :: _ => none
  | piece :: pieces, step :: rest =>
    if isIdle piece then after? pieces (step :: rest)
    else if piece = step then after? pieces rest
    else none

/-- Pieces without idle ones at either end. -/
def trimIdle (pieces : List Text) : List Text :=
  ((pieces.dropWhile isIdle).reverse.dropWhile isIdle).reverse

/-- A path below a directory, seen from there; any other path as it is. -/
def relativeTo (dir path : String) : String :=
  if dir = "" then path
  else if (components dir).isPrefixOf (components path) then
    match after? (segments path) (steps dir) with
    | some pieces => ofSegments (trimIdle pieces)
    | none => path
  else path

end CodeInsight.Path

namespace CodeInsight

/-- A map from paths, whatever their spelling. -/
abbrev PathMap (α : Type) := List (List Text × α)

namespace PathMap

def find? {α : Type} (m : PathMap α) (path : String) : Option α := m.lookup (Path.components path)

def erase {α : Type} (m : PathMap α) (path : String) : PathMap α :=
  m.filter fun entry => entry.1 ≠ Path.components path

def insert {α : Type} (m : PathMap α) (path : String) (a : α) : PathMap α :=
  (Path.components path, a) :: m.erase path

end PathMap

end CodeInsight
