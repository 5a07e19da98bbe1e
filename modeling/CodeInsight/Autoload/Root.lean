import CodeInsight.Text.Basic

/-!
# Normal forms of autoload entries

An autoload entry maps a namespace to the directory of its classes. Namespaces are written with a
separator at their end and none at their beginning, directories with a slash at their end and
without a leading `./`.
-/

namespace CodeInsight.Autoload

/-- A text with a character at its end, unless it is empty or has one there. -/
def endingWith (mark : Char) (cs : Text) : Text :=
  if cs = [] ∨ cs.getLast? = some mark then cs else cs ++ [mark]

/-- A namespace without leading separators and, unless it is empty, with one at its end. -/
def normalNamespace (ns : String) : String :=
  String.ofList (endingWith '\\' (ns.toList.dropWhile (· == '\\')))

def forwardSlashes (path : Text) : Text := Text.replaceChar '\\' '/' path

def withoutDot (path : Text) : Text := (Text.dropLeading? path ['.', '/']).getD path

/-- A directory with forward slashes, without one leading `./` and, unless it is the project itself,
with a slash at its end. -/
def normalDirectory (dir : String) : String :=
  let path := withoutDot (forwardSlashes dir.toList)
  if path = ['.'] then "" else String.ofList (endingWith '/' path)

structure Mapping where
  /-- With a separator at its end, or empty for the global namespace. -/
  ns : String
  /-- With a slash at its end, or empty for the project itself. -/
  dir : String
  deriving DecidableEq, Repr

def Mapping.normal (m : Mapping) : Mapping := ⟨normalNamespace m.ns, normalDirectory m.dir⟩

end CodeInsight.Autoload
