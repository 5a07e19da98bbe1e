/-!
# Class names

A class is known by its namespace and its short name. `ClassName.ofText` reads the written form,
`ClassName.text` writes it, and `resolveName` finds the class that a name in a source file stands
for.
-/

namespace CodeInsight

def separator : Char := '\\'

def shortName (name : String) : String :=
  String.ofList (name.toList.reverse.takeWhile (· ≠ separator)).reverse

/-- What stands before the last segment and its separator. -/
def namespaceOf (name : String) : String :=
  String.ofList ((name.toList.reverse.dropWhile (· ≠ separator)).drop 1).reverse

def withoutRoot (name : String) : String :=
  match name.toList with
  | '\\' :: rest => String.ofList rest
  | _ => name

structure ClassName where
  ns : String
  short : String
  deriving DecidableEq, Repr, Inhabited

namespace ClassName

/-- The class that a fully qualified name denotes, with or without its leading separator. -/
def ofText (name : String) : ClassName :=
  ⟨namespaceOf (withoutRoot name), shortName (withoutRoot name)⟩

/-- The fully qualified name, without a leading separator. -/
def text (c : ClassName) : String :=
  if c.ns = "" then c.short else c.ns ++ "\\" ++ c.short

def isGlobal (c : ClassName) : Bool := c.ns == ""

end ClassName

/-- Names of types that are no classes, in lower case. -/
def builtinTypes : List String :=
  ["self", "static", "parent", "string", "int", "float", "bool", "array", "object", "mixed", "void",
   "never", "null", "true", "false", "callable", "iterable"]

def isBuiltinType (name : String) : Bool := builtinTypes.contains name.toLower

/-! ## Imports -/

/-- The names that a file imports, in ascending order, with the classes they stand for. -/
abbrev Imports := List (String × ClassName)

namespace Imports

def insert (word : String) (target : ClassName) : Imports → Imports
  | [] => [(word, target)]
  | (name, c) :: rest =>
    if word = name then (word, target) :: rest
    else if word < name then (word, target) :: (name, c) :: rest
    else (name, c) :: insert word target rest

def find? (imports : Imports) (word : String) : Option ClassName := imports.lookup word

end Imports

/-- The class that a name written in a file denotes. A leading separator marks a fully qualified
name; otherwise the first segment may be imported, and what is not imported belongs to the current
namespace, which may be absent or empty. -/
def resolveName (name : String) (imports : Imports) (ns : Option String) : ClassName :=
  match name.toList with
  | '\\' :: rest => .ofText (String.ofList rest)
  | cs =>
    let first := String.ofList (cs.takeWhile (· ≠ separator))
    let rest := cs.dropWhile (· ≠ separator)
    match imports.find? first with
    | some target =>
      if rest.isEmpty then target else .ofText (target.text ++ String.ofList rest)
    | none =>
      match ns with
      | some ns => if ns = "" then .ofText name else .ofText (ns ++ "\\" ++ name)
      | none => .ofText name

end CodeInsight
