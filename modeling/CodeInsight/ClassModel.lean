import CodeInsight.ClassName
import CodeInsight.Span

/-!
# Models of classes and files

What the library knows about a class-like declaration and about the file that holds it. Types and
default values are kept as they are written.
-/

namespace CodeInsight

inductive ClassKind where
  | isClass | isInterface | isTrait
  deriving DecidableEq, Repr

def ClassKind.keyword : ClassKind → String
  | isClass => "class"
  | isInterface => "interface"
  | isTrait => "trait"

inductive Visibility where
  | isPublic | isProtected | isPrivate
  deriving DecidableEq, Repr

def Visibility.keyword : Visibility → String
  | isPublic => "public"
  | isProtected => "protected"
  | isPrivate => "private"

structure ParameterModel where
  /-- The name without its `$`. -/
  name : String
  declaredType : Option String
  defaultValue : Option String
  isVariadic : Bool
  isReference : Bool
  deriving DecidableEq, Repr

def ParameterModel.source (p : ParameterModel) : String :=
  (p.declaredType.elim "" (· ++ " ")) ++ (if p.isReference then "&" else "") ++
    (if p.isVariadic then "..." else "") ++ "$" ++ p.name ++
    (p.defaultValue.elim "" (" = " ++ ·))

structure MethodModel where
  name : String
  visibility : Visibility
  parameters : List ParameterModel
  returnType : Option String
  isAbstract : Bool
  isStatic : Bool
  deriving DecidableEq, Repr

/-- Name, parameters and return type as they are declared. -/
def MethodModel.signature (m : MethodModel) : String :=
  m.name ++ "(" ++ String.intercalate ", " (m.parameters.map ParameterModel.source) ++ ")" ++
    (m.returnType.elim "" (": " ++ ·))

structure PropertyModel where
  /-- The name without its `$`. -/
  name : String
  visibility : Visibility
  declaredType : Option String
  isStatic : Bool
  isAbstract : Bool
  deriving DecidableEq, Repr

structure ClassModel where
  name : ClassName
  kind : ClassKind
  parent : Option ClassName
  /-- Implemented interfaces; of an interface, those it extends. -/
  implemented : List ClassName
  traits : List ClassName
  methods : List MethodModel
  properties : List PropertyModel
  /-- Properties that methods assign to through `$this`. -/
  assigned : List PropertyModel
  imports : Imports
  isAbstract : Bool
  nameSpan : Span
  /-- From the opening to the closing brace. -/
  body : Span
  deriving DecidableEq, Repr

/-- A namespace declaration with the places needed to change it. -/
structure NamespaceModel where
  /-- None for the global namespace. -/
  name : Option String
  nameSpan : Option Span
  keywordEnd : Nat
  /-- The declaration up to and including its semicolon, or up to what follows its name. -/
  statement : Span
  /-- The declaration with every statement it governs. -/
  span : Span
  braced : Bool
  imports : Imports
  deriving DecidableEq, Repr

structure FileModel where
  path : String
  namespaces : List NamespaceModel
  /-- Imports outside of any namespace. -/
  imports : Imports
  /-- The end of the opening tag and the `declare` statements that follow it. -/
  headerEnd : Nat
  classes : List ClassModel
  deriving DecidableEq, Repr

namespace FileModel

/-- The namespace that governs an offset: the last one that holds it, both ends included. Text after
the end of an unbraced last namespace still belongs to it. -/
def namespaceAt (file : FileModel) (offset : Nat) : Option NamespaceModel :=
  (file.namespaces.reverse.find? fun n => n.span.touches offset) <|>
    file.namespaces.getLast?.filter fun n => !n.braced && n.span.stop < offset

def nameContext (file : FileModel) (offset : Nat) : Option String × Imports :=
  match file.namespaceAt offset with
  | some n => (n.name, n.imports)
  | none => (none, file.imports)

/-- The shorter of two bodies; of equal ones the earlier. -/
def shorterBody (best : Option ClassModel) (c : ClassModel) : Option ClassModel :=
  match best with
  | some b => if c.body.length < b.body.length then some c else some b
  | none => some c

/-- The class with the shortest body that holds an offset, both ends included. -/
def classAt (file : FileModel) (offset : Nat) : Option ClassModel :=
  (file.classes.filter fun c => c.body.touches offset).foldl shorterBody none

def find? (file : FileModel) (name : ClassName) : Option ClassModel :=
  file.classes.find? fun c => c.name = name

end FileModel

end CodeInsight
