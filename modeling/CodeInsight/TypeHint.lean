import CodeInsight.Text.Blank
import CodeInsight.ClassModel

/-!
# Types

What is known about the type of an expression, and how a written type is read in the context of the
code that it stands in.
-/

namespace CodeInsight

inductive InferredType where
  | ofClass (name : ClassName)
  | scalar (name : String)
  | unknown
  deriving DecidableEq, Repr

namespace InferredType

def class? : InferredType → Option ClassName
  | ofClass name => some name
  | _ => none

def text : InferredType → String
  | ofClass name => name.text
  | scalar name => name
  | unknown => "<unknown>"

def ofClass? : Option ClassName → InferredType
  | some name => ofClass name
  | none => unknown

end InferredType

structure NameContext where
  ns : Option String
  imports : Imports
  /-- What `self` stands for. -/
  selfClass : Option ClassName
  /-- What `static` stands for. -/
  staticClass : Option ClassName
  parentClass : Option ClassName
  deriving DecidableEq, Repr

def NameContext.outside (context : Option String × Imports) : NameContext :=
  { ns := context.1, imports := context.2, selfClass := none, staticClass := none,
    parentClass := none }

def ClassModel.context (c : ClassModel) : NameContext :=
  { ns := some c.name.ns, imports := c.imports, selfClass := some c.name,
    staticClass := some c.name, parentClass := c.parent }

namespace TypeHint

def single (name : String) (context : NameContext) : InferredType :=
  let lower := name.toLower
  if lower = "self" then .ofClass? context.selfClass
  else if lower = "static" || lower = "$this" then .ofClass? context.staticClass
  else if lower = "parent" then .ofClass? context.parentClass
  else if lower = "mixed" then .unknown
  else if isBuiltinType lower then .scalar lower
  else .ofClass (resolveName name context.imports context.ns)

/-- A hint without the blanks around it and without one leading `?`. -/
def withoutMark (hint : Text) : Text :=
  match Text.trim hint with
  | '?' :: rest => rest
  | trimmed => trimmed

def unionMembers (hint : Text) : List String :=
  (((Text.splitOn '|' hint).map Text.trim).map String.ofList).filter fun m => m.toLower ≠ "null"

/-- The type that a written hint stands for. A union stands for a type only if one member other than
`null` remains; intersections stand for none. -/
def read (hint : String) (context : NameContext) : InferredType :=
  let inner := withoutMark hint.toList
  if inner = [] || inner.contains '&' || inner.contains '(' then .unknown
  else match unionMembers inner with
    | [m] => single m context
    | _ => .unknown

end TypeHint

end CodeInsight
