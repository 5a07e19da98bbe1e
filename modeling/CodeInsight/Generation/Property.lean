import CodeInsight.Generation.Stub

/-!
# Missing properties

A class must have the properties of its interfaces and the abstract properties that it inherits, and
it should declare the properties that its methods assign to. Those that are declared nowhere are
written as declarations.
-/

namespace CodeInsight.Generation

def concreteProperties (owner : ClassModel) : List PropertyModel :=
  if owner.kind = .isInterface then [] else owner.properties.filter fun p => !p.isAbstract

def declaredNames (c : ClassModel) (owners : List ClassModel) : List String :=
  (c.properties ++ owners.flatMap concreteProperties).map PropertyModel.name

def demandedProperties (owner : ClassModel) : List PropertyModel :=
  owner.properties.filter fun p => owner.kind = .isInterface || p.isAbstract

/-- The properties that a class should have: those that its ancestors demand, then those
assigned. -/
def expectedProperties (c : ClassModel) (owners : List ClassModel) : List PropertyModel :=
  owners.flatMap demandedProperties ++ c.assigned

def firstUndeclared (taken : List String) : List PropertyModel → List PropertyModel
  | [] => []
  | p :: rest =>
    if taken.contains p.name then firstUndeclared taken rest
    else { p with isAbstract := false } :: firstUndeclared (p.name :: taken) rest

def missingProperties (c : ClassModel) (owners : List ClassModel) : List PropertyModel :=
  firstUndeclared (declaredNames c owners) (expectedProperties c owners)

def declaration (p : PropertyModel) : String :=
  "\n" ++ indent ++ p.visibility.keyword ++ (if p.isStatic then " static" else "") ++
    p.declaredType.elim "" (" " ++ ·) ++ " $" ++ p.name ++ ";"

def startsLine : Text → Bool
  | '\n' :: _ => true
  | '\r' :: '\n' :: _ => true
  | _ => false

/-- The declarations of the properties that a class lacks, in front of the rest of its body, which
begins on a line of its own. Interfaces lack none. -/
def declarations (c : ClassModel) (owners : List ClassModel) (rest : Text) : String :=
  if c.kind = .isInterface then ""
  else
    match missingProperties c owners with
    | [] => ""
    | missing => String.join (missing.map declaration) ++ if startsLine rest then "" else "\n"

end CodeInsight.Generation
