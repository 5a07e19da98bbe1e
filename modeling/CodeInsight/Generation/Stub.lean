import CodeInsight.Text.Alphanumeric
import CodeInsight.Text.Lowercase
import CodeInsight.ClassModel

/-!
# Missing methods

A class must have the methods of its interfaces and the abstract methods that it inherits. Those
that it does not have are written as stubs. The types in a stub are fully qualified, so that they
mean in the class what they mean where the method is declared.
-/

namespace CodeInsight.Generation

def indent : String := "    "

/-! ## Requirements -/

/-- The owner of a method demands that classes implement it. -/
def requires (owner : ClassModel) (m : MethodModel) : Bool :=
  owner.kind = .isInterface || m.isAbstract

def methodKey (m : MethodModel) : String := lowercase m.name

def concreteMethods (owner : ClassModel) : List MethodModel :=
  if owner.kind = .isInterface then [] else owner.methods.filter fun m => !m.isAbstract

/-- The names of the methods that a class declares or inherits with a body. -/
def implementedKeys (c : ClassModel) (owners : List ClassModel) : List String :=
  (c.methods ++ owners.flatMap concreteMethods).map methodKey

/-- The methods that ancestors demand, with the ancestor that does so. -/
def requirements (owners : List ClassModel) : List (ClassModel × MethodModel) :=
  owners.flatMap fun owner => (owner.methods.filter (requires owner)).map fun m => (owner, m)

def firstUntaken (taken : List String) :
    List (ClassModel × MethodModel) → List (ClassModel × MethodModel)
  | [] => []
  | demand :: rest =>
    if taken.contains (methodKey demand.2) then firstUntaken taken rest
    else demand :: firstUntaken (methodKey demand.2 :: taken) rest

def unmet (c : ClassModel) (owners : List ClassModel) : List (ClassModel × MethodModel) :=
  firstUntaken (implementedKeys c owners) (requirements owners)

/-! ## Qualified types -/

def rooted (c : ClassName) : String := "\\" ++ c.text

/-- A name of a type in a class, fully qualified. In a trait `self` and `parent` are left alone,
since they mean the class that uses it. -/
def qualifyName (owner : ClassModel) (name : String) : String :=
  let lower := name.toLower
  if name.toList.head? = some '\\' then name
  else if lower = "self" && owner.kind ≠ .isTrait then rooted owner.name
  else if lower = "parent" && owner.kind ≠ .isTrait then (owner.parent.map rooted).getD name
  else if isBuiltinType lower then name
  else rooted (resolveName name owner.imports (some owner.name.ns))

def isTypePart (c : Char) : Bool := Text.isIdentifierPart c || c == '\\'

/-- The qualified form of a name that has been read, which is in reverse. -/
def qualifyRead (owner : ClassModel) (read : Text) : Text :=
  if read = [] then [] else (qualifyName owner (String.ofList read.reverse)).toList

/-- A type with every name qualified. `read` is the name before the rest, in reverse. -/
def qualifyFrom (owner : ClassModel) : Text → Text → Text
  | read, [] => qualifyRead owner read
  | read, c :: rest =>
    if isTypePart c then qualifyFrom owner (c :: read) rest
    else qualifyRead owner read ++ c :: qualifyFrom owner [] rest

def qualifyType (owner : ClassModel) (hint : String) : String :=
  String.ofList (qualifyFrom owner [] hint.toList)

def qualified (owner : ClassModel) (m : MethodModel) : MethodModel :=
  { m with
    parameters := m.parameters.map fun p =>
      { p with declaredType := p.declaredType.map (qualifyType owner) }
    returnType := m.returnType.map (qualifyType owner) }

/-! ## Stubs -/

def missingMethods (c : ClassModel) (owners : List ClassModel) : List MethodModel :=
  (unmet c owners).map fun (owner, m) => qualified owner m

def stub (m : MethodModel) : String :=
  "\n" ++ indent ++ m.visibility.keyword ++ (if m.isStatic then " static" else "") ++
    " function " ++ m.signature ++ "\n" ++ indent ++ "\x7b\n" ++ indent ++ "\x7d\n"

/-- The stubs of the methods that a class lacks. Interfaces lack none. -/
def stubs (c : ClassModel) (owners : List ClassModel) : String :=
  if c.kind = .isInterface then "" else String.join ((missingMethods c owners).map stub)

end CodeInsight.Generation
