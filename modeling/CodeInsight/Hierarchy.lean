import CodeInsight.TypeHint

/-!
# Class hierarchies

Which classes a class inherits from, which members it has, and what types they have. Everything here
works over a lookup function for classes, so that it does not matter where the classes come from.
-/

namespace CodeInsight

abbrev Lookup := ClassName → Option ClassModel

/-- Classes of a file come before those found elsewhere. -/
def Lookup.within (lookup : Lookup) (file : FileModel) : Lookup :=
  fun name => file.find? name <|> lookup name

namespace Hierarchy

/-- Chains of parents, traits and interfaces are followed to this depth. -/
def maxDepth : Nat := 20

/-! ## Ancestry -/

structure Walk where
  seen : List ClassName
  found : List ClassModel
  pending : List ClassName

/-- Meets a name: its class is looked up unless the name was met before. -/
def Walk.meet (lookup : Lookup) (w : Walk) (name : ClassName) : Walk × Option ClassModel :=
  if w.seen.contains name then (w, none) else ({ w with seen := w.seen ++ [name] }, lookup name)

def Walk.add (w : Walk) (c : ClassModel) : Walk := { w with found := w.found ++ [c] }

/-- Walks through traits and the traits they use, at most `depth` levels deep. -/
def walkTraits (lookup : Lookup) : Nat → List ClassName → Walk → Walk
  | 0, _, w => w
  | depth + 1, names, w =>
    names.foldl (fun w name =>
      match w.meet lookup name with
      | (w, some c) => walkTraits lookup depth c.traits (w.add c)
      | (w, none) => w) w

/-- Adds a class and the traits it uses, and notes its interfaces. -/
def walkClass (lookup : Lookup) (c : ClassModel) (w : Walk) : Walk :=
  walkTraits lookup (maxDepth + 1) c.traits
    { (w.add c) with pending := w.pending ++ c.implemented }

/-- Walks from a class up its chain of parents, at most `depth` of them. -/
def walkParents (lookup : Lookup) : Nat → ClassModel → Walk → Walk
  | 0, c, w => walkClass lookup c w
  | depth + 1, c, w =>
    let w := walkClass lookup c w
    match c.parent with
    | none => w
    | some parent =>
      match w.meet lookup parent with
      | (w, some p) => walkParents lookup depth p w
      | (w, none) => w

def visitInterface (lookup : Lookup) (w : Walk) (name : ClassName) : Walk :=
  match w.meet lookup name with
  | (w, some c) => { (w.add c) with pending := w.pending ++ c.implemented }
  | (w, none) => w

/-- Visits the interfaces noted, then those they extend, and so on for `depth` rounds. -/
def walkInterfaces (lookup : Lookup) : Nat → Walk → Walk
  | 0, w => w
  | depth + 1, w =>
    walkInterfaces lookup depth
      (w.pending.foldl (visitInterface lookup) { w with pending := [] })

def walkFrom (lookup : Lookup) (c : ClassModel) : Walk :=
  walkInterfaces lookup (maxDepth + 1) (walkParents lookup maxDepth c ⟨[c.name], [], []⟩)

/-- A class followed by every class, trait and interface it inherits from, in the order in which
members are looked up: traits before parents, parents before interfaces. -/
def ancestry (lookup : Lookup) (c : ClassModel) : List ClassModel := (walkFrom lookup c).found

/-- The names that are looked up to find the ancestors of the class of a name, that name first. The
types and the table of its members need no others. -/
def queries (lookup : Lookup) (name : ClassName) : List ClassName :=
  match lookup name with
  | some c => name :: (walkFrom lookup c).seen
  | none => [name]

/-- The names of the traits that a class uses, directly or through other traits. -/
def traitNames (lookup : Lookup) (c : ClassModel) : List ClassName :=
  (walkTraits lookup (maxDepth + 1) c.traits ⟨[c.name], [], []⟩).found.map ClassModel.name

end Hierarchy

/-! ## Members -/

structure Declared (α : Type) where
  owner : ClassName
  member : α
  deriving DecidableEq, Repr

structure MemberTable where
  methods : List (Declared MethodModel)
  properties : List (Declared PropertyModel)
  deriving DecidableEq, Repr

namespace Hierarchy

def addMember {α : Type} (name : α → String) (known : List (Declared α)) (d : Declared α) :
    List (Declared α) :=
  if known.any fun k => name k.member = name d.member then known else known ++ [d]

/-- The declarations of a class that another one has. Private members are not inherited, except from
traits, whose members are copied into the classes that use them. -/
def offered {α : Type} (visibility : α → Visibility) (declarations : ClassModel → List α)
    (own : List ClassName) (owner : ClassModel) : List (Declared α) :=
  ((declarations owner).filter fun m =>
    own.contains owner.name || visibility m ≠ .isPrivate).map fun m => ⟨owner.name, m⟩

/-- The members of one sort along a list of owners: the first declaration of a name counts. -/
def merged {α : Type} (name : α → String) (visibility : α → Visibility)
    (declarations : ClassModel → List α) (own : List ClassName) (owners : List ClassModel) :
    List (Declared α) :=
  (owners.flatMap (offered visibility declarations own)).foldl (addMember name) []

def members (lookup : Lookup) (c : ClassModel) : MemberTable :=
  let owners := ancestry lookup c
  let own := c.name :: traitNames lookup c
  { methods := merged MethodModel.name MethodModel.visibility ClassModel.methods own owners
    properties :=
      merged PropertyModel.name PropertyModel.visibility ClassModel.properties own owners }

/-! ## Types of members -/

/-- The type of a member that an owner declares: `static` still means the receiver. -/
def memberType (hint : Option String) (owner : ClassModel) (receiver : ClassName) : InferredType :=
  match hint with
  | some hint => TypeHint.read hint { owner.context with staticClass := some receiver }
  | none => .unknown

def propertyType (lookup : Lookup) (receiver : ClassName) (name : String) : InferredType :=
  match lookup receiver with
  | none => .unknown
  | some c =>
    ((ancestry lookup c).findSome? fun owner =>
      (owner.properties.find? fun p => p.name = name).map fun p =>
        memberType p.declaredType owner receiver).getD .unknown

/-- The type that a method of a class returns. Cases of letters do not matter. -/
def returnType (lookup : Lookup) (receiver : ClassName) (name : String) : InferredType :=
  match lookup receiver with
  | none => .unknown
  | some c =>
    ((ancestry lookup c).findSome? fun owner =>
      (owner.methods.find? fun m => m.name.toLower = name.toLower).map fun m =>
        memberType m.returnType owner receiver).getD .unknown

def fetched (lookup : Lookup) (receiver : InferredType) (name : String) : InferredType :=
  match receiver.class? with
  | some c => propertyType lookup c name
  | none => .unknown

def called (lookup : Lookup) (receiver : InferredType) (name : String) : InferredType :=
  match receiver.class? with
  | some c => returnType lookup c name
  | none => .unknown

end Hierarchy

end CodeInsight
