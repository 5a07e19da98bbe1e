import CodeInsight.Resolution
import CodeInsight.Text.Lowercase

/-!
# Completion

Providers offer suggestions for an offset. The offers of all providers are joined in the order of
the providers, and of two suggestions with one label and kind the first counts.
-/

namespace CodeInsight

inductive SuggestionKind where
  | variable | method | property | ofClass
  deriving DecidableEq, Repr

structure Suggestion where
  label : String
  kind : SuggestionKind
  insertText : String
  detail : String
  deriving DecidableEq, Repr

structure Provider where
  name : String
  provide : Resolution → List Suggestion

namespace Completion

/-- A label continues what is typed, in any mixture of cases. -/
def continues (label typed : String) : Bool :=
  (lowercase typed).toList.isPrefixOf (lowercase label).toList

/-! ## Variables -/

def typeDetail : InferredType → String
  | .unknown => "mixed"
  | type => type.text

def ofBinding (b : Binding) : Suggestion := ⟨b.name, .variable, b.name, typeDetail b.type⟩

/-- Offers the variables visible at an offset, unless a member is being typed. -/
def boundNames : Provider where
  name := "variable"
  provide r :=
    match r.fetch with
    | some _ => []
    | none =>
      (r.scope.bindings.filter fun b => continues b.name (r.typedVariable.getD "")).map ofBinding

/-! ## Members -/

/-- Methods that are called by the language itself. -/
def magicMethods : List String :=
  ["__construct", "__destruct", "__clone", "__get", "__set", "__isset", "__unset", "__call",
   "__callStatic", "__invoke", "__toString", "__sleep", "__wakeup", "__serialize", "__unserialize",
   "__set_state", "__debugInfo"]

def isMagic (name : String) : Bool := magicMethods.any fun m => m.toLower = name.toLower

def ofMethod (m : MethodModel) : Suggestion := ⟨m.name, .method, m.name ++ "(", m.signature⟩

def ofProperty (p : PropertyModel) : Suggestion :=
  ⟨p.name, .property, p.name, p.declaredType.getD "mixed"⟩

/-- The members of a table that are offered behind a fetch operator. -/
def offeredMembers (table : MemberTable) (typed : String) : List Suggestion :=
  let methods := (table.methods.map Declared.member).filter fun m =>
    !m.isStatic && !isMagic m.name && continues m.name typed
  let properties := (table.properties.map Declared.member).filter fun p =>
    !p.isStatic && continues p.name typed
  methods.map ofMethod ++ properties.map ofProperty

def members : Provider where
  name := "fetch"
  provide r :=
    match r.fetch with
    | some fetch => (fetch.members.map fun table => offeredMembers table fetch.typed).getD []
    | none => []

/-! ## All providers -/

def defaults : List Provider := [boundNames, members]

def sameKey (a b : Suggestion) : Bool := a.label = b.label && a.kind = b.kind

def add (known : List Suggestion) (s : Suggestion) : List Suggestion :=
  if known.any (sameKey s) then known else known ++ [s]

def suggestions (providers : List Provider) (r : Resolution) : List Suggestion :=
  (providers.flatMap fun p => p.provide r).foldl add []

def complete (lookup : Lookup) (providers : List Provider) (path : String) (text : Text)
    (offset : Nat) (kept : Analyses) : Except Failure (List Suggestion) × Analyses :=
  match Resolution.resolve lookup path text offset kept with
  | (.ok r, kept) => (.ok (suggestions providers r), kept)
  | (.error failure, kept) => (.error failure, kept)

end Completion

end CodeInsight
