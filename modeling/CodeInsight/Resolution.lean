import CodeInsight.Analysis
import CodeInsight.Receiver.Chain
import CodeInsight.Receiver.Repair
import CodeInsight.Receiver.Site

/-!
# What stands at an offset

Resolving an offset tells the scope it lies in, the variables visible there, and the type of what is
being typed: the member behind a fetch operator, or a variable. A text that does not parse is tried
again with the expression at the offset blanked out or ended.
-/

namespace CodeInsight

open Receiver

/-! ## Types of chains -/

namespace Receiver

/-- The type that a chain begins with. `base` is the type of a variable. -/
def Base.type (lookup : Lookup) (context : NameContext) (base : String → InferredType) :
    Base → InferredType
  | .variable name => base name
  | .new className => TypeHint.read className context
  | .staticCall className method =>
    Hierarchy.called lookup (TypeHint.read className context) method
  | .functionCall _ => .unknown

def Link.type (lookup : Lookup) (receiver : InferredType) : Link → InferredType
  | .property name => Hierarchy.fetched lookup receiver name
  | .method name => Hierarchy.called lookup receiver name

def Chain.type (lookup : Lookup) (context : NameContext) (base : String → InferredType)
    (chain : Chain) : InferredType :=
  chain.links.foldl (Link.type lookup) (chain.base.type lookup context base)

/-- The value whose members are looked up for the type that a chain begins with. -/
def Base.receivers (context : NameContext) : Base → List InferredType
  | .staticCall className _ => [TypeHint.read className context]
  | _ => []

/-- The values whose members are looked up by the steps of a chain. -/
def Link.receivers (lookup : Lookup) : InferredType → List Link → List InferredType
  | _, [] => []
  | receiver, link :: rest => receiver :: Link.receivers lookup (link.type lookup receiver) rest

/-- The values whose members are looked up for the type of a chain. -/
def Chain.receivers (lookup : Lookup) (context : NameContext) (base : String → InferredType)
    (chain : Chain) : List InferredType :=
  chain.base.receivers context ++
    Link.receivers lookup (chain.base.type lookup context base) chain.links

end Receiver

/-! ## Resolutions -/

structure ScopeSummary where
  id : Nat
  kind : ScopeKind
  range : Span
  enclosing : Option ClassName
  bindings : List Binding
  deriving DecidableEq, Repr

structure FetchSummary where
  receiver : InferredType
  /-- The member's name up to the offset. -/
  typed : String
  nullsafe : Bool
  members : Option MemberTable
  deriving DecidableEq, Repr

structure Resolution where
  offset : Nat
  scope : ScopeSummary
  inferred : InferredType
  fetch : Option FetchSummary
  typedVariable : Option String
  deriving DecidableEq, Repr

namespace Resolution

inductive Site where
  | fetch (site : FetchSite)
  | variable (site : VariableSite)
  | other
  deriving DecidableEq, Repr

def siteAt (text : Text) (offset : Nat) : Site :=
  match fetchSite? text offset with
  | some site => .fetch site
  | none =>
    match variableSite? text offset with
    | some site => .variable site
    | none => .other

def candidates (text : Text) (offset : Nat) : Site → List Text
  | .fetch site => [neutralize text site.tail, text]
  | .variable site =>
    text :: (terminateAt? text site.token.stop).toList ++ [neutralize text site.token]
  | .other => text :: (terminateAt? text offset).toList

/-- Analyses the first text that parses. If there is none, the failure of the text as it is counts,
or else that of the last one. -/
def firstAnalysis (lookup : Lookup) (path : String) (text : Text) :
    List Text → Failure → Option Failure → Analyses → Except Failure Analysis × Analyses
  | [], last, own, kept => (.error (own.getD last), kept)
  | candidate :: rest, last, own, kept =>
    match Analyses.analyse lookup path candidate kept with
    | (.ok a, kept) => (.ok a, kept)
    | (.error failure, kept) =>
      if candidate = text then firstAnalysis lookup path text rest last (some failure) kept
      else firstAnalysis lookup path text rest failure own kept

/-- The offset whose scope counts: that of the beginning of what is being typed, because a scope may
end with it. -/
def anchor (offset : Nat) : Site → Nat
  | .fetch site => site.receiver.start
  | .variable site => site.token.start
  | .other => offset

def scopeSummary (a : Analysis) (size anchor offset : Nat) : ScopeSummary :=
  let id := a.forest.scopeAt anchor
  let scope := (a.forest.scopes[id]?).getD ⟨.file, ⟨0, 0⟩, none, []⟩
  { id, kind := scope.kind, range := ⟨min scope.range.start size, min scope.range.stop size⟩
    enclosing := (a.file.classAt offset).map ClassModel.name
    bindings := a.forest.visible id offset }

def receiverType (lookup : Lookup) (a : Analysis) (scope : Nat) (text : Text) (site : FetchSite) :
    InferredType :=
  match Chain.ofText? (Text.slice text site.receiver.start site.receiver.stop) with
  | some chain =>
    let start := site.receiver.start
    chain.type lookup (a.context start) fun name => a.forest.lookup scope name start
  | none => .unknown

/-- The values whose members are looked up for a fetch: those along the chain, and the receiver. -/
def receiversAt (lookup : Lookup) (a : Analysis) (scope : Nat) (text : Text) (site : FetchSite) :
    List InferredType :=
  match Chain.ofText? (Text.slice text site.receiver.start site.receiver.stop) with
  | some chain =>
    let start := site.receiver.start
    chain.receivers lookup (a.context start) (fun name => a.forest.lookup scope name start) ++
      [receiverType lookup a scope text site]
  | none => []

/-- The type of the member that is fetched; before its name is typed, that of the receiver. -/
def memberType (lookup : Lookup) (text : Text) (site : FetchSite) (receiver : InferredType) :
    InferredType :=
  if site.member = "" then receiver
  else if (Text.trimStart (Text.after text site.tail.stop)).head? = some '(' then
    Hierarchy.called lookup receiver site.member
  else Hierarchy.fetched lookup receiver site.member

def membersOf (lookup : Lookup) (type : InferredType) : Option MemberTable :=
  (type.class?.bind lookup).map (Hierarchy.members lookup)

/-- What an analysis tells about an offset. `lookup` finds classes outside of the file. -/
def ofAnalysis (lookup : Lookup) (a : Analysis) (text : Text) (offset : Nat) (site : Site) :
    Resolution :=
  let lookup := lookup.within a.file
  let scope := scopeSummary a (Text.size text) (anchor offset site) offset
  match site with
  | .fetch site =>
    let receiver := receiverType lookup a scope.id text site
    { offset, scope, inferred := memberType lookup text site receiver
      fetch := some { receiver, typed := site.typed, nullsafe := site.nullsafe,
                      members := membersOf lookup receiver }
      typedVariable := none }
  | .variable site =>
    let name := String.ofList (Text.slice text site.token.start site.token.stop)
    { offset, scope, inferred := a.forest.lookup scope.id name offset, fetch := none
      typedVariable := some site.typed }
  | .other => { offset, scope, inferred := .unknown, fetch := none, typedVariable := none }

/-- The values whose members are looked up to tell what stands at an offset. -/
def receivers (lookup : Lookup) (a : Analysis) (text : Text) (offset : Nat) : List InferredType :=
  match siteAt text (min offset (Text.size text)) with
  | .fetch site =>
    receiversAt (lookup.within a.file) a (a.forest.scopeAt site.receiver.start) text site
  | _ => []

/-- Resolves an offset of a text. Offsets past the end count as the end. -/
def resolve (lookup : Lookup) (path : String) (text : Text) (offset : Nat) (kept : Analyses) :
    Except Failure Resolution × Analyses :=
  let offset := min offset (Text.size text)
  let site := siteAt text offset
  match firstAnalysis lookup path text (candidates text offset site) (.malformed path offset) none
    kept with
  | (.ok a, kept) => (.ok (ofAnalysis lookup a text offset site), kept)
  | (.error failure, kept) => (.error failure, kept)

end Resolution

end CodeInsight
