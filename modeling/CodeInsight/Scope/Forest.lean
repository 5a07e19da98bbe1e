import CodeInsight.TypeHint

/-!
# Scopes

The scopes of a file form a tree, kept as a list in which every scope names its parent by position.
The file itself is the first scope. Bindings are kept in the order of the offsets from which they
are visible.
-/

namespace CodeInsight

inductive ScopeKind where
  | file | function | method | closure | arrowFunction
  deriving DecidableEq, Repr

structure Binding where
  /-- The variable, with its `$`. -/
  name : String
  /-- The binding is visible from here on. -/
  offset : Nat
  type : InferredType
  deriving DecidableEq, Repr

structure Scope where
  kind : ScopeKind
  range : Span
  /-- The position of the scope around it. -/
  parent : Option Nat
  bindings : List Binding
  deriving DecidableEq, Repr

/-- The scopes of a file, the file itself first. -/
structure Forest where
  scopes : List Scope
  deriving DecidableEq, Repr

def clampTo (low high offset : Nat) : Nat :=
  if offset < low then low else if high < offset then high else offset

namespace Forest

def ofSize (size : Nat) : Forest := ⟨[⟨.file, ⟨0, size⟩, none, []⟩]⟩

def fileScope : Nat := 0

def fit (outer range : Span) : Span :=
  let start := clampTo outer.start outer.stop range.start
  ⟨start, clampTo start outer.stop range.stop⟩

def next (forest : Forest) : Nat := forest.scopes.length

/-- Adds a scope within another one, cut to the range of the outer one. -/
def nest (forest : Forest) (outer : Nat) (kind : ScopeKind) (range : Span) : Forest :=
  let around := (forest.scopes[outer]?.map Scope.range).getD ⟨0, 0⟩
  ⟨forest.scopes ++ [⟨kind, fit around range, some outer, []⟩]⟩

/-- Puts a binding behind those that are visible from its offset or from an earlier one. -/
def insertBinding (b : Binding) (bindings : List Binding) : List Binding :=
  bindings.takeWhile (fun k => k.offset ≤ b.offset) ++
    b :: bindings.dropWhile (fun k => k.offset ≤ b.offset)

def bind (forest : Forest) (scope : Nat) (name : String) (offset : Nat) (type : InferredType) :
    Forest :=
  ⟨forest.scopes.modify scope fun s =>
    { s with bindings := insertBinding ⟨name, offset, type⟩ s.bindings }⟩

/-- The innermost scope that holds an offset. Scopes come after the scopes around them, so one pass
that steps into every scope met within the current one finds it. -/
def scopeAt (forest : Forest) (offset : Nat) : Nat :=
  (forest.scopes.zipIdx).foldl (fun current (scope, position) =>
    if scope.parent = some current && scope.range.contains offset then position else current)
    fileScope

/-- The way out from a scope, at most `fuel` steps of it. -/
def chainFrom (forest : Forest) : Nat → Nat → List Nat
  | 0, _ => []
  | fuel + 1, scope =>
    scope :: match forest.scopes[scope]?.bind Scope.parent with
      | some outer => chainFrom forest fuel outer
      | none => []

/-- A scope and the scopes around it, the innermost first. Every scope has a position greater than
that of its parent, which bounds the number of steps. -/
def chain (forest : Forest) (scope : Nat) : List Nat := forest.chainFrom (scope + 1) scope

def bindingsAt (forest : Forest) (scope offset : Nat) : List Binding :=
  ((forest.scopes[scope]?.map Scope.bindings).getD []).filter fun b => b.offset ≤ offset

/-- The binding of a name that counts at an offset in one scope: the last one before it. -/
def bindingIn? (forest : Forest) (scope : Nat) (name : String) (offset : Nat) : Option Binding :=
  (forest.bindingsAt scope offset).reverse.find? fun b => b.name = name

/-- The type of a variable at an offset: that of its binding in the innermost scope that has one. -/
def lookup (forest : Forest) (scope : Nat) (name : String) (offset : Nat) : InferredType :=
  (((forest.chain scope).findSome? fun s => forest.bindingIn? s name offset).map
    Binding.type).getD .unknown

/-- Adds a binding; one of the same name gives way to it in place. -/
def supersede (b : Binding) : List Binding → List Binding
  | [] => [b]
  | k :: rest => if k.name = b.name then b :: rest else k :: supersede b rest

/-- The bindings of one scope that count at an offset, in the order in which their names appear. -/
def localAt (forest : Forest) (scope offset : Nat) : List Binding :=
  (forest.bindingsAt scope offset).foldl (fun known b => supersede b known) []

def addOuter (inner outer : List Binding) : List Binding :=
  outer.foldl (fun known b => if known.any fun k => k.name = b.name then known else known ++ [b])
    inner

/-- Every binding visible at an offset, the innermost scope first. Inner bindings hide outer
ones. -/
def visible (forest : Forest) (scope offset : Nat) : List Binding :=
  (forest.chain scope).foldl (fun known s => addOuter known (forest.localAt s offset)) []

end Forest

end CodeInsight
