import CodeInsight.Span

/-!
# Parse trees

The trees that analyses work on. They keep every expression of a body with its place in the source,
and they group forms by what analyses ask of them: an `operation` is scanned operand by operand, an
`unscanned` form is a single unit whose parts nobody looks into. Types, default values and the like
are kept as the range of source they take.
-/

namespace CodeInsight.Grammar

structure Name where
  text : String
  span : Span
  deriving DecidableEq, Repr

/-- Modifiers of declarations. The `Set` forms restrict writing only. -/
inductive Modifier where
  | isPublic | isProtected | isPrivate | isPublicSet | isProtectedSet | isPrivateSet
  | isStatic | isAbstract | isFinal | isReadonly
  deriving DecidableEq, Repr

structure Param where
  /-- The variable, with its `$`. -/
  name : String
  hint : Option Span
  /-- From the `=` to the end of the default value. -/
  initial : Option Span
  modifiers : List Modifier
  /-- The parameter declares property hooks. -/
  hooked : Bool
  variadic : Bool
  byReference : Bool
  deriving DecidableEq, Repr

inductive ImportKind where
  | ofClass | ofFunction | ofConstant
  deriving DecidableEq, Repr

structure Import where
  kind : ImportKind
  /-- The common part written before the braces of a group. -/
  group : Option String
  name : String
  rename : Option String
  deriving DecidableEq, Repr

inductive ClassForm where
  | isClass | isInterface | isTrait | isEnum
  deriving DecidableEq, Repr

structure ClassHead where
  form : ClassForm
  modifiers : List Modifier
  name : Name
  bases : List Name
  implements : List Name
  /-- From the opening to the closing brace. -/
  braces : Span
  deriving DecidableEq, Repr

inductive ClassWord where
  | self | static | parent
  deriving DecidableEq, Repr

inductive LiteralKind where
  | string | integer | float
  /-- `true`, `false`, `null` and the magic constants. -/
  | constant
  deriving DecidableEq, Repr

/-- How a list of elements is written: `[…]`, `array(…)` or `list(…)`. -/
inductive ArrayStyle where
  | brackets | arrayWord | listWord
  deriving DecidableEq, Repr

/-- Forms whose operands are scanned in the order they are written. -/
inductive Operation where
  | binary | unary | update | conditional | matching | indexing | piping | throwing | yielding
  | printing
  deriving DecidableEq, Repr

inductive UnscannedForm where
  /-- `$$name` or `${expression}`. -/
  | indirectVariable
  /-- `Name::$property`. -/
  | staticProperty
  /-- `Name::CONSTANT`. -/
  | classConstant
  /-- `name(...)`. -/
  | callable
  /-- `$array[]`. -/
  | append
  /-- A member name computed in braces. -/
  | computedName
  /-- A string with interpolated parts, a here-document or a shell command. -/
  | template
  /-- `isset`, `empty`, `include`, `eval`, `exit`. -/
  | construct
  deriving DecidableEq, Repr

inductive LoopKind where
  | forLoop | whileLoop | doLoop
  deriving DecidableEq, Repr

/-- Statements that evaluate a list of expressions. -/
inductive EvaluateForm where
  | echo | unset | returned
  deriving DecidableEq, Repr

mutual

inductive Expr where
  /-- `$name`, the `$` included. -/
  | variable (span : Span) (name : String)
  /-- A constant, or the name of a class, a function or a member. -/
  | name (span : Span) (text : String)
  | classWord (span : Span) (word : ClassWord)
  | literal (span : Span) (kind : LiteralKind)
  | array (span : Span) (style : ArrayStyle) (elements : List Element)
  | assign (span : Span) (target value : Expr)
  | closure (span : Span) (params : List Param) (captures : List Name) (braces : Span)
      (body : List Stmt)
  | arrow (span : Span) (params : List Param) (body : Expr)
  | group (span : Span) (inner : Expr)
  | call (span : Span) (callee : Expr) (args : List Expr)
  /-- `object->member(…)` or `object?->member(…)`. -/
  | methodCall (span : Span) (object member : Expr) (args : List Expr)
  /-- `Name::member(…)`. -/
  | staticCall (span : Span) (scope member : Expr) (args : List Expr)
  /-- `object->member` or, if it is `nullsafe`, `object?->member`. -/
  | fetch (span : Span) (nullsafe : Bool) (object member : Expr)
  /-- `new Name(…)`. -/
  | new (span : Span) (of : Expr) (args : List Expr)
  /-- `new class (…) {…}`. -/
  | anonymousClass (span : Span) (args : List Expr) (members : List Member)
  | clone (span : Span) (object : Expr)
  | operation (span : Span) (form : Operation) (operands : List Expr)
  | unscanned (span : Span) (form : UnscannedForm) (parts : List Expr)

inductive Element where
  | item (value : Expr)
  | pair (key value : Expr)
  | spread (value : Expr)
  /-- An element left out between two commas. -/
  | hole

inductive Stmt where
  | openTag (span : Span)
  | declare (span : Span) (values : List Expr) (body : List Stmt)
  | namespaceDecl (span : Span) (name : Option Name) (braced : Bool) (body : List Stmt)
  | imports (span : Span) (items : List Import)
  | classLike (span : Span) (head : ClassHead) (members : List Member)
  | function (span : Span) (name : Name) (params : List Param) (braces : Span) (body : List Stmt)
  | expression (span : Span) (value : Expr)
  | block (span : Span) (body : List Stmt)
  /-- `if`. An `elseif` is a branch of its own within `no`. -/
  | branch (span : Span) (condition : Expr) (yes no : List Stmt)
  /-- `bodyStart` is where the body, or the colon before it, begins. -/
  | foreach (span : Span) (subject : Expr) (key : Option Expr) (value : Expr) (bodyStart : Nat)
      (body : List Stmt)
  /-- Expressions before the body, and, of a `do` loop, the one after it. -/
  | loop (span : Span) (kind : LoopKind) (header : List Expr) (body : List Stmt)
      (footer : List Expr)
  | evaluate (span : Span) (form : EvaluateForm) (values : List Expr)
  | attempt (span : Span) (body handlers cleanup : List Stmt)
  | handler (span : Span) (hint : Span) (bound : Option Name) (braces : Span) (body : List Stmt)
  | switch (span : Span) (subject : Expr) (cases : List Stmt)
  /-- A `case` or, without a value, the `default` clause. -/
  | switchCase (span : Span) (value : Option Expr) (body : List Stmt)
  | globals (span : Span) (named : List Expr)
  | statics (span : Span) (names : List Name) (values : List Expr)
  /-- Statements that bind nothing and whose expressions are not scanned. -/
  | inert (span : Span) (parts : List Expr)

inductive Member where
  /-- Without `braces` the method has no body. -/
  | method (span : Span) (modifiers : List Modifier) (name : Name) (params : List Param)
      (returns : Option Span) (braces : Option Span) (body : List Stmt)
  | property (span : Span) (modifiers : List Modifier) (hint : Option Span) (names : List Name)
  | traitUse (span : Span) (names : List Name)
  /-- Constants and enumeration cases. -/
  | constant (span : Span)

end

namespace Expr

def span : Expr → Span
  | .variable s _ | .name s _ | .classWord s _ | .literal s _ | .array s _ _ | .assign s _ _
  | .closure s _ _ _ _ | .arrow s _ _ | .group s _ | .call s _ _ | .methodCall s _ _ _
  | .staticCall s _ _ _ | .fetch s _ _ _ | .new s _ _ | .anonymousClass s _ _ | .clone s _
  | .operation s _ _ | .unscanned s _ _ => s

end Expr

namespace Stmt

def span : Stmt → Span
  | .openTag s | .declare s _ _ | .namespaceDecl s _ _ _ | .imports s _ | .classLike s _ _
  | .function s _ _ _ _ | .expression s _ | .block s _ | .branch s _ _ _ | .foreach s _ _ _ _ _
  | .loop s _ _ _ _ | .evaluate s _ _ | .attempt s _ _ _ | .handler s _ _ _ _ | .switch s _ _
  | .switchCase s _ _ | .globals s _ | .statics s _ _ | .inert s _ => s

end Stmt

namespace Member

def span : Member → Span
  | .method s _ _ _ _ _ _ | .property s _ _ _ | .traitUse s _ | .constant s => s

end Member

end CodeInsight.Grammar
