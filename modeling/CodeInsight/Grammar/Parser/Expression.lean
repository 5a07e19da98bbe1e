import CodeInsight.Grammar.Parser.Declaration

/-!
# Expressions

An expression is an operand followed by operators, each of which binds at a level. `operand` reads
what an expression can begin with, `continued` goes on with calls, member accesses and operators as
long as they bind tightly enough for the place.
-/

namespace CodeInsight.Grammar.Parser

/-! ## Levels of binding

The higher the level of an operator, the more tightly it binds. Level 0 admits every operator. -/

namespace Level

def disjunction : Nat := 2

def exclusion : Nat := 3

def conjunction : Nat := 4

/-- `=` and the operators that end in it. -/
def assignment : Nat := 5

def conditional : Nat := 6

def coalesce : Nat := 7

/-- Signs, negations, casts and the like before an operand. -/
def unary : Nat := 20

def type : Nat := 21

def power : Nat := 22

def clone : Nat := 23

/-- `++` and `--`. -/
def update : Nat := 24

/-- `&` before an operand. -/
def reference : Nat := 25

def call : Nat := 26

/-- What follows `new`. -/
def creation : Nat := 27

def index : Nat := 28

/-- `->`, `?->` and `::`. -/
def member : Nat := 29

/-- The level of a binary operator and the least level of what may stand to its right: the next
higher level for operators that group to the left. -/
def ofBinary? : TokenKind → Option (Nat × Nat)
  | .keyword .orKw => some (disjunction, disjunction + 1)
  | .keyword .xorKw => some (exclusion, exclusion + 1)
  | .keyword .andKw => some (conjunction, conjunction + 1)
  | .symbol .doubleQuestion => some (coalesce, coalesce)
  | .symbol .doublePipe => some (8, 9)
  | .symbol .doubleAmpersand => some (9, 10)
  | .symbol .pipe => some (10, 11)
  | .symbol .caret => some (11, 12)
  | .symbol .ampersand => some (12, 13)
  | .symbol .doubleEqual | .symbol .bangEqual | .symbol .lessMore | .symbol .tripleEqual
  | .symbol .bangDoubleEqual | .symbol .spaceship => some (13, 14)
  | .symbol .less | .symbol .lessEqual | .symbol .more | .symbol .moreEqual => some (14, 15)
  | .symbol .pipeMore => some (15, 16)
  | .symbol .dot => some (16, 17)
  | .symbol .shiftLeft | .symbol .shiftRight => some (17, 18)
  | .symbol .plus | .symbol .minus => some (18, 19)
  | .symbol .star | .symbol .slash | .symbol .percent => some (19, 20)
  | .keyword .instanceofKw => some (type, type + 1)
  | .symbol .doubleStar => some (power, power)
  | _ => none

end Level

/-! ## Variables, arrays and strings -/

/-- A variable: `$name`, `$` before another variable, or `$` directly before an expression in
braces. -/
def variableRounds (g : Recursion) : Nat → Parser Expr
  | 0 => unexpected
  | fuel + 1 => do
    match ← kindAt 0 with
    | some .variable => do
      let t ← anyToken
      return .variable t.span t.text
    | some (.symbol .dollarBrace) => do
      let (braces, inner) ← between .dollarBrace .rightBrace (g.expr 0)
      return .unscanned braces .indirectVariable [inner]
    | _ => do
      let mark ← symbol .dollar
      let inner ← variableRounds g fuel
      return .unscanned (mark.span.through inner.span) .indirectVariable [inner]

def variableExpr (g : Recursion) : Parser Expr := do variableRounds g ((← get).length + 1)

/-- An element of an array. Nothing before a comma is a hole. -/
def element (g : Recursion) : Parser Element := do
  if ← atSymbol .comma then return .hole
  if ← skipSymbol .ellipsis then return .spread (← g.expr 0)
  let first ← g.expr 0
  if ← skipSymbol .doubleArrow then return .pair first (← g.expr 0)
  return .item first

def arrayExpr (g : Recursion) (start : Nat) (style : ArrayStyle) (opening closing : Symbol) :
    Parser Expr := do
  let (span, elements) ← between opening closing (list closing (element g))
  return .array ⟨start, span.stop⟩ style elements

/-- The index of a variable in a part without braces. A word there is no constant. -/
def partIndex (g : Recursion) : Parser Expr := do
  if ← nextIs Token.isWord then
    let t ← anyToken
    return .name t.span t.text
  g.expr 0

/-- A part without braces: a variable, and perhaps an index or a property of it. -/
def plainPart (g : Recursion) : Parser Expr := do
  let base ← variableExpr g
  match ← kindAt 0 with
  | some (.symbol .leftBracket) => do
    let (brackets, index) ← between .leftBracket .rightBracket (partIndex g)
    return .operation (base.span.through brackets) .indexing [base, index]
  | some (.symbol .arrow) | some (.symbol .nullArrow) => do
    let operator ← anyToken
    let word ← identifier
    return .fetch (base.span.through word.span) (operator.isSymbol .nullArrow) base
      (.name word.span word.text)
  | _ => return base

/-- A piece of a string after its opening mark; expressions only are kept. -/
def templatePart (g : Recursion) : Parser (List Expr) := do
  match ← kindAt 0 with
  | some .templateText => do
    let _ ← anyToken
    return []
  | some (.symbol .dollarBrace) =>
    return [(← between .dollarBrace .rightBrace (g.expr 0)).2]
  | some (.symbol .leftBrace) =>
    return [(← between .leftBrace .rightBrace (g.expr 0)).2]
  | _ => return [← plainPart g]

def template (g : Recursion) (closing : TokenKind) : Parser Expr := do
  let first ← anyToken
  let parts ← many (nextIs (·.kind == closing)) (templatePart g)
  let last ← anyToken
  return .unscanned (first.span.through last.span) .template parts.flatten

/-! ## Functions within expressions -/

/-- A variable that a closure takes over from outside. -/
def capture : Parser Name := do
  let _ ← skipSymbol .ampersand
  variableName

def closure (g : Recursion) (start : Nat) : Parser Expr := do
  let _ ← keyword .functionKw
  let _ ← skipSymbol .ampersand
  let params ← params g
  let captures ← if ← skipKeyword .useKw then
      Prod.snd <$> between .leftParen .rightParen (list .rightParen capture)
    else pure []
  let _ ← returnHint?
  let (braces, body) ← block g
  return .closure ⟨start, braces.stop⟩ params captures braces body

def arrow (g : Recursion) (start : Nat) : Parser Expr := do
  let _ ← keyword .fnKw
  let _ ← skipSymbol .ampersand
  let params ← params g
  let _ ← returnHint?
  let _ ← symbol .doubleArrow
  let body ← g.expr 0
  return .arrow ⟨start, body.span.stop⟩ params body

/-- A closure or an arrow function that begins at `start`, perhaps after `static`. -/
def anonymousFunction (g : Recursion) (start : Nat) : Parser Expr := do
  let _ ← skipKeyword .staticKw
  if ← atKeyword .fnKw then arrow g start else closure g start

/-! ## Other forms that begin with a word -/

/-- An expression that begins with a given token and applies to one operand. -/
def applied (g : Recursion) (form : Operation) (level : Nat) : Parser Expr := do
  let mark ← anyToken
  let operand ← g.expr level
  return .operation (mark.span.through operand.span) form [operand]

/-- Something that only an anonymous class begins with comes next. -/
def atAnonymousClass : Parser Bool :=
  nextIs fun t => match t.kind with
    | .symbol .attributeOpen | .keyword .classKw => true
    | .keyword k => k.isModifier && k ≠ .staticKw
    | _ => false

/-- `new`, from the keyword on: an anonymous class, or a name or an expression and perhaps
arguments. -/
def creation (g : Recursion) : Parser Expr := do
  let mark ← keyword .newKw
  if ← atAnonymousClass then
    attributes g
    let _ ← modifiers
    let _ ← keyword .classKw
    let args ← if ← atSymbol .leftParen then Prod.snd <$> arguments g else pure []
    let _ ← namesAfter .extendsKw
    let _ ← namesAfter .implementsKw
    let (braces, members) ← members g
    return .anonymousClass (mark.span.through braces) args members
  let of ← g.expr Level.creation
  if ← atSymbol .leftParen then
    let (parens, args) ← arguments g
    return .new (mark.span.through parens) of args
  return .new (mark.span.through of.span) of []

/-- An arm of `match`: its conditions, none for `default`, followed by its value. -/
def matchArm (g : Recursion) : Parser (List Expr) := do
  let conditions ← if ← skipKeyword .defaultKw then pure []
    else list .doubleArrow (g.expr 0)
  let _ ← symbol .doubleArrow
  return conditions ++ [← g.expr 0]

def matching (g : Recursion) : Parser Expr := do
  let mark ← keyword .matchKw
  let (_, subject) ← between .leftParen .rightParen (g.expr 0)
  let (braces, arms) ← between .leftBrace .rightBrace (list .rightBrace (matchArm g))
  return .operation (mark.span.through braces) .matching (subject :: arms.flatten)

def endsYield (t : Token) : Bool := isTerminator t || t.isSymbol .rightParen

/-- `yield` in its forms: alone, with a value, with a key and a value, and `yield from`. -/
def yielding (g : Recursion) : Parser Expr := do
  let mark ← keyword .yieldKw
  if ← nextIs endsYield then return .operation mark.span .yielding []
  if ← skipKeyword .fromKw then
    let source ← g.expr 0
    return .operation (mark.span.through source.span) .yielding [source]
  let first ← g.expr 0
  if ← skipSymbol .doubleArrow then
    let value ← g.expr 0
    return .operation (mark.span.through value.span) .yielding [first, value]
  return .operation (mark.span.through first.span) .yielding [first]

/-- `isset` with the list in its parentheses. -/
def presence (g : Recursion) : Parser Expr := do
  let mark ← keyword .issetKw
  let (parens, parts) ← between .leftParen .rightParen (list .rightParen (g.expr 0))
  return .unscanned (mark.span.through parens) .construct parts

/-- `empty` and `eval`, with the expression in their parentheses. -/
def construct (g : Recursion) : Parser Expr := do
  let mark ← anyToken
  let (parens, part) ← between .leftParen .rightParen (g.expr 0)
  return .unscanned (mark.span.through parens) .construct [part]

def exiting (g : Recursion) : Parser Expr := do
  let mark ← keyword .exitKw
  if ← atSymbol .leftParen then
    let (parens, parts) ← arguments g
    return .unscanned (mark.span.through parens) .construct parts
  return .unscanned mark.span .construct []

def including (g : Recursion) : Parser Expr := do
  let mark ← keyword .includeKw
  let path ← g.expr 0
  return .unscanned (mark.span.through path.span) .construct [path]

/-! ## Calls -/

/-- An argument of a call. With a placeholder among them nothing is called: the call is a function
of the arguments that are left open. -/
inductive Argument where
  | plain (value : Expr)
  | spread (value : Expr)
  | named (value : Expr)
  /-- `?`, `name: ?` or `...` alone. -/
  | placeholder

def Argument.value? : Argument → Option Expr
  | .plain value | .spread value | .named value => some value
  | .placeholder => none

def Argument.isOpen : Argument → Bool
  | .placeholder => true
  | _ => false

def openArgument (g : Recursion) : Parser Argument := do
  if ← atNamedArgument then
    let _ ← anyToken
    let _ ← anyToken
    if ← skipSymbol .question then return .placeholder
    return .named (← g.expr 0)
  if ← skipSymbol .question then return .placeholder
  if ← skipSymbol .ellipsis then
    if (← atSymbol .comma) || (← atSymbol .rightParen) then return .placeholder
    return .spread (← g.expr 0)
  return .plain (← g.expr 0)

def openArguments (g : Recursion) : Parser (Span × List Argument) :=
  between .leftParen .rightParen (list .rightParen (openArgument g))

/-- A call with the arguments that come next: what `make` does with their range and their values, or
a callable made of `parts` if arguments are left open. -/
def applyTo (g : Recursion) (parts : List Expr) (make : Span → List Expr → Expr) (start : Nat) :
    Parser Expr := do
  let (parens, args) ← openArguments g
  let values := args.filterMap Argument.value?
  if args.any Argument.isOpen then
    return .unscanned ⟨start, parens.stop⟩ .callable (parts ++ values)
  return make ⟨start, parens.stop⟩ values

/-- `clone` with arguments: a single plain one is the object, otherwise it is a function that is
called. -/
def cloneCall (g : Recursion) (mark : Token) : Parser Expr := do
  let callee : Expr := .name mark.span mark.text
  let (parens, args) ← openArguments g
  let span := mark.span.through parens
  let values := args.filterMap Argument.value?
  match args with
  | [.plain object] => return .clone span (.group parens object)
  | _ =>
    if args.any Argument.isOpen then return .unscanned span .callable (callee :: values)
    return .call span callee values

def cloning (g : Recursion) : Parser Expr := do
  let mark ← keyword .cloneKw
  if ← atSymbol .leftParen then return ← cloneCall g mark
  let object ← g.expr Level.clone
  return .clone (mark.span.through object.span) object

/-! ## Operands -/

def leaf (make : Span → String → Expr) : Parser Expr := do
  let t ← anyToken
  return make t.span t.text

def keywordOperand (g : Recursion) (k : Keyword) : Parser Expr := do
  let start := (← next).span.start
  let following ← kindAt 1
  match k with
  | .functionKw | .fnKw => anonymousFunction g start
  | .staticKw =>
    if following = some (.keyword .functionKw) || following = some (.keyword .fnKw) then
      anonymousFunction g start
    else leaf fun span _ => .classWord span .static
  | .selfKw => leaf fun span _ => .classWord span .self
  | .parentKw => leaf fun span _ => .classWord span .parent
  | .trueKw | .falseKw | .nullKw | .magicKw => leaf fun span _ => .literal span .constant
  | .newKw => creation g
  | .cloneKw => cloning g
  | .throwKw => applied g .throwing 0
  | .printKw => applied g .printing 0
  | .yieldKw => yielding g
  | .includeKw => including g
  | .issetKw => presence g
  | .emptyKw | .evalKw => construct g
  | .exitKw => exiting g
  | .matchKw =>
    if following = some (.symbol .leftParen) then matching g else leaf .name
  | .arrayKw => do
    if following ≠ some (.symbol .leftParen) then return ← unexpected
    let _ ← anyToken
    arrayExpr g start .arrayWord .leftParen .rightParen
  | .listKw => do
    if following ≠ some (.symbol .leftParen) then return ← leaf .name
    let _ ← anyToken
    arrayExpr g start .listWord .leftParen .rightParen
  | k => if k.isSoft then leaf .name else unexpected

/-- What an expression that begins with a given token is. The token after it is looked at as
well. -/
def operandFrom (g : Recursion) (t : Token) : Parser Expr := do
  let _ ← kindAt 1
  match t.kind with
  | .variable | .symbol .dollar | .symbol .dollarBrace => variableExpr g
  | .identifier | .qualified | .fullyQualified => leaf .name
  | .keyword k => keywordOperand g k
  | .integer => leaf fun span _ => .literal span .integer
  | .float => leaf fun span _ => .literal span .float
  | .string => leaf fun span _ => .literal span .string
  | .quoteMark quote => template g (.quoteMark quote)
  | .documentOpen => template g .documentClose
  | .symbol .leftBracket => arrayExpr g t.span.start .brackets .leftBracket .rightBracket
  | .symbol .leftParen => do
    let (span, inner) ← between .leftParen .rightParen (g.expr 0)
    return .group span inner
  | .symbol .attributeOpen => do
    attributes g
    anonymousFunction g t.span.start
  | .cast | .symbol .plus | .symbol .minus | .symbol .bang | .symbol .tilde | .symbol .atSign =>
    applied g .unary Level.unary
  | .symbol .ampersand => applied g .unary Level.reference
  | .symbol .doublePlus | .symbol .doubleMinus => applied g .update Level.update
  | _ => unexpected

/-- What an expression can begin with. Nothing is missed behind the opening of a string. -/
def operand (g : Recursion) : Parser Expr := do
  let t ← next
  dropLapse
  operandFrom g t

/-! ## Calls and member accesses -/

def called (g : Recursion) (left : Expr) : Parser Expr :=
  applyTo g [left] (fun span args => .call span left args) left.span.start

/-- The member after `->` or `::`: a name, a variable, or an expression in braces. -/
def memberExpr (g : Recursion) : Parser Expr := do
  if ← nextIs Token.isWord then return ← leaf .name
  if ← atSymbol .leftBrace then
    let (braces, inner) ← between .leftBrace .rightBrace (g.expr 0)
    return .unscanned braces .computedName [inner]
  variableExpr g

/-- A property or a method of an object. Above the level of calls the parentheses that follow
belong to something else. The arguments of a call with `?->` cannot be left open. -/
def objectMember (g : Recursion) (level : Nat) (left : Expr) : Parser Expr := do
  let nullsafe := (← anyToken).isSymbol .nullArrow
  let member ← memberExpr g
  if level ≤ Level.call && (← atSymbol .leftParen) then
    if nullsafe then
      let (parens, args) ← arguments g
      return .methodCall (left.span.through parens) left member args
    return ← applyTo g [left, member] (fun span args => .methodCall span left member args)
      left.span.start
  return .fetch (left.span.through member.span) nullsafe left member

/-- A member of a class is a property when its name is a variable, and a constant otherwise. -/
def staticForm : Expr → UnscannedForm
  | .variable .. | .unscanned _ .indirectVariable _ => .staticProperty
  | _ => .classConstant

def classMember (g : Recursion) (level : Nat) (left : Expr) : Parser Expr := do
  let _ ← anyToken
  let member ← memberExpr g
  if level ≤ Level.call && (← atSymbol .leftParen) then
    return ← applyTo g [left, member] (fun span args => .staticCall span left member args)
      left.span.start
  return .unscanned (left.span.through member.span) (staticForm member) [left, member]

/-- An index in brackets, or empty brackets that append. -/
def indexed (g : Recursion) (left : Expr) : Parser Expr := do
  if (← kindAt 1) = some (.symbol .rightBracket) then
    let _ ← anyToken
    let close ← anyToken
    return .unscanned (left.span.through close.span) .append [left]
  let (brackets, index) ← between .leftBracket .rightBracket (g.expr 0)
  return .operation (left.span.through brackets) .indexing [left, index]

/-! ## Operators -/

/-- The assignment of a value to the operand that stands directly before the operator, however
tightly that one is bound to what stands before it: `$a && $b = 1` assigns to `$b`. -/
def assignTo (value : Expr) : Expr → Expr
  | .operation span .unary [operand] =>
    .operation (span.through value.span) .unary [assignTo value operand]
  | .operation span .binary [left, right] =>
    .operation (span.through value.span) .binary [left, assignTo value right]
  | .operation span .conditional [condition, no] =>
    .operation (span.through value.span) .conditional [condition, assignTo value no]
  | .operation span .conditional [condition, yes, no] =>
    .operation (span.through value.span) .conditional [condition, yes, assignTo value no]
  | target => .assign (target.span.through value.span) target value

/-- An assignment. Its value extends as far as possible, except that a reference is no more than
what it refers to. -/
def assigned (g : Recursion) (left : Expr) : Parser Expr := do
  let _ ← anyToken
  let value ← g.expr (if ← atSymbol .ampersand then Level.reference else Level.assignment)
  return assignTo value left

def conditional (g : Recursion) (left : Expr) : Parser Expr := do
  let _ ← symbol .question
  if ← skipSymbol .colon then
    let no ← g.expr (Level.conditional + 1)
    return .operation (left.span.through no.span) .conditional [left, no]
  let yes ← g.expr 0
  let _ ← symbol .colon
  let no ← g.expr (Level.conditional + 1)
  return .operation (left.span.through no.span) .conditional [left, yes, no]

def binary (g : Recursion) (form : Operation) (level : Nat) (left : Expr) : Parser Expr := do
  let _ ← anyToken
  let right ← g.expr level
  return .operation (left.span.through right.span) form [left, right]

/-- The expression that `left` becomes with the operator that comes next, if that operator binds
at `level` or more tightly. -/
def extended? (g : Recursion) (level : Nat) (left : Expr) : Parser (Option Expr) := do
  match ← kindAt 0 with
  | none => return none
  | some kind =>
    match kind with
    | .symbol .leftParen => when Level.call (called g left)
    | .symbol .leftBracket => when Level.index (indexed g left)
    | .symbol .arrow | .symbol .nullArrow => when Level.member (objectMember g level left)
    | .symbol .doubleColon => when Level.member (classMember g level left)
    | .symbol .doublePlus | .symbol .doubleMinus => when Level.update do
      let mark ← anyToken
      return .operation (left.span.through mark.span) .update [left]
    | .symbol .equal | .symbol .assignment => when Level.assignment (assigned g left)
    | .symbol .question => when Level.conditional (conditional g left)
    | kind =>
      match Level.ofBinary? kind with
      | some (found, right) =>
        when found (binary g (if kind = .symbol .pipeMore then .piping else .binary) right left)
      | none => return none
where
  /-- Runs a parser if the operator it reads binds tightly enough. -/
  when (found : Nat) (parser : Parser Expr) : Parser (Option Expr) :=
    if level ≤ found then some <$> parser else return none

def continued (g : Recursion) (level : Nat) : Nat → Expr → Parser Expr
  | 0, left => return left
  | fuel + 1, left => do
    match ← extended? g level left with
    | some more => continued g level fuel more
    | none => return left

def expr (g : Recursion) (level : Nat) : Parser Expr := do
  let first ← operand g
  continued g level ((← get).length + 1) first

end CodeInsight.Grammar.Parser
