import CodeInsight.Grammar.Parser.Basic

/-!
# Types, parameters and class members

The parts of declarations: type hints, attributes, modifiers, parameter lists, property hooks and
the members of class-like declarations.
-/

namespace CodeInsight.Grammar.Parser

/-! ## Types -/

def isTypeWord : Keyword → Bool
  | .arrayKw | .callableKw | .nullKw | .trueKw | .falseKw | .staticKw | .selfKw | .parentKw
  | .enumKw | .fromKw => true
  | _ => false

def isTypeName (t : Token) : Bool :=
  match t.kind with
  | .identifier | .qualified | .fullyQualified => true
  | .keyword k => isTypeWord k
  | _ => false

def startsHint (t : Token) : Bool :=
  isTypeName t || t.isSymbol .question || t.isSymbol .leftParen

/-- The `&` that comes next joins two types: it marks no parameter passed by reference. -/
def joinsTypes : Parser Bool := do
  if !(← atSymbol .ampersand) then return false
  match ← kindAt 1 with
  | some .variable | some (.symbol .ellipsis) | some (.symbol .ampersand) => return false
  | _ => return true

/-- A type without `|` and `&` outside of parentheses, given the parser of types. -/
def singleHint (inner : Parser Span) : Parser Span := do
  let t ← next
  match t.kind with
  | .symbol .question =>
    let mark ← anyToken
    return mark.span.through (← inner)
  | .symbol .leftParen => Prod.fst <$> between .leftParen .rightParen inner
  | _ => return (← token isTypeName).span

/-- A type: names, `?`, parentheses, `|` and `&`. The result is the range it takes. -/
def hintRounds : Nat → Parser Span
  | 0 => unexpected
  | fuel + 1 => do
    let first ← singleHint (hintRounds fuel)
    if ← skipSymbol .pipe then return first.through (← hintRounds fuel)
    if ← joinsTypes then
      let _ ← symbol .ampersand
      return first.through (← hintRounds fuel)
    return first

def hint : Parser Span := do hintRounds ((← get).length + 1)

def hint? : Parser (Option Span) := do
  if ← nextIs startsHint then return some (← hint) else return none

def returnHint? : Parser (Option Span) := do
  if ← skipSymbol .colon then return some (← hint) else return none

/-! ## Arguments and attributes -/

def atNamedArgument : Parser Bool := do
  if ← nextIs Token.isWord then return (← kindAt 1) == some (.symbol .colon)
  return false

/-- One argument: a spread, a named or a plain value. Only the value is kept. -/
def argument (g : Recursion) : Parser Expr := do
  if ← atNamedArgument then
    let _ ← anyToken
    let _ ← anyToken
  else
    let _ ← skipSymbol .ellipsis
  g.expr 0

def arguments (g : Recursion) : Parser (Span × List Expr) :=
  between .leftParen .rightParen (list .rightParen (argument g))

def attributeItem (g : Recursion) : Parser Unit := do
  let _ ← qualifiedName
  if ← atSymbol .leftParen then let _ ← arguments g

def attributeRounds (g : Recursion) : Nat → Parser Unit
  | 0 => return
  | fuel + 1 => do
    if ← atSymbol .attributeOpen then
      let _ ← between .attributeOpen .rightBracket (list .rightBracket (attributeItem g))
      attributeRounds g fuel

def attributes (g : Recursion) : Parser Unit := do attributeRounds g (← get).length

/-! ## Modifiers -/

def modifierOf? : Keyword → Option Modifier
  | .publicKw => some .isPublic
  | .protectedKw => some .isProtected
  | .privateKw => some .isPrivate
  | .publicSetKw => some .isPublicSet
  | .protectedSetKw => some .isProtectedSet
  | .privateSetKw => some .isPrivateSet
  | .staticKw => some .isStatic
  | .abstractKw => some .isAbstract
  | .finalKw => some .isFinal
  | .readonlyKw => some .isReadonly
  | _ => none

def modifier? : Parser (Option Modifier) := do
  match ← kindAt 0 with
  | some (.keyword k) =>
    let found := modifierOf? k
    if found.isSome then let _ ← anyToken
    return found
  | _ => return none

def modifierRounds : Nat → Parser (List Modifier)
  | 0 => return []
  | fuel + 1 => do
    match ← modifier? with
    | some m => return m :: (← modifierRounds fuel)
    | none => return []

def modifiers : Parser (List Modifier) := do modifierRounds (← get).length

/-! ## Property hooks and parameters -/

def param (g : Recursion) : Parser Param := do
  attributes g
  let modifiers ← modifiers
  let hint ← hint?
  let byReference ← skipSymbol .ampersand
  let variadic ← skipSymbol .ellipsis
  let bound ← variableName
  let initial ← if ← atSymbol .equal then do
      let mark ← symbol .equal
      let value ← g.expr 0
      pure (some (mark.span.through value.span))
    else pure none
  let hooked ← atSymbol .leftBrace
  if hooked then let _ ← g.hooks
  return { name := bound.text, hint, initial, modifiers, hooked, variadic, byReference }

def params (g : Recursion) : Parser (List Param) :=
  Prod.snd <$> between .leftParen .rightParen (list .rightParen (param g))

/-- One hook: `get` or `set`, perhaps with a parameter list, and a body in one of three forms. -/
def hook (g : Recursion) : Parser Unit := do
  attributes g
  let _ ← skipSymbol .ampersand
  let _ ← modifiers
  let _ ← identifier
  if ← atSymbol .leftParen then let _ ← params g
  if ← skipSymbol .semicolon then return
  if ← skipSymbol .doubleArrow then
    let _ ← g.expr 0
    let _ ← symbol .semicolon
  else
    let _ ← block g

def hooks (g : Recursion) : Parser Span :=
  Prod.fst <$> between .leftBrace .rightBrace (many (atSymbol .rightBrace) (hook g))

/-! ## Members -/

def constantItem (g : Recursion) : Parser Expr := do
  let _ ← identifier
  let _ ← symbol .equal
  g.expr 0

/-- Constants of a class, after the keyword. A type may stand before the first name, unless that
name is followed by its value. The result is where they stop. -/
def constantItems (g : Recursion) : Parser Nat := do
  if (← kindAt 1) != some (.symbol .equal) then let _ ← hint?
  let _ ← items (constantItem g)
  terminator

def method (g : Recursion) (start : Nat) (modifiers : List Modifier) : Parser Member := do
  let _ ← keyword .functionKw
  let _ ← skipSymbol .ampersand
  let name ← identifier
  let params ← params g
  let returns ← returnHint?
  if ← atSymbol .semicolon then
    let mark ← anyToken
    return .method ⟨start, mark.span.stop⟩ modifiers name params returns none []
  let (braces, body) ← block g
  return .method ⟨start, braces.stop⟩ modifiers name params returns (some braces) body

def propertyItem (g : Recursion) : Parser Name := do
  let name ← variableName
  if ← skipSymbol .equal then let _ ← g.expr 0
  return name

/-- Properties, from the type on: one with hooks, or several separated by commas. -/
def property (g : Recursion) (start : Nat) (modifiers : List Modifier) : Parser Member := do
  let hint ← hint?
  let first ← propertyItem g
  if ← atSymbol .leftBrace then
    let braces ← g.hooks
    return .property ⟨start, braces.stop⟩ modifiers hint [first]
  let others ← if ← skipSymbol .comma then sequence (propertyItem g) else pure []
  let stop ← terminator
  return .property ⟨start, stop⟩ modifiers hint (first :: others)

/-- The rule of a trait use that resolves a clash or gives another name. Only a method named with
its trait can resolve a clash. -/
def adaptation : Parser Unit := do
  let owned := (← kindAt 1) == some (.symbol .doubleColon)
  if owned then
    let _ ← qualifiedName
    let _ ← symbol .doubleColon
  let _ ← identifier
  if owned && (← atKeyword .insteadofKw) then
    let _ ← keyword .insteadofKw
    let _ ← items qualifiedName
  else
    let _ ← keyword .asKw
    let _ ← modifier?
    if !(← atTerminator) then let _ ← identifier
  let _ ← terminator

def traitUse (start : Nat) : Parser Member := do
  let _ ← keyword .useKw
  let names ← listUntil (fun t => t.isSymbol .leftBrace || isTerminator t) qualifiedName
  if ← atSymbol .leftBrace then
    let (braces, _) ← between .leftBrace .rightBrace (many (atSymbol .rightBrace) adaptation)
    return .traitUse ⟨start, braces.stop⟩ names
  return .traitUse ⟨start, ← terminator⟩ names

def enumCase (g : Recursion) (start : Nat) : Parser Member := do
  let _ ← keyword .caseKw
  let _ ← identifier
  if ← skipSymbol .equal then let _ ← g.expr 0
  return .constant ⟨start, ← terminator⟩

def modified (g : Recursion) (start : Nat) (modifiers : List Modifier) : Parser Member := do
  match ← kindAt 0 with
  | some (.keyword .constKw) => do
    let _ ← keyword .constKw
    return .constant ⟨start, ← constantItems g⟩
  | some (.keyword .functionKw) => method g start modifiers
  | some (.keyword .varKw) => do
    let _ ← keyword .varKw
    property g start modifiers
  | _ => property g start modifiers

def member (g : Recursion) : Parser Member := do
  let start := (← next).span.start
  if ← atKeyword .useKw then return ← traitUse start
  attributes g
  if ← atKeyword .caseKw then return ← enumCase g start
  modified g start (← modifiers)

def members (g : Recursion) : Parser (Span × List Member) :=
  between .leftBrace .rightBrace (many (atSymbol .rightBrace) (member g))

/-- Names after a keyword such as `extends`, if it comes next. -/
def namesAfter (k : Keyword) : Parser (List Name) := do
  if ← skipKeyword k then sequence qualifiedName else return []

end CodeInsight.Grammar.Parser
