import CodeInsight.Grammar.Parser.Expression

/-!
# Statements

The statements of the language, each read by a parser of its own and selected by the first token.
-/

namespace CodeInsight.Grammar.Parser

/-! ## Shared pieces -/

/-- Where a list of statements stops, or `otherwise` if it is empty. -/
def stopOf (body : List Stmt) (otherwise : Nat) : Nat :=
  (body.getLast?.map fun s => s.span.stop).getD otherwise

def condition (g : Recursion) : Parser (Span × Expr) := between .leftParen .rightParen (g.expr 0)

/-- The body of a loop: one statement, or statements between a colon and a closing keyword. The
result tells where the body begins and where the whole statement stops. -/
def loopBody (g : Recursion) (closing : Keyword) : Parser (List Stmt × Span) := do
  if ← atSymbol .colon then
    let mark ← symbol .colon
    let body ← many (atKeyword closing) g.stmt
    let _ ← keyword closing
    return (body, ⟨mark.span.start, ← terminator⟩)
  let body ← g.stmt
  return ([body], body.span)

/-! ## Namespaces and imports -/

def untilNamespace (g : Recursion) : Parser (List Stmt) :=
  many (do return (← atEnd) || (← atKeyword .namespaceKw)) g.stmt

/-- What follows the name of a namespace that begins at `start`: braces hold its statements, or it
extends to the next namespace. -/
def namespaceBody (g : Recursion) (start : Nat) (name : Option Name) : Parser Stmt := do
  if ← atSymbol .leftBrace then
    let (braces, body) ← block g
    return .namespaceDecl ⟨start, braces.stop⟩ name true body
  let stop ← terminator
  let body ← untilNamespace g
  return .namespaceDecl ⟨start, stopOf body stop⟩ name false body

def namespaceDecl (g : Recursion) : Parser Stmt := do
  let mark ← keyword .namespaceKw
  if (← atTerminator) || (← atSymbol .leftBrace) then namespaceBody g mark.span.start none
  else namespaceBody g mark.span.start (some (← qualifiedName))

/-- `function` or `const` before imported names. -/
def importKind : Parser (Option ImportKind) := do
  if ← skipKeyword .functionKw then return some .ofFunction
  if ← skipKeyword .constKw then return some .ofConstant
  return none

def rename? : Parser (Option String) := do
  if ← skipKeyword .asKw then return some (← identifier).text else return none

def importItem (kind : ImportKind) (group : Option String) : Parser Import := do
  let name ← qualifiedName
  return { kind, group, name := name.text, rename := ← rename? }

/-- An item of a group; without a kind for the whole group it may have one of its own. -/
def groupItem (kind : Option ImportKind) (group : String) : Parser Import := do
  let own ← match kind with
    | some kind => pure kind
    | none => (·.getD .ofClass) <$> importKind
  importItem own (some group)

def importDecl : Parser Stmt := do
  let mark ← keyword .useKw
  let kind ← importKind
  if (← kindAt 1) = some (.symbol .backslash) then
    let common ← qualifiedName
    let _ ← symbol .backslash
    let (_, names) ← between .leftBrace .rightBrace (list .rightBrace (groupItem kind common.text))
    return .imports ⟨mark.span.start, ← terminator⟩ names
  let names ← items (importItem (kind.getD .ofClass) none)
  return .imports ⟨mark.span.start, ← terminator⟩ names

/-! ## Declarations -/

def formKeyword : ClassForm → Keyword
  | .isClass => .classKw
  | .isInterface => .interfaceKw
  | .isTrait => .traitKw
  | .isEnum => .enumKw

def backingType (form : ClassForm) : Parser (Option Span) :=
  if form = .isEnum then returnHint? else pure none

/-- What a declaration extends. Classes and interfaces may do so. -/
def basesOf (form : ClassForm) : Parser (List Name) :=
  if form = .isClass || form = .isInterface then namesAfter .extendsKw else pure []

/-- What a declaration implements. Classes and enumerations may do so. -/
def contractsOf (form : ClassForm) : Parser (List Name) :=
  if form = .isClass || form = .isEnum then namesAfter .implementsKw else pure []

def classBody (g : Recursion) (form : ClassForm) (start : Nat) (modifiers : List Modifier)
    (name : Name) : Parser Stmt := do
  let _ ← backingType form
  let bases ← basesOf form
  let implements ← contractsOf form
  let (braces, members) ← members g
  return .classLike ⟨start, braces.stop⟩
    { form, modifiers, name, bases, implements, braces } members

def classDecl (g : Recursion) (form : ClassForm) (start : Nat) (modifiers : List Modifier) :
    Parser Stmt := do
  let _ ← keyword (formKeyword form)
  classBody g form start modifiers (← identifier)

def modifiedClass (g : Recursion) (start : Nat) : Parser Stmt := do
  classDecl g .isClass start (← modifiers)

def functionDecl (g : Recursion) (start : Nat) : Parser Stmt := do
  let _ ← keyword .functionKw
  let _ ← skipSymbol .ampersand
  let name ← identifier
  let params ← params g
  let _ ← returnHint?
  let (braces, body) ← block g
  return .function ⟨start, braces.stop⟩ name params braces body

/-- `function` begins a closure here and no declaration. -/
def atClosure : Parser Bool := do
  let first ← kindAt 1
  let second ← kindAt 2
  return first == some (.symbol .leftParen) ||
    (first == some (.symbol .ampersand) && second == some (.symbol .leftParen))

def constantDecl (g : Recursion) (start : Nat) : Parser Stmt := do
  let _ ← keyword .constKw
  let values ← items (constantItem g)
  return .inert ⟨start, ← terminator⟩ values

/-- After a modifier this token makes the statement an expression instead of a class. -/
def continuesModifier : TokenKind → Bool
  | .symbol .doubleColon | .symbol .leftParen | .symbol .arrow | .symbol .nullArrow
  | .symbol .leftBracket | .keyword .fnKw | .keyword .functionKw => true
  | _ => false

def declaration (g : Recursion) : Parser Stmt := do
  let mark ← keyword .declareKw
  let (_, values) ← between .leftParen .rightParen (list .rightParen (constantItem g))
  let (body, span) ← loopBody g .enddeclareKw
  return .declare ⟨mark.span.start, span.stop⟩ values body

/-! ## Branches -/

/-- What follows the first branch of an `if` whose branches are single statements. -/
def otherwise (g : Recursion) : Nat → Parser (List Stmt)
  | 0 => return []
  | fuel + 1 => do
    if ← atKeyword .elseifKw then
      let mark ← keyword .elseifKw
      let (_, test) ← condition g
      let yes ← g.stmt
      let no ← otherwise g fuel
      return [.branch ⟨mark.span.start, stopOf no yes.span.stop⟩ test [yes] no]
    if ← skipKeyword .elseKw then return [← g.stmt]
    return []

/-- A branch of an `if` with colons ends here. -/
def endsBranch (t : Token) : Bool :=
  t.isKeyword .elseifKw || t.isKeyword .elseKw || t.isKeyword .endifKw

/-- What follows the first branch of an `if` with colons, with the place where the last branch
stops. -/
def otherwiseColon (g : Recursion) : Nat → Parser (List Stmt)
  | 0 => return []
  | fuel + 1 => do
    if ← atKeyword .elseifKw then
      let mark ← keyword .elseifKw
      let (_, test) ← condition g
      let colon ← symbol .colon
      let yes ← many (nextIs endsBranch) g.stmt
      let no ← otherwiseColon g fuel
      return [.branch ⟨mark.span.start, stopOf no (stopOf yes colon.span.stop)⟩ test yes no]
    if ← skipKeyword .elseKw then
      let _ ← symbol .colon
      return ← many (atKeyword .endifKw) g.stmt
    return []

def branch (g : Recursion) : Parser Stmt := do
  let mark ← keyword .ifKw
  let (_, test) ← condition g
  if ← skipSymbol .colon then
    let yes ← many (nextIs endsBranch) g.stmt
    let no ← otherwiseColon g (← get).length
    let _ ← keyword .endifKw
    return .branch ⟨mark.span.start, ← terminator⟩ test yes no
  let yes ← g.stmt
  let no ← otherwise g (← get).length
  return .branch ⟨mark.span.start, stopOf no yes.span.stop⟩ test [yes] no

/-- The statements of a clause of `switch` end here. -/
def endsCase (t : Token) : Bool :=
  t.isKeyword .caseKw || t.isKeyword .defaultKw || t.isKeyword .endswitchKw ||
    t.isSymbol .rightBrace

def switchCase (g : Recursion) : Parser Stmt := do
  let mark ← next
  let value ← if ← skipKeyword .caseKw then some <$> g.expr 0 else do
    let _ ← keyword .defaultKw
    pure none
  let colon ← token fun t => t.isSymbol .colon || t.isSymbol .semicolon
  let body ← many (nextIs endsCase) g.stmt
  return .switchCase ⟨mark.span.start, stopOf body colon.span.stop⟩ value body

/-- `switch`, with braces or with a colon. -/
def switch (g : Recursion) : Parser Stmt := do
  let mark ← keyword .switchKw
  let (_, subject) ← condition g
  if ← skipSymbol .colon then
    if ← atTerminator then let _ ← terminator
    let cases ← many (atKeyword .endswitchKw) (switchCase g)
    let _ ← keyword .endswitchKw
    return .switch ⟨mark.span.start, ← terminator⟩ subject cases
  let (braces, cases) ← between .leftBrace .rightBrace do
    if ← atTerminator then let _ ← terminator
    many (atSymbol .rightBrace) (switchCase g)
  return .switch (mark.span.through braces) subject cases

/-! ## Loops -/

def foreach (g : Recursion) : Parser Stmt := do
  let mark ← keyword .foreachKw
  let (_, subject, key, value) ← between .leftParen .rightParen do
    let subject ← g.expr 0
    let _ ← keyword .asKw
    let first ← g.expr 0
    if ← skipSymbol .doubleArrow then return (subject, some first, ← g.expr 0)
    return (subject, none, first)
  let (body, span) ← loopBody g .endforeachKw
  return .foreach ⟨mark.span.start, span.stop⟩ subject key value span.start body

/-- `for`, whose header is three lists of expressions. -/
def forLoop (g : Recursion) : Parser Stmt := do
  let mark ← keyword .forKw
  let (_, header) ← between .leftParen .rightParen do
    let initial ← list .semicolon (g.expr 0)
    let _ ← symbol .semicolon
    let tests ← list .semicolon (g.expr 0)
    let _ ← symbol .semicolon
    let steps ← list .rightParen (g.expr 0)
    return initial ++ tests ++ steps
  let (body, span) ← loopBody g .endforKw
  return .loop ⟨mark.span.start, span.stop⟩ .forLoop header body []

def whileLoop (g : Recursion) : Parser Stmt := do
  let mark ← keyword .whileKw
  let (_, test) ← condition g
  let (body, span) ← loopBody g .endwhileKw
  return .loop ⟨mark.span.start, span.stop⟩ .whileLoop [test] body []

def doLoop (g : Recursion) : Parser Stmt := do
  let mark ← keyword .doKw
  let body ← g.stmt
  let _ ← keyword .whileKw
  let (_, test) ← condition g
  return .loop ⟨mark.span.start, ← terminator⟩ .doLoop [] [body] [test]

/-! ## Exceptions -/

def handler (g : Recursion) : Parser Stmt := do
  let mark ← keyword .catchKw
  let (_, hint, bound) ← between .leftParen .rightParen do
    let hint ← hint
    if (← kindAt 0) = some .variable then return (hint, some (← variableName))
    return (hint, none)
  let (braces, body) ← block g
  return .handler (mark.span.through braces) hint bound braces body

def handlers (g : Recursion) : Nat → Parser (List Stmt)
  | 0 => return []
  | fuel + 1 => do
    if ← atKeyword .catchKw then return (← handler g) :: (← handlers g fuel)
    return []

def attempt (g : Recursion) : Parser Stmt := do
  let mark ← keyword .tryKw
  let (braces, body) ← block g
  let handlers ← handlers g (← get).length
  let stop := stopOf handlers braces.stop
  if ← skipKeyword .finallyKw then
    let (last, cleanup) ← block g
    return .attempt ⟨mark.span.start, last.stop⟩ body handlers cleanup
  return .attempt ⟨mark.span.start, stop⟩ body handlers []

/-! ## Simple statements -/

/-- A keyword, an expression unless the statement ends at once, and its end. -/
def withValue? (g : Recursion) : Parser (Span × List Expr) := do
  let mark ← anyToken
  let values ← if ← atTerminator then pure [] else (fun e => [e]) <$> g.expr 0
  return (⟨mark.span.start, ← terminator⟩, values)

/-- `echo`, or its tag. -/
def echo (g : Recursion) : Parser (Span × List Expr) := do
  let mark ← anyToken
  let values ← items (g.expr 0)
  return (⟨mark.span.start, ← terminator⟩, values)

def unset (g : Recursion) : Parser Stmt := do
  let mark ← keyword .unsetKw
  let (_, values) ← between .leftParen .rightParen (list .rightParen (g.expr 0))
  return .evaluate ⟨mark.span.start, ← terminator⟩ .unset values

def globals (g : Recursion) : Parser Stmt := do
  let mark ← keyword .globalKw
  let named ← items (variableExpr g)
  return .globals ⟨mark.span.start, ← terminator⟩ named

/-- A variable of a `static` statement with its value. -/
def staticItem (g : Recursion) : Parser (Name × List Expr) := do
  let name ← variableName
  if ← skipSymbol .equal then return (name, [← g.expr 0])
  return (name, [])

def statics (g : Recursion) : Parser Stmt := do
  let mark ← keyword .staticKw
  let declared ← items (staticItem g)
  return .statics ⟨mark.span.start, ← terminator⟩ (declared.map Prod.fst)
    (declared.map Prod.snd).flatten

/-- The word that ends the program, with its empty parentheses. -/
def halt : Parser Stmt := do
  let mark ← keyword .haltKw
  let _ ← symbol .leftParen
  let _ ← symbol .rightParen
  return .inert ⟨mark.span.start, ← terminator⟩ []

def jump : Parser Stmt := do
  let mark ← keyword .gotoKw
  let _ ← identifier
  return .inert ⟨mark.span.start, ← terminator⟩ []

def single (make : Span → Stmt) : Parser Stmt := return make (← anyToken).span

def expressionStmt (g : Recursion) : Parser Stmt := do
  let value ← g.expr 0
  return .expression ⟨value.span.start, ← terminator⟩ value

/-- An anonymous function as a statement of its own, which begins at `start`. Nothing is applied to
it. -/
def functionStmt (g : Recursion) (start : Nat) : Parser Stmt := do
  let value ← anonymousFunction g start
  return .expression ⟨start, ← terminator⟩ value

/-- A word before a colon is a label, and begins an expression otherwise. -/
def labelOrExpression (g : Recursion) : Parser Stmt := do
  if (← kindAt 1) = some (.symbol .colon) then
    let word ← anyToken
    let colon ← anyToken
    return .inert (word.span.through colon.span) []
  expressionStmt g

/-! ## All statements -/

/-- A declaration after attributes, which begin at `start`. -/
def attributed (g : Recursion) (start : Nat) : Parser Stmt := do
  match ← kindAt 0 with
  | some (.keyword .interfaceKw) => classDecl g .isInterface start []
  | some (.keyword .traitKw) => classDecl g .isTrait start []
  | some (.keyword .enumKw) => classDecl g .isEnum start []
  | some (.keyword .constKw) => constantDecl g start
  | some (.keyword .functionKw) =>
    if ← atClosure then functionStmt g start else functionDecl g start
  | some (.keyword .fnKw) => functionStmt g start
  | some (.keyword .staticKw) =>
    match ← kindAt 1 with
    | some (.keyword .fnKw) | some (.keyword .functionKw) => functionStmt g start
    | _ => modifiedClass g start
  | _ => modifiedClass g start

/-- A statement that begins with a modifier: a class, unless the next token makes it an
expression. -/
def modifiedStmt (g : Recursion) (start : Nat) : Parser Stmt := do
  if (← kindAt 1).any continuesModifier then expressionStmt g
  else modifiedClass g start

def keywordStmt (g : Recursion) (k : Keyword) : Parser Stmt := do
  let start := (← next).span.start
  match k with
  | .declareKw => declaration g
  | .namespaceKw => namespaceDecl g
  | .useKw => importDecl
  | .interfaceKw => classDecl g .isInterface start []
  | .traitKw => classDecl g .isTrait start []
  | .enumKw => classDecl g .isEnum start []
  | .classKw => classDecl g .isClass start []
  | .constKw => constantDecl g start
  | .functionKw => if ← atClosure then functionStmt g start else functionDecl g start
  | .staticKw =>
    if (← kindAt 1) = some .variable then statics g else modifiedStmt g start
  | .globalKw => globals g
  | .haltKw => halt
  | .ifKw => branch g
  | .switchKw => switch g
  | .foreachKw => foreach g
  | .forKw => forLoop g
  | .whileKw => whileLoop g
  | .doKw => doLoop g
  | .continueKw | .breakKw => (fun (span, values) => .inert span values) <$> withValue? g
  | .returnKw => (fun (span, values) => .evaluate span .returned values) <$> withValue? g
  | .echoKw => (fun (span, values) => .evaluate span .echo values) <$> echo g
  | .tryKw => attempt g
  | .gotoKw => jump
  | .unsetKw => unset g
  | k => if k.isModifier then modifiedStmt g start else labelOrExpression g

def stmt (g : Recursion) : Parser Stmt := do
  let t ← next
  match t.kind with
  | .markup | .closeTag => single (.inert · [])
  | .openTag => single .openTag
  | .echoTag => (fun (span, values) => .inert span values) <$> echo g
  | .keyword k => keywordStmt g k
  | .symbol .semicolon => single (.inert · [])
  | .symbol .leftBrace => (fun (braces, body) => .block braces body) <$> block g
  | .symbol .attributeOpen => do
    attributes g
    attributed g t.span.start
  | .identifier => labelOrExpression g
  | _ => expressionStmt g

end CodeInsight.Grammar.Parser
