import CodeInsight.Grammar.Token
import CodeInsight.Grammar.Tree

/-!
# Parsing over tokens

A parser reads from the front of a list of tokens. When it cannot go on it fails with the tokens
that are left: the first of them is the one it cannot accept, so a failure carries its own place.
Expressions, statements and property hooks contain each other; their parsers take all three as a
`Recursion` and the knot is tied once, by counting down.
-/

namespace CodeInsight.Grammar

/-- A parser takes tokens from the front, or fails with the tokens it could not go on with. -/
abbrev Parser := StateT (List Token) (Except (List Token))

/-- Parsers for the expressions, statements and hooks nested in the construct at hand. -/
structure Recursion where
  /-- An expression whose operators bind at least as tightly as the given level. -/
  expr : Nat → Parser Expr
  stmt : Parser Stmt
  /-- Property hooks in braces, with the range of the braces. -/
  hooks : Parser Span

namespace Parser

/-! ## Looking ahead -/

def unexpected {α : Type} : Parser α := do throw (← get)

/-- The kind of the token `n` places ahead, names of all forms being one kind. Looking as far as an
invalid token fails there. -/
def kindAt (n : Nat) : Parser (Option TokenKind) := do
  let tokens ← get
  match (tokens.take (n + 1)).dropWhile fun t => t.kind != .invalid with
  | [] => return tokens[n]?.map fun t => t.kind.unqualified
  | failed => throw failed

/-- Drops what stands for missing tokens after the next token. -/
def dropLapse : Parser Unit :=
  modify fun
    | t :: l :: rest => if l.kind == .lapse then t :: rest else t :: l :: rest
    | tokens => tokens

def next : Parser Token := do
  match ← get with
  | t :: _ => return t
  | [] => unexpected

def atEnd : Parser Bool := return (← get).isEmpty

def nextIs (accepts : Token → Bool) : Parser Bool := return (← get).head?.any accepts

def atSymbol (s : Symbol) : Parser Bool := nextIs (·.isSymbol s)

def atKeyword (k : Keyword) : Parser Bool := nextIs (·.isKeyword k)

/-! ## Taking tokens -/

def token (accepts : Token → Bool) : Parser Token := do
  match ← get with
  | t :: rest => if accepts t then set rest; return t else unexpected
  | [] => unexpected

def anyToken : Parser Token := token fun _ => true

def symbol (s : Symbol) : Parser Token := token (·.isSymbol s)

def keyword (k : Keyword) : Parser Token := token (·.isKeyword k)

/-- Takes a given symbol if it comes next, and tells whether it did. -/
def skipSymbol (s : Symbol) : Parser Bool := do
  if ← atSymbol s then let _ ← symbol s; return true else return false

/-- Takes a given keyword if it comes next, and tells whether it did. -/
def skipKeyword (k : Keyword) : Parser Bool := do
  if ← atKeyword k then let _ ← keyword k; return true else return false

def nameOf (t : Token) : Name := ⟨t.text, t.span⟩

/-- A single word. A declared name may be any word, reserved ones included. -/
def identifier : Parser Name := return nameOf (← token Token.isWord)

def qualifiedName : Parser Name := do
  return nameOf (← token fun t => t.isWord || t.kind == .qualified || t.kind == .fullyQualified)

def variableName : Parser Name := return nameOf (← token fun t => t.kind == .variable)

/-! ## Repetition

Every round takes a token, so the number of tokens bounds the number of rounds. -/

/-- Items until `stop` says that there are no more of them. -/
def manyRounds {α : Type} (stop : Parser Bool) (item : Parser α) : Nat → Parser (List α)
  | 0 => unexpected
  | fuel + 1 => do
    if ← stop then return []
    let a ← item
    return a :: (← manyRounds stop item fuel)

def many {α : Type} (stop : Parser Bool) (item : Parser α) : Parser (List α) := do
  manyRounds stop item ((← get).length + 1)

def listRounds {α : Type} (stop : Token → Bool) (item : Parser α) : Nat → Parser (List α)
  | 0 => unexpected
  | fuel + 1 => do
    if ← nextIs stop then return []
    let a ← item
    if ← skipSymbol .comma then return a :: (← listRounds stop item fuel)
    if ← nextIs stop then return [a]
    unexpected

/-- Items separated by commas up to a token that satisfies a condition, which is left. There may be
none of them. -/
def listUntil {α : Type} (stop : Token → Bool) (item : Parser α) : Parser (List α) := do
  listRounds stop item ((← get).length + 1)

/-- Items separated by commas up to a closing symbol, which is left. -/
def list {α : Type} (close : Symbol) (item : Parser α) : Parser (List α) :=
  listUntil (·.isSymbol close) item

def sequenceRounds {α : Type} (item : Parser α) : Nat → Parser (List α)
  | 0 => unexpected
  | fuel + 1 => do
    let a ← item
    if ← skipSymbol .comma then return a :: (← sequenceRounds item fuel)
    return [a]

def sequence {α : Type} (item : Parser α) : Parser (List α) := do
  sequenceRounds item ((← get).length + 1)

def between {α : Type} (opening closing : Symbol) (inside : Parser α) : Parser (Span × α) := do
  let first ← symbol opening
  let a ← inside
  let last ← symbol closing
  return (first.span.through last.span, a)

/-! ## Ends of statements -/

/-- A semicolon or a closing tag ends a statement; an opening tag directly after the closing tag
belongs to the end. The result is where the end stops. -/
def terminator : Parser Nat := do
  let t ← next
  match t.kind with
  | .symbol .semicolon => return (← anyToken).span.stop
  | .closeTag =>
    let close ← anyToken
    if (← kindAt 0) = some .openTag then return (← anyToken).span.stop
    return close.span.stop
  | _ => unexpected

def isTerminator (t : Token) : Bool := t.isSymbol .semicolon || t.kind == .closeTag

def atTerminator : Parser Bool := nextIs isTerminator

/-- The items of a statement: separated by commas up to its end, which is left. -/
def items {α : Type} (item : Parser α) : Parser (List α) := listUntil isTerminator item

def block (g : Recursion) : Parser (Span × List Stmt) :=
  between .leftBrace .rightBrace (many (atSymbol .rightBrace) g.stmt)

end Parser

end CodeInsight.Grammar
