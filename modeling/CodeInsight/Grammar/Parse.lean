import CodeInsight.Grammar.Lexer
import CodeInsight.Grammar.Parser.Statement

/-!
# Parsing a program

`parse` turns a text into the list of its statements, or tells the offset of the first token that no
program continues with.
-/

namespace CodeInsight.Grammar

/-- The parsers of expressions, statements and hooks, nested at most `depth` deep. -/
def recursion : Nat → Recursion
  | 0 =>
    { expr := fun _ => Parser.unexpected, stmt := Parser.unexpected, hooks := Parser.unexpected }
  | depth + 1 =>
    let inner := recursion depth
    { expr := Parser.expr inner, stmt := Parser.stmt inner, hooks := Parser.hooks inner }

def statements (g : Recursion) : Parser (List Stmt) := Parser.many Parser.atEnd g.stmt

def endOf (tokens : List Token) : Nat := (tokens.getLast?.map fun t => t.span.stop).getD 0

/-- The statements that a list of tokens consists of, or the tokens left where none continues.
Between two nested constructs at least one token is taken, except from a statement to the expression
it begins with, so twice the number of tokens bounds the depth. -/
def parseTokens (tokens : List Token) : Except (List Token) (List Stmt) :=
  ((statements (recursion (2 * tokens.length + 2))).run tokens).map Prod.fst

/-- The statements of a text. An error is the offset of the first token that cannot be accepted, or
the end of the last token when more of them are needed. -/
def parse (text : Text) : Except Nat (List Stmt) :=
  let tokens := tokenize text
  match parseTokens tokens with
  | .ok program => .ok program
  | .error [] => .error (endOf tokens)
  | .error (t :: _) => .error t.span.start

end CodeInsight.Grammar
