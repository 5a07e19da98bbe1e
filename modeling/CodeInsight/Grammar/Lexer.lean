import CodeInsight.Grammar.Template

/-!
# The lexer

`tokenize` divides a source text into tokens. Which tokens can begin at a place depends on the mode:
text outside of the tags is one token, code has the token classes of `Lexeme`, and a string with
interpolated parts alternates between its own text and code. The parts that the lexer is inside of
are kept on a stack, the innermost first; each ends with the token that reaches its limit. A part
that cannot be read leaves a single token behind, and what follows is read as code.
-/

namespace CodeInsight.Grammar

inductive Mode where
  /-- Outside of the tags. -/
  | markup
  | code
  | template (closing : Closing)
  /-- The three tokens after the word that ends the program; the number of those to come. -/
  | ending (tokens : Nat)
  /-- Data after the end of the program. -/
  | data
  deriving Repr

/-- An interpolated part: where it begins, where it has to end, and how its string ends. -/
structure Part where
  start : Nat
  limit : Nat
  closing : Closing
  deriving Repr

/-- The tokens of a text from some place on. -/
structure Reading where
  tokens : List Token
  /-- Tokens before that place are lost from this offset on. -/
  lostFrom : Option Nat

/-- One more token in front, unless it is lost. -/
def Reading.before (more : Reading) (t : Token) : Reading :=
  if more.lostFrom.any fun place => place ≤ t.span.start then more
  else { more with tokens := t :: more.tokens }

namespace Lexer

/-! ## One token in each mode -/

/-- The result of lexing one token: its lexeme, the mode after it, and the parts it stands in. -/
structure Step where
  lexeme : Lexeme
  mode : Mode
  parts : List Part

def markupLength : Text → Nat
  | '<' :: '?' :: _ => 0
  | _ :: cs => markupLength cs + 1
  | [] => 0

/-- Outside of the tags a token is an opening tag or all text up to one. -/
def markupStep (parts : List Part) : Text → Step
  | '<' :: '?' :: '=' :: _ => ⟨⟨.echoTag, 3⟩, .code, parts⟩
  | '<' :: '?' :: cs =>
    ⟨⟨.openTag, if Lexeme.startsWith "php" cs then 5 else 2⟩, .code, parts⟩
  | cs => ⟨⟨.markup, markupLength cs⟩, .markup, parts⟩

def modeAfter : TokenKind → Mode
  | .closeTag => .markup
  | .keyword .haltKw => .ending 3
  | .quoteMark quote => .template (.quote quote)
  | _ => .code

/-- Within code a token is the opening of a here-document or one of the classes of `Lexeme`. -/
def codeStep (parts : List Part) (cs : Text) : Step :=
  match Template.document? cs with
  | some (length, closing) => ⟨⟨.documentOpen, length⟩, .template closing, parts⟩
  | none =>
    let lexeme := Lexeme.ofCode cs
    ⟨lexeme, modeAfter lexeme.kind, parts⟩

/-- Within a string a token is its closing mark, a piece of its text, or the first token of an
interpolated part. -/
def templateStep (closing : Closing) (parts : List Part) (offset : Nat) (cs : Text) : Step :=
  match Template.piece closing cs with
  | ⟨length, true⟩ => ⟨⟨closing.mark, length⟩, .code, parts⟩
  | ⟨0, false⟩ =>
    let limit := offset + Text.size (cs.take (Template.partLength cs))
    codeStep (⟨offset, limit, closing⟩ :: parts) cs
  | ⟨length, false⟩ => ⟨⟨.templateText, length⟩, .template closing, parts⟩

/-- After the word that ends the program come two parentheses and the end of a statement. -/
def endingLexeme : Nat → Text → Lexeme
  | 3, '(' :: _ => ⟨.symbol .leftParen, 1⟩
  | 2, ')' :: _ => ⟨.symbol .rightParen, 1⟩
  | 1, ';' :: _ => ⟨.symbol .semicolon, 1⟩
  | 1, '?' :: '>' :: _ => ⟨.closeTag, 2⟩
  | _, _ => ⟨.invalid, 0⟩

/-- The next token in any mode, where no whitespace or comment stands. -/
def step (mode : Mode) (parts : List Part) (offset : Nat) (cs : Text) : Step :=
  match mode with
  | .markup => markupStep parts cs
  | .code => codeStep parts cs
  | .template closing => templateStep closing parts offset cs
  | .ending n => ⟨endingLexeme n cs, if n ≤ 1 then .data else .ending (n - 1), parts⟩
  | .data => ⟨⟨.markup, cs.length⟩, .data, parts⟩

/-- Length of what is skipped here: whitespace and comments in code, whitespace where the program
ends. It is `none` for a comment that is never closed. -/
def gapIn (mode : Mode) (cs : Text) : Option Nat :=
  match mode with
  | .code => Lexeme.gap cs
  | .ending _ => some (cs.takeWhile Lexeme.isBlank).length
  | _ => some 0

/-- The mode and the parts after a piece of source: the innermost part is left if the piece reaches
its limit. -/
def settle (mode : Mode) (parts : List Part) (piece : Span) : Mode × List Part :=
  match parts with
  | part :: outer =>
    if piece.start ≤ part.limit && part.limit ≤ piece.stop then (.template part.closing, outer)
    else (mode, parts)
  | [] => (mode, [])

/-! ## The whole text -/

/-- No token goes on at `place`. Within interpolated parts the tokens since the outermost one began
are lost, and `more` is what is read after them. -/
def failure (parts : List Part) (place : Nat) (more : Reading) : Reading :=
  match parts.getLast? with
  | some part => ⟨⟨.lapse, "", ⟨part.start, part.start⟩⟩ :: more.tokens, some part.start⟩
  | none => ⟨[⟨.invalid, "", ⟨place, place⟩⟩], none⟩

/-- Tokens of `cs`, which stands at byte `offset`. Each round consumes a character at least, so a
bound of the number of characters is never reached. -/
def run : Nat → Mode → List Part → Nat → Text → Reading
  | 0, _, _, _, _ => ⟨[], none⟩
  | _ + 1, _, parts, offset, [] =>
    if parts.isEmpty then ⟨[], none⟩ else failure parts offset ⟨[], none⟩
  | fuel + 1, mode, parts, offset, cs =>
    match gapIn mode cs with
    | none => failure parts (offset + Text.size cs) ⟨[], none⟩
    | some 0 =>
      let ⟨lexeme, mode, parts⟩ := step mode parts offset cs
      let (word, rest) := cs.splitAt lexeme.length
      let stop := offset + Text.size word
      if lexeme.kind = .invalid then
        let (skipped, rest) := rest.splitAt 1
        failure parts stop (run fuel .code [] (stop + Text.size skipped) rest)
      else
        let (mode, parts) := settle mode parts ⟨offset, stop⟩
        (run fuel mode parts stop rest).before ⟨lexeme.kind, String.ofList word, ⟨offset, stop⟩⟩
    | some n =>
      let (blank, rest) := cs.splitAt n
      let stop := offset + Text.size blank
      let (mode, parts) := settle mode parts ⟨offset, stop⟩
      run fuel mode parts stop rest

/-- Length of a first line that names an interpreter; it is no code whatever it holds. -/
def interpreterLine : Text → Nat
  | '#' :: '!' :: cs => (cs.takeWhile (· != '\n')).length + 3
  | _ => 0

end Lexer

/-- The tokens of a source text, in order, without whitespace and comments. The text begins outside
of the tags. If one of the tokens is invalid, it is the last. -/
def tokenize (text : Text) : List Token :=
  let (line, rest) := text.splitAt (Lexer.interpreterLine text)
  let start := Text.size line
  let tokens := (Lexer.run (rest.length + 1) .markup [] start rest).tokens
  if line.isEmpty then tokens else ⟨.markup, String.ofList line, ⟨0, start⟩⟩ :: tokens

end CodeInsight.Grammar
