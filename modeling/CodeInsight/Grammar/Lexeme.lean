import CodeInsight.Text.Basic
import CodeInsight.Text.Word
import CodeInsight.Grammar.Token

/-!
# Lexemes

One recogniser per class of token. A recogniser looks at the characters ahead and answers with the
kind of token that begins there and its length in characters, or not at all when no token of its
class begins there. Whitespace and comments between tokens are measured by `gap`.
-/

namespace CodeInsight.Grammar

/-- A recognised token: its kind and how many characters it takes. The length of an invalid one is
the number of characters up to the place where it cannot go on. -/
structure Lexeme where
  kind : TokenKind
  length : Nat
  deriving Repr

namespace Lexeme

/-! ## Character classes -/

def isBlank (c : Char) : Bool := Text.isSpace c || c == '\x0b'

def startsWord : Text → Bool
  | c :: _ => Text.isWordStart c
  | [] => false

/-- Characters of ASCII that may begin a word. -/
def isPlainStart (c : Char) : Bool := c.isAlpha || c == '_'

/-- The text begins with a word whose first character is in ASCII. -/
def startsPlainWord : Text → Bool
  | c :: _ => isPlainStart c
  | [] => false

/-! ## Whitespace and comments -/

/-- Length of a comment that runs to the end of its line, or up to a closing tag. -/
def lineComment : Text → Nat
  | '?' :: '>' :: _ => 0
  | '\n' :: _ => 0
  | '\r' :: _ => 0
  | _ :: cs => lineComment cs + 1
  | [] => 0

/-- Length of the rest of a block comment, including the closing mark; none if it is never
closed. -/
def blockComment : Text → Option Nat
  | '*' :: '/' :: _ => some 2
  | _ :: cs => (blockComment cs).map (· + 1)
  | [] => none

/-- Length of the whitespace or the comment that begins here; `none` for a block comment that is
never closed, and zero if a token begins here. The opening of a block comment at the very end of the
text is two operators. -/
def gap : Text → Option Nat
  | ['/', '*'] => some 0
  | '/' :: '*' :: cs => (blockComment cs).map (· + 2)
  | '/' :: '/' :: cs => some (lineComment cs + 2)
  | '#' :: '[' :: _ => some 0
  | '#' :: cs => some (lineComment cs + 1)
  | cs => some (cs.takeWhile isBlank).length

/-! ## Words and variables -/

/-- Length of a name: words joined by single backslashes. -/
def nameLength : Text → Nat
  | c :: cs =>
    if Text.isWordPart c then nameLength cs + 1
    else if c == '\\' && startsWord cs then nameLength cs + 1
    else 0
  | [] => 0

def startsWith (word : String) (cs : Text) : Bool :=
  (cs.take word.length).map Char.toLower == word.toList

/-- A keyword of a given length, which is longer by `(set)` if that restricts it to writing. -/
def keywordLexeme (k : Keyword) (length : Nat) (rest : Text) : Lexeme :=
  match k.restrictedToWriting? with
  | some restricted =>
    if startsWith "(set)" rest then ⟨.keyword restricted, length + 5⟩ else ⟨.keyword k, length⟩
  | none => ⟨.keyword k, length⟩

/-- A word without a leading backslash: a qualified name, a keyword or an identifier. -/
def wordLexeme (word rest : Text) : Lexeme :=
  if word.contains '\\' then ⟨.qualified, word.length⟩
  else match Keyword.ofWord? (String.ofList word) with
    | some k => keywordLexeme k word.length rest
    | none => ⟨.identifier, word.length⟩

def name? : Text → Option Lexeme
  | '\\' :: cs =>
    if startsWord cs then some ⟨.fullyQualified, nameLength cs + 1⟩ else none
  | cs =>
    if startsWord cs then
      some (wordLexeme (cs.take (nameLength cs)) (cs.drop (nameLength cs)))
    else none

/-- `$` followed by a word. -/
def dollarName? : Text → Option Lexeme
  | '$' :: cs =>
    if startsWord cs then some ⟨.variable, (cs.takeWhile Text.isWordPart).length + 1⟩ else none
  | _ => none

/-! ## Numbers -/

/-- Length of a run of digits of a given class. An underscore belongs to it if a digit follows. -/
def digitsLength (isDigit : Char → Bool) : Text → Nat
  | '_' :: c :: cs => if isDigit c then digitsLength isDigit cs + 2 else 0
  | c :: cs => if isDigit c then digitsLength isDigit cs + 1 else 0
  | [] => 0

def startsSign : Text → Bool
  | c :: _ => c == '+' || c == '-'
  | [] => false

/-- Length of an exponent: the letter `e`, a sign if there is one, and digits. Directly after a
whole number the first character behind them must be a digit; after a fraction it may be an
underscore before one. -/
def exponentLength (whole : Bool) : Text → Nat
  | e :: cs =>
    let signs := if startsSign cs then 1 else 0
    let digits := cs.drop signs
    let length := digitsLength Char.isDigit digits
    if !(e == 'e' || e == 'E') || length = 0 || (whole && digits.head? = some '_') then 0
    else length + signs + 1
  | [] => 0

/-- Length of a fraction: a point and the digits after it, if there are any. -/
def fractionLength : Text → Nat
  | '.' :: ds => digitsLength Char.isDigit ds + 1
  | _ => 0

/-- An integer in base ten, or in base eight if it begins with a zero; then a digit beyond seven
cannot be part of it. -/
def wholeNumber (digits : Text) : Lexeme :=
  match digits with
  | '0' :: ds =>
    let octal := ds.takeWhile fun c => c != '8' && c != '9'
    if octal.length = ds.length then ⟨.integer, digits.length⟩ else ⟨.invalid, octal.length + 1⟩
  | _ => ⟨.integer, digits.length⟩

/-- A number in base ten or eight: an integer unless a fraction or an exponent follows. -/
def decimal (cs : Text) : Lexeme :=
  let whole := digitsLength Char.isDigit cs
  let fraction := fractionLength (cs.drop whole)
  let exponent := exponentLength (fraction = 0) (cs.drop (whole + fraction))
  if fraction + exponent = 0 then wholeNumber (cs.take whole)
  else ⟨.float, whole + fraction + exponent⟩

/-- The class of digits that a letter after a leading zero stands for. -/
def radixDigit? (letter : Char) : Option (Char → Bool) :=
  match letter.toLower with
  | 'x' => some fun c => c.isDigit || ('a' ≤ c.toLower && c.toLower ≤ 'f')
  | 'o' => some fun c => '0' ≤ c && c ≤ '7'
  | 'b' => some fun c => c == '0' || c == '1'
  | _ => none

/-- A zero, a letter for the base and digits of that base, at least one of them. -/
def radixNumber? : Text → Option Lexeme
  | '0' :: letter :: d :: ds => do
    let isDigit ← radixDigit? letter
    guard (isDigit d)
    return ⟨.integer, digitsLength isDigit (d :: ds) + 2⟩
  | _ => none

def number? (cs : Text) : Option Lexeme :=
  match cs with
  | '.' :: d :: _ => if d.isDigit then some (decimal cs) else none
  | d :: _ => if d.isDigit then radixNumber? cs <|> some (decimal cs) else none
  | [] => none

/-! ## Strings -/

/-- Length of a quoted string after its opening quote, the closing quote included; none if it is
never closed. A backslash protects the character after it. -/
def quotedLength (quote : Char) : Text → Option Nat
  | [] => none
  | '\\' :: _ :: cs => (quotedLength quote cs).map (· + 2)
  | c :: cs => if c == quote then some 1 else (quotedLength quote cs).map (· + 1)

/-- A part that makes a string an interpolated one begins here. A variable does so only if its name
begins in ASCII. -/
def startsPart : Text → Bool
  | '$' :: '\x7b' :: _ => true
  | '$' :: cs => startsPlainWord cs
  | '\x7b' :: '$' :: _ => true
  | _ => false

/-- A double-quoted string, given after its opening quote, has an interpolated part. -/
def interpolated : Text → Bool
  | [] => false
  | '\\' :: _ :: cs => interpolated cs
  | c :: cs => c != '"' && (startsPart (c :: cs) || interpolated cs)

/-- A string without interpolated parts, given after its opening quote and a mark of so many
characters before that. -/
def plainString (mark : Nat) (quote : Char) (cs : Text) : Lexeme :=
  match quotedLength quote cs with
  | some n => ⟨.string, mark + 1 + n⟩
  | none => ⟨.unclosed, mark + 1 + cs.length⟩

/-- Single-quoted strings, double-quoted strings without interpolated parts, and the openings of
those with such parts, after a mark of so many characters. -/
def quoted? (mark : Nat) : Text → Option Lexeme
  | '\'' :: cs => some (plainString mark '\'' cs)
  | '"' :: cs =>
    some (if interpolated cs then ⟨.quoteMark '"', mark + 1⟩ else plainString mark '"' cs)
  | '\x60' :: _ => if mark = 0 then some ⟨.quoteMark '\x60', 1⟩ else none
  | _ => none

def string? : Text → Option Lexeme
  | 'b' :: cs => quoted? 1 cs
  | 'B' :: cs => quoted? 1 cs
  | cs => quoted? 0 cs

/-! ## Casts and symbols -/

def castNames : List String :=
  ["array", "binary", "bool", "boolean", "double", "float", "int", "integer", "object", "real",
   "string", "unset", "void"]

/-- Length of a word written here in any mixture of cases, with whitespace before it and between its
characters. -/
def spacedLength : Text → Text → Option Nat
  | [], _ => some 0
  | _ :: _, [] => none
  | w :: ws, c :: cs =>
    if Text.isSpace c then (spacedLength (w :: ws) cs).map (· + 1)
    else if c.toLower == w then (spacedLength ws cs).map (· + 1)
    else none

def cast? (cs : Text) : Option Lexeme :=
  if cs.head? == some '(' then
    (castNames.findSome? fun name => spacedLength ('(' :: name.toList ++ [')']) cs).map
      fun length => ⟨.cast, length⟩
  else none

/-- The closing tag, and otherwise the longest symbol that begins here. -/
def symbol? : Text → Option Lexeme
  | '?' :: '>' :: _ => some ⟨.closeTag, 2⟩
  | cs =>
    (Symbol.spellings.find? fun (spelling, _) => spelling.toList.isPrefixOf cs).map
      fun (spelling, symbol) => ⟨.symbol symbol, spelling.length⟩

/-! ## All classes together -/

/-- The token that begins here, within code. A character that begins no token is invalid. -/
def ofCode (cs : Text) : Lexeme :=
  ((string? cs <|> name? cs <|> dollarName? cs <|> number? cs <|> cast? cs <|> symbol? cs)).getD
    ⟨.invalid, 0⟩

end Lexeme

end CodeInsight.Grammar
