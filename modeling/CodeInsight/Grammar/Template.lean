import CodeInsight.Grammar.Lexeme

/-!
# Strings with interpolated parts

Here-documents, shell commands and double-quoted strings that mention variables are read in pieces:
text of the string itself, and parts that are code. This module tells how such a string is opened
and closed, where its parts begin and how far each of them extends. The extent of a part is found by
its characters alone, without regard to quotes and comments in it.
-/

namespace CodeInsight.Grammar

inductive Closing where
  | quote (c : Char)
  | line (word : Text)
  /-- At a label, with no interpolated parts before it. -/
  | rawLine (word : Text)
  deriving Repr

def Closing.mark : Closing → TokenKind
  | .quote c => .quoteMark c
  | .line _ | .rawLine _ => .documentClose

namespace Template

/-! ## Openings of here-documents -/

def afterBreak? : Text → Option Text
  | '\r' :: '\n' :: cs => some cs
  | '\n' :: cs => some cs
  | _ => none

/-- What follows the letter that marks a string as one of bytes, if it is there. -/
def afterMark : Text → Text
  | 'b' :: cs => cs
  | 'B' :: cs => cs
  | cs => cs

/-- A label with a given text after it, at the end of a line: the label and what follows the line
break. -/
def label? (close cs : Text) : Option (Text × Text) := do
  guard (Lexeme.startsPlainWord cs)
  let rest ← Text.dropLeading? (cs.dropWhile Text.isWordPart) close
  let rest ← afterBreak? rest
  return (cs.takeWhile Text.isWordPart, rest)

/-- The rest of the opening of a here-document, from its label on: how the document ends and what
follows the opening. The label may stand in double quotes, or in single quotes if the document has
no interpolated parts. -/
def opening? : Text → Option (Closing × Text)
  | '\'' :: cs => (label? ['\''] cs).map fun (word, rest) => (.rawLine word, rest)
  | '"' :: cs => (label? ['"'] cs).map fun (word, rest) => (.line word, rest)
  | cs => (label? [] cs).map fun (word, rest) => (.line word, rest)

/-- The opening of a here-document, up to the end of a line: its length and how the document
ends. -/
def document? (cs : Text) : Option (Nat × Closing) := do
  let rest ← Text.dropLeading? (afterMark cs) ['<', '<', '<']
  let (closing, rest) ← opening? (rest.dropWhile Text.isSpace)
  return (cs.length - rest.length, closing)

/-! ## Pieces of text -/

def opensPart : Text → Bool
  | '$' :: '\x7b' :: _ => true
  | '$' :: cs => Lexeme.startsWord cs
  | '\x7b' :: '$' :: _ => true
  | _ => false

/-- A piece of a string: its length, and whether it is the closing mark. A piece of no length that
does not close the string is the beginning of an interpolated part. -/
structure Piece where
  length : Nat
  closes : Bool
  deriving Repr

def Piece.after (skipped : Nat) (p : Piece) : Piece := { p with length := p.length + skipped }

/-- A label stands here, and no letter or digit of ASCII extends it. -/
def labelled (word cs : Text) : Bool :=
  match Text.dropLeading? cs word with
  | some (c :: _) => !c.isAlphanum
  | some [] => true
  | none => false

/-- The piece of a here-document that begins here: the rest of a line, the text before an
interpolated part, or blanks and the closing label. `leading` tells that only blanks stand before it
in its piece, `shielded` that a backslash does. -/
def documentPiece (word : Text) (raw : Bool) : Bool → Bool → Text → Piece
  | _, _, [] => ⟨0, false⟩
  | _, _, '\r' :: '\n' :: _ => ⟨2, false⟩
  | _, _, '\n' :: _ => ⟨1, false⟩
  | _, _, '\r' :: _ => ⟨1, false⟩
  | leading, shielded, c :: cs =>
    if Text.isSpace c then (documentPiece word raw leading shielded cs).after 1
    else if !raw && !shielded && opensPart (c :: cs) then ⟨0, false⟩
    else if !raw && c == '\\' then (documentPiece word raw false (!shielded) cs).after 1
    else if leading && labelled word (c :: cs) then ⟨word.length, true⟩
    else (documentPiece word raw false false cs).after 1

/-- Length of the text of a quoted string up to its closing quote or an interpolated part. -/
def quotedText (quote : Char) : Text → Nat
  | [] => 0
  | '\\' :: _ :: cs => quotedText quote cs + 2
  | c :: cs => if c == quote || opensPart (c :: cs) then 0 else quotedText quote cs + 1

def piece (closing : Closing) (cs : Text) : Piece :=
  match closing with
  | .quote q => if cs.head? = some q then ⟨1, true⟩ else ⟨quotedText q cs, false⟩
  | .line word => documentPiece word false true false cs
  | .rawLine word => documentPiece word true true false cs

/-! ## Extents of interpolated parts -/

/-- Length of an index after its opening bracket: up to the bracket that closes it, or up to
whitespace. -/
def indexLength : Nat → Text → Nat
  | _, [] => 0
  | depth, c :: cs =>
    if Text.isSpace c then 0
    else if c == '[' then indexLength (depth + 1) cs + 1
    else if c != ']' then indexLength depth cs + 1
    else match depth with
      | 0 => 1
      | outer + 1 => indexLength outer cs + 1

def wordLength (cs : Text) : Nat := (cs.takeWhile Text.isWordPart).length

/-- Length of what may follow a variable within its part: an index or the name of a property. -/
def accessLength : Text → Nat
  | '[' :: cs => indexLength 0 cs + 1
  | '-' :: '>' :: c :: cs => if Lexeme.isPlainStart c then wordLength cs + 3 else 0
  | '?' :: '-' :: '>' :: c :: cs => if Lexeme.isPlainStart c then wordLength cs + 4 else 0
  | _ => 0

/-- Length of a part in braces after its opening, up to the brace that closes it. -/
def bracedLength : Nat → Text → Nat
  | _, [] => 0
  | depth, c :: cs =>
    if c == '\x7b' then bracedLength (depth + 1) cs + 1
    else if c != '\x7d' then bracedLength depth cs + 1
    else match depth with
      | 0 => 1
      | outer + 1 => bracedLength outer cs + 1

def partLength : Text → Nat
  | '$' :: '\x7b' :: cs => bracedLength 0 cs + 2
  | '\x7b' :: '$' :: cs => bracedLength 0 cs + 2
  | '$' :: cs => wordLength cs + accessLength (cs.drop (wordLength cs)) + 1
  | _ => 0

end Template

end CodeInsight.Grammar
