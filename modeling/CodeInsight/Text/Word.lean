/-!
# Characters of words

Which characters make up identifiers and qualified names in source text. Every character beyond
ASCII counts as part of a word.
-/

namespace CodeInsight.Text

/-- Characters that may begin a word: ASCII letters, the underscore and everything beyond ASCII. -/
def isWordStart (c : Char) : Bool := c.isAlpha || c == '_' || 0x80 ≤ c.val

def isWordPart (c : Char) : Bool := isWordStart c || c.isDigit

def isNamePart (c : Char) : Bool := isWordPart c || c == '\\'

/-- The whitespace of ASCII that separates tokens in a line of code. -/
def isSpace (c : Char) : Bool :=
  c == ' ' || c == '\t' || c == '\n' || c == '\r' || c == '\x0c'

end CodeInsight.Text
