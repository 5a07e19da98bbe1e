import CodeInsight.Text.Basic

/-!
# Blank characters

The characters with the property White_Space, and the operations on the blanks of a text.
-/

namespace CodeInsight.Text

def isBlank (c : Char) : Bool :=
  c == ' ' || ('\t' ≤ c && c ≤ '\r') || c == '\u0085' || c == '\u00a0' || c == '\u1680' ||
    ('\u2000' ≤ c && c ≤ '\u200a') || c == '\u2028' || c == '\u2029' || c == '\u202f' ||
    c == '\u205f' || c == '\u3000'

def trimStart (text : Text) : Text := text.dropWhile isBlank

def trimEnd (text : Text) : Text := (text.reverse.dropWhile isBlank).reverse

def trim (text : Text) : Text := trimEnd (trimStart text)

/-- A text without leading blanks, in which every other run of blanks is one space. `pending` tells
whether blanks stand before the rest. -/
def collapseFrom : Bool → Text → Text
  | _, [] => []
  | pending, c :: cs =>
    if isBlank c then collapseFrom true cs
    else if pending then ' ' :: c :: collapseFrom false cs
    else c :: collapseFrom false cs

/-- The words of a text with one space between them. -/
def collapse (text : Text) : Text := collapseFrom false (trimStart text)

end CodeInsight.Text
