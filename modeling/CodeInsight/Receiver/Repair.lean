import CodeInsight.Text.Blank
import CodeInsight.Text.Word
import CodeInsight.Span

/-!
# Making unfinished code parse

Copies of a text in which the expression being typed is blanked out or ended. Characters are
overwritten in place, so offsets into a copy are offsets into the text; only at its very end may a
semicolon be added.
-/

namespace CodeInsight.Receiver

def isEnding (c : Char) : Bool := c == ';' || c == ')' || c == ',' || c == ']'

def needsTerminator (rest : Text) : Bool := !(Text.trimStart rest).head?.any isEnding

/-- Puts a semicolon in the place of a blank, or at the end. -/
def terminate? (before : Text) : Text → Option Text
  | [] => some (before ++ [';'])
  | c :: rest => if Text.isSpace c then some (before ++ ';' :: rest) else none

/-- A text with a range blanked out and, where what follows does not end the expression, a semicolon
at the beginning of the range. -/
def neutralize (text : Text) (range : Span) : Text :=
  let start := Text.floor text range.start
  let stop := max start (Text.floor text range.stop)
  let before := Text.before text start
  let rest := Text.after text stop
  let blanked := List.replicate (stop - start) ' ' ++ rest
  if needsTerminator rest then (terminate? before blanked).getD (before ++ blanked)
  else before ++ blanked

/-- A text with a semicolon at an offset, if one is needed and there is room for it. -/
def terminateAt? (text : Text) (offset : Nat) : Option Text :=
  let place := Text.floor text offset
  let rest := Text.after text place
  if needsTerminator rest then terminate? (Text.before text place) rest else none

end CodeInsight.Receiver
