import CodeInsight.Text.Basic
import CodeInsight.Order
import CodeInsight.Span

/-!
# Edits

An edit replaces a range of a file's text. Several edits are applied from the last to the first, so
that the offsets of those still to come stay right.
-/

namespace CodeInsight

structure Edit where
  path : String
  range : Span
  replacement : String
  deriving DecidableEq, Repr

namespace Edit

def none (path : String) (offset : Nat) : Edit := ⟨path, .empty offset, ""⟩

def isNone (e : Edit) : Bool := e.range.isEmpty && e.replacement = ""

def rangeIn (e : Edit) (text : Text) : Span :=
  let stop := min e.range.stop (Text.size text)
  ⟨min e.range.start stop, stop⟩

/-- Applies an edit. A range that ends within a character leaves the text as it is. -/
def apply (text : Text) (e : Edit) : Text :=
  let range := e.rangeIn text
  match Text.cut? text range.start, Text.cut? text range.stop with
  | some (before, _), some (_, after) => before ++ e.replacement.toList ++ after
  | _, _ => text

/-- Edits that begin later come first. -/
def later (a b : Edit) : Bool := b.range.start ≤ a.range.start

def applyAll (text : Text) (edits : List Edit) : Text := (stableSort later edits).foldl apply text

end Edit

end CodeInsight
