/-!
# Stable sorting

Sorting that keeps the order of elements that compare equal.
-/

namespace CodeInsight

/-- Puts an element in front of the first one that may follow it. -/
def insertSorted {α : Type} (mayPrecede : α → α → Bool) (a : α) : List α → List α
  | [] => [a]
  | b :: rest => if mayPrecede a b then a :: b :: rest else b :: insertSorted mayPrecede a rest

/-- Sorts a list. Of two elements that may precede each other, the one that came first stays
first. -/
def stableSort {α : Type} (mayPrecede : α → α → Bool) (xs : List α) : List α :=
  xs.foldr (insertSorted mayPrecede) []

end CodeInsight
