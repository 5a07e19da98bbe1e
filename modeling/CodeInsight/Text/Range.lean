/-!
# Ranges of characters

Character properties beyond ASCII are given as ascending lists of ranges of code points.
-/

namespace CodeInsight.Text

def inRanges (ranges : List (Nat × Nat)) (c : Char) : Bool :=
  ranges.any fun (first, last) => first ≤ c.toNat && c.toNat ≤ last

end CodeInsight.Text
