/-!
# Texts and byte offsets

A text is the list of its characters. Every position that the library reports is a byte offset into
the UTF-8 form of the text, so the operations here convert between the two views: `Text.size`
measures a text in bytes and `Text.cut?` divides one at a byte offset.
-/

namespace CodeInsight

abbrev Text := List Char

namespace Text

def size : Text → Nat
  | [] => 0
  | c :: cs => c.utf8Size + size cs

@[simp] theorem size_nil : size [] = 0 := rfl

@[simp] theorem size_cons (c : Char) (cs : Text) : size (c :: cs) = c.utf8Size + size cs := rfl

@[simp] theorem size_append (a b : Text) : size (a ++ b) = size a + size b := by
  induction a with
  | nil => simp
  | cons c cs ih => simp [ih, Nat.add_assoc]

/-- Divides a text at a byte offset. There is no such division when the offset lies inside a
character or past the end. -/
def cut? : Text → Nat → Option (Text × Text)
  | cs, 0 => some ([], cs)
  | [], _ + 1 => none
  | c :: cs, o + 1 =>
    if c.utf8Size ≤ o + 1 then
      (cut? cs (o + 1 - c.utf8Size)).map fun (before, after) => (c :: before, after)
    else none

def isBoundary (text : Text) (offset : Nat) : Bool := (cut? text offset).isSome

/-- The part of a text from one byte offset to another; there is none unless both are boundaries
in ascending order. -/
def slice? (text : Text) (start stop : Nat) : Option Text := do
  guard (start ≤ stop)
  let (_, after) ← cut? text start
  let (inside, _) ← cut? after (stop - start)
  return inside

/-- The part of a text between two byte offsets, empty where `slice?` has no answer. -/
def slice (text : Text) (start stop : Nat) : Text := (slice? text start stop).getD []

/-- What follows a byte offset, empty where the offset is no boundary. -/
def after (text : Text) (offset : Nat) : Text := ((cut? text offset).map Prod.snd).getD []

/-- What precedes a byte offset, the whole text where the offset is no boundary. -/
def before (text : Text) (offset : Nat) : Text := ((cut? text offset).map Prod.fst).getD text

/-- The greatest boundary that is at most `offset`. -/
def floor : Text → Nat → Nat
  | [], _ => 0
  | c :: cs, offset =>
    if c.utf8Size ≤ offset then c.utf8Size + floor cs (offset - c.utf8Size) else 0

/-- What remains of a text after a leading part, if it begins with that part. -/
def dropLeading? : Text → Text → Option Text
  | cs, [] => some cs
  | [], _ :: _ => none
  | c :: cs, p :: ps => if c = p then dropLeading? cs ps else none

/-- What remains of a text before a trailing part, if it ends with that part. -/
def dropTrailing? (text ending : Text) : Option Text :=
  (dropLeading? text.reverse ending.reverse).map List.reverse

def splitOn (mark : Char) : Text → List Text
  | [] => [[]]
  | c :: cs =>
    if c = mark then [] :: splitOn mark cs
    else match splitOn mark cs with
      | [] => [[c]]
      | piece :: pieces => (c :: piece) :: pieces

def replaceChar (old new : Char) (text : Text) : Text :=
  text.map fun c => if c = old then new else c

end Text

def byteLength (s : String) : Nat := Text.size s.toList

end CodeInsight
