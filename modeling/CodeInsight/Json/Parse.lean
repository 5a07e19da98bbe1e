import CodeInsight.Text.Basic
import CodeInsight.Json.Basic

/-!
# Reading JSON

`Json.parse?` reads a text that consists of one value. Nesting is limited, strings hold no raw
control characters and no halves of surrogate pairs, and numbers are finite.
-/

namespace CodeInsight.Json

abbrev Reader (α : Type) := Text → Option (α × Text)

def isGap (c : Char) : Bool := c == ' ' || c == '\t' || c == '\n' || c == '\r'

def skip (cs : Text) : Text := cs.dropWhile isGap

/-! ## Strings -/

def hexValue? (c : Char) : Option Nat :=
  if '0' ≤ c ∧ c ≤ '9' then some (c.toNat - 48)
  else if 'a' ≤ c ∧ c ≤ 'f' then some (c.toNat - 87)
  else if 'A' ≤ c ∧ c ≤ 'F' then some (c.toNat - 55)
  else none

def hexUnit? : Reader Nat
  | a :: b :: c :: d :: rest => do
    let a ← hexValue? a
    let b ← hexValue? b
    let c ← hexValue? c
    let d ← hexValue? d
    return (((a * 16 + b) * 16 + c) * 16 + d, rest)
  | _ => none

def isHigh (n : Nat) : Bool := 0xD800 ≤ n && n < 0xDC00

def isLow (n : Nat) : Bool := 0xDC00 ≤ n && n < 0xE000

/-- The character that the digits of an escape stand for; a pair takes a second escape. -/
def escapedUnit? (cs : Text) : Option (Char × Text) := do
  let (first, rest) ← hexUnit? cs
  if isLow first then none
  else if isHigh first then
    match rest with
    | '\\' :: 'u' :: rest =>
      let (second, rest) ← hexUnit? rest
      guard (isLow second)
      return (Char.ofNat (0x10000 + (first - 0xD800) * 0x400 + (second - 0xDC00)), rest)
    | _ => none
  else return (Char.ofNat first, rest)

def escape? : Text → Option (Char × Text)
  | '"' :: rest => some ('"', rest)
  | '\\' :: rest => some ('\\', rest)
  | '/' :: rest => some ('/', rest)
  | 'b' :: rest => some ('\x08', rest)
  | 'f' :: rest => some ('\x0c', rest)
  | 'n' :: rest => some ('\n', rest)
  | 'r' :: rest => some ('\r', rest)
  | 't' :: rest => some ('\t', rest)
  | 'u' :: rest => escapedUnit? rest
  | _ => none

/-- The characters up to the closing quote, at most `fuel` of them, in front of those read before,
which are in reverse. -/
def stringRest? : Nat → Text → Text → Option (String × Text)
  | 0, _, _ => none
  | fuel + 1, read, cs =>
    match cs with
    | '"' :: rest => some (String.ofList read.reverse, rest)
    | '\\' :: rest =>
      match escape? rest with
      | some (c, rest) => stringRest? fuel (c :: read) rest
      | none => none
    | c :: rest => if c.toNat < 0x20 then none else stringRest? fuel (c :: read) rest
    | [] => none

def quotedString : Reader String
  | '"' :: rest => stringRest? (rest.length + 1) [] rest
  | _ => none

/-! ## Numbers -/

def digits (cs : Text) : Text × Text := (cs.takeWhile Char.isDigit, cs.dropWhile Char.isDigit)

def numeral (ds : Text) : Nat := ds.foldl (fun n d => n * 10 + (d.toNat - 48)) 0

/-- The digits before the point. More than one digit do not begin with a zero. -/
def wholePart? (cs : Text) : Option (Text × Text) :=
  let (whole, rest) := digits cs
  if whole = [] then none
  else if whole.head? = some '0' ∧ 1 < whole.length then none
  else some (whole, rest)

def fractionPart? (cs : Text) : Option (Option Text × Text) :=
  match cs with
  | '.' :: rest =>
    let (ds, rest) := digits rest
    if ds = [] then none else some (some ds, rest)
  | _ => some (none, cs)

def exponentSign : Text → Bool × Text
  | '-' :: rest => (true, rest)
  | '+' :: rest => (false, rest)
  | cs => (false, cs)

def exponentPart? (cs : Text) : Option (Option Int × Text) :=
  match cs with
  | 'e' :: rest | 'E' :: rest =>
    let (negative, rest) := exponentSign rest
    let (ds, rest) := digits rest
    if ds = [] then none
    else
      let size : Int := numeral ds
      some (some (if negative then -size else size), rest)
  | _ => some (none, cs)

/-- The leading digits that fit into 64 bits behind a number, which they extend, and how many they
are. -/
def kept : Nat → Text → Nat × Nat
  | n, d :: ds =>
    let extended := n * 10 + (d.toNat - 48)
    if Nat.pow 2 64 ≤ extended then (n, 0)
    else
      let (n, count) := kept extended ds
      (n, count + 1)
  | n, [] => (n, 0)

/-- A number in double precision. Digits that do not fit into 64 bits count as places only; those
after the point are looked at anew. -/
def real? (negative : Bool) (whole fraction : Text) (exponent : Int) : Option Json :=
  let (n, count) := kept 0 whole
  let (n, places) := kept n fraction
  let exponent := exponent + (whole.length - count : Nat) - places
  (Double.scaled? negative n exponent).map real

/-- The value of an integer numeral: exact in 64 bits, otherwise in double precision. -/
def integer? (negative : Bool) (whole : Text) : Option Json :=
  let n := numeral whole
  if negative then
    if 0 < n ∧ n ≤ Nat.pow 2 63 then some (.integer (-(n : Int))) else real? true whole [] 0
  else if n < Nat.pow 2 64 then some (.integer n) else real? false whole [] 0

def number : Reader Json := fun cs => do
  let (negative, cs) := match cs with
    | '-' :: rest => (true, rest)
    | _ => (false, cs)
  let (whole, cs) ← wholePart? cs
  let (fraction, cs) ← fractionPart? cs
  let (exponent, cs) ← exponentPart? cs
  match fraction, exponent with
  | none, none => return (← integer? negative whole, cs)
  | _, _ => return (← real? negative whole (fraction.getD []) (exponent.getD 0), cs)

/-! ## Values -/

/-- Items up to a closing mark, at most `fuel` of them. -/
def itemsRest {α : Type} (item : Reader α) (closing : Char) : Nat → Reader (List α)
  | 0, _ => none
  | fuel + 1, cs => do
    let (first, cs) ← item cs
    match skip cs with
    | ',' :: rest =>
      let (others, rest) ← itemsRest item closing fuel rest
      return (first :: others, rest)
    | c :: rest => if c = closing then some ([first], rest) else none
    | [] => none

def items {α : Type} (item : Reader α) (closing : Char) : Reader (List α) := fun cs =>
  match skip cs with
  | [] => none
  | c :: rest =>
    if c = closing then some ([], rest) else itemsRest item closing (rest.length + 1) (c :: rest)

def member (value : Reader Json) : Reader (String × Json) := fun cs => do
  let (key, cs) ← quotedString (skip cs)
  match skip cs with
  | ':' :: rest =>
    let (v, rest) ← value rest
    return ((key, v), rest)
  | _ => none

def word (spelling : String) (value : Json) : Reader Json := fun cs =>
  (Text.dropLeading? cs spelling.toList).map fun rest => (value, rest)

def scalar : Reader Json := fun cs =>
  match cs with
  | '"' :: _ => (quotedString cs).map fun (s, rest) => (.string s, rest)
  | 'n' :: _ => word "null" .null cs
  | 't' :: _ => word "true" (.bool true) cs
  | 'f' :: _ => word "false" (.bool false) cs
  | _ => number cs

def value : Nat → Reader Json
  | 0, cs => scalar (skip cs)
  | depth + 1, cs =>
    match skip cs with
    | '[' :: rest => (items (value depth) ']' rest).map fun (vs, rest) => (.array vs, rest)
    | '\x7b' :: rest =>
      (items (member (value depth)) '\x7d' rest).map fun (ms, rest) => (ofMembers ms, rest)
    | cs => scalar cs

def maxNesting : Nat := 127

def parse? (text : Text) : Option Json := do
  let (v, rest) ← value maxNesting text
  guard (skip rest = [])
  return v

end CodeInsight.Json
