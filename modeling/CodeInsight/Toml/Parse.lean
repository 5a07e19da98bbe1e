import CodeInsight.Json.Parse
import CodeInsight.Toml.Document
import CodeInsight.Toml.Scalar

/-!
# Reading TOML

`Toml.parse?` reads a document. Strings come in four forms, arrays and inline tables may extend over
several lines, and every statement ends its line.
-/

namespace CodeInsight.Toml

open Json (Reader hexValue?)

/-! ## Blanks, comments and line ends -/

def isGap (c : Char) : Bool := c == ' ' || c == '\t'

def skip (cs : Text) : Text := cs.dropWhile isGap

/-- Control characters, which are no part of comments and strings. -/
def isControl (c : Char) : Bool := (c.toNat < 0x20 && c != '\t') || c.toNat = 0x7f

def lineEnd? : Text → Option Text
  | '\n' :: rest => some rest
  | '\r' :: '\n' :: rest => some rest
  | _ => none

def comment : Text → Text
  | '#' :: rest => rest.dropWhile fun c => !isControl c
  | cs => cs

/-- What follows the rest of a line that says nothing more. -/
def restOfLine? (cs : Text) : Option Text :=
  match comment (skip cs) with
  | [] => some []
  | cs => lineEnd? cs

/-- Skips blanks, comments and line ends, at most `fuel` lines of them. -/
def skipLines : Nat → Text → Text
  | 0, cs => cs
  | fuel + 1, cs =>
    let rest := comment (skip cs)
    match lineEnd? rest with
    | some rest => skipLines fuel rest
    | none => rest

def skipAll (cs : Text) : Text := skipLines (cs.length + 1) cs

/-! ## Strings -/

def hexNumber? (cs : Text) : Option Nat :=
  cs.foldlM (fun n c => (hexValue? c).map fun d => n * 16 + d) 0

def hexEscape? (count : Nat) (cs : Text) : Option (Char × Text) := do
  let ds := cs.take count
  guard (ds.length = count)
  let n ← hexNumber? ds
  if n.isValidChar then some (Char.ofNat n, cs.drop count) else none

def escape? : Text → Option (Char × Text)
  | 'b' :: rest => some ('\x08', rest)
  | 't' :: rest => some ('\t', rest)
  | 'n' :: rest => some ('\n', rest)
  | 'f' :: rest => some ('\x0c', rest)
  | 'r' :: rest => some ('\r', rest)
  | 'e' :: rest => some ('\x1b', rest)
  | '"' :: rest => some ('"', rest)
  | '\\' :: rest => some ('\\', rest)
  | 'x' :: rest => hexEscape? 2 rest
  | 'u' :: rest => hexEscape? 4 rest
  | 'U' :: rest => hexEscape? 8 rest
  | _ => none

/-- The rest of a string on one line. `read` is what was read, in reverse. -/
def lineString? (quote : Char) (escapes : Bool) : Nat → Text → Text → Option (String × Text)
  | 0, _, _ => none
  | _, _, [] => none
  | fuel + 1, read, c :: rest =>
    if c = quote then some (String.ofList read.reverse, rest)
    else if escapes && c == '\\' then
      match escape? rest with
      | some (d, rest) => lineString? quote escapes fuel (d :: read) rest
      | none => none
    else if isControl c then none
    else lineString? quote escapes fuel (c :: read) rest

/-- Blanks that a backslash at the end of a line takes away. -/
def isWide (c : Char) : Bool := isGap c || c == '\n' || c == '\r'

/-- What follows a backslash that ends a line, without the blanks after it. -/
def joinedLine? (cs : Text) : Option Text :=
  (lineEnd? (skip cs)).map fun rest => rest.dropWhile isWide

/-- The rest of a string on several lines. Up to two quotes may stand before the closing three. -/
def blockString? (quote : Char) (escapes : Bool) : Nat → Text → Text → Option (String × Text)
  | 0, _, _ => none
  | _, _, [] => none
  | fuel + 1, read, c :: rest =>
    if c = quote then
      let quotes := (c :: rest).takeWhile (· == quote)
      let after := (c :: rest).dropWhile (· == quote)
      if quotes.length < 3 then blockString? quote escapes fuel (c :: read) rest
      else if quotes.length ≤ 5 then
        some (String.ofList (read.reverse ++ quotes.drop 3), after)
      else some (String.ofList (read.reverse ++ [quote, quote]), rest.drop 4)
    else if escapes && c == '\\' then
      match joinedLine? rest with
      | some rest => blockString? quote escapes fuel read rest
      | none =>
        match escape? rest with
        | some (d, rest) => blockString? quote escapes fuel (d :: read) rest
        | none => none
    else match lineEnd? (c :: rest) with
      | some after => blockString? quote escapes fuel ('\n' :: read) after
      | none => if isControl c then none else blockString? quote escapes fuel (c :: read) rest

/-- A string on several lines, whose first line end does not count. -/
def block? (quote : Char) (escapes : Bool) (cs : Text) : Option (String × Text) :=
  let body := (lineEnd? cs).getD cs
  blockString? quote escapes (body.length + 1) [] body

def simpleString : Reader String
  | '"' :: rest => lineString? '"' true (rest.length + 1) [] rest
  | '\'' :: rest => lineString? '\'' false (rest.length + 1) [] rest
  | _ => none

def anyString : Reader String
  | '"' :: '"' :: '"' :: rest => block? '"' true rest
  | '\'' :: '\'' :: '\'' :: rest => block? '\'' false rest
  | cs => simpleString cs

/-! ## Keys -/

/-- Characters of keys without quotes. -/
def isBare (c : Char) : Bool := c.isAlphanum || c == '_' || c == '-'

def keyPart : Reader String := fun cs =>
  match cs with
  | '"' :: _ | '\'' :: _ => simpleString cs
  | _ =>
    let word := cs.takeWhile isBare
    if word = [] then none else some (String.ofList word, cs.dropWhile isBare)

/-- The parts of a key, at most `fuel` of them. -/
def keyParts : Nat → Reader (List String)
  | 0, _ => none
  | fuel + 1, cs => do
    let (part, rest) ← keyPart (skip cs)
    match skip rest with
    | '.' :: rest =>
      let (parts, rest) ← keyParts fuel rest
      return (part :: parts, rest)
    | rest => some ([part], rest)

/-- Arrays and inline tables nest at most this deep, and keys have at most this many parts. -/
def maxNesting : Nat := 80

/-- A key: the path before its last part, and that part. -/
def key : Reader (List String × String) := fun cs => do
  let (parts, rest) ← keyParts maxNesting cs
  let last ← parts.getLast?
  return ((parts.dropLast, last), rest)

/-! ## Values -/

/-- Characters of numbers, Booleans and dates. -/
def isWordChar (c : Char) : Bool := isBare c || c == '+' || c == '.' || c == ':'

def timeFollows : Text → Bool
  | ' ' :: a :: b :: ':' :: _ => a.isDigit && b.isDigit
  | _ => false

def scalar : Reader Node := fun cs =>
  let word := cs.takeWhile isWordChar
  let rest := cs.dropWhile isWordChar
  let (word, rest) :=
    if isDate word && timeFollows rest then
      (word ++ ' ' :: (rest.drop 1).takeWhile isWordChar, (rest.drop 1).dropWhile isWordChar)
    else (word, rest)
  match moment? word with
  | some text => some (.moment text, rest)
  | none => if isScalar word then some (.scalar, rest) else none

/-- Items up to a closing mark, at most `fuel` of them; a comma may follow the last one. -/
def itemsUntil {α : Type} (item : Reader α) (closing : Char) : Nat → Reader (List α)
  | 0, _ => none
  | fuel + 1, cs =>
    match skipAll cs with
    | [] => none
    | c :: rest =>
      if c = closing then some ([], rest)
      else do
        let (first, rest) ← item (c :: rest)
        match skipAll rest with
        | ',' :: rest =>
          let (others, rest) ← itemsUntil item closing fuel rest
          return (first :: others, rest)
        | d :: rest => if d = closing then some ([first], rest) else none
        | [] => none

/-- A key and a value, given what may be skipped around the `=` between them. -/
def pair (skipped : Text → Text) (value : Reader Node) :
    Reader ((List String × String) × Node) := fun cs => do
  let (k, rest) ← key cs
  match skipped rest with
  | '=' :: rest =>
    let (v, rest) ← value (skipped rest)
    return ((k, v), rest)
  | _ => none

def inlineTable? (pairs : List ((List String × String) × Node)) : Option Node := do
  let entries ← pairs.foldlM (fun entries ((path, k), v) => addDotted? v path k entries) []
  return .table .inline entries

def simpleValue : Reader Node := fun cs =>
  match cs with
  | '"' :: _ | '\'' :: _ => (anyString cs).map fun (s, rest) => (.string s, rest)
  | _ => scalar cs

def value : Nat → Reader Node
  | 0, cs => simpleValue cs
  | depth + 1, cs =>
    match cs with
    | '[' :: rest =>
      (itemsUntil (value depth) ']' (rest.length + 1) rest).map fun (items, rest) =>
        (.array items, rest)
    | '\x7b' :: rest => do
      let (pairs, rest) ← itemsUntil (pair skipAll (value depth)) '\x7d' (rest.length + 1) rest
      return (← inlineTable? pairs, rest)
    | _ => simpleValue cs

/-! ## Documents -/

def line : Reader Line := fun cs =>
  match cs with
  | '[' :: '[' :: rest => do
    let ((path, k), rest) ← key rest
    match skip rest with
    | ']' :: ']' :: rest => some (.item path k, rest)
    | _ => none
  | '[' :: rest => do
    let ((path, k), rest) ← key rest
    match skip rest with
    | ']' :: rest => some (.header path k, rest)
    | _ => none
  | _ => do
    let (((path, k), v), rest) ← pair skip (value maxNesting) cs
    return (.entry path k v, rest)

/-- The lines of a document, at most `fuel` of them. -/
def lines? : Nat → Text → Option (List Line)
  | 0, _ => none
  | fuel + 1, cs =>
    match skipAll cs with
    | [] => some []
    | c :: rest => do
      let (first, rest) ← line (c :: rest)
      let rest ← restOfLine? rest
      return first :: (← lines? fuel rest)

def withoutMark : Text → Text
  | '\ufeff' :: rest => rest
  | cs => cs

def parse? (text : Text) : Option Entries := do
  entriesOf? (← lines? (text.length + 1) (withoutMark text))

end CodeInsight.Toml
