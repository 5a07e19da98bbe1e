import CodeInsight.Text.Word
import CodeInsight.Text.Basic

/-!
# Chains of calls and fetches

The expression that a member is fetched from, read from its text. Only chains whose type can be told
are read: array accesses, computed names and constants are none.
-/

namespace CodeInsight.Receiver

inductive Base where
  /-- `$name`, the `$` included. -/
  | variable (name : String)
  /-- `new Name(…)`. -/
  | new (className : String)
  /-- `Name::method(…)`. -/
  | staticCall (className method : String)
  /-- `name(…)`. -/
  | functionCall (name : String)
  deriving DecidableEq, Repr

inductive Link where
  | property (name : String)
  | method (name : String)
  deriving DecidableEq, Repr

structure Chain where
  base : Base
  links : List Link
  deriving DecidableEq, Repr

namespace Chain

def skip (cs : Text) : Text := cs.dropWhile Text.isSpace

/-- A non-empty run of characters of a kind, and what follows it. -/
def word? (isPart : Char → Bool) (cs : Text) : Option (String × Text) :=
  let word := cs.takeWhile isPart
  if word = [] then none else some (String.ofList word, cs.dropWhile isPart)

/-- The rest of `depth` groups in parentheses: what they hold, and what follows them. -/
def groupRest? : Nat → Text → Option (Text × Text)
  | _, [] => none
  | depth, c :: cs =>
    if c = ')' && depth ≤ 1 then some ([], cs)
    else
      let depth := if c = '(' then depth + 1 else if c = ')' then depth - 1 else depth
      (groupRest? depth cs).map fun (inside, rest) => (c :: inside, rest)

def group? : Text → Option (Text × Text)
  | '(' :: cs => groupRest? 1 cs
  | _ => none

/-- What follows a group in parentheses; texts without one are left alone. -/
def optionalGroup? (cs : Text) : Option Text :=
  match cs with
  | '(' :: _ => (group? cs).map Prod.snd
  | _ => some cs

def operator? : Text → Option Text
  | '-' :: '>' :: rest => some rest
  | '?' :: '-' :: '>' :: rest => some rest
  | _ => none

def base? (cs : Text) : Option (Base × Text) :=
  match cs with
  | '$' :: cs => do
    let (name, rest) ← word? Text.isWordPart cs
    return (.variable ("$" ++ name), rest)
  | _ => do
    let (name, rest) ← word? Text.isNamePart cs
    if name.toLower = "new" then
      let (className, rest) ← word? Text.isNamePart (skip rest)
      return (.new className, ← optionalGroup? (skip rest))
    else match skip rest with
      | ':' :: ':' :: rest =>
        let (method, rest) ← word? Text.isWordPart (skip rest)
        let (_, rest) ← group? (skip rest)
        return (.staticCall name method, rest)
      | rest =>
        let (_, rest) ← group? rest
        return (.functionCall name, rest)

/-- At most `fuel` steps of a chain, and what follows them. -/
def links? : Nat → Text → Option (List Link × Text)
  | 0, cs => some ([], cs)
  | fuel + 1, cs =>
    match operator? (skip cs) with
    | none => some ([], skip cs)
    | some rest => do
      let (name, rest) ← word? Text.isWordPart (skip rest)
      let after := skip rest
      let rest ← optionalGroup? after
      let link := if after.head? = some '(' then Link.method name else Link.property name
      let (links, rest) ← links? fuel rest
      return (link :: links, rest)

/-- The beginning of a chain, which may be a chain in parentheses, and what follows it. -/
def start? (inner? : Text → Option Chain) (cs : Text) : Option (Chain × Text) :=
  match group? cs with
  | some (inside, rest) => (inner? inside).map fun chain => (chain, rest)
  | none => (base? cs).map fun (base, rest) => (⟨base, []⟩, rest)

/-- Reads a chain in fewer than `fuel` groups of parentheses. -/
def read? : Nat → Text → Option Chain
  | 0, _ => none
  | fuel + 1, cs => do
    let (chain, rest) ← start? (read? fuel) (skip cs)
    let (links, rest) ← links? rest.length rest
    guard (rest = [])
    return { chain with links := chain.links ++ links }

def ofText? (text : Text) : Option Chain := read? (text.length + 1) text

end Chain

end CodeInsight.Receiver
