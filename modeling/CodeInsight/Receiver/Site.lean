import CodeInsight.Text.Word
import CodeInsight.Text.Basic
import CodeInsight.Span

/-!
# The expression at a cursor

Code that is being typed seldom parses, so what stands at a cursor is found from the characters
around it: a member fetch with the expression it is made on, or a variable. Scanning goes backwards,
over the characters before the cursor from the last to the first; a position is what precedes it.
-/

namespace CodeInsight.Receiver

structure FetchSite where
  /-- The expression that the member is fetched from. -/
  receiver : Span
  nullsafe : Bool
  /-- The member's name up to the cursor. -/
  typed : String
  member : String
  /-- From the operator to the end of the name. -/
  tail : Span
  deriving DecidableEq, Repr

structure VariableSite where
  /-- The variable up to the cursor, with its `$`. -/
  typed : String
  token : Span
  deriving DecidableEq, Repr

/-! ## Scanning backwards -/

def skipSpaces (back : Text) : Text := back.dropWhile Text.isSpace

/-- Steps over an operator that fetches a member, and tells whether it is `?->`. -/
def operator? : Text → Option (Text × Bool)
  | '>' :: '-' :: '?' :: rest => some (rest, true)
  | '>' :: '-' :: rest => some (rest, false)
  | _ => none

/-- Steps out of `depth` groups in parentheses. -/
def leaveGroups : Nat → Text → Option Text
  | _, [] => none
  | depth, ')' :: rest => leaveGroups (depth + 1) rest
  | depth, '(' :: rest => if depth ≤ 1 then some rest else leaveGroups (depth - 1) rest
  | depth, _ :: rest => leaveGroups depth rest

def dollar : Text → Text
  | '$' :: rest => rest
  | back => back

/-- Steps over a group in parentheses together with the name before it, or over a word or
variable. -/
def link? : Text → Option Text
  | ')' :: rest => do
    let opened ← leaveGroups 1 rest
    let named := opened.dropWhile Text.isNamePart
    return if named.length < opened.length then dollar named else named
  | back =>
    let start := dollar (back.dropWhile Text.isWordPart)
    if start.length < back.length then some start else none

/-- The word `new` stands at the end, and blanks have been skipped after it. -/
def newBefore? (before start : Text) : Option Text :=
  match before with
  | 'w' :: 'e' :: 'n' :: rest =>
    if before.length < start.length && !rest.head?.any Text.isWordPart then some rest else none
  | _ => none

/-- What a chain of calls and fetches continues, if it does not begin here. -/
def continued? (before : Text) : Option Text :=
  match operator? before with
  | some (rest, _) => some (skipSpaces rest)
  | none =>
    match before with
    | ':' :: ':' :: rest => some (skipSpaces rest)
    | _ => none

/-- Steps over a chain of at most `fuel` links. -/
def chain? : Nat → Text → Option Text
  | 0, _ => none
  | fuel + 1, back => do
    let start ← link? back
    let before := skipSpaces start
    match continued? before with
    | some rest => chain? fuel rest
    | none => return (newBefore? before start).getD start

/-- Where the chain that ends at a position begins. -/
def chainStart? (back : Text) : Option Text := chain? (back.length + 1) back

/-! ## Sites -/

/-- What precedes an offset, backwards, and what follows it. An offset within a character counts as
that character's beginning, one past the end as the end. -/
def around (text : Text) (offset : Nat) : Text × Text :=
  let place := Text.floor text offset
  ((Text.before text place).reverse, Text.after text place)

def fetchSite? (text : Text) (offset : Nat) : Option FetchSite := do
  let (back, ahead) := around text offset
  let typed := (back.takeWhile Text.isWordPart).reverse
  let untyped := ahead.takeWhile Text.isWordPart
  let (beforeOperator, nullsafe) ← operator? (skipSpaces (back.dropWhile Text.isWordPart))
  let receiverEnd := skipSpaces beforeOperator
  let receiverStart ← chainStart? receiverEnd
  guard (receiverStart.length < receiverEnd.length)
  return {
    receiver := ⟨Text.size receiverStart, Text.size receiverEnd⟩
    nullsafe
    typed := String.ofList typed
    member := String.ofList (typed ++ untyped)
    tail := ⟨Text.size beforeOperator, Text.size back + Text.size untyped⟩ }

def variableSite? (text : Text) (offset : Nat) : Option VariableSite :=
  let (back, ahead) := around text offset
  let typed := (back.takeWhile Text.isWordPart).reverse
  let untyped := ahead.takeWhile Text.isWordPart
  match back.dropWhile Text.isWordPart with
  | '$' :: rest =>
    some { typed := String.ofList ('$' :: typed)
           token := ⟨Text.size rest, Text.size back + Text.size untyped⟩ }
  | _ => none

end CodeInsight.Receiver
