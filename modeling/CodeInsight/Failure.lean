/-!
# Failures

Why a request cannot be answered. Gaps in what is known about types are no failures: a type that
cannot be told is unknown.
-/

namespace CodeInsight

/-- A second step succeeds behind a first that did. -/
theorem bind_eq_ok {ε α β : Type} {x : Except ε α} {f : α → Except ε β} {b : β} :
    x.bind f = .ok b ↔ ∃ a, x = .ok a ∧ f a = .ok b := by
  cases x <;> simp [Except.bind]

inductive FileError where
  | missing
  /-- The content is not UTF-8. -/
  | notText
  /-- Any other reason, with its description where there is one. -/
  | other (reason : Option String)
  deriving DecidableEq, Repr

def FileError.reason : FileError → Option String
  | missing => some "file not found"
  | notText => some "stream did not contain valid UTF-8"
  | other reason => reason

inductive Failure where
  /-- The text is no program; parsing stops at the offset. -/
  | malformed (path : String) (offset : Nat)
  | sourceNotFound (subject : String)
  /-- A file should declare exactly one class. -/
  | classNotFound (path : String) (found : Nat)
  | unknownGenerator (kind : String)
  | invalidOption (generator option value : String)
  | unreadableOptions
  | destinationExists (path : String)
  /-- The file was not moved, and nothing was written. -/
  | moveFailed (source target : String) (reason : Option String)
  /-- The file was moved but its new content could not be written. -/
  | inconsistentMove (source target : String) (reason : String)
  /-- Two autoload roots give one file two class names. -/
  | conflictingRoots (ns first second : String)
  | invalidConfiguration (path : String)
  | unreadable (path : String) (error : FileError)
  deriving DecidableEq, Repr

namespace Failure

def because (reason : Option String) : String := reason.elim "" (": " ++ ·)

def message : Failure → String
  | malformed path offset => "syntax error in " ++ path ++ " at offset " ++ toString offset
  | sourceNotFound subject => "source not found: " ++ subject
  | classNotFound path found =>
    "expected exactly one class in " ++ path ++ ", found " ++ toString found
  | unknownGenerator kind => "unknown snippet generator \"" ++ kind ++ "\""
  | invalidOption generator option value =>
    "invalid value " ++ value ++ " for option \"" ++ option ++ "\" of generator \"" ++ generator ++
      "\""
  | unreadableOptions => "invalid value for option \"--options\" of generator \"*\""
  | destinationExists path => "cannot move class: destination " ++ path ++ " already exists"
  | moveFailed source target reason =>
    "failed to move " ++ source ++ " to " ++ target ++ because reason
  | inconsistentMove source target reason =>
    "class move from " ++ source ++ " to " ++ target ++ " left the tree inconsistent: " ++ reason
  | conflictingRoots ns first second =>
    "conflicting autoload prefix \"" ++ ns ++ "\": " ++ first ++ " and " ++ second
  | invalidConfiguration path => "invalid configuration in " ++ path
  | unreadable path _ => "i/o error on " ++ path

end Failure

end CodeInsight
