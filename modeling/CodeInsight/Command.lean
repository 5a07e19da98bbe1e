import CodeInsight.Json.Parse
import CodeInsight.Json.Render
import CodeInsight.Report
import CodeInsight.Session

/-!
# The command line

One invocation serves one request. `Command.ofArguments?` reads the arguments, `Command.run` serves
the request and tells what is printed.
-/

namespace CodeInsight

inductive Command where
  | offsetInfo (path : String) (offset : Nat)
  | complete (path : String) (offset : Nat)
  | generateSnippet (kind className options : String)
  | classMove (source target : String)
  | classPath (className : String)
  | className (path : String)
  | explain (path : String)
  deriving DecidableEq, Repr

namespace Command

/-! ## Arguments -/

structure Sorted where
  cwd : Option String
  options : Option String
  values : List String
  deriving DecidableEq, Repr

/-- The name and, behind an equals sign, the value of an option. -/
def optionOf (arg : String) : String × Option String :=
  let cs := arg.toList
  match cs.dropWhile (· ≠ '=') with
  | _ :: value => (String.ofList (cs.takeWhile (· ≠ '=')), some (String.ofList value))
  | [] => (arg, none)

def isOption (arg : String) : Bool := arg.toList.head? = some '-' && arg ≠ "-"

/-- The value of an option, given behind it or next, and the arguments that are left. -/
def valueOf? (given : Option String) (rest : List String) : Option (String × List String) :=
  match given, rest with
  | some value, rest => some (value, rest)
  | none, value :: rest => if isOption value then none else some (value, rest)
  | none, [] => none

/-- Sorts arguments, at most `fuel` of them. An option is given at most once. Behind two dashes
every argument is a value. -/
def sortArguments? (takesOptions : Bool) : Nat → List String → Sorted → Option Sorted
  | 0, _, sorted => some sorted
  | _ + 1, [], sorted => some sorted
  | fuel + 1, arg :: rest, sorted =>
    if arg = "--" then some { sorted with values := sorted.values ++ rest }
    else if isOption arg then
      let (name, given) := optionOf arg
      if name = "--cwd" && sorted.cwd.isNone then
        match valueOf? given rest with
        | some (value, rest) =>
          if value = "" then none
          else sortArguments? takesOptions fuel rest { sorted with cwd := some value }
        | none => none
      else if takesOptions && name = "--options" && sorted.options.isNone then
        match valueOf? given rest with
        | some (value, rest) =>
          sortArguments? takesOptions fuel rest { sorted with options := some value }
        | none => none
      else none
    else sortArguments? takesOptions fuel rest { sorted with values := sorted.values ++ [arg] }

/-- An offset: a decimal number below 2 to the 32nd, which may have a plus sign. -/
def offset? (arg : String) : Option Nat :=
  let ds := match arg.toList with
    | '+' :: rest => rest
    | cs => cs
  if ds ≠ [] && ds.all Char.isDigit && Json.numeral ds < Nat.pow 2 32 then some (Json.numeral ds)
  else none

def path? (arg : String) : Option String := if arg = "" then none else some arg

def ofValues? (name : String) (sorted : Sorted) : Option Command :=
  match name, sorted.values with
  | "offset-info", [path, offset] => return .offsetInfo (← path? path) (← offset? offset)
  | "complete", [path, offset] => return .complete (← path? path) (← offset? offset)
  | "generate-snippet", [kind, c] =>
    some (.generateSnippet kind c (sorted.options.getD "\x7b\x7d"))
  | "class-move", [source, target] => some (.classMove source target)
  | "class-path", [c] => some (.classPath c)
  | "class-name", [path] => return .className (← path? path)
  | "explain", [path] => return .explain (← path? path)
  | _, _ => none

/-- The options before the name of a request, then that name and what follows it. -/
def leading? : Nat → List String → Option String → Option (Option String × String × List String)
  | 0, _, _ => none
  | _ + 1, [], _ => none
  | fuel + 1, arg :: rest, cwd =>
    if isOption arg then
      let (name, given) := optionOf arg
      if name = "--cwd" && cwd.isNone then
        match valueOf? given rest with
        | some (value, rest) => if value = "" then none else leading? fuel rest (some value)
        | none => none
      else none
    else some (cwd, arg, rest)

/-- The project's directory, if it is given, and the request that arguments ask for. -/
def ofArguments? (args : List String) : Option (Option String × Command) := do
  let (cwd, name, rest) ← leading? (args.length + 1) args none
  let sorted ← sortArguments? (name = "generate-snippet") (rest.length + 1) rest ⟨none, none, []⟩
  return (sorted.cwd <|> cwd, ← ofValues? name sorted)

/-! ## Serving -/

def optionsOf (text : String) : Except Failure Generation.Options :=
  match (Json.parse? text.toList).bind Json.object? with
  | some options => .ok options
  | none => .error .unreadableOptions

def classOf (arg : String) : Session.Request ClassName := fun s =>
  if (Text.dropTrailing? arg.toList Autoload.extension.toList).isSome then s.classFromFile arg
  else (.ok (.ofText arg), s)

def encoded {α : Type} (f : α → Json) (answer : Except Failure α × Session) :
    Except Failure Json × Session := (answer.1.map f, answer.2)

def serve (command : Command) (s : Session) (git : Session.VersionControl := Session.untracked) :
    Except Failure Json × Session :=
  match command with
  | .offsetInfo path offset => encoded Report.ofResolution (s.resolve path offset)
  | .complete path offset =>
    encoded (Report.ofList Report.ofSuggestion) (s.complete path offset)
  | .generateSnippet kind c options =>
    match optionsOf options with
    | .error failure => (.error failure, s)
    | .ok options =>
      match classOf c s with
      | (.error failure, s) => (.error failure, s)
      | (.ok name, s) => encoded Report.ofEdit (s.generate kind name options)
  | .classMove source target =>
    encoded (fun (a, b) => .array [.string a, .string b])
      (s.moveClass (.ofText source) (.ofText target) git)
  | .classPath c => encoded .string (s.classPath (.ofText c))
  | .className path => encoded Report.ofClassName (s.className path)
  | .explain path =>
    encoded (fun e => Report.ofExplanation e.path e.model e.members) (s.explain path)

structure Outcome where
  status : Nat
  answer : Option Json
  error : Option String
  disk : Disk

def failed (disk : Disk) (failure : Failure) : Outcome := ⟨1, none, some failure.message, disk⟩

/-- Runs an invocation in a directory. `user` is the user's configuration file. -/
def run (disk : Disk) (directory : String) (user : Option String) (args : List String)
    (git : Session.VersionControl := Session.untracked) : Outcome :=
  match ofArguments? args with
  | none => ⟨2, none, none, disk⟩
  | some (cwd, command) =>
    match (Config.load disk (cwd.getD directory) user).bind (Session.start disk) with
    | .error failure => failed disk failure
    | .ok s =>
      match command.serve s git with
      | (.ok answer, s) => ⟨0, some answer, none, s.workspace.disk⟩
      | (.error failure, s) => failed s.workspace.disk failure

end Command

end CodeInsight
