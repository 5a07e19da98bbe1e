import CodeInsight.Text.Encoding
import CodeInsight.Autoload.Table
import CodeInsight.Rename
import CodeInsight.Workspace

/-!
# Moving a class

A class is moved by renaming it in its file and moving the file to where the new name belongs.
Nothing is written until all checks have passed. If the new text cannot be written after the file
was moved, the file is moved back.
-/

namespace CodeInsight

/-- The operations that a move needs, on files of any sort. Every call may change the state, and it
may fail. -/
structure FileSystem (σ : Type) where
  present : String → σ → Bool × σ
  read : String → σ → Except FileError Bytes × σ
  move : String → String → σ → Except FileError Unit × σ
  write : String → Bytes → σ → Except FileError Unit × σ

namespace Move

structure Plan where
  source : String
  target : String
  text : Text
  deriving DecidableEq, Repr

/-- The new text of a file that holds a class. `model` gives the model of its text. -/
def newText (model : String → Text → Except Failure FileModel) (path : String) (content : Bytes)
    (name target : ClassName) : Except Failure Text :=
  match Text.decode? content with
  | none => .error (.unreadable path .notText)
  | some text => do
    let file ← model path text
    let c ← Workspace.classIn file path name
    return Rename.renamed file c target text

def readPlan {σ : Type} (fs : FileSystem σ) (model : String → Text → Except Failure FileModel)
    (source target : String) (name newName : ClassName) (s : σ) : Except Failure Plan × σ :=
  match fs.read source s with
  | (.error e, s) => (.error (.unreadable source e), s)
  | (.ok content, s) =>
    ((newText model source content name newName).map fun text => ⟨source, target, text⟩, s)

/-- Makes the checks of a move, in order: the class has a file, the new name has a free place, the
file is a text that declares the class. -/
def plan {σ : Type} (fs : FileSystem σ) (model : String → Text → Except Failure FileModel)
    (table : Autoload.Table) (name newName : ClassName) (s : σ) : Except Failure Plan × σ :=
  match table.pathOf name with
  | .error failure => (.error failure, s)
  | .ok source =>
    match fs.present source s with
    | (false, s) => (.error (.sourceNotFound source), s)
    | (true, s) =>
      match table.pathOf newName with
      | .error failure => (.error failure, s)
      | .ok target =>
        match fs.present target s with
        | (true, s) => (.error (.destinationExists target), s)
        | (false, s) => readPlan fs model source target name newName s

def reasonOf (e : FileError) : String := e.reason.getD "the file system refused"

/-- Moves the file back after its new text could not be written. -/
def undo {σ : Type} (fs : FileSystem σ) (p : Plan) (e : FileError) (s : σ) : Failure × σ :=
  match fs.move p.target p.source s with
  | (.ok (), s) =>
    (.inconsistentMove p.source p.target (reasonOf e ++ "; the move was rolled back"), s)
  | (.error back, s) =>
    (.inconsistentMove p.source p.target
      (reasonOf e ++ "; rolling back also failed: " ++ reasonOf back), s)

def commit {σ : Type} (fs : FileSystem σ) (p : Plan) (s : σ) :
    Except Failure (String × String) × σ :=
  match fs.move p.source p.target s with
  | (.error e, s) => (.error (.moveFailed p.source p.target e.reason), s)
  | (.ok (), s) =>
    match fs.write p.target (Text.encode p.text) s with
    | (.ok (), s) => (.ok (p.source, p.target), s)
    | (.error e, s) =>
      match undo fs p e s with
      | (failure, s) => (.error failure, s)

/-- Moves a class. The answer is the old and the new path of its file. -/
def run {σ : Type} (fs : FileSystem σ) (model : String → Text → Except Failure FileModel)
    (table : Autoload.Table) (name newName : ClassName) (s : σ) :
    Except Failure (String × String) × σ :=
  match plan fs model table name newName s with
  | (.error failure, s) => (.error failure, s)
  | (.ok p, s) => commit fs p s

end Move

end CodeInsight
