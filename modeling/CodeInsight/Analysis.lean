import CodeInsight.Digest
import CodeInsight.Failure
import CodeInsight.Path
import CodeInsight.Scope.Receivers

/-!
# Analysed texts

A text is parsed once and gives the model of its file and its scopes. The last analysis of every
path is kept, and serves again as long as the text stays the same.
-/

namespace CodeInsight

def FileModel.ofText (path : String) (text : Text) : Except Failure FileModel :=
  match Grammar.parse text with
  | .ok program => .ok (.ofProgram path text program)
  | .error offset => .error (.malformed path offset)

structure Analysis where
  digest : String
  file : FileModel
  forest : Forest
  /-- The values whose members were looked up for the types of the bindings. -/
  receivers : List InferredType
  deriving DecidableEq, Repr

namespace Analysis

/-- Analyses a text. Classes that it does not declare are found by `lookup`. -/
def ofText (lookup : Lookup) (path : String) (text : Text) : Except Failure Analysis :=
  match Grammar.parse text with
  | .ok program =>
    let file := FileModel.ofProgram path text program
    let setting : Scope.Setting := ⟨lookup.within file, file, text⟩
    let forest := Forest.ofProgram setting program
    .ok { digest := Digest.ofText text, file, forest
          receivers := setting.receiversIn forest program }
  | .error offset => .error (.malformed path offset)

def context (a : Analysis) (offset : Nat) : NameContext :=
  match a.file.classAt offset with
  | some c => c.context
  | none => .outside (a.file.nameContext offset)

end Analysis

abbrev Analyses := PathMap Analysis

namespace Analyses

def known? (kept : Analyses) (path : String) (text : Text) : Option Analysis :=
  (kept.find? path).filter fun a => a.digest = Digest.ofText text

/-- The analysis of a path, if it is another one than before. -/
def fresh? (kept before : Analyses) (path : String) : Option Analysis :=
  (kept.find? path).filter fun a => (before.find? path).map Analysis.digest ≠ some a.digest

/-- Analyses a text unless its analysis is kept, and keeps it. -/
def analyse (lookup : Lookup) (path : String) (text : Text) (kept : Analyses) :
    Except Failure Analysis × Analyses :=
  match kept.known? path text with
  | some a => (.ok a, kept)
  | none =>
    match Analysis.ofText lookup path text with
    | .ok a => (.ok a, kept.insert path a)
    | .error failure => (.error failure, kept)

end Analyses

end CodeInsight
