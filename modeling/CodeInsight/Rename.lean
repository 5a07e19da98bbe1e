import CodeInsight.ClassModel
import CodeInsight.Edit

/-!
# Renaming a class in its file

A class gets a new name by at most two edits: one of the namespace that governs it, one of the name
in its declaration. References to the class are left alone.
-/

namespace CodeInsight.Rename

/-- Line ends that follow an offset, in bytes. -/
def lineEnds (text : Text) (offset : Nat) : Nat :=
  Text.size ((Text.after text offset).takeWhile fun c => c == '\r' || c == '\n')

/-- Where the namespace is changed and what is written there. An unbraced declaration that is no
longer needed goes away together with the empty lines behind it. -/
def namespaceChange (file : FileModel) (c : ClassModel) (ns : String) (text : Text) :
    Option (Span × String) :=
  match file.namespaceAt c.nameSpan.start with
  | some n =>
    match n.nameSpan with
    | some span =>
      if ns ≠ "" then some (span, ns)
      else if n.braced then some (⟨n.keywordEnd, span.stop⟩, "")
      else some (⟨n.statement.start, n.statement.stop + lineEnds text n.statement.stop⟩, "")
    | none => if ns = "" then none else some (.empty n.keywordEnd, " " ++ ns)
  | none =>
    if ns = "" then none else some (.empty file.headerEnd, "\n\nnamespace " ++ ns ++ ";")

def namespaceEdit? (file : FileModel) (c : ClassModel) (target : ClassName) (text : Text) :
    Option (Span × String) :=
  if c.name.ns = target.ns then none else namespaceChange file c target.ns text

def nameEdit? (c : ClassModel) (target : ClassName) : Option (Span × String) :=
  if c.name.short = target.short then none else some (c.nameSpan, target.short)

def edits (file : FileModel) (c : ClassModel) (target : ClassName) (text : Text) : List Edit :=
  ((namespaceEdit? file c target text).toList ++ (nameEdit? c target).toList).map
    fun (range, replacement) => ⟨file.path, range, replacement⟩

def renamed (file : FileModel) (c : ClassModel) (target : ClassName) (text : Text) : Text :=
  Edit.applyAll text (edits file c target text)

end CodeInsight.Rename
