import CodeInsight.Proofs.KeptAnalyses
import CodeInsight.Workspace

/-!
# What other files have a say in

Resolving an offset looks into other files for the types of members, and these files may be missing,
unreadable or broken. None of that shows in anything but types: which scope the offset lies in,
which variables are visible there, what is being typed, and whether resolving fails, depend on the
text alone.

## Main Results

- `untyped_ofAnalysis`: two analyses of one text tell the same about an offset, types apart
- `other_files_tell_types_only`: resolving an offset in two projects
-/

namespace CodeInsight.Resolution

open Forest

/-- A resolution without the inferred types and without the members that were found. -/
def untyped (r : Resolution) : Resolution :=
  { r with
    scope := { r.scope with bindings := r.scope.bindings.map fun b => { b with type := .unknown } }
    inferred := .unknown
    fetch := r.fetch.map fun f => { f with receiver := .unknown, members := none } }

theorem untyped_ofAnalysis {a b : Analysis} (h : a.Alike blind b) (lookup lookup' : Lookup)
    (text : Text) (offset : Nat) (site : Site) :
    (ofAnalysis lookup a text offset site).untyped =
      (ofAnalysis lookup' b text offset site).untyped := by
  have hscope := h.scopeSummary (Text.size text) (anchor offset site) offset
  -- what is being typed is told by the text, so only the scope is left to compare
  cases site with
  | fetch site => exact congrArg (fun scope => Resolution.mk offset scope .unknown _ none) hscope
  | «variable» site =>
    exact congrArg (fun scope => Resolution.mk offset scope .unknown none _) hscope
  | other => exact congrArg (fun scope => Resolution.mk offset scope .unknown none none) hscope

/-- **Other files tell types only.** Whatever two projects hold, with or without analyses kept from
earlier requests, resolving an offset of a text fails in both with the same failure, or succeeds in
both with the same answer except for inferred types and the members found. A project without kept
analyses meets the conditions. -/
theorem other_files_tell_types_only (ws ws' : Workspace) (path : String) (text : Text)
    (offset : Nat) (kept kept' : Analyses)
    (h : kept.Genuine (fun _ => True) path (texts text offset))
    (h' : kept'.Genuine (fun _ => True) path (texts text offset)) :
    (resolve ws.lookup path text offset kept).1.map untyped =
      (resolve ws'.lookup path text offset kept').1.map untyped := by
  apply resolve_alike untyped trivial trivial h h'
  intro found a b ha hb offset site
  exact untyped_ofAnalysis (ha.blind hb) ws.lookup ws'.lookup text offset site

/-- A project whose classes are below `src`, with a file of the given content for the class `A`. -/
def projectOf (content : Bytes) : Workspace where
  root := "/p"
  disk := ⟨[['p']], [([['p']], .directory), ([['p'], "src".toList], .directory),
    ([['p'], "src".toList, "A.php".toList], .file content)]⟩
  table := ⟨[⟨"", "src/"⟩]⟩
  models := []

/-- The file of the class declares what is asked of it. -/
def soundProject : Workspace :=
  projectOf (Text.encode "<?php class A \x7b function make(): A \x7b\x7d \x7d".toList)

/-- The file of the class is no text. -/
def brokenProject : Workspace := projectOf [0xff]

def fetchText : Text := "<?php $q = (new A)->make(); $q->".toList

/-- An analysis made in one project and kept from there serves in another one, where the file of the
class cannot be read: the variable still has its type, and the members of that type are missing. -/
theorem broken_file_tells_types_only :
    ((resolve soundProject.lookup "f.php" fetchText 32 []).1.map fun r =>
        (r.inferred, (r.fetch.bind FetchSummary.members).isSome)) =
          .ok (.ofClass ⟨"", "A"⟩, true) ∧
      ((resolve brokenProject.lookup "f.php" fetchText 32
          (resolve soundProject.lookup "f.php" fetchText 32 []).2).1.map fun r =>
        (r.inferred, (r.fetch.bind FetchSummary.members).isSome)) =
          .ok (.ofClass ⟨"", "A"⟩, false) ∧
      (resolve soundProject.lookup "f.php" fetchText 32 []).1.map untyped =
        (resolve brokenProject.lookup "f.php" fetchText 32
          (resolve soundProject.lookup "f.php" fetchText 32 []).2).1.map untyped := by
  have hgrown : Analyses.Grown (fun _ => True) (texts fetchText 32) []
      (resolve soundProject.lookup "f.php" fetchText 32 []).2 :=
    grown_resolve trivial "f.php" (fun t ht => ht) []
  have hgenuine := hgrown.genuine (by decide +kernel) (fun t ht => ht)
    (Analyses.genuine_nil _ "f.php" _)
  exact ⟨by decide +kernel, by decide +kernel,
    other_files_tell_types_only soundProject brokenProject "f.php" fetchText 32 []
      (resolve soundProject.lookup "f.php" fetchText 32 []).2
      (Analyses.genuine_nil _ _ _) hgenuine⟩

end CodeInsight.Resolution
