import CodeInsight.Proofs.SessionQueries

/-!
# Runs of a session

Between two queries files change on their own or by moves, the autoload table is replaced, and
models are forgotten. Texts that were never saved are reflected under the paths of files. Whatever
happened before, a query is answered as if no model were kept.

## Main Results

- `Session.Trusted.take`: what one step preserves
- `Session.trusted_run`: what a run preserves
- `Session.runs_never_show_kept_models`: every answer at any moment of any run
-/

namespace CodeInsight.Session

variable {config : Config} {ws : Workspace} {disk : Disk}

/-- What may happen to a session. -/
inductive Step where
  | ask (q : Query)
  /-- The files become others: some are written, some removed, by whomever. -/
  | files (disk : Disk)
  /-- A move on the files of the project, with what version control does. -/
  | move (git : VersionControl) (name newName : ClassName)
  /-- A move on files that may fail at any call. -/
  | moveOn (fs : FileSystem Disk) (name newName : ClassName)
  | reload (mappings : List Autoload.Mapping)
  | invalidate (path : String)
  | provide (p : Provider)
  | register (kind : String) (g : Generator) (transparent : g.Transparent)

/-- The session after a step. -/
def Step.take : Step → Session → Session
  | ask q, s => (q.serve s).2
  | files disk, s => s.withDisk disk
  | move git name newName, s => (s.moveClass name newName git).2
  | moveOn fs name newName, s => (s.moveOn fs name newName).2
  | reload mappings, s => (s.reload mappings).2
  | invalidate path, s => Session.invalidate s path
  | provide p, s => s.addProvider p
  | register kind g _, s => Session.register s kind g

/-- The session after some steps. -/
def run (steps : List Step) (s : Session) : Session := steps.foldl (fun s step => step.take s) s

/-- The texts that a step is about, other than those of files. -/
def Step.texts (ws : Workspace) : Step → List Text
  | ask q => q.texts ws
  | _ => []

/-- All texts that a run meets: those of the files at every moment, and those it is about. -/
def involved : List Step → Session → List Text
  | [], s => s.workspace.disk.texts
  | step :: rest, s =>
    s.workspace.disk.texts ++ step.texts s.workspace ++ involved rest (step.take s)

theorem involved_append (steps more : List Step) (s : Session) :
    ∀ t ∈ involved more (run steps s), t ∈ involved (steps ++ more) s := by
  induction steps generalizing s with
  | nil => exact fun t ht => ht
  | cons step rest ih =>
    intro t ht
    exact List.mem_append_right _ (ih (step.take s) t ht)

theorem files_involved (steps : List Step) (s : Session) :
    ∀ t ∈ s.workspace.disk.texts, t ∈ involved steps s := by
  intro t ht
  cases steps with
  | nil => exact ht
  | cons step rest => exact List.mem_append_left _ (List.mem_append_left _ ht)

theorem involved_subset (steps more : List Step) (s : Session) :
    ∀ t ∈ involved steps s, t ∈ involved (steps ++ more) s := by
  induction steps generalizing s with
  | nil => exact files_involved more s
  | cons step rest ih =>
    intro t ht
    rcases List.mem_append.mp ht with hnow | hlater
    · exact List.mem_append_left _ hnow
    · exact List.mem_append_right _ (ih (step.take s) t hlater)

/-! ## Section 1: Steps -/

variable {texts : List Text} {s : Session}

theorem Trusted.withFiles (h : ws.Trusted texts) (disk : Disk)
    (hdisk : ∀ t ∈ disk.texts, t ∈ texts) :
    Workspace.Trusted texts { ws with disk } :=
  ⟨h.distinct, hdisk, h.models⟩

/-- Whatever comes of a move, at most the model of the moved file is kept. -/
theorem kept_afterMove (h : ws.Trusted texts) (name : ClassName)
    (answer : Except Failure (String × String)) :
    Workspace.Kept texts ws (afterMove ws name answer) := by
  unfold afterMove
  -- a move that was made or left half done drops the model of its source, and one that was undone
  -- or found another class may have read the file
  split
  · exact h.invalidate _
  · exact h.invalidate _
  · exact h.target name
  · exact h.target name
  · exact Workspace.Kept.refl h

theorem Trusted.moveOn (h : s.Trusted texts) (fs : FileSystem Disk) (name newName : ClassName)
    (hfiles : ∀ t ∈ (s.moveOn fs name newName).2.workspace.disk.texts, t ∈ texts) :
    (s.moveOn fs name newName).2.Trusted texts :=
  ⟨Trusted.withFiles (kept_afterMove h.workspace name _).trusted _ hfiles, h.generators⟩

theorem Trusted.reload (h : s.Trusted texts) (mappings : List Autoload.Mapping) :
    (s.reload mappings).2.Trusted texts := by
  unfold Session.reload
  split
  -- the table has no part in what a kept model is
  · exact ⟨⟨h.workspace.distinct, h.workspace.files, h.workspace.models⟩, h.generators⟩
  · exact h

/-- **A step** leaves kept models that can be relied on. -/
theorem Trusted.take (h : s.Trusted texts) (step : Step)
    (htexts : ∀ t ∈ step.texts s.workspace, t ∈ texts)
    (hfiles : ∀ t ∈ (step.take s).workspace.disk.texts, t ∈ texts) :
    (step.take s).Trusted texts := by
  cases step with
  | ask q => exact (q.serve_kept h htexts).session h
  | files disk => exact ⟨Trusted.withFiles h.workspace disk hfiles, h.generators⟩
  | move git name newName => exact h.moveOn _ name newName hfiles
  | moveOn fs name newName => exact h.moveOn fs name newName hfiles
  | reload mappings => exact h.reload mappings
  | invalidate path => exact ⟨(h.workspace.invalidate path).trusted, h.generators⟩
  | provide p => exact ⟨h.workspace, h.generators⟩
  | register kind g transparent => exact ⟨h.workspace, h.generators.register kind transparent⟩

/-! ## Section 2: Runs -/

/-- **A run** leaves kept models that can be relied on. -/
theorem trusted_run (steps : List Step) (h : s.Trusted texts)
    (htexts : ∀ t ∈ involved steps s, t ∈ texts) : (run steps s).Trusted texts := by
  induction steps generalizing s with
  | nil => exact h
  | cons step rest ih =>
    have hrest : ∀ t ∈ involved rest (step.take s), t ∈ texts :=
      fun t ht => htexts t (List.mem_append_right _ ht)
    apply ih _ hrest
    -- a step is about texts of its own moment, and leaves files of the next one
    apply h.take step
    · exact fun t ht => htexts t (List.mem_append_left _ (List.mem_append_right _ ht))
    · exact fun t ht => hrest t (files_involved rest _ t ht)

/-- A new session has the given files and the usual generators, and has kept nothing. -/
theorem start_eq_ok (h : start disk config = .ok s) :
    s.workspace.disk = disk ∧ s.generators = Generators.defaults ∧ s.emptied = s := by
  unfold start at h
  cases htable : Autoload.Table.ofMappings config.autoload with
  | error failure => simp [htable, bind, Except.bind] at h
  | ok table =>
    simp only [htable, bind, Except.bind, pure, Except.pure, Except.ok.injEq] at h
    subst h
    exact ⟨rfl, rfl, rfl⟩

theorem trusted_start (h : start disk config = .ok s) (hdistinct : Digest.Distinct texts)
    (hfiles : ∀ t ∈ s.workspace.disk.texts, t ∈ texts) : s.Trusted texts := by
  obtain ⟨_, hgenerators, hemptied⟩ := start_eq_ok h
  have hmodels : s.workspace.models = [] := by
    rw [← hemptied]
    rfl
  refine ⟨⟨hdistinct, hfiles, ?_⟩, hgenerators ▸ Generators.transparent_defaults⟩
  rw [hmodels]
  intro entry hentry
  cases hentry

/-- **Kept models never show.** After any steps on a new session, every query is answered as by the
same session without kept models, on the files and with the autoload table of that moment, as long
as digests tell the texts in question apart. Paths may be spelled differently. -/
theorem runs_never_show_kept_models {disk : Disk} {config : Config} {s₀ : Session}
    (hstart : start disk config = .ok s₀) (steps : List Step) (q : Query)
    (hdistinct : Digest.Distinct (involved (steps ++ [.ask q]) s₀)) :
    Agree (q.serve (run steps s₀)).1 (q.serve (run steps s₀).bare).1 := by
  have h₀ := trusted_start hstart hdistinct (files_involved (steps ++ [.ask q]) s₀)
  have hsteps : ∀ t ∈ involved steps s₀, t ∈ involved (steps ++ [.ask q]) s₀ :=
    involved_subset steps [.ask q] s₀
  have hq : ∀ t ∈ q.texts (run steps s₀).workspace, t ∈ involved (steps ++ [.ask q]) s₀ := by
    intro t ht
    apply involved_append steps [.ask q] s₀
    exact List.mem_append_left _ (List.mem_append_right _ ht)
  exact q.serve_bare (trusted_run steps h₀ hsteps) hq

/-! ## Section 3: A run with changes of all kinds -/

/-- A disk with one file in the directory of the classes. -/
def diskWith (name : String) (text : Text) : Disk :=
  ⟨[['p']], [([['p']], .directory), ([['p'], ['s']], .directory),
    ([['p'], ['s'], name.toList], .file (Text.encode text))]⟩

def aloneText : Text := "<?php class A \x7b\x7d".toList

def childText : Text := "<?php class A extends B \x7b\x7d".toList

def movedText : Text := "<?php class C extends B \x7b\x7d".toList

def sampleConfig : Config := ⟨"/p", [⟨"", "s/"⟩], .simple⟩

/-- A new session on a disk whose only file declares a class without a parent. -/
def sampleSession : Session :=
  ⟨⟨"/p", diskWith "A.php" aloneText, ⟨[⟨"", "s/"⟩]⟩, []⟩, [], Completion.defaults,
    Generators.defaults, .simple⟩

/-- The class gets a parent in an unsaved text, which is saved afterwards; then it is moved. -/
def sampleSteps : List Step :=
  [.ask (.members ⟨"", "A"⟩), .ask (.reflectIn "s/A.php" childText),
   .files (diskWith "A.php" childText), .move untracked ⟨"", "A"⟩ ⟨"", "C"⟩,
     .ask (.reflect "s/C.php"),
   .reload [⟨"", "s/"⟩], .invalidate "s/A.php",
   .register "note" (.fixed ⟨"s/C.php", .empty 0, "note"⟩) (Generator.transparent_fixed _)]

/-- The model that the run has kept is served under another spelling of its path. -/
theorem sample_run_shows_no_model :
    (run sampleSteps sampleSession).workspace.models.map Prod.fst = [[['s'], "C.php".toList]] ∧
      Agree ((Query.reflect "s/./C.php").serve (run sampleSteps sampleSession)).1
        ((Query.reflect "s/./C.php").serve (run sampleSteps sampleSession).bare).1 := by
  have hstart : start (diskWith "A.php" aloneText) sampleConfig = .ok sampleSession := by rfl
  have hdistinct : Digest.Distinct [aloneText, childText, movedText] := by decide +kernel
  have hinvolved : ∀ t ∈ involved (sampleSteps ++ [.ask (.reflect "s/./C.php")]) sampleSession,
      t ∈ [aloneText, childText, movedText] := by decide +kernel
  exact ⟨by decide +kernel,
    runs_never_show_kept_models hstart sampleSteps (.reflect "s/./C.php")
      (hdistinct.subset hinvolved)⟩

end CodeInsight.Session
