import CodeInsight.Proofs.RequestOrder

/-!
# Reloaded autoload tables

A session that takes another autoload table keeps its models and its analyses. A model tells what
stands in a file, and no table has a part in that. An analysis also tells types, and these come from
the classes that were found when it was made. So a reload shows in every answer for which no older
analysis serves, and an analysis of the same text under the same path goes on telling the types of
the old table.

## Main Results

- `Configured.take`: what one step preserves of the way in which a session was started
- `reload_shows_unless_analyses_serve`: the answers to any queries after any steps and a reload
- `reload_leaves_types`: an answer that a reload does not change
-/

namespace CodeInsight.Session

variable {texts : List Text} {s : Session} {config : Config}

/-! ## Section 1: How a session was started -/

/-- The session that starts with a table. -/
def startedWith (config : Config) (disk : Disk) (table : Autoload.Table) : Session where
  workspace := { root := config.root, disk, table, models := [] }
  analyses := []
  providers := Completion.defaults
  generators := Generators.defaults
  backend := config.backend

theorem start_eq_ok_iff {disk : Disk} :
    start disk config = .ok s ↔
      ∃ table, Autoload.Table.ofMappings config.autoload = .ok table ∧
        s = startedWith config disk table := by
  unfold start startedWith
  cases Autoload.Table.ofMappings config.autoload with
  | error failure => simp [bind, Except.bind]
  | ok table => simp [bind, Except.bind, pure, Except.pure, eq_comm]

/-- What a session has from its configuration, apart from the autoload table. -/
structure Configured (config : Config) (s : Session) : Prop where
  root : s.workspace.root = config.root
  providers : s.providers = Completion.defaults
  generators : s.generators = Generators.defaults
  backend : s.backend = config.backend

theorem configured_startedWith (config : Config) (disk : Disk) (table : Autoload.Table) :
    Configured config (startedWith config disk table) :=
  ⟨rfl, rfl, rfl, rfl⟩

section

variable (h : Configured config s)
include h

/-- With nothing kept, such a session is one that starts with its files and its table. -/
theorem Configured.emptied : s.emptied = startedWith config s.workspace.disk s.workspace.table := by
  obtain ⟨⟨root, disk, table, models⟩, analyses, providers, generators, backend⟩ := s
  obtain ⟨rfl, rfl, rfl, rfl⟩ := h
  rfl

theorem Configured.withWorkspace {ws : Workspace} (hroot : ws.root = s.workspace.root) :
    Configured config (s.withWorkspace ws) :=
  ⟨hroot.trans h.root, h.providers, h.generators, h.backend⟩

theorem Configured.kept {after : Session} (hkept : Kept texts s after) :
    Configured config after where
  root := (congrArg (fun s => s.workspace.root) hkept.emptied).trans h.root
  providers := (congrArg Session.providers hkept.emptied).trans h.providers
  generators := (congrArg Session.generators hkept.emptied).trans h.generators
  backend := (congrArg Session.backend hkept.emptied).trans h.backend

/-- A step that adds neither a provider nor a generator. -/
def Step.isPlain : Step → Bool
  | provide _ | register _ _ _ => false
  | _ => true

theorem Configured.moveOn (htrusted : s.Trusted texts) (fs : FileSystem Disk)
    (name newName : ClassName) : Configured config (s.moveOn fs name newName).2 := by
  -- the files are others afterwards, and the root is that of the project the move began with
  have hroot : ∀ answer, (afterMove s.workspace name answer).root = s.workspace.root := by
    intro answer
    have hbare := congrArg Workspace.root (kept_afterMove htrusted.workspace name answer).bare
    exact hbare
  exact h.withWorkspace (hroot _)

theorem Configured.reload (mappings : List Autoload.Mapping) :
    Configured config (s.reload mappings).2 := by
  unfold Session.reload
  split
  · exact h.withWorkspace rfl
  · exact h

/-- **A step** that adds nothing leaves a session configured as it was. -/
theorem Configured.take (htrusted : s.Trusted texts) (step : Step) (hplain : step.isPlain = true)
    (htexts : ∀ t ∈ step.texts s.workspace, t ∈ texts) : Configured config (step.take s) := by
  cases step with
  | ask q => exact h.kept (q.serve_kept htrusted htexts)
  | files disk => exact ⟨h.root, h.providers, h.generators, h.backend⟩
  | move git name newName => exact h.moveOn htrusted _ name newName
  | moveOn fs name newName => exact h.moveOn htrusted fs name newName
  | reload mappings => exact h.reload mappings
  | invalidate path => exact h.withWorkspace rfl
  | provide p => cases hplain
  | register kind g transparent => cases hplain

/-- **A run** of such steps leaves a session configured as it was. -/
theorem Configured.run (htrusted : s.Trusted texts) (steps : List Step)
    (hplain : ∀ step ∈ steps, step.isPlain = true) (htexts : ∀ t ∈ involved steps s, t ∈ texts) :
    Configured config (run steps s) := by
  induction steps generalizing s with
  | nil => exact h
  | cons step rest ih =>
    have hnow : ∀ t ∈ step.texts s.workspace, t ∈ texts := fun t ht =>
      htexts t (List.mem_append_left _ (List.mem_append_right _ ht))
    have hrest : ∀ t ∈ involved rest (step.take s), t ∈ texts := fun t ht =>
      htexts t (List.mem_append_right _ ht)
    apply ih
    · exact h.take htrusted step (hplain step List.mem_cons_self) hnow
    · exact htrusted.take step hnow fun t ht => hrest t (files_involved rest _ t ht)
    · exact fun other hother => hplain other (List.mem_cons_of_mem _ hother)
    · exact hrest

end

/-! ## Section 2: Queries after a reload -/

theorem reload_eq {mappings : List Autoload.Mapping} {table : Autoload.Table}
    (h : Autoload.Table.ofMappings mappings = .ok table) (s : Session) :
    s.reload mappings = (.ok table, s.withWorkspace { s.workspace with table }) := by
  unfold Session.reload
  rw [h]

/-- No analysis serves for a text if none is kept for its path, or only one of another text. -/
theorem genuine_of_unknown {worlds : Lookup → Prop} {path : String} {text : Text} {kept : Analyses}
    (h : kept.known? path text = none) : kept.Genuine worlds path [text] := by
  intro t ht a ha
  rw [List.mem_singleton.mp ht, h] at ha
  cases ha

/-- **A reload shows unless older analyses serve.** After any steps on a new session that add
neither providers nor generators, a reload takes the new table, and all later queries are answered
as by a session that starts with that table on the files of that moment. What must not happen is
that a query finds an analysis of its text under its path that was made with other classes. Digests
must tell the texts in question apart, and paths may be spelled differently. -/
theorem reload_shows_unless_analyses_serve {disk : Disk} {s₀ s₁ : Session}
    (hstart : start disk config = .ok s₀) (steps : List Step)
    (hplain : ∀ step ∈ steps, step.isPlain = true) {mappings : List Autoload.Mapping}
    (hnew : start (run steps s₀).workspace.disk { config with autoload := mappings } = .ok s₁)
    (later : List Query)
    (hdistinct : Digest.Distinct (involved steps s₀ ++ later.flatMap (Query.texts s₁.workspace)))
    (hserving : ∀ q ∈ later, ∀ asked ∈ q.analysed s₁.workspace,
      (run steps s₀).analyses.Genuine s₁.workspace.lookup.Only asked.1 [asked.2]) :
    ((run steps s₀).reload mappings).1 = .ok s₁.workspace.table ∧
      List.Forall₂ Agree (answers later ((run steps s₀).reload mappings).2)
        (later.map fun q => (q.serve s₁).1) := by
  -- a trusted run keeps the configuration, so the reloaded session is a new one but for what it
  -- kept
  have htrusted := trusted_start hstart hdistinct fun t ht =>
    List.mem_append_left _ (files_involved steps s₀ t ht)
  have hinvolved : ∀ t ∈ involved steps s₀,
      t ∈ involved steps s₀ ++ later.flatMap (Query.texts s₁.workspace) := fun t ht =>
    List.mem_append_left _ ht
  have hlater : ∀ q ∈ later, ∀ t ∈ q.texts s₁.workspace,
      t ∈ involved steps s₀ ++ later.flatMap (Query.texts s₁.workspace) := fun q hq t ht =>
    List.mem_append_right _ (List.mem_flatMap.mpr ⟨q, hq, ht⟩)
  obtain ⟨_, _, rfl⟩ := start_eq_ok_iff.mp hstart
  obtain ⟨table, htable, rfl⟩ := start_eq_ok_iff.mp hnew
  have hconfigured := (configured_startedWith config disk _).run htrusted steps hplain hinvolved
  have hreloaded := (trusted_run steps htrusted hinvolved).reload mappings
  have hemptied := (hconfigured.reload mappings).emptied
  rw [reload_eq htable] at hreloaded hemptied ⊢
  exact ⟨rfl, answers_of_genuine hreloaded hemptied hlater hserving⟩

/-! ## Section 3: A type that outlives its table -/

/-- Two files that declare the same class in two directories, with different types of a property. -/
def twofoldDisk : Disk :=
  ⟨[['p']], [([['p']], .directory), ([['p'], ['s']], .directory), ([['p'], ['t']], .directory),
    ([['p'], ['s'], "A.php".toList],
      .file (Text.encode "<?php class A \x7b public int $x; \x7d".toList)),
    ([['p'], ['t'], "A.php".toList],
      .file (Text.encode "<?php class A \x7b public string $x; \x7d".toList))]⟩

/-- The configuration under which classes are found in a directory. -/
def twofoldConfig (dir : String) : Config := ⟨"/p", [⟨"", dir⟩], .simple⟩

/-- The session that starts with this configuration. -/
def twofoldSession (dir : String) : Session :=
  startedWith (twofoldConfig dir) twofoldDisk ⟨[⟨"", dir⟩]⟩

def fetchText : Text := "<?php $b = (new A)->x; $b;".toList

/-- Asks for the variable that the text ends with. -/
def fetchQuery (path : String) : Query := .resolveIn path fetchText 25

/-- The type that an answer tells. -/
def Answer.inferred? : Answer → Option InferredType
  | .resolution r => some r.inferred
  | _ => none

/-- A session is asked for a type, takes another table and is asked again. It tells the type of the
old table, and a session that starts with the new table tells another one. -/
theorem reload_leaves_types :
    start twofoldDisk (twofoldConfig "s/") = .ok (twofoldSession "s/") ∧
      start twofoldDisk (twofoldConfig "t/") = .ok (twofoldSession "t/") ∧
      (((run [.ask (fetchQuery "f.php")] (twofoldSession "s/")).reload [⟨"", "t/"⟩]).1.toOption =
        some (twofoldSession "t/").workspace.table) ∧
      ((fetchQuery "f.php").serve
          (run [.ask (fetchQuery "f.php"), .reload [⟨"", "t/"⟩]]
            (twofoldSession "s/"))).1.toOption.bind Answer.inferred? = some (.scalar "int") ∧
      ((fetchQuery "f.php").serve (twofoldSession "t/")).1.toOption.bind Answer.inferred? =
        some (.scalar "string") := by
  refine ⟨by rfl, by rfl, ?_, ?_, ?_⟩
  · decide +kernel
  · decide +kernel
  · decide +kernel

/-- The reload shows in the types of the same text under another path, and in members. -/
def laterQueries : List Query := [fetchQuery "g.php", .members ⟨"", "A"⟩]

/-- All texts that are looked at before and after the reload. -/
def twofoldTexts : List Text :=
  ["<?php class A \x7b public int $x; \x7d".toList,
   "<?php class A \x7b public string $x; \x7d".toList, fetchText,
   "<?php $b = (new A)->x;   ;".toList]

theorem reload_shows_under_other_path :
    List.Forall₂ Agree
      (answers laterQueries
        ((run [.ask (fetchQuery "f.php")] (twofoldSession "s/")).reload [⟨"", "t/"⟩]).2)
      (laterQueries.map fun q => (q.serve (twofoldSession "t/")).1) := by
  have hdistinct : Digest.Distinct twofoldTexts := by decide +kernel
  have htexts : ∀ t ∈ involved [.ask (fetchQuery "f.php")] (twofoldSession "s/") ++
      laterQueries.flatMap (Query.texts (twofoldSession "t/").workspace),
      t ∈ twofoldTexts := by decide +kernel
  have hunknown : ∀ q ∈ laterQueries, ∀ asked ∈ q.analysed (twofoldSession "t/").workspace,
      (run [.ask (fetchQuery "f.php")] (twofoldSession "s/")).analyses.known? asked.1 asked.2 =
        none := by
    decide +kernel
  have hstart : start twofoldDisk (twofoldConfig "s/") = .ok (twofoldSession "s/") := by rfl
  have hdisk : (run [.ask (fetchQuery "f.php")] (twofoldSession "s/")).workspace.disk =
      twofoldDisk := by decide +kernel
  have hnew : start (run [.ask (fetchQuery "f.php")] (twofoldSession "s/")).workspace.disk
      (twofoldConfig "t/") = .ok (twofoldSession "t/") := by
    rw [hdisk]
    rfl
  exact (reload_shows_unless_analyses_serve hstart [.ask (fetchQuery "f.php")] (by decide) hnew
    laterQueries (hdistinct.subset htexts)
    fun q hq asked hasked => genuine_of_unknown (hunknown q hq asked hasked)).2

end CodeInsight.Session
