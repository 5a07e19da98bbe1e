import CodeInsight.Proofs.SessionRuns

/-!
# The order of queries

Queries fill two stores: models of files, and analyses of texts that may be blanked out or ended at
the offset asked for. On files and an autoload table that stay the same, nothing that an earlier
query has left there shows in a later answer, so that every answer is the one that a new session
gives to that query alone.

## Main Results

- `Query.serve_unread`: the answer of a session is its answer without kept analyses
- `Trusted.serve_emptied`: the answer of a session is its answer with nothing kept
- `Prepared.serve`: what one query preserves, and that its answer is that of a new session
- `answers_need_no_history`: the answers to any queries in any order
-/

namespace CodeInsight.Session

open Forest

variable {text : Text} {s₀ : Session} {path : String} {offset : Nat} {α : Type}

/-! ## Section 1: Answers without kept analyses -/

theorem ofAnalysis_same {a b : Analysis} (h : a.Alike id b) (lookup : Lookup) (text : Text)
    (offset : Nat) (site : Resolution.Site) :
    Resolution.ofAnalysis lookup a text offset site =
      Resolution.ofAnalysis lookup b text offset site := by
  obtain ⟨path, hfile⟩ := h.file
  have hforest : a.forest = b.forest := by simpa only [retype_id] using h.forest
  -- neither the spelling of the path nor the digest has a part in a resolution
  obtain ⟨digest, file, forest, receivers⟩ := b
  obtain rfl : file = { a.file with path } := hfile
  obtain rfl : a.forest = forest := hforest
  cases site <;> rfl

/-- The session without kept analyses. -/
def unread (s : Session) : Session := { s with analyses := [] }

variable {texts : List Text} {s : Session}

theorem resolveIn_unread
    (h : s.analyses.Genuine s.workspace.lookup.Only path (Resolution.texts text offset)) :
    (Session.resolveIn path text offset s).1 = (Session.resolveIn path text offset s.unread).1 := by
  rw [resolveIn_fst, resolveIn_fst]
  have hnone := Analyses.genuine_nil s.workspace.lookup.Only path (Resolution.texts text offset)
  have hworld := s.workspace.lookup.only_self
  have hsame := Resolution.resolve_alike id hworld hworld h hnone
    fun found a b ha hb offset site =>
      ofAnalysis_same (ha.same hb) s.workspace.lookup text offset site
  rw [Except.map_id] at hsame
  exact hsame

theorem resolve_unread (h : s.analyses.Genuine s.workspace.lookup.Only (s.workspace.relative path)
      (textsAt s.workspace path offset)) :
    (Session.resolve path offset s).1 = (Session.resolve path offset s.unread).1 := by
  rw [resolve_fst, resolve_fst]
  have hsame : s.unread.workspace = s.workspace := rfl
  rw [hsame]
  unfold textsAt at h
  cases hload : s.workspace.load (s.workspace.relative path) with
  | error failure => rfl
  | ok text =>
    rw [hload] at h
    exact resolveIn_unread h

theorem scopesIn_unread (h : s.analyses.Genuine s.workspace.lookup.Only path [text]) :
    (Session.scopesIn path text s).1 = (Session.scopesIn path text s.unread).1 := by
  rw [scopesIn_fst, scopesIn_fst]
  have hnone := Analyses.genuine_nil s.workspace.lookup.Only path [text]
  apply agreed_eq_iff.mp
  have hworld := s.workspace.lookup.only_self
  apply (Analyses.analyse_agreed hworld hworld h hnone).map
  rintro a b ⟨ha, hb⟩
  have hforest := (ha.same hb).forest
  rw [retype_id, retype_id] at hforest
  rw [hforest]

/-- The texts that a query analyses, each with the path under which its analysis is kept. -/
def Query.analysed (ws : Workspace) : Query → List (String × Text)
  | resolve path offset | complete path offset =>
    (textsAt ws path offset).map fun t => (ws.relative path, t)
  | resolveIn path text offset | completeIn path text offset =>
    (Resolution.texts text offset).map fun t => (path, t)
  | scopesIn path text => [(path, text)]
  | _ => []

theorem Query.texts_of_analysed (q : Query) (ws : Workspace) :
    ∀ asked ∈ q.analysed ws, asked.2 ∈ q.texts ws := by
  intro asked hasked
  cases q with
  | resolve path offset | complete path offset | resolveIn path text offset
  | completeIn path text offset =>
    obtain ⟨t, ht, rfl⟩ := List.mem_map.mp hasked
    exact ht
  | scopesIn path text =>
    obtain rfl := List.mem_singleton.mp hasked
    exact List.mem_singleton_self text
  | _ => cases hasked

theorem genuine_of_each {worlds : Lookup → Prop} {kept : Analyses}
    (h : ∀ asked ∈ texts.map fun t => (path, t), kept.Genuine worlds asked.1 [asked.2]) :
    kept.Genuine worlds path texts := by
  intro t ht
  exact h (path, t) (List.mem_map_of_mem ht) t (List.mem_singleton_self t)

/-- **Kept analyses do not show** as long as those that serve were made with the classes that are
found now. -/
theorem Query.serve_unread (q : Query)
    (h : ∀ asked ∈ q.analysed s.workspace,
      s.analyses.Genuine s.workspace.lookup.Only asked.1 [asked.2]) :
    (q.serve s).1 = (q.serve s.unread).1 := by
  cases q with
  | resolve path offset => exact congrArg (Except.map _) (resolve_unread (genuine_of_each h))
  | resolveIn path text offset =>
    exact congrArg (Except.map _) (resolveIn_unread (genuine_of_each h))
  | complete path offset =>
    apply congrArg (Except.map _)
    rw [complete_fst, complete_fst, resolve_unread (genuine_of_each h)]
    rfl
  | completeIn path text offset =>
    apply congrArg (Except.map _)
    rw [completeIn_fst, completeIn_fst, resolveIn_unread (genuine_of_each h)]
    rfl
  | scopesIn path text =>
    exact congrArg (Except.map _) (scopesIn_unread (h (path, text) List.mem_cons_self))
  | explain path =>
    apply congrArg (Except.map _)
    rw [explain_fst, explain_fst]
    rfl
  | ancestry name | members name =>
    apply congrArg (Except.map _)
    exact (askHierarchy_fst _ name s).trans (askHierarchy_fst _ name s.unread).symm
  -- the other queries do not read analyses
  | _ => rfl

/-! ## Section 2: Analyses kept by a query -/

theorem looked_analyses (s : Session) (path : String) (text : Text) (offset : Nat)
    (found : Except Failure α × Analyses) :
    (s.looked path text offset found).2.analyses = found.2 := by
  obtain ⟨answer, analyses⟩ := found
  cases answer <;> rfl

theorem complete_snd (lookup : Lookup) (providers : List Provider) (path : String) (text : Text)
    (offset : Nat) (kept : Analyses) :
    (Completion.complete lookup providers path text offset kept).2 =
      (Resolution.resolve lookup path text offset kept).2 := by
  unfold Completion.complete
  split
  next heq => rw [heq]
  next heq => rw [heq]

variable {worlds : Lookup → Prop}

section

variable (hworld : worlds s.workspace.lookup)
include hworld

theorem grown_resolveIn (path : String) (htexts : ∀ t ∈ Resolution.texts text offset, t ∈ texts) :
    s.analyses.Grown worlds texts (Session.resolveIn path text offset s).2.analyses := by
  unfold Session.resolveIn
  rw [looked_analyses]
  exact Resolution.grown_resolve hworld path htexts s.analyses

theorem grown_completeIn (path : String) (htexts : ∀ t ∈ Resolution.texts text offset, t ∈ texts) :
    s.analyses.Grown worlds texts (Session.completeIn path text offset s).2.analyses := by
  unfold Session.completeIn
  rw [looked_analyses, complete_snd]
  exact Resolution.grown_resolve hworld path htexts s.analyses

theorem grown_scopesIn (path : String) (htext : text ∈ texts) :
    s.analyses.Grown worlds texts (Session.scopesIn path text s).2.analyses := by
  have hgrown := Analyses.grown_analyse hworld path htext s.analyses
  unfold Session.scopesIn
  split
  next heq => rwa [heq] at hgrown
  next heq => rwa [heq] at hgrown

end

theorem explain_analyses (path : String) (s : Session) :
    (Session.explain path s).2.analyses = s.analyses := by
  have hreflect : (Session.reflect (s.workspace.relative path) s).2.analyses = s.analyses := rfl
  unfold Session.explain
  dsimp only
  split
  next heq => rwa [heq] at hreflect
  next heq =>
    rw [heq] at hreflect
    split
    · exact hreflect
    · exact hreflect

theorem askHierarchy_analyses (ask : Lookup → ClassModel → α) (name : ClassName) (s : Session) :
    (Session.askHierarchy ask name s).2.analyses = s.analyses := by
  have hclass : (Session.reflectClass name s).2.analyses = s.analyses := rfl
  unfold Session.askHierarchy
  split
  next heq => rwa [heq] at hclass
  next heq =>
    rw [heq] at hclass
    exact hclass

/-- Serving a query keeps analyses of its texts only, made with the classes that are found now. -/
theorem Query.grown_serve (q : Query) (hworld : worlds s.workspace.lookup)
    (hq : ∀ t ∈ q.texts s.workspace, t ∈ texts) :
    s.analyses.Grown worlds texts (q.serve s).2.analyses := by
  cases q with
  | resolve path offset =>
    unfold Query.texts textsAt at hq
    unfold Query.serve told Session.resolve
    dsimp only at hq ⊢
    split
    next hload =>
      rw [hload] at hq
      exact grown_resolveIn hworld _ hq
    next => exact .refl
  | complete path offset =>
    unfold Query.texts textsAt at hq
    unfold Query.serve told Session.complete
    dsimp only at hq ⊢
    split
    next hload =>
      rw [hload] at hq
      exact grown_completeIn hworld _ hq
    next => exact .refl
  | resolveIn path text offset => exact grown_resolveIn hworld path hq
  | completeIn path text offset => exact grown_completeIn hworld path hq
  | scopesIn path text => exact grown_scopesIn hworld path (hq text List.mem_cons_self)
  -- these ask for no analysis
  | explain path => exact (explain_analyses path s).symm ▸ .refl
  | ancestry name => exact (askHierarchy_analyses Hierarchy.ancestry name s).symm ▸ .refl
  | members name => exact (askHierarchy_analyses Hierarchy.members name s).symm ▸ .refl
  | _ => exact .refl

/-! ## Section 3: Queries one after the other -/

theorem Query.texts_bare (q : Query) (ws : Workspace) : q.texts ws.bare = q.texts ws := by
  cases q <;> rfl

theorem Query.analysed_bare (q : Query) (ws : Workspace) : q.analysed ws.bare = q.analysed ws := by
  cases q <;> rfl

/-- A query is answered as if nothing were kept, as long as the analyses that serve were made with
the classes that are found now. -/
theorem Trusted.serve_emptied (h : s.Trusted texts) (q : Query)
    (hq : ∀ t ∈ q.texts s.workspace, t ∈ texts)
    (hserving : ∀ asked ∈ q.analysed s.workspace,
      s.analyses.Genuine s.emptied.workspace.lookup.Only asked.1 [asked.2]) :
    Agree (q.serve s).1 (q.serve s.emptied).1 := by
  have hbare := q.serve_bare h hq
  -- without models the session still has its analyses, and finds the same classes
  have hunread : (q.serve s.bare).1 = (q.serve s.bare.unread).1 := by
    apply q.serve_unread
    intro asked hasked
    apply hserving asked
    rw [← q.analysed_bare]
    exact hasked
  rwa [hunread] at hbare

/-- A session that differs from a new one by what it has kept. Of the analyses only those that serve
for some texts need to be ones that the new session would make. -/
structure Prepared (texts : List Text) (asked : List (String × Text)) (s₀ s : Session) : Prop where
  trusted : s.Trusted texts
  emptied : s.emptied = s₀
  analyses : ∀ e ∈ asked, s.analyses.Genuine s₀.workspace.lookup.Only e.1 [e.2]

variable {asked : List (String × Text)}

section

variable (h : Prepared texts asked s₀ s)
include h

theorem Prepared.lookup : s.workspace.lookup = s₀.workspace.lookup := by
  rw [h.trusted.workspace.lookup_bare, ← h.emptied]
  rfl

/-- **One query** is answered as by the new session, and leaves a session of the same kind. -/
theorem Prepared.serve (hasked : ∀ e ∈ asked, e.2 ∈ texts) (q : Query)
    (hq : ∀ t ∈ q.texts s₀.workspace, t ∈ texts)
    (hserving : ∀ e ∈ q.analysed s₀.workspace, e ∈ asked) :
    Agree (q.serve s).1 (q.serve s₀).1 ∧ Prepared texts asked s₀ (q.serve s).2 := by
  have htexts : ∀ t ∈ q.texts s.workspace, t ∈ texts := by
    rw [← q.texts_bare]
    rw [← h.emptied] at hq
    exact hq
  constructor
  · have hanswer : Agree (q.serve s).1 (q.serve s.emptied).1 := by
      apply h.trusted.serve_emptied q htexts
      intro e he
      rw [h.emptied]
      apply h.analyses e
      apply hserving e
      rw [← h.emptied]
      exact (q.analysed_bare s.workspace).symm ▸ he
    rwa [h.emptied] at hanswer
  · have hkept := q.serve_kept h.trusted htexts
    refine ⟨hkept.session h.trusted, hkept.emptied.trans h.emptied, ?_⟩
    -- what the query adds are analyses that the new session would make
    have hgrown : s.analyses.Grown s₀.workspace.lookup.Only texts (q.serve s).2.analyses :=
      q.grown_serve h.lookup htexts
    intro e he
    apply hgrown.genuine h.trusted.workspace.distinct _ (h.analyses e he)
    exact List.forall_mem_singleton.mpr (hasked e he)

/-- The answers to queries, served one after the other. -/
def answers : List Query → Session → List (Except Failure Answer)
  | [], _ => []
  | q :: rest, s => (q.serve s).1 :: answers rest (q.serve s).2

theorem Prepared.answers (hasked : ∀ e ∈ asked, e.2 ∈ texts) (queries : List Query)
    (hqueries : ∀ q ∈ queries, ∀ t ∈ q.texts s₀.workspace, t ∈ texts)
    (hserving : ∀ q ∈ queries, ∀ e ∈ q.analysed s₀.workspace, e ∈ asked) :
    List.Forall₂ Agree (Session.answers queries s) (queries.map fun q => (q.serve s₀).1) := by
  induction queries generalizing s with
  | nil => exact List.Forall₂.nil
  | cons q rest ih =>
    obtain ⟨hanswer, hafter⟩ := h.serve hasked q (hqueries q List.mem_cons_self)
      (hserving q List.mem_cons_self)
    apply List.Forall₂.cons hanswer
    apply ih hafter
    · exact fun r hr => hqueries r (List.mem_cons_of_mem _ hr)
    · exact fun r hr => hserving r (List.mem_cons_of_mem _ hr)

end

/-- Queries are answered as by a new session if all analyses that serve are ones that it would
make. -/
theorem answers_of_genuine (htrusted : s.Trusted texts) (hemptied : s.emptied = s₀)
    {queries : List Query} (hqueries : ∀ q ∈ queries, ∀ t ∈ q.texts s₀.workspace, t ∈ texts)
    (hserving : ∀ q ∈ queries, ∀ e ∈ q.analysed s₀.workspace,
      s.analyses.Genuine s₀.workspace.lookup.Only e.1 [e.2]) :
    List.Forall₂ Agree (answers queries s) (queries.map fun q => (q.serve s₀).1) := by
  have hprepared : Prepared texts (queries.flatMap (Query.analysed s₀.workspace)) s₀ s := by
    refine ⟨htrusted, hemptied, fun e he => ?_⟩
    obtain ⟨q, hq, hasked⟩ := List.mem_flatMap.mp he
    exact hserving q hq e hasked
  apply hprepared.answers
  · intro e he
    obtain ⟨q, hq, hasked⟩ := List.mem_flatMap.mp he
    exact hqueries q hq _ (q.texts_of_analysed _ e hasked)
  · exact hqueries
  · exact fun q hq e he => List.mem_flatMap.mpr ⟨q, hq, he⟩

/-- **Answers need no history.** Whatever a session is asked and in whatever order, on files and an
autoload table that stay as they are, each answer is the one that a new session gives to that query
alone, as long as digests tell the texts in question apart. Paths may be spelled differently. -/
theorem answers_need_no_history {disk : Disk} {config : Config} {s₀ : Session}
    (hstart : start disk config = .ok s₀) (queries : List Query)
    (hdistinct : Digest.Distinct (disk.texts ++ queries.flatMap (Query.texts s₀.workspace))) :
    List.Forall₂ Agree (answers queries s₀) (queries.map fun q => (q.serve s₀).1) := by
  obtain ⟨hdisk, _, hemptied⟩ := start_eq_ok hstart
  have htrusted := trusted_start hstart hdistinct
    (by rw [hdisk]; exact fun t ht => List.mem_append_left _ ht)
  have hanalyses : s₀.analyses = [] := by
    rw [← hemptied]
    rfl
  apply answers_of_genuine htrusted hemptied
  · exact fun q hq t ht => List.mem_append_right _ (List.mem_flatMap.mpr ⟨q, hq, ht⟩)
  · exact fun q hq e he => hanalyses ▸ Analyses.genuine_nil _ _ _

def askedText : Text := "<?php $a = new A; $a->".toList

/-- The analysis made for the first query serves for the third, under another spelling of its path,
and so does the model read for the second when the fourth is answered. -/
def sampleQueries : List Query :=
  [.resolveIn "x/f.php" askedText 22, .members ⟨"", "A"⟩, .completeIn "x//f.php" askedText 22,
   .reflect "s//A.php"]

/-- The text that is analysed instead, because it parses. -/
def blankedText : Text := "<?php $a = new A; $a; ".toList

theorem sample_answers_need_no_history :
    ((run (sampleQueries.map .ask) sampleSession).analyses.map Prod.fst,
        (run (sampleQueries.map .ask) sampleSession).workspace.models.map Prod.fst) =
      ([[['x'], "f.php".toList]], [[['s'], "A.php".toList]]) ∧
      List.Forall₂ Agree (answers sampleQueries sampleSession)
        (sampleQueries.map fun q => (q.serve sampleSession).1) := by
  have hstart : start (diskWith "A.php" aloneText) sampleConfig = .ok sampleSession := by rfl
  have hdistinct : Digest.Distinct [aloneText, blankedText, askedText] := by decide +kernel
  have htexts : ∀ t ∈ (diskWith "A.php" aloneText).texts ++
      sampleQueries.flatMap (Query.texts sampleSession.workspace),
      t ∈ [aloneText, blankedText, askedText] := by decide +kernel
  exact ⟨by decide +kernel,
    answers_need_no_history hstart sampleQueries (hdistinct.subset htexts)⟩

end CodeInsight.Session
