import CodeInsight.Proofs.KeptModels
import CodeInsight.Session

/-!
# Queries of a session

A query asks a session something without changing files. Serving it may keep models and analyses,
and does nothing else to the session. The models that a session has kept do not show in any answer.

## Main Results

- `Session.Query.serve_kept`: what serving a query does to a session
- `Session.Query.serve_bare`: the answer of a session is its answer without kept models
-/

namespace CodeInsight.Session

variable {α : Type} {after : Session} {r : Request α} {s' : Session}

/-! ## Section 1: Queries and their answers -/

/-- What a session may be asked. -/
inductive Query where
  | resolve (path : String) (offset : Nat)
  | resolveIn (path : String) (text : Text) (offset : Nat)
  | complete (path : String) (offset : Nat)
  | completeIn (path : String) (text : Text) (offset : Nat)
  | scopesIn (path : String) (text : Text)
  | classPath (name : ClassName)
  | className (path : String)
  | reflect (path : String)
  | reflectIn (path : String) (text : Text)
  | classFromSource (path : String) (text : Text)
  | classFromFile (path : String)
  | explain (path : String)
  | reflectClass (name : ClassName)
  | ancestry (name : ClassName)
  | members (name : ClassName)
  | generate (kind : String) (name : ClassName) (options : Generation.Options)

/-- What a session may answer. -/
inductive Answer where
  | resolution (r : Resolution)
  | suggestions (offered : List Suggestion)
  | scopes (scopes : List Scope)
  | path (path : String)
  | name (name : ClassName)
  | file (file : FileModel)
  | explanation (e : Explanation)
  | classes (models : List ClassModel)
  | members (table : MemberTable)
  | edit (edit : Edit)
  deriving DecidableEq

/-- One answer, with files under any spelling of their paths. -/
def Answer.Same : Answer → Answer → Prop
  | .file a, .file b => FileModel.Same a b
  | a, b => a = b

/-- Two answers or failures that are one but for the spelling of paths. -/
abbrev Agree : Except Failure Answer → Except Failure Answer → Prop :=
  Agreed Failure.Same Answer.Same

theorem Answer.Same.refl (a : Answer) : Answer.Same a a := by
  cases a with
  | file file => exact FileModel.Same.refl file
  | _ => rfl

/-- A request whose answer is told in another way. -/
def told {α : Type} (tell : α → Answer) (r : Request α) : Request Answer :=
  fun s => ((r s).1.map tell, (r s).2)

/-- Serves a query. -/
def Query.serve : Query → Request Answer
  | resolve path offset => told .resolution (Session.resolve path offset)
  | resolveIn path text offset => told .resolution (Session.resolveIn path text offset)
  | complete path offset => told .suggestions (Session.complete path offset)
  | completeIn path text offset => told .suggestions (Session.completeIn path text offset)
  | scopesIn path text => told .scopes (Session.scopesIn path text)
  | classPath name => told .path (Session.classPath name)
  | className path => told .name (Session.className path)
  | reflect path => told .file (Session.reflect path)
  | reflectIn path text => told .file (Session.reflectIn path text)
  | classFromSource path text => told .name (Session.classFromSource path text)
  | classFromFile path => told .name (Session.classFromFile path)
  | explain path => told .explanation (Session.explain path)
  | reflectClass name => told (fun c => .classes [c]) (Session.reflectClass name)
  | ancestry name => told .classes (Session.ancestry name)
  | members name => told .members (Session.members name)
  | generate kind name options => told .edit (Session.generate kind name options)

/-- The texts that are analysed to look at an offset of a file. -/
def textsAt (ws : Workspace) (path : String) (offset : Nat) : List Text :=
  match ws.load (ws.relative path) with
  | .ok text => Resolution.texts text offset
  | .error _ => []

/-- The texts that a query is about, other than those of files. -/
def Query.texts (ws : Workspace) : Query → List Text
  | resolve path offset | complete path offset => textsAt ws path offset
  | resolveIn _ text offset | completeIn _ text offset => Resolution.texts text offset
  | scopesIn _ text | reflectIn _ text | classFromSource _ text => [text]
  | _ => []

/-! ## Section 2: What serving a query does to a session -/

/-- The session without kept models. -/
def bare (s : Session) : Session := s.withWorkspace s.workspace.bare

/-- The session with nothing kept. -/
def emptied (s : Session) : Session := { s.bare with analyses := [] }

/-- The kept models can be relied on, and so can the generators. -/
structure Trusted (texts : List Text) (s : Session) : Prop where
  workspace : s.workspace.Trusted texts
  generators : s.generators.Transparent

/-- Without kept models there is less to rely on. -/
theorem Trusted.bare {texts : List Text} {s : Session} (h : s.Trusted texts) :
    s.bare.Trusted texts :=
  ⟨h.workspace.bare, h.generators⟩

/-- A session after something was done to it that keeps models and analyses only. -/
structure Kept (texts : List Text) (s after : Session) : Prop where
  trusted : after.workspace.Trusted texts
  emptied : after.emptied = s.emptied

variable {texts : List Text} {s : Session}

/-- Generators are registered by other requests, so those of the session stay transparent. -/
theorem Kept.session (h : Kept texts s after) (hs : s.Trusted texts) : after.Trusted texts := by
  have hgenerators : after.emptied.generators = s.emptied.generators := by rw [h.emptied]
  exact ⟨h.trusted, Eq.mpr (congrArg Generators.Transparent hgenerators) hs.generators⟩

/-- It is enough that the project keeps models only. Any analyses may be kept beside them. -/
theorem Kept.of_workspace {ws : Workspace} (h : Workspace.Kept texts s.workspace ws)
    (analyses : Analyses) : Kept texts s { s with workspace := ws, analyses } := by
  refine ⟨h.trusted, ?_⟩
  unfold Session.emptied Session.bare withWorkspace
  simp only [h.bare]

theorem Trusted.kept (h : s.Trusted texts) : Kept texts s s :=
  ⟨h.workspace, rfl⟩

/-- One request after another. -/
theorem Kept.trans {middle : Session} (h : Kept texts s middle) (hmore : Kept texts middle after) :
    Kept texts s after :=
  ⟨hmore.trusted, hmore.emptied.trans h.emptied⟩

section

variable (h : s.Trusted texts)
include h

/-- An analysis keeps the classes whose members it has looked up. -/
theorem Trusted.afterAnalysis (path : String) (analyses : Analyses) :
    Workspace.Kept texts s.workspace (s.afterAnalysis path analyses) := by
  unfold Session.afterAnalysis
  split
  · exact h.workspace.keepReceivers _ _
  · exact Workspace.Kept.refl h.workspace

/-- Looking at an offset keeps these classes, and those that the site there asks for. -/
theorem Trusted.looked (path : String) (text : Text) (offset : Nat)
    (found : Except Failure α × Analyses) : Kept texts s (s.looked path text offset found).2 := by
  obtain ⟨answer, analyses⟩ := found
  cases answer with
  -- a failure keeps no models
  | error failure => exact Kept.of_workspace (Workspace.Kept.refl h.workspace) analyses
  | ok answer =>
    have hafter := h.afterAnalysis path analyses
    unfold Session.looked
    dsimp only
    cases analyses.find? path with
    | none => exact Kept.of_workspace hafter analyses
    | some a => exact Kept.of_workspace (hafter.trans (hafter.trusted.keepReceivers _ _)) analyses

/-- So does asking for scopes, if the text can be analysed. -/
theorem Trusted.scopesIn (path : String) (text : Text) :
    Kept texts s (Session.scopesIn path text s).2 := by
  unfold Session.scopesIn
  split
  · exact Kept.of_workspace (Workspace.Kept.refl h.workspace) _
  · exact Kept.of_workspace (h.afterAnalysis _ _) _

theorem Trusted.reflect (path : String) : Kept texts s (Session.reflect path s).2 :=
  Kept.of_workspace (h.workspace.reflectFile path) s.analyses

theorem Trusted.reflectClass (name : ClassName) : Kept texts s (Session.reflectClass name s).2 :=
  Kept.of_workspace (h.workspace.target name) s.analyses

theorem Trusted.keepFamily (asking : Option FileModel) (name : ClassName) :
    Kept texts s (s.withWorkspace (s.workspace.keepFamily asking name)) :=
  Kept.of_workspace (h.workspace.keepFamily asking name) s.analyses

/-- Explaining a file keeps its model, and then the family of its class. -/
theorem Trusted.explain (path : String) : Kept texts s (Session.explain path s).2 := by
  have hfile := h.reflect (s.workspace.relative path)
  unfold Session.explain
  dsimp only
  split
  next heq => rwa [heq] at hfile
  next heq =>
    rw [heq] at hfile
    -- the family is kept if the file declares a single class
    split
    · exact hfile
    · exact hfile.trans ((hfile.session h).keepFamily _ _)

/-- A request about a family keeps the class, and then the family. -/
theorem Trusted.askHierarchy (ask : Lookup → ClassModel → α) (name : ClassName) :
    Kept texts s (Session.askHierarchy ask name s).2 := by
  have hclass := h.reflectClass name
  unfold Session.askHierarchy
  split
  next heq => rwa [heq] at hclass
  next heq =>
    rw [heq] at hclass
    exact hclass.trans ((hclass.session h).keepFamily _ _)

end

/-- **Serving a query** keeps models and analyses, and leaves all else as it is. -/
theorem Query.serve_kept (q : Query) (h : s.Trusted texts)
    (hq : ∀ t ∈ q.texts s.workspace, t ∈ texts) : Kept texts s (q.serve s).2 := by
  cases q with
  | resolve path offset | complete path offset =>
    unfold Query.serve told Session.resolve Session.complete
    dsimp only
    -- a file that cannot be read is not looked at
    split
    · exact h.looked _ _ _ _
    · exact h.kept
  | resolveIn path text offset | completeIn path text offset =>
    unfold Query.serve told
    exact h.looked path text offset _
  | scopesIn path text => exact h.scopesIn path text
  | classPath name => exact h.kept
  | className path => exact h.kept
  | reflect path => exact h.reflect path
  -- a text that was never saved is kept under the path of the file
  | reflectIn path text | classFromSource path text =>
    exact Kept.of_workspace (h.workspace.reflect _ (hq text List.mem_cons_self)) s.analyses
  | classFromFile path => exact h.reflect _
  | explain path => exact h.explain path
  | reflectClass name => exact h.reflectClass name
  | ancestry name => exact h.askHierarchy Hierarchy.ancestry name
  | members name => exact h.askHierarchy Hierarchy.members name
  | generate kind name options =>
    exact Kept.of_workspace (h.generators.generate h.workspace kind name options) s.analyses

/-! ## Section 3: Answers without kept models -/

/-- What is kept after a look at an offset has no part in its answer. -/
@[simp] theorem looked_fst (s : Session) (path : String) (text : Text) (offset : Nat)
    (found : Except Failure α × Analyses) : (s.looked path text offset found).1 = found.1 := by
  obtain ⟨answer, analyses⟩ := found
  cases answer <;> rfl

theorem resolveIn_fst (s : Session) (path : String) (text : Text) (offset : Nat) :
    (Session.resolveIn path text offset s).1 =
      (Resolution.resolve s.workspace.lookup path text offset s.analyses).1 :=
  looked_fst s path text offset _

/-- Completion is resolution, and then what the providers suggest for it. -/
theorem completeIn_fst (s : Session) (path : String) (text : Text) (offset : Nat) :
    (Session.completeIn path text offset s).1 =
      (Session.resolveIn path text offset s).1.map (Completion.suggestions s.providers) := by
  unfold Session.completeIn
  rw [looked_fst, resolveIn_fst]
  unfold Completion.complete
  split
  next heq => simp [heq, Except.map]
  next heq => simp [heq, Except.map]

/-- A saved file is resolved as its text is. -/
theorem resolve_fst (s : Session) (path : String) (offset : Nat) :
    (Session.resolve path offset s).1 =
      (s.workspace.load (s.workspace.relative path)).bind fun text =>
        (Session.resolveIn (s.workspace.relative path) text offset s).1 := by
  unfold Session.resolve
  dsimp only
  cases s.workspace.load (s.workspace.relative path) <;> rfl

/-- Completion in a saved file, by way of its text. -/
theorem complete_fst (s : Session) (path : String) (offset : Nat) :
    (Session.complete path offset s).1 =
      (Session.resolve path offset s).1.map (Completion.suggestions s.providers) := by
  rw [resolve_fst]
  unfold Session.complete
  dsimp only
  cases s.workspace.load (s.workspace.relative path) with
  | error failure => rfl
  | ok text => exact completeIn_fst s _ text offset

/-- Scopes are read off the analysis of a text. -/
theorem scopesIn_fst (s : Session) (path : String) (text : Text) :
    (Session.scopesIn path text s).1 =
      (Analyses.analyse s.workspace.lookup path text s.analyses).1.map
        fun a => a.forest.scopes := by
  unfold Session.scopesIn
  split
  next heq => simp [heq, Except.map]
  next heq => simp [heq, Except.map]

/-- A text is resolved with the classes that are found, and these are found without kept models
too. -/
theorem Trusted.resolveIn_bare (h : s.Trusted texts) (path : String) (text : Text) (offset : Nat) :
    (Session.resolveIn path text offset s).1 = (Session.resolveIn path text offset s.bare).1 := by
  rw [resolveIn_fst, resolveIn_fst, h.workspace.lookup_bare]
  rfl

/-- The same for a saved file, which is read from the disk. -/
theorem Trusted.resolve_bare (h : s.Trusted texts) (path : String) (offset : Nat) :
    (Session.resolve path offset s).1 = (Session.resolve path offset s.bare).1 := by
  rw [resolve_fst, resolve_fst]
  simp only [h.resolveIn_bare]
  rfl

/-- The same for scopes. -/
theorem Trusted.scopesIn_bare (h : s.Trusted texts) (path : String) (text : Text) :
    (Session.scopesIn path text s).1 = (Session.scopesIn path text s.bare).1 := by
  rw [scopesIn_fst, scopesIn_fst, h.workspace.lookup_bare]
  rfl

/-- Classes are found after a request as they are found by a session without kept models. -/
theorem Kept.lookup (h : Kept texts s after) :
    after.workspace.lookup = s.bare.workspace.lookup := by
  have hbare : after.emptied.workspace.lookup = s.emptied.workspace.lookup := by rw [h.emptied]
  rw [h.trusted.lookup_bare]
  exact hbare

/-- The class of a name has no path in it, so no spelling of one either. -/
theorem Trusted.reflectClass_bare (h : s.Trusted texts) (name : ClassName) :
    (Session.reflectClass name s).1 = (Session.reflectClass name s.bare).1 := by
  apply agreed_eq_iff.mp
  apply (h.workspace.target_agreed name).map
  rintro ⟨_, _, c⟩ ⟨_, _, _⟩ ⟨_, _, rfl⟩
  rfl

/-- What is asked of a class is asked with the classes that are found after it. -/
theorem askHierarchy_fst (ask : Lookup → ClassModel → α) (name : ClassName) (s : Session) :
    (Session.askHierarchy ask name s).1 = (Session.reflectClass name s).1.map
      (ask (Session.reflectClass name s).2.workspace.lookup) := by
  unfold Session.askHierarchy
  split
  next heq => simp [heq, Except.map]
  next heq => simp [heq, Except.map]

/-- Ancestors and members are those that are found without kept models. -/
theorem Trusted.askHierarchy_bare (h : s.Trusted texts) (ask : Lookup → ClassModel → α)
    (name : ClassName) :
    (Session.askHierarchy ask name s).1 = (Session.askHierarchy ask name s.bare).1 := by
  -- the classes of the family are looked up after the class itself was reflected
  rw [askHierarchy_fst, askHierarchy_fst, h.reflectClass_bare, (h.reflectClass name).lookup,
    (h.bare.reflectClass name).lookup]
  rfl

/-- The class that a file declares, and its members. -/
theorem explain_fst (path : String) (s : Session) :
    (Session.explain path s).1 =
      (Session.reflect (s.workspace.relative path) s).1.bind fun file =>
        (Workspace.singleClass file).map fun c =>
          ⟨s.workspace.relative path, c, Hierarchy.members
            ((Session.reflect (s.workspace.relative path) s).2.workspace.lookup.within file)
            c⟩ := by
  unfold Session.explain
  dsimp only
  split
  next heq => simp [heq, Except.bind]
  next heq =>
    simp only [heq, Except.bind]
    split
    next hclass => simp [hclass, Except.map]
    next hclass => simp [hclass, Except.map]

/-- A file may be found under another spelling of its path, and so may a failure. -/
theorem Trusted.explain_agreed (h : s.Trusted texts) (path : String) :
    Agreed Failure.Same Eq (Session.explain path s).1 (Session.explain path s.bare).1 := by
  rw [explain_fst, explain_fst, (h.reflect _).lookup, (h.bare.reflect _).lookup]
  -- the models of the file differ in spelling only, and members have no paths
  apply Agreed.bind
  · exact (h.workspace.reflectFile_agreed _).spelled
  · intro a b hab
    apply (Workspace.singleClass_same hab).map
    rintro c _ rfl
    rw [hab.rest]
    rfl

/-- The name of the only class of a file, for two spellings of its path. -/
theorem onlyClass_agreed {a b : Except Failure FileModel} (h : Agreed Eq FileModel.Same a b) :
    Agreed Failure.Same Eq ((a.bind Workspace.singleClass).map ClassModel.name)
      ((b.bind Workspace.singleClass).map ClassModel.name) := by
  apply Agreed.map
  · exact h.spelled.bind fun _ _ hab => Workspace.singleClass_same hab
  · exact fun _ _ hc => congrArg ClassModel.name hc

variable {tell : α → Answer}

/-- Answers that agree still do when they are told. -/
theorem told_agree (h : Agreed Failure.Same Eq (r s).1 (r s').1) :
    Agree (told tell r s).1 (told tell r s').1 := by
  apply h.map
  rintro a _ rfl
  exact Answer.Same.refl _

/-- Equal answers agree. -/
theorem told_agree_of_eq (h : (r s).1 = (r s').1) : Agree (told tell r s).1 (told tell r s').1 :=
  told_agree (agreed_eq_iff.mpr h).spelled

/-- **Kept models do not show**: a query has the answer that it has without them. -/
theorem Query.serve_bare (q : Query) (h : s.Trusted texts)
    (hq : ∀ t ∈ q.texts s.workspace, t ∈ texts) : Agree (q.serve s).1 (q.serve s.bare).1 := by
  cases q with
  | resolve path offset => exact told_agree_of_eq (h.resolve_bare path offset)
  | resolveIn path text offset => exact told_agree_of_eq (h.resolveIn_bare path text offset)
  | complete path offset =>
    apply told_agree_of_eq
    rw [complete_fst, complete_fst, h.resolve_bare]
    rfl
  | completeIn path text offset =>
    apply told_agree_of_eq
    rw [completeIn_fst, completeIn_fst, h.resolveIn_bare]
    rfl
  | scopesIn path text => exact told_agree_of_eq (h.scopesIn_bare path text)
  -- names and paths of classes are told by the autoload table alone
  | classPath name | className path => exact told_agree_of_eq rfl
  | reflect path =>
    exact (h.workspace.reflectFile_agreed path).spelled.map fun _ _ hab => hab
  | reflectIn path text =>
    have hfile := h.workspace.reflect_agreed path (hq text List.mem_cons_self)
    exact hfile.spelled.map fun _ _ hab => hab
  | classFromSource path text =>
    exact told_agree (onlyClass_agreed (h.workspace.reflect_agreed _ (hq text List.mem_cons_self)))
  | classFromFile path =>
    exact told_agree (onlyClass_agreed (h.workspace.reflectFile_agreed _))
  | explain path => exact told_agree (h.explain_agreed path)
  | reflectClass name => exact told_agree_of_eq (h.reflectClass_bare name)
  | ancestry name => exact told_agree_of_eq (h.askHierarchy_bare Hierarchy.ancestry name)
  | members name => exact told_agree_of_eq (h.askHierarchy_bare Hierarchy.members name)
  | generate kind name options =>
    exact told_agree_of_eq (h.generators.generate_bare h.workspace kind name options)

end CodeInsight.Session
