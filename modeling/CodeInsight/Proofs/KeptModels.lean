import CodeInsight.Proofs.KeptAnalyses
import CodeInsight.Generation

/-!
# Models that serve again

A project keeps the last model of every path, and a kept model serves again when its text is asked
for under any spelling of the path. A project is trusted if every kept model is the model of a text
with its digest, and digests of the texts in question do not collide. Everything that a request does
to a project keeps it trusted, and a trusted project gives the answers that it would give without
any kept model.

## Main Results

- `Workspace.Trusted.keepFamily`, `Workspace.Trusted.keepReceivers`: what keeping models preserves
- `Workspace.Trusted.lookup_bare`: a project finds the classes that it finds without kept models
- `Generator.Transparent`: generators that do not see which models are kept
-/

namespace CodeInsight

variable {path : String} {gs : Generators} {file : FileModel} {α : Type}

/-! ## Section 1: Spellings of a path -/

/-- One model of a file under two spellings of its path. -/
structure FileModel.Same (a b : FileModel) : Prop where
  path : Path.components a.path = Path.components b.path
  rest : b = { a with path := b.path }

theorem FileModel.Same.refl (a : FileModel) : FileModel.Same a a := ⟨rfl, rfl⟩

/-- The model of a text has the path that it was asked for under, and that is all the path is used
for. -/
theorem FileModel.ofText_respelled {text : Text} (h : FileModel.ofText path text = .ok file)
    (path' : String) :
    file.path = path ∧ FileModel.ofText path' text = .ok { file with path := path' } := by
  unfold FileModel.ofText at *
  cases hparse : Grammar.parse text with
  | error offset => simp [hparse] at h
  | ok program =>
    rw [hparse] at h
    cases h
    exact ⟨rfl, rfl⟩

/-- One failure under two spellings of a path. -/
def Failure.Same : Failure → Failure → Prop
  | .classNotFound path found, .classNotFound path' found' =>
    Path.components path = Path.components path' ∧ found = found'
  | e, e' => e = e'

theorem Failure.Same.refl (e : Failure) : Failure.Same e e := by
  cases e <;> simp [Failure.Same]

/-- Outcomes with equal failures agree up to spelling. -/
theorem Agreed.spelled {β : Type} {same : α → β → Prop} {a : Except Failure α}
    {b : Except Failure β} (h : Agreed Eq same a b) : Agreed Failure.Same same a b := by
  cases a <;> cases b
  · exact (h : _ = _) ▸ Failure.Same.refl _
  · exact h
  · exact h
  · exact h

section

variable {β γ δ : Type} {failed : Failure → Failure → Prop} {same : α → β → Prop}
  {same' : γ → δ → Prop} {a : Except Failure α} {b : Except Failure β}

/-- Outcomes that agree go on agreeing if what is done next does. -/
theorem Agreed.bind {f : α → Except Failure γ} {g : β → Except Failure δ}
    (h : Agreed failed same a b) (hnext : ∀ x y, same x y → Agreed failed same' (f x) (g y)) :
    Agreed failed same' (a.bind f) (b.bind g) := by
  cases a <;> cases b
  · exact h
  · exact h.elim
  · exact h.elim
  · exact hnext _ _ h

/-- Outcomes that agree still do when they are told in another way. -/
theorem Agreed.map {f : α → γ} {g : β → δ} (h : Agreed failed same a b)
    (hnext : ∀ x y, same x y → same' (f x) (g y)) : Agreed failed same' (a.map f) (b.map g) := by
  cases a <;> cases b
  · exact h
  · exact h.elim
  · exact h.elim
  · exact hnext _ _ h

end

/-- Without any spelling involved, to agree is to be equal. -/
theorem agreed_eq_iff {a b : Except Failure α} : Agreed Eq Eq a b ↔ a = b := by
  cases a <;> cases b <;> simp [Agreed]

/-! ## Section 2: Trusted projects -/

/-- The texts among the files of a disk. -/
def Disk.texts (disk : Disk) : List Text :=
  disk.entries.filterMap fun entry =>
    match entry.2 with
    | .file content => Text.decode? content
    | .directory => none

namespace Disk

variable {disk : Disk} {text : Text}

/-- The files of a disk can be read, and nothing else. -/
theorem read_eq_ok_iff {content : Bytes} : disk.read path = .ok content ↔
    ∃ location, disk.locate path = .ok location ∧
      disk.entry? location = some (.file content) := by
  refine bind_eq_ok.trans (exists_congr fun location => and_congr_right fun _ => ?_)
  rcases disk.entry? location with _ | _ | _ <;> simp [pure, Except.pure]

/-- A file has a text if its bytes are those of characters. -/
theorem readText_eq_ok_iff : disk.readText path = .ok text ↔
    ∃ content, disk.read path = .ok content ∧ Text.decode? content = some text := by
  refine bind_eq_ok.trans (exists_congr fun content => and_congr_right fun _ => ?_)
  cases Text.decode? content <;> simp [pure, Except.pure]

/-- What is read as a text is among the texts of the disk. -/
theorem mem_texts_of_readText (h : disk.readText path = .ok text) : text ∈ disk.texts := by
  obtain ⟨content, hread, hdecode⟩ := readText_eq_ok_iff.mp h
  obtain ⟨location, -, hentry⟩ := read_eq_ok_iff.mp hread
  -- the entry is not the root, so it stands in the list
  unfold entry? at hentry
  split at hentry
  · cases hentry
  · exact List.mem_filterMap.mpr ⟨_, mem_of_lookup hentry, hdecode⟩

end Disk

namespace Workspace

variable {texts : List Text} {ws : Workspace} {text : Text}

/-- The project without kept models. -/
def bare (ws : Workspace) : Workspace := { ws with models := [] }

/-- Every kept model is the model of one of some texts, these texts hold those of the files, and no
two of them share a digest. -/
structure Trusted (texts : List Text) (ws : Workspace) : Prop where
  distinct : Digest.Distinct texts
  files : ∀ t ∈ ws.disk.texts, t ∈ texts
  models : ∀ entry ∈ ws.models, ∃ path, ∃ text ∈ texts, Path.components path = entry.1 ∧
    entry.2.digest = Digest.ofText text ∧ FileModel.ofText path text = .ok entry.2.file

/-- A project without kept models can be relied on. -/
theorem Trusted.bare (h : ws.Trusted texts) : ws.bare.Trusted texts :=
  ⟨h.distinct, h.files, by intro entry hentry; cases hentry⟩

/-- Files are read from the directory of the project. -/
theorem load_eq_ok_iff :
    ws.load path = .ok text ↔ ws.disk.readText (Path.join ws.root path) = .ok text := by
  unfold load
  split <;> simp [*]

section

variable (h : ws.Trusted texts)
include h

/-- The texts of files are among those whose digests differ. -/
theorem Trusted.mem_of_load (hload : ws.load path = .ok text) : text ∈ texts :=
  h.files _ (Disk.mem_texts_of_readText (load_eq_ok_iff.mp hload))

/-- A kept model that serves for a text is the model of that text. -/
theorem Trusted.known? (htext : text ∈ texts) (hknown : ws.known? path text = some file) :
    ∃ path', Path.components path' = Path.components path ∧
      FileModel.ofText path' text = .ok file := by
  obtain ⟨kept, hkept, rfl⟩ := Option.map_eq_some_iff.mp hknown
  obtain ⟨hfind, hsame⟩ := Option.filter_eq_some_iff.mp hkept
  obtain ⟨path', other, hother, hpath, hdigest, hof⟩ := h.models _ (mem_of_lookup hfind)
  -- the text that the model was made of has the digest of the one asked for
  have hdigests : Digest.ofText other = Digest.ofText text := by
    rw [← hdigest]
    exact of_decide_eq_true hsame
  rw [h.distinct other hother text htext hdigests] at hof
  exact ⟨path', hpath, hof⟩

/-- Serving a kept model changes at most the spelling of the path. -/
theorem Trusted.model_agreed (path : String) (htext : text ∈ texts) :
    Agreed Eq FileModel.Same (ws.model path text) (FileModel.ofText path text) := by
  unfold model
  cases hknown : ws.known? path text with
  | none =>
    cases FileModel.ofText path text with
    | error e => rfl
    | ok file => exact FileModel.Same.refl file
  | some file =>
    obtain ⟨path', hpath, hof⟩ := h.known? htext hknown
    obtain ⟨hown, hrespelled⟩ := FileModel.ofText_respelled hof path
    rw [hrespelled]
    exact ⟨hown ▸ hpath, rfl⟩

/-! ## Section 3: What keeping models preserves -/

/-- A project after something was done to it that keeps models only. -/
structure Kept (texts : List Text) (ws after : Workspace) : Prop where
  trusted : after.Trusted texts
  bare : after.bare = ws.bare

theorem Kept.refl : Kept texts ws ws := ⟨h, rfl⟩

end

/-- One thing done after another. -/
theorem Kept.trans {middle after : Workspace} (h : Kept texts ws middle)
    (hmore : Kept texts middle after) : Kept texts ws after :=
  ⟨hmore.trusted, hmore.bare.trans h.bare⟩

/-- A loop keeps models only if each of its rounds does. -/
theorem Trusted.foldl {step : Workspace → α → Workspace}
    (hstep : ∀ {ws : Workspace}, ws.Trusted texts → ∀ x, Kept texts ws (step ws x)) (xs : List α)
    (h : ws.Trusted texts) : Kept texts ws (xs.foldl step ws) := by
  induction xs generalizing ws with
  | nil => exact Kept.refl h
  | cons x rest ih =>
    have hfirst := hstep h x
    exact hfirst.trans (ih hfirst.trusted)

section

variable (h : ws.Trusted texts)
include h

/-- A model that is dropped is not relied on any more. -/
theorem Trusted.invalidate (path : String) : Kept texts ws (ws.invalidate path) :=
  ⟨⟨h.distinct, h.files, fun entry hentry => h.models entry (PathMap.mem_of_erase hentry)⟩, rfl⟩

/-- A model that is kept anew is the model of its text, under the digest of that text. -/
theorem Trusted.reflect (path : String) (htext : text ∈ texts) :
    Kept texts ws (ws.reflect path text).2 := by
  unfold Workspace.reflect
  cases ws.known? path text with
  | some file => exact Kept.refl h
  | none =>
    cases hof : FileModel.ofText path text with
    | error failure => exact Kept.refl h
    | ok file =>
      -- the new model takes the place of the one kept under this path, and the others stay
      refine ⟨⟨h.distinct, h.files, ?_⟩, rfl⟩
      intro entry hentry
      rcases PathMap.mem_insert hentry with rfl | hold
      · exact ⟨path, text, htext, rfl, rfl, hof⟩
      · exact h.models entry hold

/-- A file is read and then reflected. -/
theorem Trusted.reflectFile (path : String) : Kept texts ws (ws.reflectFile path).2 := by
  unfold Workspace.reflectFile
  cases hload : ws.load path with
  | error failure => exact Kept.refl h
  | ok text => exact h.reflect path (h.mem_of_load hload)

/-- To find a class, the file where it is expected is reflected. -/
theorem Trusted.target (name : ClassName) : Kept texts ws (ws.target name).2 := by
  unfold Workspace.target
  cases ws.table.pathOf name with
  | error failure => exact Kept.refl h
  | ok path =>
    have hfile := h.reflectFile path
    dsimp only
    split
    next heq => rwa [heq] at hfile
    next heq => rwa [heq] at hfile

/-- A class that the asking file does not declare is found in its own file. -/
theorem Trusted.keepClass (asking : Option FileModel) (name : ClassName) :
    Kept texts ws (Workspace.keepClass asking ws name) := by
  unfold Workspace.keepClass
  split
  · exact Kept.refl h
  · exact h.target name

/-- The ancestors of a class are found one after the other, -/
theorem Trusted.keepFamily (asking : Option FileModel) (name : ClassName) :
    Kept texts ws (Workspace.keepFamily asking ws name) :=
  Trusted.foldl (fun h name => h.keepClass asking name) _ h

/-- and so are those of several classes. -/
theorem Trusted.keepReceivers (asking : Option FileModel) (receivers : List InferredType) :
    Kept texts ws (ws.keepReceivers asking receivers) :=
  Trusted.foldl (fun h name => h.keepFamily asking name) _ h

end

/-! ## Section 4: Answers without kept models -/

/-- Files are as they were. -/
theorem Kept.load {after : Workspace} (h : Kept texts ws after) (path : String) :
    after.load path = ws.load path := by
  -- reading a file does not look at kept models
  have hbare : after.bare.load path = ws.bare.load path := by rw [h.bare]
  exact hbare

/-- A class is found in a file under any spelling of its path. -/
theorem classIn_same {a b : FileModel} (h : FileModel.Same a b) (path : String)
    (name : ClassName) : classIn a path name = classIn b path name := by
  rw [h.rest]
  rfl

/-- A file without a single class is reported under the spelling that it has. -/
theorem singleClass_same {a b : FileModel} (h : FileModel.Same a b) :
    Agreed Failure.Same Eq (singleClass a) (singleClass b) := by
  have hclasses : b.classes = a.classes := by rw [h.rest]
  unfold singleClass
  rw [hclasses]
  split
  · rfl
  -- only the failure tells the path
  · exact ⟨h.path, rfl⟩

/-- A text is reflected as without kept models, up to the spelling of the path. -/
theorem Trusted.reflect_agreed (h : ws.Trusted texts) (path : String) (htext : text ∈ texts) :
    Agreed Eq FileModel.Same (ws.reflect path text).1 (ws.bare.reflect path text).1 := by
  -- what is kept afterwards has no part in the answer
  have hmodel : ∀ ws : Workspace, (ws.reflect path text).1 = ws.model path text := by
    intro ws
    unfold Workspace.reflect model
    cases ws.known? path text with
    | some file => rfl
    | none => cases FileModel.ofText path text <;> rfl
  rw [hmodel, hmodel]
  exact h.model_agreed path htext

/-- Without kept models a file is read anew. -/
theorem reflectFile_bare (hload : ws.load path = .ok text) :
    (ws.bare.reflectFile path).1 = FileModel.ofText path text := by
  have hbare : ws.bare.load path = .ok text := hload
  have hnew : ws.bare.known? path text = none := rfl
  unfold Workspace.reflectFile Workspace.reflect
  simp only [hbare, hnew]
  cases FileModel.ofText path text <;> rfl

/-- Files are reflected as without kept models, up to the spelling of the path. -/
theorem Trusted.reflectFile_agreed (h : ws.Trusted texts) (path : String) :
    Agreed Eq FileModel.Same (ws.reflectFile path).1 (ws.bare.reflectFile path).1 := by
  unfold Workspace.reflectFile
  have hload : ws.bare.load path = ws.load path := rfl
  rw [hload]
  cases hload : ws.load path with
  | error failure => rfl
  | ok text => exact h.reflect_agreed path (h.mem_of_load hload)

/-- The three steps to a class: its path, its file, and the class within the file. -/
theorem target_fst (ws : Workspace) (name : ClassName) :
    (ws.target name).1 = (ws.table.pathOf name).bind fun path =>
      (ws.reflectFile path).1.bind fun file =>
        (classIn file path name).map fun c => (path, file, c) := by
  unfold Workspace.target
  cases ws.table.pathOf name with
  | error failure => rfl
  | ok path =>
    dsimp only [Except.bind]
    split
    next heq => rw [heq]
    next heq => rw [heq]

/-- The class of a name, its path and its file, the latter under any spelling of the path. -/
theorem Trusted.target_agreed (h : ws.Trusted texts) (name : ClassName) :
    Agreed Eq (fun a b => a.1 = b.1 ∧ FileModel.Same a.2.1 b.2.1 ∧ a.2.2 = b.2.2)
      (ws.target name).1 (ws.bare.target name).1 := by
  rw [target_fst, target_fst]
  have hpath : ws.bare.table = ws.table := rfl
  rw [hpath]
  cases ws.table.pathOf name with
  | error failure => rfl
  | ok path =>
    -- the file may be spelled differently, and the class within it is the same
    apply (h.reflectFile_agreed path).bind
    intro a b hab
    rw [classIn_same hab]
    cases classIn b path name with
    | error failure => rfl
    | ok c => exact ⟨rfl, hab, rfl⟩

/-- A class of a name is the one that is found without kept models. -/
theorem Trusted.classNamed_bare (h : ws.Trusted texts) (name : ClassName) :
    ws.classNamed name = ws.bare.classNamed name := by
  unfold classNamed
  have hload : ∀ path, ws.bare.load path = ws.load path := fun _ => rfl
  have htable : ws.bare.table = ws.table := rfl
  simp only [hload, htable, bind]
  cases ws.table.pathOf name with
  | error failure => rfl
  | ok path =>
    dsimp only [Except.bind]
    cases hload : ws.load path with
    | error failure => rfl
    | ok text =>
      -- the file may have another spelling of its path, but a class has no path
      have hmodel := h.model_agreed path (h.mem_of_load hload)
      apply agreed_eq_iff.mp
      apply Agreed.bind (b := ws.bare.model path text) hmodel
      intro a b hab
      exact agreed_eq_iff.mpr (classIn_same hab path name)

/-- **Classes are found** as they are without kept models. -/
theorem Trusted.lookup_bare (h : ws.Trusted texts) : ws.lookup = ws.bare.lookup := by
  funext name
  unfold Workspace.lookup
  rw [h.classNamed_bare name]

end Workspace

/-! ## Section 5: Generators -/

/-- A generator does not see which models are kept, and keeps models only. -/
structure Generator.Transparent (g : Generator) : Prop where
  answer : ∀ {texts : List Text} {ws : Workspace}, ws.Trusted texts → ∀ name options,
    (g.generate ws name options).1 = (g.generate ws.bare name options).1
  kept : ∀ {texts : List Text} {ws : Workspace}, ws.Trusted texts → ∀ name options,
    Workspace.Kept texts ws (g.generate ws name options).2

namespace Generator

variable {texts : List Text} {ws : Workspace}

section

variable (h : ws.Trusted texts)
include h

/-- The classes with contracts for a class are found without kept models too, -/
theorem contractOwners_bare {a b : FileModel} (hab : FileModel.Same a b) (c : ClassModel) :
    contractOwners ws a c = contractOwners ws.bare b c := by
  unfold contractOwners
  rw [h.lookup_bare, hab.rest]
  rfl

/-- and finding the class first does not change them. -/
theorem contractOwners_found (name : ClassName) (file : FileModel) (c : ClassModel) :
    contractOwners (ws.target name).2 file c = contractOwners ws file c := by
  -- both are the owners that are found without kept models
  have hkept := h.target name
  rw [contractOwners_bare hkept.trusted (.refl file), hkept.bare,
    ← contractOwners_bare h (.refl file)]

/-- The owners that are read after the class was found, with kept models and without. -/
theorem contractOwners_target (name : ClassName) {a b : FileModel} (hab : FileModel.Same a b)
    (c : ClassModel) :
    contractOwners (ws.target name).2 a c = contractOwners (ws.bare.target name).2 b c := by
  rw [contractOwners_found h, contractOwners_found h.bare, contractOwners_bare h hab]

/-- Looking for contracts keeps the family of the class. -/
theorem kept_keepOwners (file : FileModel) (c : ClassModel) :
    Workspace.Kept texts ws (keepOwners ws file c) := by
  unfold keepOwners
  split
  · exact Workspace.Kept.refl h
  · exact h.keepFamily (some file) c.name

end

/-- Stubs are made of the class that is found and of the contracts that are found after it. -/
theorem missingMethods_fst (ws : Workspace) (name : ClassName) (options : Generation.Options) :
    (missingMethods.generate ws name options).1 = (ws.target name).1.map fun found =>
      ⟨found.1, .empty (found.2.2.body.stop - 1),
        Generation.stubs found.2.2 (contractOwners (ws.target name).2 found.2.1 found.2.2)⟩ := by
  unfold missingMethods
  dsimp only
  split
  next heq => rw [heq]; rfl
  next heq => rw [heq]; rfl

/-- Stubs for methods do not depend on what is kept. -/
theorem transparent_missingMethods : Transparent missingMethods where
  answer h name options := by
    rw [missingMethods_fst, missingMethods_fst]
    apply agreed_eq_iff.mp
    -- one path and one class are found, in files that differ in spelling only
    apply (h.target_agreed name).map
    rintro ⟨path, a, c⟩ ⟨_, b, _⟩ ⟨rfl, hab, rfl⟩
    dsimp only
    rw [contractOwners_target h name hab]
  kept h name options := by
    have htarget := h.target name
    unfold missingMethods
    dsimp only
    split
    next heq => rwa [heq] at htarget
    next heq =>
      rw [heq] at htarget
      exact htarget.trans (kept_keepOwners htarget.trusted _ _)

/-- Declarations of properties are made of the class, the contracts, and the text of the file. -/
theorem missingProperties_fst (ws : Workspace) (name : ClassName) (options : Generation.Options) :
    (missingProperties.generate ws name options).1 = (ws.target name).1.bind fun found =>
      ((ws.target name).2.load found.1).map fun text =>
        let place := min (found.2.2.body.start + 1) found.2.2.body.stop
        ⟨found.1, .empty place, Generation.declarations found.2.2
          (contractOwners (ws.target name).2 found.2.1 found.2.2) (Text.after text place)⟩ := by
  unfold missingProperties
  dsimp only
  split
  next heq => rw [heq]; rfl
  next heq =>
    rw [heq]
    dsimp only [Except.bind]
    split
    next hload => rw [hload]; rfl
    next hload => rw [hload]; rfl

/-- Neither do declarations of properties. -/
theorem transparent_missingProperties : Transparent missingProperties where
  answer h name options := by
    rw [missingProperties_fst, missingProperties_fst]
    apply agreed_eq_iff.mp
    apply (h.target_agreed name).bind
    rintro ⟨path, a, c⟩ ⟨_, b, _⟩ ⟨rfl, hab, rfl⟩
    dsimp only
    -- finding the class has kept models on both sides, and changed no file
    rw [contractOwners_target h name hab, (h.target name).load, (h.bare.target name).load]
    exact agreed_eq_iff.mpr rfl
  kept h name options := by
    have htarget := h.target name
    unfold missingProperties
    dsimp only
    split
    next heq => rwa [heq] at htarget
    next heq =>
      rw [heq] at htarget
      split
      · exact htarget
      · exact htarget.trans (kept_keepOwners htarget.trusted _ _)

theorem transparent_skeleton : Transparent skeleton where
  answer _ _ _ := rfl
  kept h _ _ := Workspace.Kept.refl h

theorem transparent_fixed (edit : Edit) : Transparent (fixed edit) where
  answer _ _ _ := rfl
  kept h _ _ := Workspace.Kept.refl h

end Generator

namespace Generators

/-- All generators are transparent. -/
def Transparent (gs : Generators) : Prop := ∀ entry ∈ gs, entry.2.Transparent

/-- **All generators that a session begins with** are transparent. -/
theorem transparent_defaults : Transparent defaults := by
  intro entry hentry
  simp only [defaults, List.mem_cons, List.not_mem_nil, or_false] at hentry
  rcases hentry with rfl | rfl | rfl
  · exact Generator.transparent_skeleton
  · exact Generator.transparent_missingMethods
  · exact Generator.transparent_missingProperties

/-- Registering a transparent generator leaves all of them transparent, whatever place it takes. -/
theorem Transparent.register (h : gs.Transparent) (kind : String) {g : Generator}
    (hg : g.Transparent) : (gs.register kind g).Transparent := by
  induction gs with
  | nil =>
    intro entry hentry
    obtain rfl := List.mem_singleton.mp hentry
    exact hg
  | cons first rest ih =>
    have hrest : Transparent rest := fun entry hentry => h entry (List.mem_cons_of_mem _ hentry)
    intro entry hentry
    unfold Generators.register at hentry
    -- the new entry takes the place of the first one, comes before it, or comes later
    split at hentry
    · rcases List.mem_cons.mp hentry with rfl | hold
      · exact hg
      · exact hrest entry hold
    · split at hentry
      · rcases List.mem_cons.mp hentry with rfl | hold
        · exact hg
        · exact h entry hold
      · rcases List.mem_cons.mp hentry with rfl | hnew
        · exact h _ List.mem_cons_self
        · exact ih hrest entry hnew

variable {texts : List Text} {ws : Workspace}

/-- What is generated does not depend on what is kept. -/
theorem Transparent.generate_bare (hgs : gs.Transparent) (h : ws.Trusted texts) (kind : String)
    (name : ClassName) (options : Generation.Options) :
    (gs.generate ws kind name options).1 = (gs.generate ws.bare kind name options).1 := by
  unfold Generators.generate
  cases hlookup : gs.lookup kind with
  | none => rfl
  | some g => exact (hgs _ (mem_of_lookup hlookup)).answer h name options

/-- Generating keeps models only. -/
theorem Transparent.generate (hgs : gs.Transparent) (h : ws.Trusted texts) (kind : String)
    (name : ClassName) (options : Generation.Options) :
    Workspace.Kept texts ws (gs.generate ws kind name options).2 := by
  unfold Generators.generate
  cases hlookup : gs.lookup kind with
  | none => exact Workspace.Kept.refl h
  | some g => exact (hgs _ (mem_of_lookup hlookup)).kept h name options

end Generators

end CodeInsight
