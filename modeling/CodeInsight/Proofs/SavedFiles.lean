import CodeInsight.Proofs.MoveSafety
import CodeInsight.Proofs.SessionRuns
import CodeInsight.Proofs.TextLaws

/-!
# Files that were written

What is written to a file is what is read from it afterwards, in bytes and as a text. So after a
class was moved, its new name is looked up in the renamed text, whatever models were kept before and
however the file was moved. That text need not declare the class, and names in it may mean others.

## Main Results

- `Disk.read_of_write`: a file holds what was written to it
- `Move.run_eq_ok`: the calls of a move that succeeds
- `Session.moved_class_is_read_anew`: where the moved class is found
-/

namespace CodeInsight

/-! ## Section 1: Writing and reading -/

namespace Disk

theorem entry?_put (disk : Disk) {location : List Text} (hroot : location ≠ []) (entry : Entry)
    (other : List Text) :
    Disk.entry? (disk.put location entry) other =
      if other = location then some entry else disk.entry? other := by
  unfold entry? put
  by_cases hother : other = []
  · have hne : ¬ [] = location := fun h => hroot h.symm
    simp [hother, hne]
  · by_cases hsame : other = location
    · simp [hsame, hroot]
    · have hbeq : (other == location) = false := beq_eq_false_iff_ne.mpr hsame
      simp only [hother, hsame, if_false, List.lookup_cons, hbeq]
      induction disk.entries with
      | nil => rfl
      | cons first rest ih =>
        obtain ⟨place, found⟩ := first
        by_cases hplace : place = location
        · subst hplace
          simpa [List.lookup_cons, hbeq] using ih
        · have hkept : decide (place ≠ location) = true := decide_eq_true hplace
          simp only [List.filter_cons, hkept, if_true, List.lookup_cons, ih]

section Written

variable {disk after : Disk} {path : String} {location : List Text} {content : Bytes}

/-- What a disk is after a file was written. -/
theorem write_eq_ok (h : disk.write path content = .ok after) :
    ∃ location, disk.locate path = .ok location ∧ disk.entry? location ≠ some .directory ∧
      location ≠ [] ∧ after = disk.put location (.file content) := by
  obtain ⟨location, hlocate, h⟩ := bind_eq_ok.mp h
  have hplace : disk.entry? location ≠ some .directory := by
    intro hdirectory
    simp [hdirectory] at h
  refine ⟨location, hlocate, hplace, ?_, ?_⟩
  · rintro rfl
    exact hplace rfl
  · split at h
    · cases h
    · exact (Except.ok.inj h).symm

/-- A file that takes the place of no directory is on no way. -/
theorem follow_put (hplace : disk.entry? location ≠ some .directory) (hroot : location ≠ [])
    {here pieces found : List Text} :
    (disk.put location (.file content)).follow here pieces = .ok found ↔
      disk.follow here pieces = .ok found := by
  induction pieces generalizing here with
  | nil => exact Iff.rfl
  | cons piece rest ih =>
    unfold follow
    rw [entry?_put disk hroot]
    by_cases hhere : here = location
    · -- neither way goes on from a file
      rw [if_pos hhere, hhere]
      rcases hentry : disk.entry? location with _ | _ | _
      · simp
      · simp
      · exact absurd hentry hplace
    · rw [if_neg hhere]
      split
      · rfl
      · rfl
      · exact bind_eq_ok.trans
          ((exists_congr fun _ => and_congr_right fun _ => ih).trans bind_eq_ok.symm)

theorem locate_put (hplace : disk.entry? location ≠ some .directory) (hroot : location ≠ [])
    {found : List Text} :
    (disk.put location (.file content)).locate path = .ok found ↔ disk.locate path = .ok found := by
  unfold locate
  split
  · rfl
  split
  · rfl
  exact follow_put hplace hroot

/-- **A file holds what was written to it.** -/
theorem read_of_write (h : disk.write path content = .ok after) :
    after.read path = .ok content := by
  obtain ⟨location, hlocate, hplace, hroot, rfl⟩ := write_eq_ok h
  exact read_eq_ok_iff.mpr
    ⟨location, (locate_put hplace hroot).mpr hlocate, by rw [entry?_put disk hroot, if_pos rfl]⟩

end Written

end Disk

/-- Questions leave the files of a project as they are, and what is written is there afterwards. A
file may be moved in any way. -/
structure FileSystem.Honest (fs : FileSystem Disk) (root : String) : Prop where
  present_eq : ∀ path disk, (fs.present path disk).2 = disk
  read_eq : ∀ path disk, fs.read path disk = (disk.read (Path.join root path), disk)
  read_written : ∀ {path content disk after}, fs.write path content disk = (.ok (), after) →
    after.read (Path.join root path) = .ok content

/-- The files of a session are such files, whatever version control does. -/
theorem Session.honest_fileSystem (git : VersionControl) (backend : Backend) (root : String) :
    (fileSystem git backend root).Honest root where
  present_eq _ _ := rfl
  read_eq _ _ := rfl
  read_written {path content disk after} hwrite := by
    change changed disk (disk.write (Path.join root path) content) = _ at hwrite
    unfold changed at hwrite
    split at hwrite
    next written hok =>
      obtain ⟨_, rfl⟩ := Prod.mk.inj hwrite
      exact Disk.read_of_write hok
    next => cases hwrite

/-! ## Section 2: Moves that succeed -/

namespace Move

/-- What has come before the end of a move that succeeded: its file was read in some state, and its
new text was written in another. -/
structure Done {σ : Type} (fs : FileSystem σ) (r : Request) (source target : String)
    (before after : σ) : Prop where
  names : r.Names source target
  text : ∃ asked answered read moved content text file c, fs.present source before = (true, asked) ∧
    fs.present target asked = (false, answered) ∧ fs.read source answered = (.ok content, read) ∧
    Text.decode? content = some text ∧ r.model source text = .ok file ∧
    file.find? r.name = some c ∧ fs.move source target read = (.ok (), moved) ∧
    fs.write target (Text.encode (Rename.renamed file c r.newName text)) moved = (.ok (), after)

theorem plan_eq_ok {σ : Type} {fs : FileSystem σ} {r : Request} {p : Plan} {before read : σ}
    (h : plan fs r.model r.table r.name r.newName before = (.ok p, read)) :
    r.Names p.source p.target ∧ ∃ asked answered content text file c,
      fs.present p.source before = (true, asked) ∧ fs.present p.target asked = (false, answered) ∧
      fs.read p.source answered = (.ok content, read) ∧ Text.decode? content = some text ∧
      r.model p.source text = .ok file ∧ file.find? r.name = some c ∧
      p.text = Rename.renamed file c r.newName text := by
  unfold plan at h
  split at h
  · cases h
  next source hsource =>
    split at h
    · cases h
    next asked hpresent =>
      split at h
      · cases h
      next target htarget =>
        split at h
        · cases h
        next answered hfree =>
          -- all checks have passed, and the file is read
          unfold readPlan at h
          split at h
          · cases h
          next content state hread =>
            cases hnew : newText r.model source content r.name r.newName with
            | error failure => simp [hnew, Except.map] at h
            | ok new =>
              simp only [hnew, Except.map, Prod.mk.injEq, Except.ok.injEq] at h
              obtain ⟨rfl, rfl⟩ := h
              obtain ⟨text, file, c, hdecode, hmodel, hfind, hrenamed⟩ := newText_eq_ok hnew
              exact ⟨⟨hsource, htarget⟩, asked, answered, content, text, file, c, hpresent, hfree,
                hread, hdecode, hmodel, hfind, hrenamed⟩

/-- **The calls of a move that succeeds.** -/
theorem run_eq_ok {σ : Type} {fs : FileSystem σ} {r : Request} {source target : String}
    {before after : σ} (h : r.run fs before = (.ok (source, target), after)) :
    Done fs r source target before after := by
  unfold Request.run Move.run at h
  split at h
  · cases h
  next p read hplan =>
    obtain ⟨hnames, asked, answered, content, text, file, c, hpresent, hfree, hread,
      hdecode, hmodel, hfind, hrenamed⟩ := plan_eq_ok hplan
    -- the checks have passed, and so have the two calls that change files
    unfold commit at h
    split at h
    · cases h
    next moved hmove =>
      split at h
      next written hwrite =>
        simp only [Prod.mk.injEq, Except.ok.injEq] at h
        obtain ⟨⟨rfl, rfl⟩, rfl⟩ := h
        rw [hrenamed] at hwrite
        exact ⟨hnames, asked, answered, read, moved, content, text, file, c, hpresent, hfree, hread,
          hdecode, hmodel, hfind, hmove, hwrite⟩
      next => cases h

end Move

/-! ## Section 3: Where a moved class is found -/

theorem Rename.renamed_same {a b : FileModel} (h : FileModel.Same a b) (c : ClassModel)
    (target : ClassName) (text : Text) : renamed a c target text = renamed b c target text := by
  have hns : namespaceEdit? b c target text = namespaceEdit? a c target text := by
    rw [h.rest]
    rfl
  unfold renamed edits
  rw [hns]
  -- there are two edits at most, and which of them comes first is told by their places
  cases namespaceEdit? a c target text <;> cases nameEdit? c target <;>
    simp only [Option.toList, List.append_nil, List.nil_append, List.cons_append, List.map_cons,
      List.map_nil, Edit.applyAll, stableSort, List.foldr_cons, List.foldr_nil, insertSorted,
      List.foldl_cons, List.foldl_nil, Edit.later]
  · rfl
  · rfl
  next first second => by_cases hlater : decide (second.1.start ≤ first.1.start) = true <;>
    simp only [hlater, if_true, List.foldl_cons, List.foldl_nil] <;> rfl

namespace Session

variable {texts : List Text} {s : Session}

/-- The class of a name is that of the text in the file where it must be. -/
theorem Trusted.reflectClass_eq (h : s.Trusted texts) {name : ClassName} {path : String}
    {text : Text} (hpath : s.workspace.table.pathOf name = .ok path)
    (hload : s.workspace.load path = .ok text) :
    (s.reflectClass name).1 =
      (FileModel.ofText path text).bind fun file => Workspace.classIn file path name := by
  have hreflect : (s.bare.workspace.reflectFile path).1 = FileModel.ofText path text :=
    Workspace.reflectFile_bare hload
  rw [h.reflectClass_bare]
  unfold Session.reflectClass
  dsimp only
  have htable : s.bare.workspace.table = s.workspace.table := rfl
  rw [Workspace.target_fst, htable, hpath]
  dsimp only [Except.bind]
  rw [hreflect]
  cases FileModel.ofText path text with
  | error failure => rfl
  | ok file =>
    dsimp only
    cases Workspace.classIn file path name <;> rfl

/-- The move that a session asks for. -/
def moveRequest (s : Session) (name newName : ClassName) : Move.Request :=
  ⟨s.workspace.table, name, newName, s.workspace.known?⟩

/-- The move of a session is the one it asks for, and leaves its table and root alone. -/
theorem moveOn_eq_ok {fs : FileSystem Disk} {name newName : ClassName} {source target : String}
    {after : Session} (h : s.moveOn fs name newName = (.ok (source, target), after)) :
    (s.moveRequest name newName).run fs s.workspace.disk =
        (.ok (source, target), after.workspace.disk) ∧
      after.workspace.table = s.workspace.table ∧ after.workspace.root = s.workspace.root := by
  cases hrun : Move.run fs s.workspace.model s.workspace.table name newName s.workspace.disk with
  | mk answer disk =>
    unfold moveOn at h
    simp only [hrun, Prod.mk.injEq] at h
    obtain ⟨rfl, rfl⟩ := h
    exact ⟨hrun, rfl, rfl⟩

/-- **After a move** the new name is looked up in the renamed text of the file that declared the
old one. -/
theorem Trusted.reflectClass_after_move (h : s.Trusted texts) {fs : FileSystem Disk}
    (hfs : fs.Honest s.workspace.root) {name newName : ClassName} {source target : String}
    {after : Session} (hmove : s.moveOn fs name newName = (.ok (source, target), after))
    (hafter : after.Trusted texts) :
    ∃ text file c, s.workspace.table.pathOf name = .ok source ∧ s.workspace.load source = .ok text ∧
      FileModel.ofText source text = .ok file ∧ file.find? name = some c ∧
      (s.reflectClass name).1 = .ok c ∧
      (after.reflectClass newName).1 =
        (FileModel.ofText target (Rename.renamed file c newName text)).bind fun new =>
          Workspace.classIn new target newName := by
  obtain ⟨hrun, htable, hroot⟩ := moveOn_eq_ok hmove
  obtain ⟨⟨hsource, htarget⟩, asked, answered, read, moved, content, text, kept, c, hpresent, hfree,
    hread, hdecode, hmodel, hfind, hmoved, hwrite⟩ := Move.run_eq_ok hrun
  -- looking for the two paths changes nothing
  obtain rfl : s.workspace.disk = asked :=
    (hfs.present_eq source _).symm.trans (congrArg Prod.snd hpresent)
  obtain rfl : s.workspace.disk = answered :=
    (hfs.present_eq target _).symm.trans (congrArg Prod.snd hfree)
  obtain ⟨hcontent, rfl⟩ := Prod.mk.inj ((hfs.read_eq source _).symm.trans hread)
  have hload : s.workspace.load source = .ok text :=
    Workspace.load_eq_ok_iff.mpr (Disk.readText_eq_ok_iff.mpr ⟨content, hcontent, hdecode⟩)
  have hnew : after.workspace.load target = .ok (Rename.renamed kept c newName text) := by
    refine Workspace.load_eq_ok_iff.mpr (Disk.readText_eq_ok_iff.mpr ⟨_, ?_, Text.decode?_encode _⟩)
    rw [hroot]
    exact hfs.read_written hwrite
  -- the model that served for the renaming is that of the text
  have hsame := h.workspace.model_agreed source (h.workspace.mem_of_load hload)
  have hmodel : s.workspace.model source text = .ok kept := hmodel
  cases hof : FileModel.ofText source text with
  | error failure =>
    rw [hmodel, hof] at hsame
    exact hsame.elim
  | ok file =>
    rw [hmodel, hof] at hsame
    have hfind' : file.find? name = some c := by
      rw [hsame.rest]
      exact hfind
    have hsource : s.workspace.table.pathOf name = .ok source := hsource
    refine ⟨text, file, c, hsource, hload, hof, hfind', ?_, ?_⟩
    · rw [h.reflectClass_eq hsource hload, hof]
      simp [Except.bind, Workspace.classIn, hfind']
    · rw [← Rename.renamed_same hsame]
      exact hafter.reflectClass_eq (htable ▸ htarget) hnew

/-- **A moved class is what its renamed text declares.** After any steps on a new session, a move
that succeeds leaves the new name to be looked up in the renamed text of the file that declared the
old one, as long as digests tell the texts in question apart. -/
theorem moved_class_is_read_anew {disk : Disk} {config : Config} {s₀ : Session}
    (hstart : start disk config = .ok s₀) (steps : List Step) {fs : FileSystem Disk}
    {name target : ClassName} (hfs : fs.Honest (run steps s₀).workspace.root)
    {source destination : String}
    (hmove : ((run steps s₀).moveOn fs name target).1 = .ok (source, destination))
    (hdistinct : Digest.Distinct (involved (steps ++ [.moveOn fs name target]) s₀)) :
    ∃ text file c, (run steps s₀).workspace.load source = .ok text ∧
      FileModel.ofText source text = .ok file ∧ file.find? name = some c ∧
      ((run steps s₀).reflectClass name).1 = .ok c ∧
      (((run steps s₀).moveOn fs name target).2.reflectClass target).1 =
        (FileModel.ofText destination (Rename.renamed file c target text)).bind fun new =>
          Workspace.classIn new destination target := by
  have h₀ := trusted_start hstart hdistinct (files_involved (steps ++ [.moveOn fs name target]) s₀)
  have hbefore := trusted_run steps h₀ (involved_subset steps [.moveOn fs name target] s₀)
  have hafter := hbefore.take (.moveOn fs name target) (List.forall_mem_nil _) fun t ht =>
    involved_append steps [.moveOn fs name target] s₀ t (List.mem_append_right _ ht)
  obtain ⟨text, file, c, -, hload, hfile, hfind, hc, hc'⟩ :=
    hbefore.reflectClass_after_move hfs (Prod.ext hmove rfl) hafter
  exact ⟨text, file, c, hload, hfile, hfind, hc, hc'⟩

/-! ## Section 4: What a renamed text declares -/

/-- A session on a project with one file, which is in one of three directories. -/
def withFile (directory name : String) (text : Text) : Session :=
  ⟨⟨"/p", ⟨[['p']], [([['p']], .directory), ([['p'], directory.toList], .directory),
      ([['p'], directory.toList, name.toList], .file (Text.encode text))]⟩,
      ⟨[⟨"App\\", "app/"⟩, ⟨"Lib\\", "lib/"⟩, ⟨"", "src/"⟩]⟩, []⟩, [], Completion.defaults,
    Generators.defaults, .simple⟩

/-- A script that names its interpreter. -/
def scriptText : Text := "#!/usr/bin/env php\n<?php\nclass Foo \x7b\x7d\n".toList

/-- The namespace is written before the opening tag, where it is no code. -/
theorem script_loses_moved_class :
    ((withFile "src" "Foo.php" scriptText).moveClass ⟨"", "Foo"⟩ ⟨"App", "Foo"⟩).1 =
        .ok ("src/Foo.php", "app/Foo.php") ∧
      (((withFile "src" "Foo.php" scriptText).moveClass ⟨"", "Foo"⟩ ⟨"App", "Foo"⟩).2.reflectClass
        ⟨"App", "Foo"⟩).1 = .error (.classNotFound "app/Foo.php" 1) := by
  decide +kernel

/-- A class with a parent, an interface and a trait of its own namespace. -/
def relativeText : Text :=
  "<?php\nnamespace App;\nclass Foo extends Base implements Contract \x7b use Helper; \x7d\n".toList

/-- Names in the declaration stay as they are written, and are read in the new namespace. -/
theorem relative_names_follow_namespace :
    (((withFile "app" "Foo.php" relativeText).reflectClass ⟨"App", "Foo"⟩).1.map fun c =>
        (c.parent, c.implemented, c.traits)) =
        .ok (some ⟨"App", "Base"⟩, [⟨"App", "Contract"⟩], [⟨"App", "Helper"⟩]) ∧
      ((withFile "app" "Foo.php" relativeText).moveClass ⟨"App", "Foo"⟩ ⟨"Lib", "Foo"⟩).1 =
        .ok ("app/Foo.php", "lib/Foo.php") ∧
      ((((withFile "app" "Foo.php" relativeText).moveClass ⟨"App", "Foo"⟩
        ⟨"Lib", "Foo"⟩).2.reflectClass ⟨"Lib", "Foo"⟩).1.map fun c =>
          (c.parent, c.implemented, c.traits)) =
        .ok (some ⟨"Lib", "Base"⟩, [⟨"Lib", "Contract"⟩], [⟨"Lib", "Helper"⟩]) := by
  decide +kernel

end Session

end CodeInsight
