import CodeInsight.Move.Memory
import Mathlib.Data.Set.Card

/-!
# Moves neither lose nor duplicate a file

A file system is seen through the map of its files. If presence is answered truthfully and a call
that fails changes no file, then a move of a class, whatever fails on the way, either leaves the map
as it was or takes one file to a place that was free. The same holds of every move of a run, in
which the target of one move may be the source of a later one.

## Main Results

- `plan_spec`: the checks of a move change no file
- `commit_spec`: a move that passed its checks relocates its file, or reports what it left
- `run_contract`: the contract of one move
- `moves_keep_files`: the contract of every move of a run, and the number of files
- `Memory.faithful_fileSystem`: files in memory are such a file system
-/

namespace CodeInsight

variable {answer : Except Failure (String × String)} {content : Bytes} {p : Plan}

/-! ## Section 1: File systems seen as maps -/

/-- The calls of a file system, seen through the map of its files. `place` tells which paths name
one file, `files` gives the content at every place, and `truthful` singles out the states in which
questions for files are answered truthfully. Any other call may fail, and then no file changes. -/
structure FileSystem.Faithful {σ κ : Type} (fs : FileSystem σ) (place : String → κ)
    (files : σ → κ → Option Bytes) (truthful : σ → Prop) : Prop where
  present_spec : ∀ {s : σ}, truthful s → ∀ path : String, ∃ s' : σ,
    fs.present path s = ((files s (place path)).isSome, s') ∧ truthful s' ∧ files s' = files s
  read_spec : ∀ {s : σ}, truthful s → ∀ path : String, ∃ answer, ∃ s' : σ,
    fs.read path s = (answer, s') ∧ truthful s' ∧ files s' = files s ∧
      ∀ content, answer = .ok content → files s (place path) = some content
  move_spec : ∀ {s : σ}, truthful s → ∀ source target : String, ∃ answer, ∃ s' : σ,
    fs.move source target s = (answer, s') ∧ truthful s' ∧
      (∀ e, answer = .error e → files s' = files s) ∧
      (answer = .ok () → ∃ content, files s (place source) = some content ∧
        files s' (place target) = some content ∧
        (place source ≠ place target → files s' (place source) = none) ∧
        ∀ k, k ≠ place source → k ≠ place target → files s' k = files s k)
  write_spec : ∀ {s : σ}, truthful s → ∀ (path : String) (content : Bytes), ∃ answer, ∃ s' : σ,
    fs.write path content s = (answer, s') ∧ truthful s' ∧
      (∀ e, answer = .error e → files s' = files s) ∧
      (answer = .ok () → files s' (place path) = some content ∧
        ∀ k, k ≠ place path → files s' k = files s k)

namespace Move

/-- A file was taken from one place to another one, which was free and now holds `new`. -/
structure Relocated {κ : Type} (before after : κ → Option Bytes) (source target : κ)
    (content new : Bytes) : Prop where
  taken : before source = some content
  free : before target = none
  gone : after source = none
  arrived : after target = some new
  elsewhere : ∀ k, k ≠ source → k ≠ target → after k = before k

/-- Number of files. -/
noncomputable def population {κ : Type} (files : κ → Option Bytes) : ℕ∞ :=
  Set.encard {k | (files k).isSome}

section Relocated

variable {κ : Type} {before after : κ → Option Bytes} {source target : κ} {new : Bytes}
  (h : Relocated before after source target content new)
include h

theorem Relocated.source_ne_target : source ≠ target := by
  rintro rfl
  have htaken := h.taken
  rw [h.free] at htaken
  cases htaken

theorem Relocated.not_both : ¬ ((after source).isSome ∧ (after target).isSome) := by
  simp [h.gone]

/-- Relocation takes one place out of the populated ones and puts another one in. -/
theorem Relocated.population_eq : population after = population before := by
  have hset : {k | (after k).isSome} = insert target ({k | (before k).isSome} \ {source}) := by
    ext k
    by_cases hsource : k = source
    · simp [hsource, h.gone, h.source_ne_target]
    · by_cases htarget : k = target
      · simp [htarget, h.arrived]
      · simp [hsource, htarget, h.elsewhere k hsource htarget]
  have hfree : target ∉ {k | (before k).isSome} \ {source} := by simp [h.free]
  have htaken : source ∈ {k | (before k).isSome} := by simp [h.taken]
  unfold population
  rw [hset, Set.encard_insert_of_notMem hfree, Set.encard_sdiff_singleton_add_one htaken]

end Relocated

/-! ## Section 2: What a move promises -/

/-- A move that is asked for. -/
structure Request where
  table : Autoload.Table
  name : ClassName
  newName : ClassName
  /-- Models of texts that are kept from before. -/
  kept : String → Text → Option FileModel

/-- The model of a text, kept or made. -/
def Request.model (r : Request) (path : String) (text : Text) : Except Failure FileModel :=
  match r.kept path text with
  | some file => .ok file
  | none => FileModel.ofText path text

/-- Carries out a request. -/
def Request.run {σ : Type} (fs : FileSystem σ) (r : Request) (s : σ) :
    Except Failure (String × String) × σ :=
  Move.run fs r.model r.table r.name r.newName s

/-- The two paths of an answer after which a file may have been moved. -/
def pathsOf : Except Failure (String × String) → Option (String × String)
  | .ok paths => some paths
  | .error (.inconsistentMove source target _) => some (source, target)
  | .error _ => none

/-- The two paths of a move are those of the old and of the new name. -/
def Request.Names (r : Request) (source target : String) : Prop :=
  r.table.pathOf r.name = .ok source ∧ r.table.pathOf r.newName = .ok target

/-- **The contract of a move**, by its answer. After a success the file is at its new place with the
class renamed in it. After an inconsistent move either nothing has changed or the file is at its new
place with its old content. After any other failure nothing has changed. -/
def Contract {κ : Type} (place : String → κ) (r : Request) (before after : κ → Option Bytes) :
    Except Failure (String × String) → Prop
  | .ok (source, target) =>
    r.Names source target ∧
      ∃ content text file c, Text.decode? content = some text ∧ r.model source text = .ok file ∧
        file.find? r.name = some c ∧
        Relocated before after (place source) (place target) content
          (Text.encode (Rename.renamed file c r.newName text))
  | .error (.inconsistentMove source target _) =>
    r.Names source target ∧ (before (place source)).isSome ∧ before (place target) = none ∧
      (after = before ∨
        ∃ content, Relocated before after (place source) (place target) content content)
  | .error _ => after = before

variable {r : Request}

/-- After a move its two places are not both populated. -/
theorem Contract.not_both {κ : Type} {place : String → κ} {before after : κ → Option Bytes}
    (h : Contract place r before after answer) {source target : String}
    (hpaths : pathsOf answer = some (source, target)) :
    ¬ ((after (place source)).isSome ∧ (after (place target)).isSome) := by
  unfold pathsOf at hpaths
  split at hpaths
  next paths =>
    obtain rfl : paths = (source, target) := Option.some.inj hpaths
    obtain ⟨_, _, _, _, _, _, _, _, hmoved⟩ := h
    exact hmoved.not_both
  next f t reason =>
    obtain ⟨rfl, rfl⟩ : f = source ∧ t = target := by simpa using hpaths
    obtain ⟨_, _, hfree, rfl | ⟨content, hmoved⟩⟩ := h
    · simp [hfree]
    · exact hmoved.not_both
  next => cases hpaths

/-- A move does not change the number of files. -/
theorem Contract.population_eq {κ : Type} {place : String → κ} {before after : κ → Option Bytes}
    (h : Contract place r before after answer) : population after = population before := by
  unfold Contract at h
  split at h
  next =>
    obtain ⟨_, _, _, _, _, _, _, _, hmoved⟩ := h
    exact hmoved.population_eq
  next =>
    obtain ⟨_, _, _, rfl | ⟨content, hmoved⟩⟩ := h
    · rfl
    · exact hmoved.population_eq
  next => rw [h]

/-! ## Section 3: The checks -/

section

variable {failure : Failure} {path : String}

/-- The failure says that a file was moved but not written. -/
def IsInconsistent (failure : Failure) : Prop :=
  ∃ source target reason, failure = .inconsistentMove source target reason

theorem contract_of_unchanged {κ : Type} {place : String → κ} {before after : κ → Option Bytes}
    (h : after = before) (hother : ¬ IsInconsistent failure) :
    Contract place r before after (.error failure) := by
  unfold Contract
  split
  next heq => cases heq
  next f t reason heq =>
    exact absurd ⟨f, t, reason, Except.error.inj heq⟩ hother
  next => exact h

theorem Request.model_error {text : Text} (h : r.model path text = .error failure) :
    ¬ IsInconsistent failure := by
  unfold Request.model FileModel.ofText at h
  split at h
  · cases h
  · split at h
    · cases h
    · cases h
      rintro ⟨_, _, _, heq⟩
      cases heq

theorem pathOf_error {table : Autoload.Table} {c : ClassName}
    (h : table.pathOf c = .error failure) :
    ¬ IsInconsistent failure := by
  unfold Autoload.Table.pathOf at h
  rintro ⟨_, _, _, rfl⟩
  split at h
  · cases h
  · split at h <;> cases h

/-- What is known of a move that has passed its checks. -/
structure Planned {κ : Type} (place : String → κ) (r : Request) (files : κ → Option Bytes)
    (p : Plan) : Prop where
  names : r.Names p.source p.target
  free : files (place p.target) = none
  renamed : ∃ content text file c, files (place p.source) = some content ∧
    Text.decode? content = some text ∧ r.model p.source text = .ok file ∧
    file.find? r.name = some c ∧ p.text = Rename.renamed file c r.newName text

theorem newText_eq_ok {new : Text} (h : newText r.model path content r.name r.newName = .ok new) :
    ∃ text file c, Text.decode? content = some text ∧ r.model path text = .ok file ∧
      file.find? r.name = some c ∧ new = Rename.renamed file c r.newName text := by
  unfold newText at h
  split at h
  next => cases h
  next text hdecode =>
    obtain ⟨file, hmodel, h⟩ := bind_eq_ok.mp h
    obtain ⟨c, hclass, h⟩ := bind_eq_ok.mp h
    unfold Workspace.classIn at hclass
    split at hclass
    next hfind =>
      cases hclass
      exact ⟨text, file, c, hdecode, hmodel, hfind, (Except.ok.inj h).symm⟩
    next => cases hclass

theorem newText_error (h : newText r.model path content r.name r.newName = .error failure) :
    ¬ IsInconsistent failure := by
  rintro ⟨source, target, reason, rfl⟩
  unfold newText at h
  split at h
  next => cases h
  next text hdecode =>
    cases hmodel : r.model path text with
    | error failure =>
      simp only [hmodel, bind, Except.bind, Except.error.injEq] at h
      exact Request.model_error hmodel ⟨source, target, reason, h⟩
    | ok file =>
      cases hfind : file.find? r.name <;>
        simp [hmodel, hfind, Workspace.classIn, bind, Except.bind, pure, Except.pure] at h

/-- What the checks of a move tell: what passes them is planned, and what fails them is no
inconsistent move. -/
def Checked {κ : Type} (place : String → κ) (r : Request) (files : κ → Option Bytes) :
    Except Failure Plan → Prop
  | .ok p => Planned place r files p
  | .error failure => ¬ IsInconsistent failure

end

section Steps

variable {σ κ : Type} {fs : FileSystem σ} {place : String → κ} {files : σ → κ → Option Bytes}
  {truthful : σ → Prop} {s : σ}

section

variable (h : fs.Faithful place files truthful)
include h

/-- Reading the file of a class changes no file. -/
theorem readPlan_spec {source target : String} (hnames : r.Names source target) (hs : truthful s)
    (hfree : files s (place target) = none) :
    ∃ answer, ∃ s' : σ, readPlan fs r.model source target r.name r.newName s = (answer, s') ∧
      truthful s' ∧ files s' = files s ∧ Checked place r (files s) answer := by
  obtain ⟨answer, s', hread, hs', hfiles, hcontent⟩ := h.read_spec hs source
  simp only [readPlan, hread]
  cases answer with
  | error e => exact ⟨_, s', rfl, hs', hfiles, by simp [Checked, IsInconsistent]⟩
  | ok content =>
    refine ⟨_, s', rfl, hs', hfiles, ?_⟩
    cases hnew : newText r.model source content r.name r.newName with
    | error failure => exact newText_error hnew
    | ok new =>
      obtain ⟨text, file, c, hdecode, hmodel, hfind, hrenamed⟩ := newText_eq_ok hnew
      exact ⟨hnames, hfree, content, text, file, c, hcontent content rfl, hdecode, hmodel, hfind,
        hrenamed⟩

/-- **The checks of a move** change no file. -/
theorem plan_spec (r : Request) (hs : truthful s) :
    ∃ answer, ∃ s' : σ, plan fs r.model r.table r.name r.newName s = (answer, s') ∧
      truthful s' ∧ files s' = files s ∧ Checked place r (files s) answer := by
  unfold plan
  cases hsource : r.table.pathOf r.name with
  | error failure => exact ⟨_, s, rfl, hs, rfl, pathOf_error hsource⟩
  | ok source =>
    obtain ⟨s₁, hpresent₁, hs₁, hfiles₁⟩ := h.present_spec hs source
    -- no check changes a file, so each of them sees the files as they were
    simp only [hpresent₁]
    cases (files s (place source)).isSome with
    | false => exact ⟨_, s₁, rfl, hs₁, hfiles₁, by simp [Checked, IsInconsistent]⟩
    | true =>
      cases htarget : r.table.pathOf r.newName with
      | error failure => exact ⟨_, s₁, rfl, hs₁, hfiles₁, pathOf_error htarget⟩
      | ok target =>
        obtain ⟨s₂, hpresent₂, hs₂, hfiles₂⟩ := h.present_spec hs₁ target
        have hfiles : files s₂ = files s := hfiles₂.trans hfiles₁
        simp only [hpresent₂]
        cases hthere : (files s₁ (place target)).isSome with
        | true => exact ⟨_, s₂, rfl, hs₂, hfiles, by simp [Checked, IsInconsistent]⟩
        | false =>
          have hfree : files s₂ (place target) = none := by
            rw [hfiles₂]
            simpa using hthere
          obtain ⟨answer, s₃, hplan, hs₃, hfiles₃, hchecked⟩ :=
            readPlan_spec h ⟨hsource, htarget⟩ hs₂ hfree
          exact ⟨answer, s₃, hplan, hs₃, hfiles₃.trans hfiles, hfiles ▸ hchecked⟩

/-! ## Section 4: The move itself -/

/-- Moving the file back to its free old place restores every file. -/
theorem undo_spec {before : κ → Option Bytes} (hs : truthful s)
    (hmoved : Relocated before (files s) (place p.source) (place p.target) content content)
    (e : FileError) :
    ∃ reason, ∃ s' : σ, undo fs p e s = (.inconsistentMove p.source p.target reason, s') ∧
      truthful s' ∧ (files s' = before ∨
        Relocated before (files s') (place p.source) (place p.target) content content) := by
  obtain ⟨answer, s', hback, hs', herror, hok⟩ := h.move_spec hs p.target p.source
  unfold undo
  simp only [hback]
  cases answer with
  | error back =>
    refine ⟨_, s', rfl, hs', Or.inr ?_⟩
    rw [herror back rfl]
    exact hmoved
  | ok =>
    refine ⟨_, s', rfl, hs', Or.inl ?_⟩
    obtain ⟨found, hfound, harrived, hgone, helsewhere⟩ := hok rfl
    have hcontent : found = content := by
      rw [hmoved.arrived] at hfound
      exact (Option.some.inj hfound).symm
    funext k
    by_cases hsource : k = place p.source
    · rw [hsource, harrived, hmoved.taken, hcontent]
    · by_cases htarget : k = place p.target
      · rw [htarget, hgone hmoved.source_ne_target.symm, hmoved.free]
      · rw [helsewhere k htarget hsource, hmoved.elsewhere k hsource htarget]

/-- **The move after its checks** keeps its contract, wherever it fails. -/
theorem commit_spec (hs : truthful s) (hplan : Planned place r (files s) p) :
    ∃ answer, ∃ s' : σ, commit fs p s = (answer, s') ∧ truthful s' ∧
      Contract place r (files s) (files s') answer := by
  obtain ⟨content, text, file, c, htaken, hdecode, hmodel, hfind, htext⟩ := hplan.renamed
  obtain ⟨answer, s₁, hmove, hs₁, herror, hok⟩ := h.move_spec hs p.source p.target
  unfold commit
  simp only [hmove]
  cases answer with
  | error e =>
    exact ⟨_, s₁, rfl, hs₁, contract_of_unchanged (herror e rfl) (by simp [IsInconsistent])⟩
  | ok =>
    have hmoved :
        Relocated (files s) (files s₁) (place p.source) (place p.target) content content := by
      obtain ⟨found, hfound, harrived, hgone, helsewhere⟩ := hok rfl
      have hne : place p.source ≠ place p.target := by
        intro heq
        rw [heq, hplan.free] at htaken
        cases htaken
      obtain rfl : found = content := Option.some.inj (hfound.symm.trans htaken)
      exact ⟨htaken, hplan.free, hgone hne, harrived, helsewhere⟩
    obtain ⟨answer, s₂, hwrite, hs₂, herror₂, hok₂⟩ :=
      h.write_spec hs₁ p.target (Text.encode p.text)
    simp only [hwrite]
    cases answer with
    | ok =>
      obtain ⟨harrived, helsewhere⟩ := hok₂ rfl
      refine ⟨_, s₂, rfl, hs₂, hplan.names, content, text, file, c, hdecode, hmodel, hfind, ?_⟩
      refine ⟨htaken, hplan.free, ?_, htext ▸ harrived, ?_⟩
      · rw [helsewhere _ hmoved.source_ne_target, hmoved.gone]
      · intro k hsource htarget
        rw [helsewhere k htarget, hmoved.elsewhere k hsource htarget]
    | error e =>
      -- the file stands at its new place with its old content, from where it is moved back
      have hstranded := hmoved
      rw [← herror₂ e rfl] at hstranded
      obtain ⟨reason, s₃, hundo, hs₃, houtcome⟩ := undo_spec h hs₂ hstranded e
      simp only [hundo]
      refine ⟨_, s₃, rfl, hs₃, hplan.names, by simp [htaken], hplan.free, ?_⟩
      exact houtcome.imp id fun hleft => ⟨content, hleft⟩

/-- **The contract of one move.** -/
theorem run_contract (r : Request) (hs : truthful s) :
    ∃ answer, ∃ s' : σ, r.run fs s = (answer, s') ∧ truthful s' ∧
      Contract place r (files s) (files s') answer := by
  obtain ⟨answer, s₁, hplan, hs₁, hfiles, hchecked⟩ := plan_spec h r hs
  unfold Request.run run
  simp only [hplan]
  cases answer with
  | error failure => exact ⟨_, s₁, rfl, hs₁, contract_of_unchanged hfiles hchecked⟩
  | ok p =>
    rw [← hfiles] at hchecked ⊢
    exact commit_spec h hs₁ hchecked

/-! ## Section 5: Runs of moves -/

/-- What a run shows of one of its moves. -/
structure Observed (σ : Type) where
  request : Request
  before : σ
  answer : Except Failure (String × String)
  after : σ

/-- Carries out requests one after the other: what is seen of each, and the last state. -/
def runAll (fs : FileSystem σ) : List Request → σ → List (Observed σ) × σ
  | [], s => ([], s)
  | r :: rest, s =>
    let (answer, s') := r.run fs s
    let (observed, last) := runAll fs rest s'
    (⟨r, s, answer, s'⟩ :: observed, last)

/-- Every move of a run keeps its contract, and the last state has as many files as the first. -/
theorem runAll_contract (requests : List Request) (hs : truthful s) :
    (∀ o ∈ (runAll fs requests s).1,
      Contract place o.request (files o.before) (files o.after) o.answer) ∧
      population (files (runAll fs requests s).2) = population (files s) := by
  induction requests generalizing s with
  | nil => exact ⟨by simp [runAll], rfl⟩
  | cons r rest ih =>
    obtain ⟨answer, s', hrun, hs', hcontract⟩ := run_contract h r hs
    obtain ⟨hrest, hlast⟩ := ih hs'
    simp only [runAll, hrun, List.mem_cons, forall_eq_or_imp]
    exact ⟨⟨hcontract, hrest⟩, hlast.trans hcontract.population_eq⟩

end

/-- **Moves neither lose nor duplicate a file.** Over a faithful file system, every move of every
run keeps its contract, never leaves both of its paths populated and never changes the number of
files. -/
theorem moves_keep_files (h : fs.Faithful place files truthful) (requests : List Request) {s : σ}
    (hs : truthful s) :
    (∀ o ∈ (runAll fs requests s).1,
      Contract place o.request (files o.before) (files o.after) o.answer ∧
      (∀ source target, pathsOf o.answer = some (source, target) →
        ¬ ((files o.after (place source)).isSome ∧ (files o.after (place target)).isSome)) ∧
      population (files o.after) = population (files o.before)) ∧
    population (files (runAll fs requests s).2) = population (files s) := by
  obtain ⟨hcontracts, hlast⟩ := runAll_contract h requests hs
  refine ⟨fun o ho => ?_, hlast⟩
  have hcontract := hcontracts o ho
  exact ⟨hcontract, fun _ _ hpaths => hcontract.not_both hpaths, hcontract.population_eq⟩

end Steps

/-! ## Section 6: Files in memory -/

namespace Memory

/-- Questions whether a file is there are never refused. -/
def Truthful (m : Memory) : Prop := ∀ n, (Action.present, n) ∉ m.refused

theorem lookup_cons_eq_ite (name k : String) (content : Bytes) (rest : List (String × Bytes)) :
    ((name, content) :: rest).lookup k = if k = name then some content else rest.lookup k := by
  by_cases hk : k = name
  · simp [hk]
  · have hbeq : (k == name) = false := beq_eq_false_iff_ne.mpr hk
    simp [List.lookup_cons, hbeq, hk]

theorem get?_erase (m : Memory) (path k : String) :
    (m.erase path).get? k = if k = path then none else m.get? k := by
  unfold erase get?
  induction m.files with
  | nil => simp
  | cons f rest ih =>
    obtain ⟨name, content⟩ := f
    by_cases hname : name = path
    · rw [List.filter_cons_of_neg (by simpa using hname), ih, lookup_cons_eq_ite, hname]
      by_cases hk : k = path <;> simp [hk]
    · rw [List.filter_cons_of_pos (by simpa using hname), lookup_cons_eq_ite, ih,
        lookup_cons_eq_ite]
      by_cases hk : k = name
      · simp [hk, hname]
      · simp [hk]

theorem get?_put (m : Memory) (path k : String) (content : Bytes) :
    (m.put path content).get? k = if k = path then some content else m.get? k := by
  have hcons : (m.put path content).get? k =
      if k = path then some content else (m.erase path).get? k :=
    lookup_cons_eq_ite path k content (m.erase path).files
  rw [hcons, get?_erase]
  by_cases hk : k = path <;> simp [hk]

@[simp] theorem get?_record (m : Memory) (action : Action) (paths : List String) :
    (m.record action paths).get? = m.get? := rfl

/-- **Files in memory are faithful** as long as no question for a file is refused. -/
theorem faithful_fileSystem : fileSystem.Faithful id get? Truthful where
  present_spec := by
    intro m hm path
    have hasked : (m.record .present [path]).refuses .present = false := by
      simpa [refuses, record] using hm _
    refine ⟨m.record .present [path], ?_, hm, rfl⟩
    simp [fileSystem, hasked]
  read_spec := by
    intro m hm path
    unfold fileSystem
    by_cases hrefused : (m.record .read [path]).refuses .read = true
    · exact ⟨.error (refusal .read), m.record .read [path], by simp [hrefused], hm, rfl, by simp⟩
    · cases hget : m.get? path with
      | none =>
        exact ⟨.error .missing, m.record .read [path], by simp [hrefused, hget], hm, rfl, by simp⟩
      | some content =>
        refine ⟨.ok content, m.record .read [path], by simp [hrefused, hget], hm, rfl, ?_⟩
        intro found hfound
        rw [id, hget, Except.ok.inj hfound]
  move_spec := by
    intro m hm source target
    unfold fileSystem
    by_cases hrefused : (m.record .move [source, target]).refuses .move = true
    · exact ⟨.error (refusal .move), m.record .move [source, target], by simp [hrefused], hm,
        fun _ _ => rfl, by simp⟩
    · cases hget : m.get? source with
      | none =>
        exact ⟨.error .missing, m.record .move [source, target], by simp [hrefused, hget], hm,
          fun _ _ => rfl, by simp⟩
      | some content =>
        -- the content is at the target, the source is gone and the rest is as it was
        refine ⟨.ok (), ((m.record .move [source, target]).erase source).put target content,
          by simp [hrefused, hget], hm, by simp, fun _ => ⟨content, hget, ?_, ?_, ?_⟩⟩
        · simp [get?_put]
        · intro hne
          have hne' : ¬ source = target := hne
          simp [get?_put, get?_erase, hne']
        · intro k hsource htarget
          have hsource' : ¬ k = source := hsource
          have htarget' : ¬ k = target := htarget
          simp [get?_put, get?_erase, hsource', htarget']
  write_spec := by
    intro m hm path content
    unfold fileSystem
    by_cases hrefused : (m.record .write [path]).refuses .write = true
    · exact ⟨.error (refusal .write), m.record .write [path], by simp [hrefused], hm,
        fun _ _ => rfl, by simp⟩
    · refine ⟨.ok (), (m.record .write [path]).put path content, by simp [hrefused], hm, by simp,
        fun _ => ⟨by simp [get?_put], ?_⟩⟩
      intro k hk
      have hk' : ¬ k = path := hk
      simp [get?_put, hk']

/-- One class file. The second and the third write fail, and so does the fifth move. -/
def oneClass : Memory where
  files := [("src/A.php", Text.encode "<?php namespace App; class A {}".toList)]
  calls := []
  refused := [(.write, 2), (.write, 3), (.move, 5)]

/-- The class `A` becomes `B`, and then is to become `C` twice. -/
def threeRequests : List Request :=
  [⟨⟨[⟨"App\\", "src/"⟩]⟩, ⟨"App", "A"⟩, ⟨"App", "B"⟩, fun _ _ => none⟩,
    ⟨⟨[⟨"App\\", "src/"⟩]⟩, ⟨"App", "B"⟩, ⟨"App", "C"⟩, fun _ _ => none⟩,
    ⟨⟨[⟨"App\\", "src/"⟩]⟩, ⟨"App", "B"⟩, ⟨"App", "C"⟩, fun _ _ => none⟩]

/-- A run in which one move succeeds, one is undone and one cannot be undone: the only file ends at
the last path, with the content it had before. -/
theorem moves_keep_one_class :
    (runAll fileSystem threeRequests oneClass).1.map Observed.answer =
        [.ok ("src/A.php", "src/B.php"),
          .error (.inconsistentMove "src/B.php" "src/C.php"
            "write refused; the move was rolled back"),
          .error (.inconsistentMove "src/B.php" "src/C.php"
            "write refused; rolling back also failed: move refused")] ∧
      (runAll fileSystem threeRequests oneClass).2.files =
        [("src/C.php", Text.encode "<?php namespace App; class B {}".toList)] ∧
      population (runAll fileSystem threeRequests oneClass).2.get? = population oneClass.get? :=
  ⟨by decide +kernel, by decide +kernel,
    (moves_keep_files faithful_fileSystem threeRequests
      (show Truthful oneClass by simp [Truthful, oneClass])).2⟩

end Memory

end Move

end CodeInsight
