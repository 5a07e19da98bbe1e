import CodeInsight.Proofs.ParallelWalks
import CodeInsight.Resolution
import Mathlib.Data.List.Pairwise

/-!
# Analyses that serve again

An analysis is kept for a path and serves again when its text is asked for under any spelling of the
path. A kept analysis is genuine if it is an analysis of the text that it serves for, made in one of
some worlds: ways to find classes. Two searches for the first text that parses then end at the same
text, or fail in the same way, whatever is kept.

## Main Results

- `Analysis.IsOf.blind`, `Analysis.IsOf.same`: two analyses of one text
- `Analysis.Alike.scopeSummary`: what two analyses of one text say about a scope
- `Analyses.Grown.genuine`: what stays true of what is kept
- `Resolution.firstAnalysis_agreed`: two searches for an analysis
- `Resolution.resolve_alike`: two resolutions of one offset
-/

namespace CodeInsight

open Grammar Scope Forest

variable {path : String} {lookup lookup' : Lookup} {text : Text} {a : Analysis}
  {worlds worlds' : Lookup → Prop} {kept kept' : Analyses} {b : Analysis} {α : Type}
  {view : InferredType → InferredType} {m : PathMap α} {other : String} {β : Type}

/-- No two of some texts share a digest. -/
def Digest.Distinct (texts : List Text) : Prop :=
  ∀ a ∈ texts, ∀ b ∈ texts, Digest.ofText a = Digest.ofText b → a = b

namespace Digest

theorem Distinct.subset {texts few : List Text} (h : Distinct few) (hfew : ∀ t ∈ texts, t ∈ few) :
    Distinct texts :=
  fun a ha b hb => h a (hfew a ha) b (hfew b hb)

theorem distinct_iff_pairwise {texts : List Text} :
    Distinct texts ↔ texts.Pairwise fun a b => a ≠ b → Digest.ofText a ≠ Digest.ofText b := by
  constructor
  · intro h
    rw [List.pairwise_iff_forall_sublist]
    intro a b hab hne heq
    have hmem : ∀ t ∈ [a, b], t ∈ texts := fun t ht => hab.subset ht
    exact hne (h a (hmem a (by simp)) b (hmem b (by simp)) heq)
  · intro h a ha b hb heq
    by_contra hne
    have hsymm : Std.Symm fun a b : Text => a ≠ b → Digest.ofText a ≠ Digest.ofText b :=
      ⟨fun a b hab hne => (hab hne.symm).symm⟩
    exact h.forall_of_forall (fun a _ hne => absurd rfl hne) ha hb hne heq

/-- Every pair of texts is looked at once, and equal texts are not digested. -/
instance decidableDistinct (texts : List Text) : Decidable (Distinct texts) :=
  decidable_of_iff _ distinct_iff_pairwise.symm

end Digest

theorem mem_of_lookup [BEq α] [LawfulBEq α] {entries : List (α × β)} {key : α} {value : β}
    (h : entries.lookup key = some value) : (key, value) ∈ entries := by
  obtain ⟨front, back, rfl, _⟩ := List.lookup_eq_some_iff.mp h
  simp

namespace PathMap

theorem mem_of_erase {entry : List Text × α} (h : entry ∈ m.erase path) : entry ∈ m :=
  List.mem_of_mem_filter h

theorem mem_insert {a : α} {entry : List Text × α} (h : entry ∈ m.insert path a) :
    entry = (Path.components path, a) ∨ entry ∈ m := by
  rcases List.mem_cons.mp h with heq | hold
  · exact Or.inl heq
  · exact Or.inr (mem_of_erase hold)

theorem find?_insert_of_eq (m : PathMap α) (a : α)
    (h : Path.components other = Path.components path) :
    (m.insert path a).find? other = some a := by
  simp [find?, insert, h]

theorem find?_insert_of_ne (m : PathMap α) (a : α)
    (h : Path.components other ≠ Path.components path) :
    (m.insert path a).find? other = m.find? other := by
  have hothers : (m.erase path).lookup (Path.components other) =
      m.lookup (Path.components other) := by
    unfold erase
    induction m with
    | nil => rfl
    | cons entry rest ih =>
      obtain ⟨key, value⟩ := entry
      by_cases hkey : key = Path.components path
      · rw [List.filter_cons_of_neg (by simpa using hkey), ih,
          List.lookup_cons, beq_false_of_ne (hkey ▸ h)]
      · rw [List.filter_cons_of_pos (by simpa using hkey), List.lookup_cons, List.lookup_cons, ih]
  unfold find? insert
  rw [List.lookup_cons, beq_false_of_ne h]
  exact hothers

end PathMap

/-! ## Section 1: Analyses of one text -/

/-- The world in which classes are found in one way. -/
def Lookup.Only (lookup other : Lookup) : Prop := other = lookup

theorem Lookup.only_self (lookup : Lookup) : lookup.Only lookup := rfl

/-- An analysis of a text, under some spelling of its path and in one of some worlds. -/
def Analysis.IsOf (worlds : Lookup → Prop) (text : Text) (a : Analysis) : Prop :=
  ∃ lookup path, worlds lookup ∧ Analysis.ofText lookup path text = .ok a

/-- Two analyses of one file, whose types look alike. -/
structure Analysis.Alike (view : InferredType → InferredType) (a b : Analysis) : Prop where
  file : ∃ path, b.file = { a.file with path }
  forest : a.forest.retype view = b.forest.retype view

namespace Analysis

theorem ofText_eq_ok (h : ofText lookup path text = .ok a) :
    ∃ program, Grammar.parse text = .ok program ∧ a.digest = Digest.ofText text ∧
      a.file = FileModel.ofProgram path text program ∧
      a.forest = Forest.ofProgram ⟨lookup.within a.file, a.file, text⟩ program := by
  unfold ofText at h
  cases hparse : Grammar.parse text with
  | error offset =>
    rw [hparse] at h
    cases h
  | ok program =>
    rw [hparse] at h
    cases h
    exact ⟨program, rfl, rfl, rfl, rfl⟩

theorem ofText_eq_error {offset : Nat} (h : Grammar.parse text = .error offset) :
    ofText lookup path text = .error (.malformed path offset) := by
  simp [ofText, h]

theorem IsOf.parses (h : a.IsOf worlds text) : ∃ program, Grammar.parse text = .ok program := by
  obtain ⟨lookup, path, _, hof⟩ := h
  obtain ⟨program, hparse, _⟩ := ofText_eq_ok hof
  exact ⟨program, hparse⟩

theorem IsOf.digest_eq (h : a.IsOf worlds text) : a.digest = Digest.ofText text := by
  obtain ⟨lookup, path, _, hof⟩ := h
  obtain ⟨program, _, hdigest, _⟩ := ofText_eq_ok hof
  exact hdigest

/-- Two analyses of one text look alike if any two walks through it do. -/
theorem alike_of_parallel {path' : String} (ha : ofText lookup path text = .ok a)
    (hb : ofText lookup' path' text = .ok b)
    (h : ∀ file : FileModel, Parallel view ⟨lookup.within file, file, text⟩
      ⟨lookup'.within file, { file with path := path' }, text⟩) : Alike view a b := by
  obtain ⟨program, hparse, _, hfile, hforest⟩ := ofText_eq_ok ha
  obtain ⟨program', hparse', _, hfile', hforest'⟩ := ofText_eq_ok hb
  -- both come from the one parse tree of the text
  obtain rfl : program = program' := Except.ok.inj (hparse.symm.trans hparse')
  refine ⟨⟨path', by rw [hfile, hfile']; rfl⟩, ?_⟩
  rw [hforest, hforest', hfile, hfile']
  exact retype_ofProgram (h _) program

/-- Two analyses of one text differ in types only. -/
theorem IsOf.blind (ha : a.IsOf worlds text) (hb : b.IsOf worlds' text) : Alike blind a b := by
  obtain ⟨lookup, path, _, ha⟩ := ha
  obtain ⟨lookup', path', _, hb⟩ := hb
  exact alike_of_parallel ha hb fun file => parallel_blind _ _ file path' text

/-- Two analyses of one text in one world are the same but for the spelling of the path. -/
theorem IsOf.same (ha : a.IsOf lookup.Only text) (hb : b.IsOf lookup.Only text) : Alike id a b := by
  obtain ⟨_, path, rfl, ha⟩ := ha
  obtain ⟨_, path', rfl, hb⟩ := hb
  exact alike_of_parallel ha hb fun file => parallel_id _ file path' text

/-- What two analyses of one file say about the scope at an anchor. -/
theorem Alike.scopeSummary (h : Alike view a b) (size anchor offset : Nat) :
    { Resolution.scopeSummary a size anchor offset with
      bindings := (Resolution.scopeSummary a size anchor offset).bindings.map
        (Binding.retype view) } =
    { Resolution.scopeSummary b size anchor offset with
      bindings := (Resolution.scopeSummary b size anchor offset).bindings.map
        (Binding.retype view) } := by
  -- each side is the summary of the forest as it is seen
  have hseen : ∀ c : Analysis,
      { Resolution.scopeSummary c size anchor offset with
        bindings := (Resolution.scopeSummary c size anchor offset).bindings.map
          (Binding.retype view) } =
      Resolution.scopeSummary { c with forest := c.forest.retype view } size anchor offset := by
    intro c
    simp only [Resolution.scopeSummary, scopeAt_retype, visible_retype]
    simp only [retype, List.getElem?_map]
    cases c.forest.scopes[c.forest.scopeAt anchor]? <;> rfl
  rw [hseen, hseen, h.forest]
  obtain ⟨path, hfile⟩ := h.file
  simp only [hfile]
  rfl

end Analysis

/-! ## Section 2: Genuine analyses -/

/-- Two answers agree: both are failures, or neither is, and they are related. -/
def Agreed {α β : Type} (failed : Failure → Failure → Prop) (same : α → β → Prop) :
    Except Failure α → Except Failure β → Prop
  | .ok a, .ok b => same a b
  | .error e, .error e' => failed e e'
  | _, _ => False

/-- Whatever is kept for a path and would serve for one of some texts is an analysis of that text in
one of some worlds. -/
def Analyses.Genuine (worlds : Lookup → Prop) (path : String) (texts : List Text)
    (kept : Analyses) : Prop :=
  ∀ text ∈ texts, ∀ a, kept.known? path text = some a → a.IsOf worlds text

namespace Analyses

section

variable {texts : List Text} {after : Analyses}

theorem genuine_nil (worlds : Lookup → Prop) (path : String) (texts : List Text) :
    Genuine worlds path texts [] := by
  intro text _ a ha
  cases ha

/-- Analysing a text gives an analysis of it, kept or new, or the failure to parse it. -/
theorem analyse_cases (hworld : worlds lookup)
    (hkept : ∀ a, kept.known? path text = some a → a.IsOf worlds text) :
    (∃ a after, analyse lookup path text kept = (.ok a, after) ∧ a.IsOf worlds text) ∨
      ∃ offset, Grammar.parse text = .error offset ∧
        analyse lookup path text kept = (.error (.malformed path offset), kept) := by
  unfold analyse
  cases hknown : kept.known? path text with
  | some a => exact Or.inl ⟨a, kept, rfl, hkept a hknown⟩
  | none =>
    cases hof : Analysis.ofText lookup path text with
    | ok a => exact Or.inl ⟨a, kept.insert path a, rfl, lookup, path, hworld, hof⟩
    | error failure =>
      right
      cases hparse : Grammar.parse text with
      | ok program => simp [Analysis.ofText, hparse] at hof
      | error offset =>
        rw [Analysis.ofText_eq_error hparse] at hof
        cases hof
        exact ⟨offset, rfl, rfl⟩

/-- Two attempts to analyse one text both succeed, or both fail at the same place. -/
theorem analyse_both (hworld : worlds lookup) (hworld' : worlds' lookup')
    (hkept : ∀ a, kept.known? path text = some a → a.IsOf worlds text)
    (hkept' : ∀ a, kept'.known? path text = some a → a.IsOf worlds' text) :
    (∃ a b after after', analyse lookup path text kept = (.ok a, after) ∧
        analyse lookup' path text kept' = (.ok b, after') ∧
        a.IsOf worlds text ∧ b.IsOf worlds' text) ∨
      ∃ offset, analyse lookup path text kept = (.error (.malformed path offset), kept) ∧
        analyse lookup' path text kept' = (.error (.malformed path offset), kept') := by
  rcases analyse_cases hworld hkept with ⟨a, after, heq, ha⟩ | ⟨offset, hparse, heq⟩ <;>
  rcases analyse_cases hworld' hkept' with ⟨b, after', heq', hb⟩ | ⟨offset', hparse', heq'⟩
  · exact Or.inl ⟨a, b, after, after', heq, heq', ha, hb⟩
  -- the text either parses or it does not
  · obtain ⟨program, hok⟩ := ha.parses
    cases hok.symm.trans hparse'
  · obtain ⟨program, hok⟩ := hb.parses
    cases hok.symm.trans hparse
  · obtain rfl : offset = offset' := Except.error.inj (hparse.symm.trans hparse')
    exact Or.inr ⟨offset, heq, heq'⟩

theorem analyse_agreed (hworld : worlds lookup) (hworld' : worlds' lookup')
    (hkept : kept.Genuine worlds path [text]) (hkept' : kept'.Genuine worlds' path [text]) :
    Agreed Eq (fun a b => a.IsOf worlds text ∧ b.IsOf worlds' text)
      (analyse lookup path text kept).1 (analyse lookup' path text kept').1 := by
  rcases analyse_both hworld hworld' (hkept text List.mem_cons_self)
      (hkept' text List.mem_cons_self) with
    ⟨a, b, after, after', heq, heq', ha, hb⟩ | ⟨offset, heq, heq'⟩
  · rw [heq, heq']
    exact ⟨ha, hb⟩
  · rw [heq, heq']
    rfl

/-- What analyses become when others of some texts are kept as well. -/
inductive Grown (worlds : Lookup → Prop) (texts : List Text) (kept : Analyses) : Analyses → Prop
  | refl : Grown worlds texts kept kept
  | insert {after : Analyses} {text : Text} {a : Analysis} (path : String)
      (h : Grown worlds texts kept after) (htext : text ∈ texts) (hof : a.IsOf worlds text) :
      Grown worlds texts kept (after.insert path a)

theorem Grown.trans {more : Analyses} (h : Grown worlds texts kept more)
    (hmore : Grown worlds texts more after) : Grown worlds texts kept after := by
  induction hmore with
  | refl => exact h
  | insert path _ htext hof ih => exact ih.insert path htext hof

/-- What is kept for some texts stays genuine when digests do not collide. -/
theorem Grown.genuine (h : Grown worlds texts kept after) (hdigest : Digest.Distinct texts)
    {asked : List Text} (hasked : ∀ t ∈ asked, t ∈ texts) (hkept : kept.Genuine worlds path asked) :
    after.Genuine worlds path asked := by
  induction h with
  | refl => exact hkept
  | @insert after other b under _ hother hof ih =>
    intro t ht a ha
    by_cases hpath : Path.components path = Path.components under
    · -- the new analysis serves for the text, so it is one of the text
      obtain ⟨hfind, hsame⟩ := Option.filter_eq_some_iff.mp ha
      rw [PathMap.find?_insert_of_eq _ _ hpath] at hfind
      obtain rfl := Option.some.inj hfind
      have hdigests : Digest.ofText other = Digest.ofText t := by
        rw [← hof.digest_eq]
        exact of_decide_eq_true hsame
      rwa [hdigest other hother t (hasked t ht) hdigests] at hof
    · unfold known? at ha
      rw [PathMap.find?_insert_of_ne _ _ hpath] at ha
      exact ih t ht a ha

theorem grown_analyse (hworld : worlds lookup) (path : String) (htext : text ∈ texts)
    (kept : Analyses) :
    Grown worlds texts kept (analyse lookup path text kept).2 := by
  unfold analyse
  cases kept.known? path text with
  | some a => exact .refl
  | none =>
    cases hof : Analysis.ofText lookup path text with
    | error failure => exact .refl
    | ok a => exact .insert path .refl htext ⟨lookup, path, hworld, hof⟩

end

end Analyses

/-! ## Section 3: The first text that parses -/

namespace Resolution

section

variable {offset : Nat} {all : List Text}

/-- The texts that may be analysed to resolve an offset. -/
def texts (text : Text) (offset : Nat) : List Text :=
  let offset := min offset (Text.size text)
  candidates text offset (siteAt text offset)

/-- **Two searches** for the first text that parses end at the same one. -/
theorem firstAnalysis_agreed (hworld : worlds lookup) (hworld' : worlds' lookup') (text : Text)
    {candidates : List Text} (last : Failure) (own : Option Failure)
    (hkept : kept.Genuine worlds path candidates) (hkept' : kept'.Genuine worlds' path candidates) :
    Agreed Eq (fun a b => ∃ found ∈ candidates, a.IsOf worlds found ∧ b.IsOf worlds' found)
      (firstAnalysis lookup path text candidates last own kept).1
      (firstAnalysis lookup' path text candidates last own kept').1 := by
  induction candidates generalizing last own with
  | nil => rfl
  | cons candidate rest ih =>
    have hrest : kept.Genuine worlds path rest := fun t ht => hkept t (List.mem_cons_of_mem _ ht)
    have hrest' : kept'.Genuine worlds' path rest := fun t ht =>
      hkept' t (List.mem_cons_of_mem _ ht)
    have hmore : ∀ last own,
        Agreed Eq
          (fun a b => ∃ found ∈ candidate :: rest, a.IsOf worlds found ∧ b.IsOf worlds' found)
          (firstAnalysis lookup path text rest last own kept).1
          (firstAnalysis lookup' path text rest last own kept').1 := by
      intro last own
      have hagreed := ih last own hrest hrest'
      revert hagreed
      cases (firstAnalysis lookup path text rest last own kept).1 <;>
        cases (firstAnalysis lookup' path text rest last own kept').1 <;>
        simp only [Agreed, imp_self]
      rintro ⟨found, hfound, hof⟩
      exact ⟨found, List.mem_cons_of_mem _ hfound, hof⟩
    unfold firstAnalysis
    rcases Analyses.analyse_both hworld hworld' (hkept candidate List.mem_cons_self)
        (hkept' candidate List.mem_cons_self) with
      ⟨a, b, after, after', heq, heq', ha, hb⟩ | ⟨offset, heq, heq'⟩
    · rw [heq, heq']
      exact ⟨candidate, List.mem_cons_self, ha, hb⟩
    · -- both fail at the same place, and go on with the same failure in mind
      rw [heq, heq']
      dsimp only
      split
      · exact hmore _ _
      · exact hmore _ _

theorem resolve_fst (lookup : Lookup) (path : String) (text : Text) (offset : Nat)
    (kept : Analyses) :
    (resolve lookup path text offset kept).1 =
      (firstAnalysis lookup path text (texts text offset)
        (.malformed path (min offset (Text.size text))) none kept).1.map fun a =>
          ofAnalysis lookup a text (min offset (Text.size text))
            (siteAt text (min offset (Text.size text))) := by
  unfold resolve texts
  dsimp only
  split
  next a after heq => simp [heq, Except.map]
  next failure after heq => simp [heq, Except.map]

/-- Two resolutions show the same of themselves if any two analyses of one text make them do so. -/
theorem resolve_alike (shown : Resolution → β) (hworld : worlds lookup) (hworld' : worlds' lookup')
    (hkept : kept.Genuine worlds path (texts text offset))
    (hkept' : kept'.Genuine worlds' path (texts text offset))
    (hshown : ∀ found a b, Analysis.IsOf worlds found a → Analysis.IsOf worlds' found b →
      ∀ offset site, shown (ofAnalysis lookup a text offset site) =
        shown (ofAnalysis lookup' b text offset site)) :
    (resolve lookup path text offset kept).1.map shown =
      (resolve lookup' path text offset kept').1.map shown := by
  have hagreed := firstAnalysis_agreed hworld hworld' text
    (.malformed path (min offset (Text.size text))) none hkept hkept'
  rw [resolve_fst, resolve_fst]
  revert hagreed
  cases (firstAnalysis lookup path text (texts text offset)
      (.malformed path (min offset (Text.size text))) none kept).1 with
  | error e =>
    cases (firstAnalysis lookup' path text (texts text offset)
        (.malformed path (min offset (Text.size text))) none kept').1 with
    | error e' => exact congrArg Except.error
    | ok b => exact False.elim
  | ok a =>
    cases (firstAnalysis lookup' path text (texts text offset)
        (.malformed path (min offset (Text.size text))) none kept').1 with
    | error e' => exact False.elim
    | ok b =>
      rintro ⟨found, _, ha, hb⟩
      exact congrArg Except.ok (hshown found a b ha hb _ _)

theorem grown_firstAnalysis (hworld : worlds lookup) (path : String) (text : Text)
    {candidates : List Text}
    (hcandidates : ∀ t ∈ candidates, t ∈ all) (last : Failure) (own : Option Failure)
    (kept : Analyses) :
    Analyses.Grown worlds all kept (firstAnalysis lookup path text candidates last own kept).2 := by
  induction candidates generalizing kept last own with
  | nil => exact .refl
  | cons candidate rest ih =>
    have hone := Analyses.grown_analyse hworld path (hcandidates candidate List.mem_cons_self) kept
    have hrest := fun t ht => hcandidates t (List.mem_cons_of_mem _ ht)
    unfold firstAnalysis
    cases hanalyse : Analyses.analyse lookup path candidate kept with
    | mk answer after =>
      rw [hanalyse] at hone
      cases answer with
      | ok a => exact hone
      | error failure =>
        dsimp only
        split
        · exact hone.trans (ih hrest _ _ after)
        · exact hone.trans (ih hrest _ _ after)

theorem grown_resolve (hworld : worlds lookup) (path : String)
    (htexts : ∀ t ∈ texts text offset, t ∈ all)
    (kept : Analyses) :
    Analyses.Grown worlds all kept (resolve lookup path text offset kept).2 := by
  have hfirst := grown_firstAnalysis hworld path text htexts
    (.malformed path (min offset (Text.size text))) none kept
  unfold resolve
  unfold texts at hfirst
  dsimp only at hfirst ⊢
  split
  next heq => rwa [heq] at hfirst
  next heq => rwa [heq] at hfirst

end

end Resolution

end CodeInsight
