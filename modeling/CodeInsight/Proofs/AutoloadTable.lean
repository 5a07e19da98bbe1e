import CodeInsight.Autoload.Table
import CodeInsight.Proofs.StableSort
import CodeInsight.Proofs.TextLaws
import Mathlib.Data.List.Pairwise

/-!
# What an accepted autoload table promises

A table is accepted when no two of its mappings conflict. This module says what that means for every
pair of mappings of the table, and what the two searches through a table find: the search by
namespace a longest one, the search by directory a longest one.

## Main Results

- `conflict?_eq_none_iff`: mappings do not conflict if and only if each continues the other wherever
  their directories nest
- `agree_of_ofMappings`: any two mappings of an accepted table agree
- `pathOf_eq_ok`: a path comes from the first mapping with a longest namespace
- `exists_holder?`: a path is held by a mapping with a longest directory
-/

namespace CodeInsight.Autoload

variable {mappings : List Mapping} {m : Mapping} {table : Table} {path : Text} {name : Text}

/-! ## Section 1: Normal directories -/

/-- A directory as it stands in a table: without backslashes, and empty or with a slash at its
end. -/
structure NormalDirectory (dir : Text) : Prop where
  noBackslash : '\\' ∉ dir
  closed : dir = [] ∨ dir.getLast? = some '/'

theorem withoutDot_suffix (path : Text) : withoutDot path <:+ path := by
  unfold withoutDot
  cases h : Text.dropLeading? path ['.', '/'] with
  | none => exact List.suffix_rfl
  | some rest => exact ⟨['.', '/'], (Text.dropLeading?_eq_some_iff.mp h).symm⟩

/-- A path that does not begin with a dot and a slash stays as it is. -/
theorem withoutDot_of_no_dot (h : ¬ ['.', '/'] <+: path) : withoutDot path = path := by
  unfold withoutDot
  rw [Text.dropLeading?_eq_none_iff.mpr h]
  rfl

theorem backslash_notMem_forwardSlashes (path : Text) : '\\' ∉ forwardSlashes path :=
  Text.notMem_replaceChar (by decide) path

theorem normalDirectory_endingWith (h : '\\' ∉ path) : NormalDirectory (endingWith '/' path) := by
  unfold endingWith
  split
  next hclosed => exact ⟨h, hclosed⟩
  next => exact ⟨by simpa using h, Or.inr List.getLast?_concat⟩

theorem normalDirectory_toList (dir : String) : NormalDirectory (normalDirectory dir).toList := by
  have hfree : '\\' ∉ withoutDot (forwardSlashes dir.toList) := fun hmem =>
    backslash_notMem_forwardSlashes dir.toList ((withoutDot_suffix _).subset hmem)
  unfold normalDirectory
  by_cases hdot : withoutDot (forwardSlashes dir.toList) = ['.']
  · simp only [hdot, if_true]
    exact ⟨by simp, Or.inl (by simp)⟩
  · simp only [hdot, if_false, String.toList_ofList]
    exact normalDirectory_endingWith hfree

/-- What stands between two nested normal directories is empty or ends with a slash. -/
theorem NormalDirectory.between_closed {outer between : Text}
    (h : NormalDirectory (outer ++ between)) : between = [] ∨ between.getLast? = some '/' := by
  by_cases hnil : between = []
  · exact Or.inl hnil
  · rcases h.closed with hempty | hlast
    · exact Or.inl (List.append_eq_nil_iff.mp hempty).2
    · rw [List.getLast?_append_of_ne_nil outer hnil] at hlast
      exact Or.inr hlast

/-! ## Section 2: Conflicts -/

/-- Where the directory of `b` lies in that of `a`, the namespace of `b` is the one of `a` continued
by the path between them. -/
def Agree (a b : Mapping) : Prop :=
  ∀ between : Text, b.dir.toList = a.dir.toList ++ between →
    b.ns.toList = a.ns.toList ++ nameOfPath between

theorem Agree.refl (a : Mapping) : Agree a a := by
  intro between h
  have hnil : between = [] := by simpa using h
  simp [hnil, nameOfPath]

private theorem toList_append_ofList (s : String) (text : Text) (t : String) :
    s ++ String.ofList text = t ↔ t.toList = s.toList ++ text := by
  rw [← String.toList_inj, String.toList_append, String.toList_ofList]
  exact eq_comm

/-- The check of an ordered pair looks at the inner mapping only if it is inner. -/
private theorem conflictBetween_eq_none_iff (outer inner : Mapping) :
    (do let between ← Text.dropLeading? inner.dir.toList outer.dir.toList
        if outer.ns ++ String.ofList (nameOfPath between) = inner.ns then none
        else some (Failure.conflictingRoots inner.ns outer.dir inner.dir)) = none ↔
      Agree outer inner := by
  cases h : Text.dropLeading? inner.dir.toList outer.dir.toList with
  | none =>
    have hnot := Text.dropLeading?_eq_none_iff.mp h
    exact iff_of_true rfl fun between hdir => absurd ⟨between, hdir.symm⟩ hnot
  | some between =>
    have hdir := Text.dropLeading?_eq_some_iff.mp h
    have hcheck := toList_append_ofList outer.ns (nameOfPath between) inner.ns
    by_cases hns : outer.ns ++ String.ofList (nameOfPath between) = inner.ns
    · refine iff_of_true (by simp [hns]) fun between' hdir' => ?_
      rw [List.append_cancel_left (hdir'.symm.trans hdir)]
      exact hcheck.mp hns
    · exact iff_of_false (by simp [hns]) fun hagree => hns (hcheck.mpr (hagree between hdir))

/-- Directories of one size nest only if they are equal, and then agreement goes both ways. -/
theorem Agree.symm_of_size_le {a b : Mapping} (h : Agree a b)
    (hsize : byteLength a.dir ≤ byteLength b.dir) : Agree b a := by
  intro between hdir
  have hle : b.dir.toList <+: a.dir.toList := ⟨between, hdir.symm⟩
  have heq : b.dir.toList = a.dir.toList := Text.eq_of_prefix_of_size_le hle hsize
  have hnil : between = [] := by
    rw [heq] at hdir
    simpa using hdir
  have hns := h [] (by simpa using heq)
  simpa [hnil, nameOfPath] using hns.symm

/-- Two mappings that agree whichever of them is the inner one. -/
def Compatible (a b : Mapping) : Prop := Agree a b ∧ Agree b a

instance : Std.Symm Compatible := ⟨fun _ _ => And.symm⟩

/-- **Absence of conflict** is agreement in both directions. -/
theorem conflict?_eq_none_iff {a b : Mapping} : conflict? a b = none ↔ Compatible a b := by
  unfold conflict? nested
  by_cases hlt : byteLength b.dir < byteLength a.dir
  · simp only [hlt, if_true]
    refine (conflictBetween_eq_none_iff b a).trans ⟨fun h => ?_, And.right⟩
    exact ⟨h.symm_of_size_le (Nat.le_of_lt hlt), h⟩
  · simp only [hlt, if_false]
    refine (conflictBetween_eq_none_iff a b).trans ⟨fun h => ?_, And.left⟩
    exact ⟨h, h.symm_of_size_le (Nat.le_of_not_lt hlt)⟩

theorem firstConflict?_eq_none_iff :
    firstConflict? mappings = none ↔ mappings.Pairwise Compatible := by
  induction mappings with
  | nil => simp [firstConflict?]
  | cons m rest ih =>
    rw [firstConflict?, Option.orElse_eq_none, List.findSome?_eq_none_iff, List.pairwise_cons, ih]
    simp only [conflict?_eq_none_iff]

/-! ## Section 3: Accepted tables -/

theorem mem_dropRepeats : m ∈ dropRepeats mappings ↔ m ∈ mappings := by
  induction mappings using dropRepeats.induct with
  | case1 => simp [dropRepeats]
  | case2 a => simp [dropRepeats]
  | case3 a rest ih => simp [dropRepeats, ih]
  | case4 a b rest hne ih => simp [dropRepeats, hne, ih]

/-- A name goes beyond the namespace of a mapping. -/
def Mapping.Covers (m : Mapping) (name : Text) : Prop := m.ns.toList <+: name ∧ m.ns.toList ≠ name

instance (m : Mapping) (name : Text) : Decidable (m.Covers name) :=
    inferInstanceAs (Decidable (_ ∧ _))

/-- Of the mappings whose namespaces a name goes beyond, `m` is the first one with the longest
namespace. -/
structure Chosen (mappings : List Mapping) (name : Text) (m : Mapping) : Prop where
  covers : m.Covers name
  longest : ∀ k ∈ mappings, k.Covers name → byteLength k.ns ≤ byteLength m.ns
  first : mappings.find? (fun k => k.ns = m.ns) = some m

namespace Table

theorem before_total (a b : Mapping) : before a b = true ∨ before b a = true := by
  simpa [before] using Nat.le_total (byteLength b.ns) (byteLength a.ns)

theorem before_trans (a b c : Mapping) (hab : before a b = true) (hbc : before b c = true) :
    before a c = true := by
  simp only [before, decide_eq_true_eq] at hab hbc ⊢
  exact Nat.le_trans hbc hab

/-- An accepted table is its normal mappings in order, and none of them conflict. -/
theorem ofMappings_eq_ok_iff :
    ofMappings mappings = .ok table ↔
      firstConflict? (dropRepeats (mappings.map Mapping.normal)) = none ∧
        table.mappings = stableSort before (dropRepeats (mappings.map Mapping.normal)) := by
  unfold ofMappings
  cases h : firstConflict? (dropRepeats (mappings.map Mapping.normal)) with
  | some failure => simp [h]
  | none =>
    simp only [h, true_and, Except.ok.injEq]
    constructor
    · rintro rfl
      rfl
    · intro hsorted
      cases table
      exact congrArg Table.mk hsorted.symm

section Accepted

variable (h : ofMappings mappings = .ok table)
include h

/-- The mappings of a table are the normal forms of those it was made of. -/
theorem mem_of_ofMappings : m ∈ table.mappings ↔ ∃ k ∈ mappings, k.normal = m := by
  rw [(ofMappings_eq_ok_iff.mp h).2, mem_stableSort, mem_dropRepeats, List.mem_map]

theorem normalDirectory_of_ofMappings (hm : m ∈ table.mappings) : NormalDirectory m.dir.toList := by
  obtain ⟨k, _, rfl⟩ := (mem_of_ofMappings h).mp hm
  exact normalDirectory_toList k.dir

/-- Any two mappings of an accepted table agree. -/
theorem agree_of_ofMappings {a b : Mapping} (ha : a ∈ table.mappings) (hb : b ∈ table.mappings) :
    Agree a b := by
  obtain ⟨hfree, hsorted⟩ := ofMappings_eq_ok_iff.mp h
  rw [hsorted, mem_stableSort] at ha hb
  have hpairs := firstConflict?_eq_none_iff.mp hfree
  have hall := hpairs.forall_of_forall fun m _ => ⟨Agree.refl m, Agree.refl m⟩
  exact (hall ha hb).1

/-- Longer namespaces come first. -/
theorem sorted_of_ofMappings :
    table.mappings.Pairwise fun a b => byteLength b.ns ≤ byteLength a.ns := by
  rw [(ofMappings_eq_ok_iff.mp h).2]
  refine (pairwise_stableSort before_total before_trans _).imp ?_
  intro a b hab
  simpa [before] using hab

end Accepted

/-! ## Section 4: The search by namespace -/

/-- The path that a mapping gives to what stands below its namespace. -/
def pathBelow (m : Mapping) (below : Text) : String :=
  m.dir ++ String.ofList (pathOfName below) ++ extension

/-- What is made of the rest of a text behind a leading part, if there is any. -/
theorem dropLeading?_guard_eq_some_iff {β : Type} {text lead : Text} {make : Text → β} {b : β} :
    (do
      let below ← Text.dropLeading? text lead
      guard (below ≠ [])
      return make below) = some b ↔
      ∃ below, text = lead ++ below ∧ below ≠ [] ∧ b = make below := by
  cases h : Text.dropLeading? text lead with
  | none =>
    have hnot := Text.dropLeading?_eq_none_iff.mp h
    refine iff_of_false (by simp) ?_
    rintro ⟨below, htext, _⟩
    exact hnot ⟨below, htext.symm⟩
  | some rest =>
    have htext := Text.dropLeading?_eq_some_iff.mp h
    constructor
    · intro hmade
      by_cases hnil : rest = []
      · simp [hnil] at hmade
      · exact ⟨rest, htext, hnil, by simpa [guard, hnil] using hmade.symm⟩
    · rintro ⟨below, htext', hne, rfl⟩
      have hrest : rest = below := List.append_cancel_left (htext.symm.trans htext')
      simp [guard, hrest, hne]

theorem pathBy?_eq_some_iff {path : String} :
    pathBy? name m = some path ↔
      ∃ below, name = m.ns.toList ++ below ∧ below ≠ [] ∧ path = pathBelow m below :=
  dropLeading?_guard_eq_some_iff

theorem pathBy?_eq_none (h : pathBy? name m = none) : ¬ m.Covers name := by
  rintro ⟨⟨below, rfl⟩, hne⟩
  have hsome : pathBy? (m.ns.toList ++ below) m = some (pathBelow m below) :=
    pathBy?_eq_some_iff.mpr ⟨below, rfl, fun hnil => hne (by simp [hnil]), rfl⟩
  rw [h] at hsome
  cases hsome

/-- A class gets its path from the mapping that is chosen for it. -/
theorem pathOf_eq_ok (h : ofMappings mappings = .ok table) {c : ClassName} {path : String}
    (hpath : table.pathOf c = .ok path) :
    ∃ m below, Chosen table.mappings c.text.toList m ∧ c.text.toList = m.ns.toList ++ below ∧
      path = pathBelow m below := by
  unfold pathOf at hpath
  split at hpath
  · cases hpath
  · split at hpath
    next found hfound =>
      cases hpath
      obtain ⟨front, m, back, hsplit, hm, hfront⟩ := List.findSome?_eq_some_iff.mp hfound
      obtain ⟨below, hname, hne, rfl⟩ := pathBy?_eq_some_iff.mp hm
      have hcovers : m.Covers c.text.toList := by
        refine ⟨⟨below, hname.symm⟩, fun heq => hne ?_⟩
        rw [← heq] at hname
        simpa using hname
      have hpassed : ∀ k ∈ front, ¬ k.Covers c.text.toList := fun k hk =>
        pathBy?_eq_none (hfront k hk)
      refine ⟨m, below, ⟨hcovers, fun k hk hk' => ?_, ?_⟩, hname, rfl⟩
      · rw [hsplit, List.mem_append, List.mem_cons] at hk
        rcases hk with hk | rfl | hk
        · exact absurd hk' (hpassed k hk)
        · exact Nat.le_refl _
        · have hsorted := sorted_of_ofMappings h
          rw [hsplit, List.pairwise_append] at hsorted
          exact List.rel_of_pairwise_cons hsorted.2.1 hk
      · rw [hsplit]
        refine List.find?_eq_some_iff_append.mpr ⟨by simp, front, back, rfl, fun k hk => ?_⟩
        -- a mapping with the same namespace would not have been passed over
        have hother : k.ns ≠ m.ns := fun heq => hpassed k hk (by rwa [Mapping.Covers, heq])
        simpa using hother
    next => cases hpath

/-! ## Section 5: The search by directory -/

/-- `m` is a mapping of the list with a longest directory. -/
def IsLongest (mappings : List Mapping) (m : Mapping) : Prop :=
  m ∈ mappings ∧ ∀ k ∈ mappings, byteLength k.dir ≤ byteLength m.dir

/-- Invariant of the search: after every mapping seen, the best one so far is a longest one. -/
private theorem foldl_longerDir (seen rest : List Mapping) (best : Mapping)
    (hbest : IsLongest seen best) :
    ∃ m, rest.foldl longerDir (some best) = some m ∧ IsLongest (seen ++ rest) m := by
  induction rest generalizing seen best with
  | nil => exact ⟨best, rfl, by simpa using hbest⟩
  | cons k rest ih =>
    have hstep : ∃ next, longerDir (some best) k = some next ∧ IsLongest (seen ++ [k]) next := by
      by_cases hle : byteLength best.dir ≤ byteLength k.dir
      · refine ⟨k, by simp [longerDir, hle], by simp, ?_⟩
        intro j hj
        rcases List.mem_append.mp hj with hj | hj
        · exact Nat.le_trans (hbest.2 j hj) hle
        · rw [List.mem_singleton.mp hj]
      · refine ⟨best, by simp [longerDir, hle], by simp [hbest.1], ?_⟩
        intro j hj
        rcases List.mem_append.mp hj with hj | hj
        · exact hbest.2 j hj
        · rw [List.mem_singleton.mp hj]
          exact Nat.le_of_not_le hle
    obtain ⟨next, hnext, hlongest⟩ := hstep
    obtain ⟨m, hm, hall⟩ := ih (seen ++ [k]) next hlongest
    exact ⟨m, by rw [List.foldl_cons, hnext, hm], by simpa using hall⟩

/-- **The holder of a path**: if some directory holds a path, the search finds a mapping with a
longest directory among those that do. -/
theorem exists_holder? {k : Mapping} (hk : k ∈ table.mappings) (hdir : k.dir.toList <+: path) :
    ∃ m, table.holder? path = some m ∧ m ∈ table.mappings ∧ m.dir.toList <+: path ∧
      ∀ j ∈ table.mappings, j.dir.toList <+: path → byteLength j.dir ≤ byteLength m.dir := by
  unfold holder?
  have hmem : ∀ j, j ∈ table.mappings.filter (fun m => m.dir.toList.isPrefixOf path) ↔
      j ∈ table.mappings ∧ j.dir.toList <+: path := by simp
  cases hfilter : table.mappings.filter fun m => m.dir.toList.isPrefixOf path with
  | nil =>
    have hnone := (hmem k).mpr ⟨hk, hdir⟩
    simp [hfilter] at hnone
  | cons first rest =>
    rw [hfilter] at hmem
    have hfirst : IsLongest [first] first := ⟨by simp, by simp⟩
    obtain ⟨m, hm, hlongest⟩ := foldl_longerDir [first] rest first hfirst
    refine ⟨m, hm, ((hmem m).mp hlongest.1).1, ((hmem m).mp hlongest.1).2, ?_⟩
    intro j hj hjdir
    exact hlongest.2 j ((hmem j).mpr ⟨hj, hjdir⟩)

end Table

end CodeInsight.Autoload
