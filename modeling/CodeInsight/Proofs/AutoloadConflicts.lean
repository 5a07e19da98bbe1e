import CodeInsight.Proofs.AutoloadTable
import Mathlib.Data.List.Perm.Basic

/-!
# Files with two names

The check for conflicts compares namespaces, one pair of nested directories at a time. What it is
meant to prevent is that two mappings give one file different class names. It refuses a list of
mappings exactly when there is such a file, and so the order of the list has no part in it.

## Main Results

- `compatible_iff_names_agree`: two mappings are compatible if they agree about all files
- `Table.ofMappings_cases`: a list of mappings is accepted, or it is refused as a conflict
- `Table.refused_iff_named_twice`: what is refused, and that the order does not matter
-/

namespace CodeInsight.Autoload

variable {mappings : List Mapping} {failure : Failure} {path : Text}

/-! ## Section 1: Names of files -/

/-- The class name that a mapping gives to a file, if the file lies below its directory. -/
def Mapping.nameOf? (m : Mapping) (path : Text) : Option Text := do
  let below ← Text.dropLeading? path m.dir.toList
  guard (below ≠ [])
  return m.ns.toList ++ nameOfPath below

/-- Two mappings of a list give a file different class names. -/
def NamedTwice (mappings : List Mapping) (path : Text) : Prop :=
  ∃ a ∈ mappings, ∃ b ∈ mappings, ∃ name other,
    a.nameOf? path = some name ∧ b.nameOf? path = some other ∧ name ≠ other

theorem Mapping.nameOf?_eq_some_iff {m : Mapping} {name : Text} :
    m.nameOf? path = some name ↔
      ∃ below, path = m.dir.toList ++ below ∧ below ≠ [] ∧
        name = m.ns.toList ++ nameOfPath below :=
  Table.dropLeading?_guard_eq_some_iff

theorem nameOfPath_append (a b : Text) : nameOfPath (a ++ b) = nameOfPath a ++ nameOfPath b :=
  Text.replaceChar_append '/' '\\' a b

/-- A mapping whose directory holds that of a second one gives the files there the names that the
second one gives them. -/
theorem Agree.names {a b : Mapping} (h : Agree a b) (hdir : a.dir.toList <+: b.dir.toList)
    {name other : Text} (ha : a.nameOf? path = some name) (hb : b.nameOf? path = some other) :
    name = other := by
  obtain ⟨between, hbetween⟩ := hdir
  obtain ⟨below, hpath, _, rfl⟩ := Mapping.nameOf?_eq_some_iff.mp ha
  obtain ⟨rest, hpath', _, rfl⟩ := Mapping.nameOf?_eq_some_iff.mp hb
  have hsplit : below = between ++ rest := by
    rw [← hbetween, List.append_assoc] at hpath'
    exact List.append_cancel_left (hpath.symm.trans hpath')
  rw [hsplit, nameOfPath_append, h between hbetween.symm, List.append_assoc]

/-- Mappings that give the files of the inner directory the same names agree. One file is enough,
because the name below the inner directory is the same in both. -/
theorem agree_of_names {a b : Mapping}
    (h : ∀ path name other, a.nameOf? path = some name → b.nameOf? path = some other →
      name = other) : Agree a b := by
  intro between hdir
  have ha : a.nameOf? (a.dir.toList ++ (between ++ ['A'])) =
      some (a.ns.toList ++ nameOfPath (between ++ ['A'])) :=
    Mapping.nameOf?_eq_some_iff.mpr ⟨between ++ ['A'], rfl, by simp, rfl⟩
  have hb : b.nameOf? (a.dir.toList ++ (between ++ ['A'])) =
      some (b.ns.toList ++ nameOfPath ['A']) :=
    Mapping.nameOf?_eq_some_iff.mpr ⟨['A'], by rw [hdir, List.append_assoc], by simp, rfl⟩
  have hsame := h _ _ _ ha hb
  rw [nameOfPath_append, ← List.append_assoc] at hsame
  exact (List.append_cancel_right hsame).symm

/-- **Compatible mappings** agree about every file that lies below both directories. -/
theorem compatible_iff_names_agree {a b : Mapping} :
    Compatible a b ↔ ∀ path name other, a.nameOf? path = some name → b.nameOf? path = some other →
      name = other := by
  constructor
  · rintro ⟨hab, hba⟩ path name other ha hb
    -- of two directories that hold one file, one holds the other
    obtain ⟨below, hpath, _⟩ := Mapping.nameOf?_eq_some_iff.mp ha
    obtain ⟨rest, hpath', _⟩ := Mapping.nameOf?_eq_some_iff.mp hb
    rcases List.prefix_or_prefix_of_prefix ⟨below, hpath.symm⟩ ⟨rest, hpath'.symm⟩ with
      hdir | hdir
    · exact hab.names hdir ha hb
    · exact (hba.names hdir hb ha).symm
  · intro h
    exact ⟨agree_of_names h,
      agree_of_names fun path name other ha hb => (h path other name hb ha).symm⟩

/-! ## Section 2: Lists of mappings -/

/-- Pairs are checked in one order only, but that does not matter. -/
theorem firstConflict?_eq_none_iff_not_named_twice :
    firstConflict? mappings = none ↔ ¬ ∃ path, NamedTwice mappings path := by
  rw [firstConflict?_eq_none_iff]
  constructor
  · rintro hpairs ⟨path, a, ha, b, hb, name, other, hname, hother, hne⟩
    have hall := hpairs.forall_of_forall fun m _ => ⟨Agree.refl m, Agree.refl m⟩
    exact hne (compatible_iff_names_agree.mp (hall ha hb) path name other hname hother)
  · intro hnone
    refine List.pairwise_of_forall_mem_list fun a ha b hb => ?_
    refine compatible_iff_names_agree.mpr fun path name other hname hother => ?_
    by_contra hne
    exact hnone ⟨path, a, ha, b, hb, name, other, hname, hother, hne⟩

theorem NamedTwice.subset {others : List Mapping} (h : NamedTwice mappings path)
    (hsubset : ∀ m ∈ mappings, m ∈ others) : NamedTwice others path := by
  obtain ⟨a, ha, b, hb, hnames⟩ := h
  exact ⟨a, hsubset a ha, b, hsubset b hb, hnames⟩

theorem conflict?_eq_some {a b : Mapping} (h : conflict? a b = some failure) :
    ∃ ns outer inner, failure = .conflictingRoots ns outer inner := by
  obtain ⟨between, _, hcheck⟩ := Option.bind_eq_some_iff.mp h
  split at hcheck
  · cases hcheck
  · exact ⟨_, _, _, (Option.some.inj hcheck).symm⟩

theorem firstConflict?_eq_some (h : firstConflict? mappings = some failure) :
    ∃ ns outer inner, failure = .conflictingRoots ns outer inner := by
  induction mappings with
  | nil => cases h
  | cons m rest ih =>
    rw [firstConflict?, Option.orElse_eq_some] at h
    rcases h with hfirst | ⟨_, hrest⟩
    · obtain ⟨k, _, hk⟩ := List.exists_of_findSome?_eq_some hfirst
      exact conflict?_eq_some hk
    · exact ih hrest

namespace Table

/-- **Two answers** to a list of mappings: no file is named twice, and there is a table; or a file
is, and there is a conflict. -/
theorem ofMappings_cases (mappings : List Mapping) :
    ((¬ ∃ path, NamedTwice (mappings.map Mapping.normal) path) ∧
        ∃ table, ofMappings mappings = .ok table) ∨
      (∃ path, NamedTwice (mappings.map Mapping.normal) path) ∧
        ∃ ns outer inner, ofMappings mappings = .error (.conflictingRoots ns outer inner) := by
  have hrepeats : ∀ path, NamedTwice (dropRepeats (mappings.map Mapping.normal)) path ↔
      NamedTwice (mappings.map Mapping.normal) path := fun path =>
    ⟨fun h => h.subset fun m => mem_dropRepeats.mp, fun h => h.subset fun m => mem_dropRepeats.mpr⟩
  have hnone : firstConflict? (dropRepeats (mappings.map Mapping.normal)) = none ↔
      ¬ ∃ path, NamedTwice (mappings.map Mapping.normal) path := by
    rw [firstConflict?_eq_none_iff_not_named_twice]
    simp only [hrepeats]
  cases h : firstConflict? (dropRepeats (mappings.map Mapping.normal)) with
  | none => exact .inl ⟨hnone.mp h, _, ofMappings_eq_ok_iff.mpr ⟨h, rfl⟩⟩
  | some failure =>
    obtain ⟨ns, outer, inner, rfl⟩ := firstConflict?_eq_some h
    refine .inr ⟨?_, ns, outer, inner, by simp only [ofMappings, h]⟩
    by_contra hfree
    rw [hnone.mpr hfree] at h
    cases h

theorem accepted_iff_not_named_twice :
    (∃ table, ofMappings mappings = .ok table) ↔
      ¬ ∃ path, NamedTwice (mappings.map Mapping.normal) path := by
  rcases ofMappings_cases mappings with ⟨hfree, haccepted⟩ | ⟨htwice, ns, outer, inner, hrefused⟩
  · exact iff_of_true haccepted hfree
  · refine iff_of_false ?_ (not_not_intro htwice)
    rintro ⟨table, haccepted⟩
    cases hrefused.symm.trans haccepted

/-- **The check for conflicts is exact.** A list of mappings is refused as a conflict if and only if
two of its mappings, in normal form, give one file different class names. So every other order of
the list is accepted or refused with it. -/
theorem refused_iff_named_twice (mappings : List Mapping) :
    ((∃ ns outer inner, ofMappings mappings = .error (.conflictingRoots ns outer inner)) ↔
        ∃ path, NamedTwice (mappings.map Mapping.normal) path) ∧
      ∀ reordered : List Mapping, reordered.Perm mappings →
        ((∃ table, ofMappings reordered = .ok table) ↔
          ∃ table, ofMappings mappings = .ok table) := by
  constructor
  · rcases ofMappings_cases mappings with ⟨hfree, table, haccepted⟩ | ⟨htwice, hrefused⟩
    · refine iff_of_false ?_ hfree
      rintro ⟨ns, outer, inner, hrefused⟩
      cases haccepted.symm.trans hrefused
    · exact iff_of_true hrefused htwice
  · intro reordered hperm
    have hnormal := hperm.map Mapping.normal
    rw [accepted_iff_not_named_twice, accepted_iff_not_named_twice]
    refine not_congr (exists_congr fun path => ?_)
    exact ⟨fun h => h.subset fun m => hnormal.mem_iff.mp,
      fun h => h.subset fun m => hnormal.mem_iff.mpr⟩

end Table

end CodeInsight.Autoload
