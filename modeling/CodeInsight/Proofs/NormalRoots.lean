import CodeInsight.Proofs.AutoloadTable

/-!
# Normal forms of root directories

A directory is brought into normal form when a table is made, and those of a package once before
that. A second time changes nothing if the form is canonical. It is, but for directories that are
written with more than one `./` in front: the form drops one of them, and no more.

## Main Results

- `normalDirectory_toList_of_normal`: a directory in normal form loses a leading `./`
- `normalDirectory_drops_one_dot`: which directories have a canonical form
-/

namespace CodeInsight.Autoload

variable {path : Text}

/-! ## Section 1: Leading dots -/

@[simp] theorem withoutDot_dot (path : Text) : withoutDot ('.' :: '/' :: path) = path := by
  simp [withoutDot, Text.dropLeading?]

theorem withoutDot_eq_self_iff : withoutDot path = path ↔ ¬ ['.', '/'] <+: path := by
  refine ⟨?_, withoutDot_of_no_dot⟩
  rintro hsame ⟨rest, rfl⟩
  have hlength := congrArg List.length hsame
  simp at hlength
  omega

/-- One dot and slash is left where two stood. -/
theorem dot_prefix_withoutDot_iff :
    ['.', '/'] <+: withoutDot path ↔ ['.', '/', '.', '/'] <+: path := by
  by_cases hdot : ['.', '/'] <+: path
  · obtain ⟨rest, rfl⟩ := hdot
    simp
  · rw [withoutDot_of_no_dot hdot]
    refine iff_of_false hdot fun hdots => hdot (List.IsPrefix.trans ?_ hdots)
    exact ⟨['.', '/'], rfl⟩

/-! ## Section 2: Closed paths -/

/-- A path with a slash at its end, unless it is the project itself. -/
def closedPath (path : Text) : Text := if path = ['.'] then [] else endingWith '/' path

theorem normalDirectory_toList_eq (dir : String) :
    (normalDirectory dir).toList = closedPath (withoutDot (forwardSlashes dir.toList)) := by
  simp only [normalDirectory, closedPath]
  split
  · rfl
  · rw [String.toList_ofList]

theorem prefix_endingWith (mark : Char) (path : Text) : path <+: endingWith mark path := by
  unfold endingWith
  split
  · exact List.prefix_rfl
  · exact List.prefix_append _ _

theorem length_closedPath_le (path : Text) : (closedPath path).length ≤ path.length + 1 := by
  unfold closedPath endingWith
  split
  · simp
  · split <;> simp

theorem dot_prefix_closedPath_iff : ['.', '/'] <+: closedPath path ↔ ['.', '/'] <+: path := by
  unfold closedPath
  split
  next hdot => simp [hdot]
  next hdot =>
    refine ⟨fun h => ?_, fun h => h.trans (prefix_endingWith '/' path)⟩
    unfold endingWith at h
    split at h
    · exact h
    · -- a slash that was added is not the second character, since the path is not a dot
      match path, hdot, h with
      | [], _, h => simp at h
      | [c], hdot, h => exact absurd (by simpa [eq_comm] using h) hdot
      | c :: d :: rest, _, h => simpa using h

/-- The path of a directory in normal form is closed. -/
theorem NormalDirectory.closedPath_eq (h : NormalDirectory path) : closedPath path = path := by
  unfold closedPath endingWith
  rw [if_pos h.closed, if_neg]
  rintro rfl
  simpa using h.closed

theorem NormalDirectory.withoutDot (h : NormalDirectory path) :
    NormalDirectory (withoutDot path) := by
  by_cases hdot : ['.', '/'] <+: path
  · obtain ⟨rest, rfl⟩ := hdot
    rw [List.cons_append, List.singleton_append, withoutDot_dot]
    exact ⟨fun hmem => h.noBackslash (List.mem_append_right _ hmem), h.between_closed⟩
  · rwa [withoutDot_of_no_dot hdot]

/-- **A directory in normal form** loses a leading `./`, and nothing else. -/
theorem normalDirectory_toList_of_normal {dir : String} (h : NormalDirectory dir.toList) :
    (normalDirectory dir).toList = withoutDot dir.toList := by
  rw [normalDirectory_toList_eq, forwardSlashes, Text.replaceChar_of_notMem h.noBackslash,
    h.withoutDot.closedPath_eq]

/-! ## Section 3: Normal forms -/

theorem dot_prefix_normalDirectory_iff (dir : String) :
    ['.', '/'] <+: (normalDirectory dir).toList ↔
      ['.', '/', '.', '/'] <+: forwardSlashes dir.toList := by
  rw [normalDirectory_toList_eq, dot_prefix_closedPath_iff, dot_prefix_withoutDot_iff]

theorem normalDirectory_normalDirectory_iff (dir : String) :
    normalDirectory (normalDirectory dir) = normalDirectory dir ↔
      ¬ ['.', '/', '.', '/'] <+: forwardSlashes dir.toList := by
  rw [← String.toList_inj, normalDirectory_toList_of_normal (normalDirectory_toList dir),
    withoutDot_eq_self_iff, dot_prefix_normalDirectory_iff]

theorem normalDirectory_dot_toList (dir : String) :
    (normalDirectory ("./" ++ dir)).toList = closedPath (forwardSlashes dir.toList) := by
  rw [normalDirectory_toList_eq, String.toList_append, forwardSlashes, Text.replaceChar_append]
  exact congrArg closedPath (withoutDot_dot _)

theorem normalDirectory_dot_iff (dir : String) :
    normalDirectory ("./" ++ dir) = normalDirectory dir ↔
      ¬ ['.', '/'] <+: forwardSlashes dir.toList := by
  rw [← String.toList_inj, normalDirectory_dot_toList, normalDirectory_toList_eq]
  refine ⟨?_, fun h => by rw [withoutDot_of_no_dot h]⟩
  rintro hsame ⟨rest, hdot⟩
  rw [← hdot] at hsame
  -- two characters more are left than there can be
  have hlong := (prefix_endingWith '/' (['.', '/'] ++ rest)).length_le
  have hshort := length_closedPath_le rest
  rw [closedPath, if_neg (by simp)] at hsame
  rw [hsame] at hlong
  simp at hlong
  omega

theorem normalNamespace_normalNamespace (ns : String) :
    normalNamespace (normalNamespace ns) = normalNamespace ns := by
  have hclosed : ∀ text : Text, endingWith '\\' (endingWith '\\' text) = endingWith '\\' text := by
    intro text
    unfold endingWith
    by_cases h : text = [] ∨ text.getLast? = some '\\'
    · rw [if_pos h, if_pos h]
    · rw [if_neg h, if_pos (.inr List.getLast?_concat)]
  -- a separator at the end is the first one only where there is nothing else
  have hopen : ∀ text : Text, (endingWith '\\' (text.dropWhile (· == '\\'))).dropWhile (· == '\\') =
      endingWith '\\' (text.dropWhile (· == '\\')) := by
    intro text
    cases hrest : text.dropWhile (· == '\\') with
    | nil => rfl
    | cons c rest =>
      have hc : (c == '\\') = false := by
        have hhead := List.head?_dropWhile_not (· == '\\') text
        rw [hrest] at hhead
        simpa using hhead
      obtain ⟨more, hmore⟩ := prefix_endingWith '\\' (c :: rest)
      rw [← hmore, List.cons_append, List.dropWhile_cons, hc]
      rfl
  unfold normalNamespace
  rw [String.toList_ofList, hopen, hclosed]

theorem Mapping.normal_normal {m : Mapping}
    (h : ¬ ['.', '/', '.', '/'] <+: forwardSlashes m.dir.toList) : m.normal.normal = m.normal := by
  simp only [Mapping.normal, normalNamespace_normalNamespace,
    (normalDirectory_normalDirectory_iff m.dir).mpr h]

/-- Mappings with one directory are compatible if they have one namespace. -/
theorem conflict?_same_dir {a b : Mapping} (h : b.dir = a.dir) :
    conflict? a b = none ↔ a.ns = b.ns := by
  rw [conflict?_eq_none_iff]
  constructor
  · rintro ⟨hagree, -⟩
    have hns := hagree [] (by rw [h, List.append_nil])
    rw [show nameOfPath [] = [] from rfl, List.append_nil] at hns
    exact String.toList_inj.mp hns.symm
  · intro hns
    obtain rfl : a = b := by
      cases a
      cases b
      simp_all
    exact ⟨Agree.refl a, Agree.refl a⟩

/-- **One leading `./` is dropped, and no more.** The normal form of a directory has no backslash,
and is empty or ends with a slash. It begins with `./` if and only if the directory begins with two
of them, and these are the directories whose form is not canonical. Without them it is the same
whether mappings come in normal form already. A directory with one more `./` in front is the same
directory, also when conflicts are looked for, unless it begins with `./` itself. -/
theorem normalDirectory_drops_one_dot (dir : String) :
    NormalDirectory (normalDirectory dir).toList ∧
      (['.', '/'] <+: (normalDirectory dir).toList ↔
        ['.', '/', '.', '/'] <+: forwardSlashes dir.toList) ∧
      (normalDirectory (normalDirectory dir) = normalDirectory dir ↔
        ¬ ['.', '/', '.', '/'] <+: forwardSlashes dir.toList) ∧
      (∀ mappings : List Mapping,
        (∀ m ∈ mappings, ¬ ['.', '/', '.', '/'] <+: forwardSlashes m.dir.toList) →
          Table.ofMappings (mappings.map Mapping.normal) = Table.ofMappings mappings) ∧
      (normalDirectory ("./" ++ dir) = normalDirectory dir ↔
        ¬ ['.', '/'] <+: forwardSlashes dir.toList) ∧
      (¬ ['.', '/'] <+: forwardSlashes dir.toList → ∀ ns other : String,
        (conflict? (Mapping.normal ⟨ns, dir⟩) (Mapping.normal ⟨other, "./" ++ dir⟩) = none ↔
          normalNamespace ns = normalNamespace other)) := by
  refine ⟨normalDirectory_toList dir, dot_prefix_normalDirectory_iff dir,
    normalDirectory_normalDirectory_iff dir, fun mappings hall => ?_, normalDirectory_dot_iff dir,
    fun hdot ns other => conflict?_same_dir ((normalDirectory_dot_iff dir).mpr hdot)⟩
  have hsame : (mappings.map Mapping.normal).map Mapping.normal = mappings.map Mapping.normal := by
    rw [List.map_map]
    exact List.map_congr_left fun m hm => Mapping.normal_normal (hall m hm)
  simp only [Table.ofMappings, hsame]

/-- With two of them, one is left in the form, and is dropped the next time. -/
theorem normalDirectory_two_dots :
    normalDirectory "././src" = "./src/" ∧ normalDirectory "./src/" = "src/" ∧
      conflict? (Mapping.normal ⟨"A", "src"⟩) (Mapping.normal ⟨"B", "././src"⟩) = none := by
  decide +kernel

end CodeInsight.Autoload
