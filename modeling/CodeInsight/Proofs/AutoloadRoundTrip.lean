import CodeInsight.Proofs.AutoloadTable

/-!
# From class to path and back

The path of a class is found by a longest namespace, the class of a path by a longest directory. In
an accepted table the second search undoes the first: the mapping that holds the path of a class
continues the mapping that gave the path, so both name the same class.

## Main Results

- `isWordPath_of_words`: what the holder leaves of a path is a path of words
- `holder?_continues`: the holder of a path continues the mapping that gave it
- `classOf_pathOf`: the class of the path of a class is the class
-/

namespace CodeInsight.Autoload.Table

variable {pieces : List Text} {table : Table} {mappings : List Mapping} {c : ClassName}
  {path : String} {m : Mapping}

/-! ## Section 1: Qualified names -/

/-- One or more words, none of them empty, made of identifier characters only. -/
def AreWords (pieces : List Text) : Prop :=
  pieces ≠ [] ∧ ∀ piece ∈ pieces, piece ≠ [] ∧ ∀ c ∈ piece, Text.isIdentifierPart c = true

/-- A name that consists of words with separators between them. -/
def IsQualified (name : Text) : Prop :=
  ∃ pieces, AreWords pieces ∧ name = List.intercalate [separator] pieces

/-- `below` is what remains of a name after the longest namespace of a table that it begins with. -/
def Remainder (table : Table) (name below : Text) : Prop :=
  ∃ m ∈ table.mappings, name = m.ns.toList ++ below ∧
    ∀ k ∈ table.mappings, k.ns.toList <+: name → byteLength k.ns ≤ byteLength m.ns

theorem AreWords.notMem (h : AreWords pieces) {mark : Char}
    (hmark : Text.isIdentifierPart mark = false) : ∀ piece ∈ pieces, mark ∉ piece := by
  intro piece hpiece hmem
  rw [(h.2 piece hpiece).2 mark hmem] at hmark
  cases hmark

theorem AreWords.intercalate_ne_nil (h : AreWords pieces) (mark : Char) :
    List.intercalate [mark] pieces ≠ [] := by
  obtain ⟨hne, hwords⟩ := h
  cases pieces with
  | nil => exact absurd rfl hne
  | cons piece rest =>
    have hpiece : piece ≠ [] := (hwords piece List.mem_cons_self).1
    cases rest with
    | nil => simpa using hpiece
    | cons next rest => simp [List.intercalate_cons_cons]

/-! ## Section 2: Paths of words -/

/-- Behind a closed directory, the rest of a path of words is again a path of words. -/
theorem isWordPath_of_words (h : AreWords pieces) {between rest : Text}
    (hpath : between ++ rest = List.intercalate ['/'] pieces)
    (hclosed : between = [] ∨ between.getLast? = some '/') : isWordPath rest = true := by
  have hsplit : Text.splitOn '/' (between ++ rest) = pieces := by
    rw [hpath]
    exact Text.splitOn_intercalate h.1 (h.notMem (by decide))
  have hsubset : ∀ piece ∈ Text.splitOn '/' rest, piece ∈ pieces := by
    intro piece hpiece
    rcases hclosed with rfl | hlast
    · rw [List.nil_append] at hsplit
      exact hsplit ▸ hpiece
    · obtain ⟨front, rfl⟩ : ∃ front, between = front ++ ['/'] :=
        ⟨between.dropLast, (List.dropLast_append_getLast? '/' hlast).symm⟩
      rw [List.append_assoc, List.singleton_append, Text.splitOn_append_mark] at hsplit
      exact hsplit ▸ List.mem_append_right _ hpiece
  -- an empty rest would be an empty piece
  have hrest : rest ≠ [] := by
    rintro rfl
    exact (h.2 [] (hsubset [] (by simp [Text.splitOn]))).1 rfl
  simp only [isWordPath, Bool.and_eq_true, decide_eq_true_eq, List.all_eq_true]
  exact ⟨hrest, fun piece hpiece => h.2 piece (hsubset piece hpiece)⟩

/-! ## Section 3: The round trip -/

/-- A class with the remainder `below` gets its path from a mapping that leaves just that. -/
theorem pathOf_of_remainder (haccepted : ofMappings mappings = .ok table) {below : Text}
    (hrest : Remainder table c.text.toList below) (hne : below ≠ [])
    (hpath : table.pathOf c = .ok path) :
    ∃ m ∈ table.mappings, c.text.toList = m.ns.toList ++ below ∧ path = pathBelow m below := by
  obtain ⟨m, below', hchosen, hname, hform⟩ := pathOf_eq_ok haccepted hpath
  have hm : m ∈ table.mappings := List.mem_of_find?_eq_some hchosen.first
  obtain ⟨k, hk, hkname, hkLongest⟩ := hrest
  have hkProper : k.ns.toList ≠ c.text.toList := by
    intro heq
    rw [← heq] at hkname
    exact hne (by simpa using hkname)
  have hle : byteLength k.ns ≤ byteLength m.ns :=
    hchosen.longest k hk ⟨⟨below, hkname.symm⟩, hkProper⟩
  have hge : byteLength m.ns ≤ byteLength k.ns := hkLongest m hm ⟨below', hname.symm⟩
  -- two beginnings of one size are one
  have hns : k.ns.toList = m.ns.toList := by
    have hprefix : k.ns.toList <+: m.ns.toList :=
      Text.prefix_of_size_le ⟨below, hkname.symm⟩ ⟨below', hname.symm⟩ hle
    exact Text.eq_of_prefix_of_size_le hprefix hge
  have hbelow : below' = below := by
    rw [hkname, hns] at hname
    exact (List.append_cancel_left hname).symm
  exact ⟨m, hm, hbelow ▸ hname, hbelow ▸ hform⟩

/-- A path below the directory of `m` is held by a mapping that continues `m`, in its directory and
in its namespace alike. -/
theorem holder?_continues (haccepted : ofMappings mappings = .ok table) (hm : m ∈ table.mappings)
    (below : Text) :
    ∃ k between rest, table.holder? (m.dir.toList ++ below) = some k ∧ k ∈ table.mappings ∧
      k.dir.toList = m.dir.toList ++ between ∧ between ++ rest = below ∧
      k.ns.toList = m.ns.toList ++ nameOfPath between := by
  have hprefix : m.dir.toList <+: m.dir.toList ++ below := List.prefix_append _ _
  obtain ⟨k, hholder, hk, ⟨rest, hstem⟩, hlongest⟩ := exists_holder? hm hprefix
  obtain ⟨between, hbetween⟩ : m.dir.toList <+: k.dir.toList :=
    Text.prefix_of_size_le hprefix ⟨rest, hstem⟩ (hlongest m hm hprefix)
  have hparts : between ++ rest = below := by
    rw [← hbetween, List.append_assoc] at hstem
    exact List.append_cancel_left hstem
  exact ⟨k, between, rest, hholder, hk, hbetween.symm, hparts,
    agree_of_ofMappings haccepted hm hk between hbetween.symm⟩

/-- The class that a path gets, read off its normal form, its holder and the way back. -/
theorem classOf_eq_ok {stem : Text}
    (hnormal : withoutDot (forwardSlashes path.toList) = path.toList)
    (hstem : path.toList = stem ++ extension.toList) (hholder : table.holder? stem = some m)
    (hwords : isWordPath (stem.drop m.dir.toList.length) = true) (hclass : ClassName.ofText
      (m.ns ++ String.ofList (nameOfPath (stem.drop m.dir.toList.length))) = c)
    (hback : table.pathOf c = .ok path) : table.classOf path = .ok c := by
  have hdrop : Text.dropTrailing? path.toList extension.toList = some stem :=
    Text.dropTrailing?_eq_some_iff.mpr hstem
  unfold classOf
  simp only [hnormal, hdrop, hholder, hwords, hclass]
  rw [hback]
  simp [bind, Except.bind, pure, Except.pure]

/-- A path without a leading dot and without backslashes is in normal form. -/
theorem withoutDot_forwardSlashes {path : Text} (hfree : '\\' ∉ path)
    (hdot : ¬ ['.', '/'] <+: path) : withoutDot (forwardSlashes path) = path := by
  unfold forwardSlashes
  rw [Text.replaceChar_of_notMem hfree, withoutDot_of_no_dot hdot]

/-- A path begins with a dot and a slash only if its directory does, or, without a directory, what
stands below. -/
theorem not_dot_prefix_append {dir below : Text} (hdir : NormalDirectory dir)
    (hdot : ¬ ['.', '/'] <+: dir) (hne : below ≠ []) (hbelow : '.' ∉ below) (ending : Text) :
    ¬ ['.', '/'] <+: dir ++ below ++ ending := by
  rintro ⟨rest, hrest⟩
  match dir, below with
  | [], b :: _ =>
    have hb : '.' = b := by simpa using congrArg List.head? hrest
    exact hbelow (hb ▸ List.mem_cons_self)
  | [a], _ =>
    have ha : '.' = a := by simpa using congrArg List.head? hrest
    rcases hdir.closed with h | h
    · cases h
    · simp [← ha] at h
  | a :: b :: dir, _ =>
    simp only [List.cons_append, List.cons.injEq] at hrest
    obtain ⟨ha, hb, _⟩ := hrest
    exact hdot ⟨dir, by rw [← ha, ← hb]; rfl⟩

/-- **Round trip from class to path to class.** In an accepted table whose directories do not begin
with a dot and a slash, a class in written form whose name continues its longest namespace by one or
more words is the class of its path. -/
theorem classOf_pathOf {mappings : List Mapping} {table : Table}
    (haccepted : ofMappings mappings = .ok table)
    (hroots : ∀ m ∈ table.mappings, ¬ ['.', '/'] <+: m.dir.toList)
    {c : ClassName} (hcanonical : ClassName.ofText c.text = c)
    {below : Text} (hrest : Remainder table c.text.toList below) (hwords : IsQualified below)
    {path : String} (hpath : table.pathOf c = .ok path) : table.classOf path = .ok c := by
  obtain ⟨pieces, hpieces, hbelow⟩ := hwords
  have hne : below ≠ [] := hbelow ▸ hpieces.intercalate_ne_nil separator
  obtain ⟨m, hm, hname, hform⟩ := pathOf_of_remainder haccepted hrest hne hpath
  have hdir := normalDirectory_of_ofMappings haccepted hm
  have hpieced : pathOfName below = List.intercalate ['/'] pieces := by
    rw [hbelow]
    exact Text.replaceChar_intercalate (hpieces.notMem (by decide))
  have hunpath : nameOfPath (pathOfName below) = below := by
    refine Text.replaceChar_replaceChar ?_
    rw [hbelow]
    exact Text.notMem_intercalate (by decide) (hpieces.notMem (by decide))
  have hlist : path.toList = m.dir.toList ++ pathOfName below ++ extension.toList := by
    simp [hform, pathBelow]
  -- the path is in normal form
  have hnormal : withoutDot (forwardSlashes path.toList) = path.toList := by
    rw [hlist]
    refine withoutDot_forwardSlashes ?_ (not_dot_prefix_append hdir (hroots m hm) ?_ ?_ _)
    · have hfree : '\\' ∉ pathOfName below := Text.notMem_replaceChar (by decide) below
      simp [hdir.noBackslash, hfree, extension]
    · simpa [pathOfName] using hne
    · rw [hpieced]
      exact Text.notMem_intercalate (by decide) (hpieces.notMem (by decide))
  obtain ⟨k, between, rest, hholder, hk, hbetween, hparts, hns⟩ :=
    holder?_continues haccepted hm (pathOfName below)
  have hdrop : (m.dir.toList ++ pathOfName below).drop k.dir.toList.length = rest := by
    rw [← hparts, ← List.append_assoc, ← hbetween, List.drop_left]
  refine classOf_eq_ok hnormal hlist hholder ?_ ?_ hpath
  · rw [hdrop]
    refine isWordPath_of_words hpieces (hparts.trans hpieced) ?_
    exact (hbetween ▸ normalDirectory_of_ofMappings haccepted hk).between_closed
  · have htext : k.ns ++ String.ofList (nameOfPath rest) = c.text := by
      rw [← String.toList_inj, String.toList_append, String.toList_ofList, hns, hname,
        List.append_assoc, ← hunpath, ← hparts]
      simp [nameOfPath]
    rw [hdrop, htext, hcanonical]

/-- The round trip through nested directories, in a table with two directories for one namespace and
one for the global namespace. -/
theorem classOf_pathOf_nested :
    ∃ table : Table,
      ofMappings [⟨"", "lib"⟩, ⟨"App\\", "src"⟩, ⟨"\\App", "./app/"⟩, ⟨"App\\Sub", "src\\Sub"⟩] =
          .ok table ∧
        table.pathOf ⟨"App\\Sub\\Deep", "Foo"⟩ = .ok "src/Sub/Deep/Foo.php" ∧
        table.classOf "src/Sub/Deep/Foo.php" = .ok ⟨"App\\Sub\\Deep", "Foo"⟩ := by
  have haccepted :
      ofMappings [⟨"", "lib"⟩, ⟨"App\\", "src"⟩, ⟨"\\App", "./app/"⟩, ⟨"App\\Sub", "src\\Sub"⟩] =
        .ok ⟨[⟨"App\\Sub\\", "src/Sub/"⟩, ⟨"App\\", "src/"⟩, ⟨"App\\", "app/"⟩, ⟨"", "lib/"⟩]⟩ := by
    decide +kernel
  have hpath : pathOf
      ⟨[⟨"App\\Sub\\", "src/Sub/"⟩, ⟨"App\\", "src/"⟩, ⟨"App\\", "app/"⟩, ⟨"", "lib/"⟩]⟩
      ⟨"App\\Sub\\Deep", "Foo"⟩ = .ok "src/Sub/Deep/Foo.php" := by
    decide +kernel
  have hrest : Remainder
      ⟨[⟨"App\\Sub\\", "src/Sub/"⟩, ⟨"App\\", "src/"⟩, ⟨"App\\", "app/"⟩, ⟨"", "lib/"⟩]⟩
      (ClassName.text ⟨"App\\Sub\\Deep", "Foo"⟩).toList "Deep\\Foo".toList :=
    ⟨⟨"App\\Sub\\", "src/Sub/"⟩, by simp, by decide +kernel, by decide +kernel⟩
  have hwords : IsQualified "Deep\\Foo".toList := by
    refine ⟨["Deep".toList, "Foo".toList], ⟨by simp, ?_⟩, by decide +kernel⟩
    rw [List.forall_mem_cons, List.forall_mem_singleton]
    exact ⟨⟨by simp, List.all_eq_true.mp (by decide +kernel)⟩,
      ⟨by simp, List.all_eq_true.mp (by decide +kernel)⟩⟩
  exact ⟨_, haccepted, hpath,
    classOf_pathOf haccepted (by decide +kernel) (by decide +kernel) hrest hwords hpath⟩

end CodeInsight.Autoload.Table
