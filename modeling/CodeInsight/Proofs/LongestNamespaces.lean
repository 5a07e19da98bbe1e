import CodeInsight.Proofs.AutoloadConflicts

/-!
# The longest namespace and the first directory

The path of a class comes from the longest namespace that its name goes beyond, and from the first
directory listed for that namespace. Sorting the table and dropping its repeats change nothing about
that, so the order of a table matters only among directories of one namespace.

## Main Results

- `Chosen.unique`: at most one mapping is chosen for a name
- `Table.pathOf_eq_ok_iff`: the path of a class
- `Table.holder?_eq_of_mem_iff`: the holder of a path does not depend on the order
- `Table.longest_namespace_first_directory`: all of it, and what other orders of the table give
-/

namespace CodeInsight.Autoload

variable {mappings others : List Mapping} {name : Text} {m k : Mapping}

/-! ## Section 1: The chosen mapping -/

/-- Namespaces of one length that a name goes beyond are equal. -/
theorem Chosen.unique (hm : Chosen mappings name m) (hk : Chosen mappings name k) : m = k := by
  have hle : byteLength m.ns ≤ byteLength k.ns :=
    hk.longest m (List.mem_of_find?_eq_some hm.first) hm.covers
  have hge : byteLength k.ns ≤ byteLength m.ns :=
    hm.longest k (List.mem_of_find?_eq_some hk.first) hk.covers
  have hprefix : m.ns.toList <+: k.ns.toList :=
    Text.prefix_of_size_le hm.covers.1 hk.covers.1 hle
  have hns : m.ns = k.ns := String.toList_inj.mp (Text.eq_of_prefix_of_size_le hprefix hge)
  have hfirst := hm.first
  rw [hns, hk.first] at hfirst
  exact (Option.some.inj hfirst).symm

/-- The same mappings, those with one namespace in the same order. -/
def Reordered (mappings others : List Mapping) : Prop :=
  ∀ ns, mappings.filter (fun m => m.ns = ns) = others.filter fun m => m.ns = ns

theorem Reordered.mem_iff (h : Reordered mappings others) : m ∈ mappings ↔ m ∈ others := by
  have hmem := congrArg (m ∈ ·) (h m.ns)
  simpa using hmem

theorem Reordered.find? (h : Reordered mappings others) (ns : String) :
    mappings.find? (fun m => m.ns = ns) = others.find? fun m => m.ns = ns := by
  rw [← List.head?_filter, h ns, List.head?_filter]

/-- Of mappings in another order the same one is chosen. -/
theorem Chosen.reordered (hm : Chosen mappings name m) (h : Reordered mappings others) :
    Chosen others name m :=
  ⟨hm.covers, fun k hk => hm.longest k (h.mem_iff.mpr hk), h.find? m.ns ▸ hm.first⟩

/-- Namespaces in normal form end with a separator, so a name goes beyond them at the end of a
segment. -/
theorem exists_segment_of_covers (hns : m.normal.ns ≠ "") (h : m.normal.Covers name) :
    ∃ front below, m.normal.ns.toList = front ++ [separator] ∧ name = front ++ separator :: below ∧
      below ≠ [] := by
  have hlast : m.normal.ns.toList.getLast? = some separator := by
    simp only [Mapping.normal, normalNamespace, String.toList_ofList] at hns ⊢
    unfold endingWith at hns ⊢
    split at hns
    next hclosed =>
      rw [if_pos hclosed]
      exact hclosed.resolve_left fun hnil => hns (by rw [hnil])
    next hopen =>
      rw [if_neg hopen]
      exact List.getLast?_concat
  obtain ⟨⟨below, hbelow⟩, hne⟩ := h
  have hfront := List.dropLast_append_getLast? separator hlast
  refine ⟨m.normal.ns.toList.dropLast, below, hfront.symm, ?_, ?_⟩
  · rw [← hbelow, ← hfront]
    simp
  · rintro rfl
    exact hne (by simpa using hbelow)

/-! ## Section 2: From class to path -/

theorem find?_dropRepeats (p : Mapping → Bool) (mappings : List Mapping) :
    (dropRepeats mappings).find? p = mappings.find? p := by
  induction mappings using dropRepeats.induct with
  | case1 => rfl
  | case2 a => rfl
  | case3 a rest ih => cases h : p a <;> simp_all [dropRepeats]
  | case4 a b rest hne ih => simp only [dropRepeats, if_neg hne, List.find?_cons, ih]

namespace Table

variable {table : Table} {c : ClassName} {path : String}

/-- A table chooses as the list of its mappings does. -/
theorem chosen_iff (h : ofMappings mappings = .ok table) :
    Chosen table.mappings name m ↔ Chosen (mappings.map Mapping.normal) name m := by
  have hmem : ∀ k, k ∈ table.mappings ↔ k ∈ mappings.map Mapping.normal := fun k => by
    rw [mem_of_ofMappings h, List.mem_map]
  have hfind : ∀ ns, table.mappings.find? (fun k => k.ns = ns) =
      (mappings.map Mapping.normal).find? fun k => k.ns = ns := by
    intro ns
    -- mappings with one namespace may precede each other, so sorting keeps their order
    have hstable : ∀ a : Mapping, decide (a.ns = ns) = true → ∀ b : Mapping,
        decide (b.ns = ns) = true → before a b = true := by
      intro a ha b hb
      rw [before, of_decide_eq_true ha, of_decide_eq_true hb]
      exact decide_eq_true (Nat.le_refl _)
    rw [(ofMappings_eq_ok_iff.mp h).2, ← List.head?_filter, filter_stableSort hstable,
      List.head?_filter, find?_dropRepeats]
  constructor
  · exact fun hm => ⟨hm.covers, fun k hk => hm.longest k ((hmem k).mpr hk), hfind m.ns ▸ hm.first⟩
  · exact fun hm => ⟨hm.covers, fun k hk => hm.longest k ((hmem k).mp hk), hfind m.ns ▸ hm.first⟩

theorem pathOf_cases (table : Table) (c : ClassName) :
    (∃ path, table.pathOf c = .ok path) ∨ table.pathOf c = .error (.sourceNotFound c.text) := by
  unfold pathOf
  split
  · exact .inr rfl
  · split
    next path _ => exact .inl ⟨path, rfl⟩
    next => exact .inr rfl

theorem pathOf_eq_error_iff (h : ofMappings mappings = .ok table)
    (hc : isBuiltinType c.text = false) :
    table.pathOf c = .error (.sourceNotFound c.text) ↔
      ∀ m ∈ mappings.map Mapping.normal, ¬ m.Covers c.text.toList := by
  constructor
  · intro hfailed m hm
    simp only [pathOf, hc, Bool.false_eq_true, if_false] at hfailed
    split at hfailed
    next => cases hfailed
    next hnone =>
      rw [List.mem_map, ← mem_of_ofMappings h] at hm
      exact pathBy?_eq_none (List.findSome?_eq_none_iff.mp hnone m hm)
  · intro hnone
    refine (pathOf_cases table c).resolve_left fun ⟨path, hpath⟩ => ?_
    obtain ⟨m, _, hm, -⟩ := pathOf_eq_ok h hpath
    exact hnone m (List.mem_of_find?_eq_some ((chosen_iff h).mp hm).first) hm.covers

/-- **The path of a class** that is no built-in type. -/
theorem pathOf_eq_ok_iff (h : ofMappings mappings = .ok table) (hc : isBuiltinType c.text = false) :
    table.pathOf c = .ok path ↔
      ∃ m below, Chosen (mappings.map Mapping.normal) c.text.toList m ∧
        c.text.toList = m.ns.toList ++ below ∧ path = pathBelow m below := by
  constructor
  · intro hpath
    obtain ⟨m, below, hm, hparts⟩ := pathOf_eq_ok h hpath
    exact ⟨m, below, (chosen_iff h).mp hm, hparts⟩
  · rintro ⟨m, below, hm, hname, rfl⟩
    obtain ⟨path, hpath⟩ | hfailed := pathOf_cases table c
    · obtain ⟨k, below', hk, hname', rfl⟩ := pathOf_eq_ok h hpath
      obtain rfl := hm.unique ((chosen_iff h).mp hk)
      rw [hpath, List.append_cancel_left (hname.symm.trans hname')]
    · -- the name goes beyond the chosen mapping
      have hnone := (pathOf_eq_error_iff h hc).mp hfailed
      exact absurd hm.covers (hnone m (List.mem_of_find?_eq_some hm.first))

/-! ## Section 3: Tables in another order -/

variable {table' : Table}

/-- Two directories of one length that hold a path are one, and in an accepted table one directory
has one namespace. -/
theorem holder?_eq_of_mem_iff (h : ofMappings mappings = .ok table)
    (hmem : ∀ m, m ∈ table'.mappings ↔ m ∈ table.mappings) (stem : Text) :
    table'.holder? stem = table.holder? stem := by
  by_cases hheld : ∃ m ∈ table.mappings, m.dir.toList <+: stem
  · obtain ⟨m, hm, hdir⟩ := hheld
    obtain ⟨a, ha, hain, hadir, halongest⟩ := exists_holder? hm hdir
    obtain ⟨b, hb, hbin, hbdir, hblongest⟩ := exists_holder? ((hmem m).mpr hm) hdir
    rw [hmem] at hbin
    -- both are longest among the same directories that hold the stem
    have hle : byteLength b.dir ≤ byteLength a.dir := halongest b hbin hbdir
    have hge : byteLength a.dir ≤ byteLength b.dir := hblongest a ((hmem a).mpr hain) hadir
    have hdirs : b.dir.toList = a.dir.toList :=
      Text.eq_of_prefix_of_size_le (Text.prefix_of_size_le hbdir hadir hle) hge
    have hns : b.ns.toList = a.ns.toList := by
      have hagree := agree_of_ofMappings h hain hbin [] (by simpa using hdirs)
      simpa [nameOfPath] using hagree
    rw [ha, hb, Option.some.injEq]
    cases a
    cases b
    exact congrArg₂ Mapping.mk (String.toList_inj.mp hns) (String.toList_inj.mp hdirs)
  · have hnone : ∀ t : Table, (∀ m, m ∈ t.mappings ↔ m ∈ table.mappings) →
        t.holder? stem = none := by
      intro t ht
      have hfilter : t.mappings.filter (fun m => m.dir.toList.isPrefixOf stem) = [] := by
        rw [List.filter_eq_nil_iff]
        intro m hm hprefix
        exact hheld ⟨m, (ht m).mp hm, List.isPrefixOf_iff_prefix.mp hprefix⟩
      rw [holder?, hfilter]
      rfl
    rw [hnone table' hmem, hnone table fun _ => Iff.rfl]

/-- A path is read back by its holder and by the paths of classes. -/
theorem classOf_congr (hholder : ∀ stem, table'.holder? stem = table.holder? stem)
    (hpath : ∀ c, table'.pathOf c = table.pathOf c) (path : String) :
    table'.classOf path = table.classOf path := by
  unfold classOf
  simp only [hholder, hpath]

theorem pathOf_reordered (h : ofMappings mappings = .ok table) (h' : ofMappings others = .ok table')
    (horder : Reordered (others.map Mapping.normal) (mappings.map Mapping.normal)) (c : ClassName) :
    table'.pathOf c = table.pathOf c := by
  cases hc : isBuiltinType c.text with
  | true => simp [pathOf, hc]
  | false =>
    obtain ⟨path, hpath⟩ | hfailed := pathOf_cases table' c
    · obtain ⟨m, below, hm, hparts⟩ := (pathOf_eq_ok_iff h' hc).mp hpath
      rw [hpath, (pathOf_eq_ok_iff h hc).mpr ⟨m, below, hm.reordered horder, hparts⟩]
    · have hnone := (pathOf_eq_error_iff h' hc).mp hfailed
      rw [hfailed, (pathOf_eq_error_iff h hc).mpr fun m hm => hnone m (horder.mem_iff.mpr hm)]

/-- **The longest namespace and the first directory.** In an accepted table the path of a class that
is no built-in type is that of the first mapping, in normal form, with the longest namespace that
the name goes beyond: its directory, what is left of the name with slashes, and the extension. There
is no path just if the name goes beyond no namespace, and a namespace that is not empty is left at
the end of a segment. So every order of the table that keeps the order of mappings with one
namespace gives the same paths and the same classes. -/
theorem longest_namespace_first_directory (haccepted : ofMappings mappings = .ok table) :
    (∀ c : ClassName, isBuiltinType c.text = false →
      (∀ path, table.pathOf c = .ok path ↔
        ∃ m below, Chosen (mappings.map Mapping.normal) c.text.toList m ∧
          c.text.toList = m.ns.toList ++ below ∧
          path = m.dir ++ String.ofList (Text.replaceChar '\\' '/' below) ++ ".php") ∧
      (table.pathOf c = .error (.sourceNotFound c.text) ↔
        ∀ m ∈ mappings.map Mapping.normal, ¬ m.Covers c.text.toList)) ∧
    (∀ m ∈ mappings.map Mapping.normal, ∀ name, m.ns ≠ "" → m.Covers name →
      ∃ front below, m.ns.toList = front ++ [separator] ∧ name = front ++ separator :: below ∧
        below ≠ []) ∧
    ∀ others : List Mapping, Reordered (others.map Mapping.normal) (mappings.map Mapping.normal) →
      ∃ table', ofMappings others = .ok table' ∧ (∀ c, table'.pathOf c = table.pathOf c) ∧
        ∀ path, table'.classOf path = table.classOf path := by
  refine ⟨fun c hc => ⟨fun path => pathOf_eq_ok_iff haccepted hc, pathOf_eq_error_iff haccepted hc⟩,
    fun m hm name hns hcovers => ?_, fun others horder => ?_⟩
  · obtain ⟨k, -, rfl⟩ := List.mem_map.mp hm
    exact exists_segment_of_covers hns hcovers
  · obtain ⟨table', haccepted'⟩ : ∃ table', ofMappings others = .ok table' := by
      have hfree := accepted_iff_not_named_twice.mp ⟨table, haccepted⟩
      refine accepted_iff_not_named_twice.mpr fun ⟨path, htwice⟩ => hfree ⟨path, ?_⟩
      exact htwice.subset fun m => horder.mem_iff.mp
    have hmem : ∀ m, m ∈ table'.mappings ↔ m ∈ table.mappings := fun m => by
      rw [mem_of_ofMappings haccepted', mem_of_ofMappings haccepted, ← List.mem_map, ← List.mem_map]
      exact horder.mem_iff
    have hpaths := pathOf_reordered haccepted haccepted' horder
    exact ⟨table', haccepted', hpaths, classOf_congr (holder?_eq_of_mem_iff haccepted hmem) hpaths⟩

/-- Two directories of one namespace, before and after another one of a longer namespace. -/
theorem scattered_directories_in_order :
    ∃ table table' : Table,
      ofMappings [⟨"App", "src"⟩, ⟨"App\\Sub\\", "./sub"⟩, ⟨"\\App", "app/"⟩] = .ok table ∧
        ofMappings [⟨"App\\Sub\\", "./sub"⟩, ⟨"App", "src"⟩, ⟨"\\App", "app/"⟩] = .ok table' ∧
        table'.pathOf ⟨"App", "Sub"⟩ = .ok "src/Sub.php" ∧
        table'.classOf "sub/A.php" = table.classOf "sub/A.php" := by
  have haccepted : ofMappings [⟨"App", "src"⟩, ⟨"App\\Sub\\", "./sub"⟩, ⟨"\\App", "app/"⟩] =
      .ok ⟨[⟨"App\\Sub\\", "sub/"⟩, ⟨"App\\", "src/"⟩, ⟨"App\\", "app/"⟩]⟩ := by decide +kernel
  have horder : Reordered
      ([⟨"App\\Sub\\", "./sub"⟩, ⟨"App", "src"⟩, ⟨"\\App", "app/"⟩].map Mapping.normal)
      ([⟨"App", "src"⟩, ⟨"App\\Sub\\", "./sub"⟩, ⟨"\\App", "app/"⟩].map Mapping.normal) := by
    have hnormal : Mapping.normal ⟨"App", "src"⟩ = ⟨"App\\", "src/"⟩ ∧
        Mapping.normal ⟨"App\\Sub\\", "./sub"⟩ = ⟨"App\\Sub\\", "sub/"⟩ ∧
        Mapping.normal ⟨"\\App", "app/"⟩ = ⟨"App\\", "app/"⟩ := by decide +kernel
    intro ns
    simp only [List.map_cons, List.map_nil, hnormal]
    by_cases hns : "App\\" = ns
    · subst hns
      decide +kernel
    · simp [List.filter_cons, hns]
  obtain ⟨hpaths, -, hothers⟩ := longest_namespace_first_directory haccepted
  obtain ⟨table', haccepted', hsame, hclasses⟩ := hothers _ horder
  refine ⟨_, table', haccepted, haccepted', ?_, hclasses _⟩
  rw [hsame]
  refine ((hpaths ⟨"App", "Sub"⟩ (by decide +kernel)).1 _).mpr ?_
  refine ⟨⟨"App\\", "src/"⟩, "Sub".toList, ⟨?_, ?_, ?_⟩, ?_, ?_⟩ <;> decide +kernel

end Table

end CodeInsight.Autoload
