import CodeInsight.Analysis
import CodeInsight.Rename
import CodeInsight.Proofs.SimultaneousEdits
import Mathlib.Data.List.TakeWhile

/-!
# The text of a renamed class

A rename makes at most two edits: one in the declaration of the namespace that governs the class,
and one of the name in the declaration of the class. The text is described here by its parts,
without offsets: what stands before the namespace, the part of its declaration that is changed, what
stands between that part and the name of the class, the name, and the rest. As long as the keyword
of the class stands between the two declarations, the edits keep clear of each other, and only two
of the parts change.

## Main Results

- `Rename.renamed_eq`: the two edits, one after the other
- `Rename.WellPlaced.exists_parts`: the parts of the text of a file
- `Rename.rename_changes_two_parts`: what a rename changes and what it leaves alone
-/

namespace CodeInsight.Rename

variable {written : String}

/-! ## Section 1: Two edits -/

/-- A text with a piece of it exchanged, if one is to be. -/
def exchanged (path : String) (change : Option (Span × String)) (text : Text) : Text :=
  match change with
  | some (range, replacement) => Edit.apply text ⟨path, range, replacement⟩
  | none => text

/-- The name of the class is changed first if it stands behind that of the namespace. -/
theorem renamed_eq {file : FileModel} {c : ClassModel} {target : ClassName} {text : Text}
    (h : ∀ space name, namespaceEdit? file c target text = some space →
      nameEdit? c target = some name → space.1.start < name.1.start) :
    renamed file c target text = exchanged file.path (namespaceEdit? file c target text)
      (exchanged file.path (nameEdit? c target) text) := by
  unfold renamed edits
  cases hspace : namespaceEdit? file c target text with
  | none => cases nameEdit? c target <;> rfl
  | some space =>
    cases hname : nameEdit? c target with
    | none => rfl
    | some name =>
      have hlater : Edit.later ⟨file.path, space.1, space.2⟩ ⟨file.path, name.1, name.2⟩ = false :=
        decide_eq_false (Nat.not_le.mpr (h space name hspace hname))
      simp only [Option.toList, List.cons_append, List.nil_append, List.map_cons, List.map_nil,
        Edit.applyAll, stableSort, List.foldr_cons, List.foldr_nil, insertSorted, hlater]
      rfl

/-! ## Section 2: The parts of a text -/

/-- The text of a file, cut where a rename may change it. -/
structure Parts where
  front : Text
  /-- What is changed in the declaration of the namespace. -/
  place : Text
  between : Text
  /-- The name in the declaration of the class. -/
  name : Text
  behind : Text

namespace Parts

/-- The parts put together, with other texts for the two that may change. -/
def filled (p : Parts) (place name : Text) : Text :=
  p.front ++ (place ++ (p.between ++ (name ++ p.behind)))

/-- The text that is cut. -/
def text (p : Parts) : Text := p.filled p.place p.name

def placeSpan (p : Parts) : Span := ⟨Text.size p.front, Text.size p.front + Text.size p.place⟩

def nameSpan (p : Parts) : Span :=
  ⟨Text.size (p.front ++ (p.place ++ p.between)),
    Text.size (p.front ++ (p.place ++ p.between)) + Text.size p.name⟩

variable {p : Parts}

theorem filled_eq_append (p : Parts) (place name : Text) :
    p.filled place name = (p.front ++ (place ++ p.between)) ++ (name ++ p.behind) := by
  simp only [filled, List.append_assoc]

theorem apply_nameSpan (path replacement : String) :
    Edit.apply p.text ⟨path, p.nameSpan, replacement⟩ = p.filled p.place replacement.toList := by
  rw [text, filled_eq_append, filled_eq_append]
  exact Edit.apply_exchange _ _ _ _ _ rfl

theorem apply_placeSpan (name : Text) (path replacement : String) :
    Edit.apply (p.filled p.place name) ⟨path, p.placeSpan, replacement⟩ =
      p.filled replacement.toList name :=
  Edit.apply_exchange _ _ _ _ _ rfl

theorem place_eq_nil {offset : Nat} (h : p.placeSpan = .empty offset) : p.place = [] := by
  cases hplace : p.place with
  | nil => rfl
  | cons d ds =>
    have hpos := d.utf8Size_pos
    obtain ⟨hstart, hstop⟩ := Span.mk.inj h
    rw [hplace, Text.size_cons] at hstop
    omega

/-- What lies between keeps the two places apart. -/
theorem placeSpan_stop_lt (h : p.between ≠ []) : p.placeSpan.stop < p.nameSpan.start := by
  obtain ⟨d, ds, hbetween⟩ := List.exists_cons_of_ne_nil h
  have hpos := d.utf8Size_pos
  simp only [placeSpan, nameSpan, hbetween, Text.size_append, Text.size_cons]
  omega

theorem fits_placeSpan (path replacement : String) :
    Edit.fits p.text ⟨path, p.placeSpan, replacement⟩ = true := by
  have hstop : p.placeSpan.stop = Text.size (p.front ++ p.place) := (Text.size_append _ _).symm
  refine Bool.and_eq_true_iff.mpr ⟨Text.isBoundary_size _ _, ?_⟩
  rw [text, filled, ← List.append_assoc, hstop]
  exact Text.isBoundary_size _ _

theorem fits_nameSpan (path replacement : String) :
    Edit.fits p.text ⟨path, p.nameSpan, replacement⟩ = true := by
  have hstop : p.nameSpan.stop = Text.size (p.front ++ (p.place ++ p.between) ++ p.name) :=
    (Text.size_append _ _).symm
  rw [text, filled_eq_append]
  refine Bool.and_eq_true_iff.mpr ⟨Text.isBoundary_size _ _, ?_⟩
  rw [← List.append_assoc, hstop]
  exact Text.isBoundary_size _ _

theorem inside_placeSpan (path replacement : String) :
    Edit.Inside p.text ⟨path, p.placeSpan, replacement⟩ := by
  refine ⟨Nat.le_add_right _ _, ?_⟩
  simp only [text, filled, placeSpan, Text.size_append]
  omega

theorem inside_nameSpan (path replacement : String) :
    Edit.Inside p.text ⟨path, p.nameSpan, replacement⟩ := by
  refine ⟨Nat.le_add_right _ _, ?_⟩
  simp only [text, filled, nameSpan, Text.size_append]
  omega

end Parts

/-! ## Section 3: Where declarations stand -/

/-- Line ends, which go away together with a declaration. -/
def isLineEnd (d : Char) : Bool := d == '\r' || d == '\n'

/-- Between two offsets stands something other than line ends, as the keyword of a declaration
is. -/
def Apart (text : Text) (start stop : Nat) : Bool :=
  (Text.slice text start stop).any fun d => !isLineEnd d

/-- The keyword of a namespace, its name and the end of its declaration are boundaries of the text
and come in this order. -/
structure InOrder (text : Text) (n : NamespaceModel) : Prop where
  start : Text.isBoundary text n.statement.start = true
  keyword : Text.isBoundary text n.keywordEnd = true
  stop : Text.isBoundary text n.statement.stop = true
  keyword_after : n.statement.start ≤ n.keywordEnd
  keyword_before : n.keywordEnd ≤ n.statement.stop
  name : ∀ span ∈ n.nameSpan, Text.isBoundary text span.start = true ∧
    Text.isBoundary text span.stop = true ∧
    n.keywordEnd ≤ span.start ∧ span.start ≤ span.stop ∧ span.stop ≤ n.statement.stop

/-- The name of a class stands behind the declaration of the namespace that governs it, or else
behind the header of the file, with the keyword of the class in between. -/
structure WellPlaced (text : Text) (file : FileModel) (c : ClassModel) : Prop where
  start : Text.isBoundary text c.nameSpan.start = true
  stop : Text.isBoundary text c.nameSpan.stop = true
  upright : c.nameSpan.start ≤ c.nameSpan.stop
  governed : ∀ n ∈ file.namespaceAt c.nameSpan.start,
    InOrder text n ∧ Apart text n.statement.stop c.nameSpan.start = true
  free : file.namespaceAt c.nameSpan.start = none →
    Text.isBoundary text file.headerEnd = true ∧ Apart text file.headerEnd c.nameSpan.start = true

instance (text : Text) (n : NamespaceModel) : Decidable (InOrder text n) :=
  decidable_of_iff (_ ∧ _ ∧ _ ∧ _ ∧ _ ∧ _)
    ⟨fun ⟨h₁, h₂, h₃, h₄, h₅, h₆⟩ => ⟨h₁, h₂, h₃, h₄, h₅, h₆⟩,
      fun ⟨h₁, h₂, h₃, h₄, h₅, h₆⟩ => ⟨h₁, h₂, h₃, h₄, h₅, h₆⟩⟩

instance (text : Text) (file : FileModel) (c : ClassModel) : Decidable (WellPlaced text file c) :=
  decidable_of_iff (_ ∧ _ ∧ _ ∧ _ ∧ _)
    ⟨fun ⟨h₁, h₂, h₃, h₄, h₅⟩ => ⟨h₁, h₂, h₃, h₄, h₅⟩, fun ⟨h₁, h₂, h₃, h₄, h₅⟩ =>
      ⟨h₁, h₂, h₃, h₄, h₅⟩⟩

section

variable {text : Text} {file : FileModel} {c : ClassModel}

theorem Apart.le {start stop : Nat} (h : Apart text start stop = true) : start ≤ stop := by
  refine Nat.le_of_not_lt fun hlt => ?_
  rw [Apart, Text.slice, Text.slice?_of_lt hlt] at h
  cases h

/-- **The parts of a text** around a range that ends before the declaration of the class begins. -/
theorem WellPlaced.exists_parts (h : WellPlaced text file c) {start stop limit : Nat}
    (hstart : Text.isBoundary text start = true) (hstop : Text.isBoundary text stop = true)
    (hlimit : Text.isBoundary text limit = true) (hle : start ≤ stop) (hle' : stop ≤ limit)
    (hapart : Apart text limit c.nameSpan.start = true) :
    ∃ p : Parts, p.text = text ∧ p.placeSpan = ⟨start, stop⟩ ∧ p.nameSpan = c.nameSpan ∧
      ∃ d ∈ p.between, isLineEnd d = false := by
  -- from the end: the name, the keyword before it, the end of the range, its start
  obtain ⟨b, ⟨behind, rfl⟩, hb⟩ := Text.isBoundary_iff.mp h.stop
  obtain ⟨u, name, rfl, hu⟩ := Text.exists_split h.start (hb ▸ h.upright)
  rw [List.append_assoc] at hstart hstop hlimit hapart ⊢
  obtain ⟨v, gap, rfl, hv⟩ := Text.exists_split hlimit (hu ▸ Apart.le hapart)
  rw [List.append_assoc] at hstart hstop hapart ⊢
  obtain ⟨w, x, rfl, hw⟩ := Text.exists_split hstop (hv ▸ hle')
  rw [List.append_assoc] at hstart
  obtain ⟨front, place, rfl, hfront⟩ := Text.exists_split hstart (hw ▸ hle)
  have hgap : gap.any (fun d => !isLineEnd d) = true := by
    rw [Apart, ← hu, ← hv, Text.size_append _ gap, Text.slice_size] at hapart
    exact hapart
  obtain ⟨d, hd, hnot⟩ := List.any_eq_true.mp hgap
  refine ⟨⟨front, place, x ++ gap, name, behind⟩, ?_, ?_, ?_, d, List.mem_append_right x hd,
    by simpa using hnot⟩
  · show front ++ (place ++ (x ++ gap ++ (name ++ behind))) = _
    simp only [List.append_assoc]
  · show (⟨Text.size front, Text.size front + Text.size place⟩ : Span) = ⟨start, stop⟩
    rw [← Text.size_append, hw, hfront]
  · have hsize : Text.size (front ++ (place ++ (x ++ gap))) = c.nameSpan.start := by
      rw [← hu]
      simp only [List.append_assoc]
    show (⟨_, _ + Text.size name⟩ : Span) = ⟨c.nameSpan.start, c.nameSpan.stop⟩
    rw [hsize, ← hb, Text.size_append _ name, hu]

end

/-! ## Section 4: What a rename changes -/

/-- What is written at the place of the namespace when a class gets the namespace `ns`, and which
part of the text that place is. -/
inductive Rehoused (file : FileModel) (c : ClassModel) (ns : String) (p : Parts) : String → Prop
  /-- The class stays in its namespace. -/
  | kept (hsame : c.name.ns = ns) (hplace : p.place = []) : Rehoused file c ns p ""
  /-- The class leaves for no namespace, and none is named. -/
  | nameless (hne : c.name.ns ≠ ns) (hns : ns = "")
      (hnone : ∀ n ∈ file.namespaceAt c.nameSpan.start, n.nameSpan = none) (hplace : p.place = []) :
      Rehoused file c ns p ""
  /-- The name of the namespace is replaced. -/
  | renamed (n : NamespaceModel) (hne : c.name.ns ≠ ns) (hns : ns ≠ "")
      (hn : file.namespaceAt c.nameSpan.start = some n) (hplace : n.nameSpan = some p.placeSpan) :
      Rehoused file c ns p ns
  /-- The name is taken out from between the keyword and the brace. -/
  | unnamed (n : NamespaceModel) (span : Span) (hne : c.name.ns ≠ ns) (hns : ns = "")
      (hn : file.namespaceAt c.nameSpan.start = some n) (hspan : n.nameSpan = some span)
      (hbraced : n.braced = true) (hplace : p.placeSpan = ⟨n.keywordEnd, span.stop⟩) :
      Rehoused file c ns p ""
  /-- The declaration is taken out, together with all line ends that follow it. -/
  | dropped (n : NamespaceModel) (statement ends : Text) (hne : c.name.ns ≠ ns) (hns : ns = "")
      (hn : file.namespaceAt c.nameSpan.start = some n) (hspan : n.nameSpan.isSome = true)
      (hbraced : n.braced = false) (hplace : p.place = statement ++ ends)
      (hstatement : n.statement =
        ⟨Text.size p.front, Text.size p.front + Text.size statement⟩)
      (hends : ∀ d ∈ ends, isLineEnd d = true) (hall : ∀ d ∈ p.between.head?, isLineEnd d = false) :
      Rehoused file c ns p ""
  /-- The name is put in behind the keyword. -/
  | named (n : NamespaceModel) (hne : c.name.ns ≠ ns) (hns : ns ≠ "")
      (hn : file.namespaceAt c.nameSpan.start = some n) (hspan : n.nameSpan = none)
      (hplace : p.placeSpan = .empty n.keywordEnd) : Rehoused file c ns p (" " ++ ns)
  /-- A declaration is put in behind the header of the file. -/
  | declared (hne : c.name.ns ≠ ns) (hns : ns ≠ "") (hn : file.namespaceAt c.nameSpan.start = none)
      (hplace : p.placeSpan = .empty file.headerEnd) :
      Rehoused file c ns p ("\n\nnamespace " ++ ns ++ ";")

variable {p : Parts}

section

variable {text : Text} {file : FileModel} {c : ClassModel} {target : ClassName}

/-- The parts of a text that are cut as a rename requires, with the edit of the namespace. -/
structure Cut (text : Text) (file : FileModel) (c : ClassModel) (target : ClassName) (p : Parts)
    (written : String) : Prop where
  whole : p.text = text
  name : p.nameSpan = c.nameSpan
  between : p.between ≠ []
  rehoused : Rehoused file c target.ns p written
  edit : namespaceEdit? file c target text = none ∧ p.place = [] ∧ written = "" ∨
    namespaceEdit? file c target text = some (p.placeSpan, written)

/-- If the namespace is left alone, the text may be cut wherever the class is clear of what governs
it. -/
theorem WellPlaced.exists_cut_of_none (h : WellPlaced text file c)
    (hedit : namespaceEdit? file c target text = none)
    (hre : ∀ p : Parts, p.place = [] → Rehoused file c target.ns p "") :
    ∃ p written, Cut text file c target p written := by
  obtain ⟨limit, hlimit, hapart⟩ : ∃ limit, Text.isBoundary text limit = true ∧
      Apart text limit c.nameSpan.start = true := by
    cases hn : file.namespaceAt c.nameSpan.start with
    | none => exact ⟨_, h.free hn⟩
    | some n => exact ⟨_, (h.governed n hn).1.stop, (h.governed n hn).2⟩
  obtain ⟨p, hwhole, hplace, hname, d, hd, -⟩ :=
    h.exists_parts hlimit hlimit hlimit (Nat.le_refl _) (Nat.le_refl _) hapart
  have hempty : p.place = [] := Parts.place_eq_nil hplace
  exact ⟨p, "", hwhole, hname, List.ne_nil_of_mem hd, hre p hempty, .inl ⟨hedit, hempty, rfl⟩⟩

/-- A range that ends before the class is the place of the namespace. -/
theorem WellPlaced.exists_cut_of_range (h : WellPlaced text file c) {start stop limit : Nat}
    (hedit : namespaceEdit? file c target text = some (⟨start, stop⟩, written))
    (hstart : Text.isBoundary text start = true) (hstop : Text.isBoundary text stop = true)
    (hlimit : Text.isBoundary text limit = true) (hle : start ≤ stop) (hle' : stop ≤ limit)
    (hapart : Apart text limit c.nameSpan.start = true)
    (hre : ∀ p : Parts, p.placeSpan = ⟨start, stop⟩ → Rehoused file c target.ns p written) :
    ∃ p written, Cut text file c target p written := by
  obtain ⟨p, hwhole, hplace, hname, d, hd, -⟩ :=
    h.exists_parts hstart hstop hlimit hle hle' hapart
  exact ⟨p, written, hwhole, hname, List.ne_nil_of_mem hd, hre p hplace,
    .inr (by rw [hedit, hplace])⟩

/-- The line ends behind a declaration end before the class. -/
theorem takeWhile_lineEnds {between : Text} (h : ∃ d ∈ between, isLineEnd d = false) (rest : Text) :
    (between ++ rest).takeWhile isLineEnd = between.takeWhile isLineEnd := by
  obtain ⟨d, hd, hnot⟩ := h
  rw [List.takeWhile_append, if_neg]
  intro hlength
  have hall : between.takeWhile isLineEnd = between :=
    (List.takeWhile_sublist _).eq_of_length hlength
  have hd' := List.takeWhile_eq_self_iff.mp hall d hd
  rw [hnot] at hd'
  cases hd'

/-- A declaration that is taken out goes together with the line ends behind it. -/
theorem WellPlaced.exists_cut_of_dropped (h : WellPlaced text file c) {n : NamespaceModel}
    (hne : c.name.ns ≠ target.ns) (hns : target.ns = "")
    (hn : file.namespaceAt c.nameSpan.start = some n) (hspan : n.nameSpan.isSome = true)
    (hbraced : n.braced = false) : ∃ p written, Cut text file c target p written := by
  obtain ⟨horder, hapart⟩ := h.governed n hn
  obtain ⟨p, hwhole, hplace, hname, hkeyword⟩ := h.exists_parts horder.start horder.stop horder.stop
    (Nat.le_trans horder.keyword_after horder.keyword_before) (Nat.le_refl _) hapart
  obtain ⟨hstart, hstop⟩ := Span.mk.inj hplace
  have hbehind : Text.after text n.statement.stop = p.between ++ (p.name ++ p.behind) := by
    rw [← hwhole, ← hstop, ← Text.size_append, Parts.text, Parts.filled,
      ← List.append_assoc, Text.after, Text.cut?_size]
    rfl
  have hends : lineEnds text n.statement.stop = Text.size (p.between.takeWhile isLineEnd) := by
    rw [← takeWhile_lineEnds hkeyword, ← hbehind]
    rfl
  have hsplit : p.between.takeWhile isLineEnd ++ p.between.dropWhile isLineEnd = p.between :=
    List.takeWhile_append_dropWhile
  -- the line ends are moved from what is between to the place of the namespace
  refine ⟨⟨p.front, p.place ++ p.between.takeWhile isLineEnd, p.between.dropWhile isLineEnd,
    p.name, p.behind⟩, "", ?_, ?_, ?_, ?_, .inr ?_⟩
  · rw [← hwhole, Parts.text, Parts.text, Parts.filled, Parts.filled, List.append_assoc,
      ← List.append_assoc (List.takeWhile _ _), hsplit]
  · rw [← hname, Parts.nameSpan, Parts.nameSpan, List.append_assoc, hsplit]
  · obtain ⟨d, hd, hnot⟩ := hkeyword
    intro hnil
    have hd' := List.dropWhile_eq_nil_iff.mp hnil d hd
    rw [hnot] at hd'
    cases hd'
  · refine .dropped n p.place _ hne hns hn hspan hbraced rfl ?_ ?_ ?_
    · show n.statement = ⟨Text.size p.front, Text.size p.front + Text.size p.place⟩
      rw [hstop, hstart]
    · exact fun d hd => List.mem_takeWhile_imp hd
    · intro d hd
      have hhead := List.head?_dropWhile_not isLineEnd p.between
      rw [hd] at hhead
      simpa using hhead
  · obtain ⟨span, hspan⟩ := Option.isSome_iff_exists.mp hspan
    show namespaceEdit? file c target text = some (⟨Text.size p.front, Text.size p.front + _⟩, "")
    rw [Text.size_append, ← Nat.add_assoc, hstop, hstart, ← hends, namespaceEdit?, if_neg hne,
      namespaceChange, hn]
    simp only [hspan, hns, ne_eq, not_true, if_false, hbraced, Bool.false_eq_true]

/-- **The text of a file** is cut into the parts that a rename changes and those that it leaves
alone. -/
theorem WellPlaced.exists_cut (h : WellPlaced text file c) (target : ClassName) :
    ∃ p written, Cut text file c target p written := by
  by_cases hne : c.name.ns = target.ns
  · exact h.exists_cut_of_none (if_pos hne) fun p => .kept hne
  have hedit : namespaceEdit? file c target text = namespaceChange file c target.ns text :=
    if_neg hne
  cases hn : file.namespaceAt c.nameSpan.start with
  | none =>
    -- no namespace governs the class, and one may have to be declared
    obtain ⟨hheader, hapart⟩ := h.free hn
    by_cases hns : target.ns = ""
    · apply h.exists_cut_of_none
      · rw [hedit, namespaceChange, hn]
        exact if_pos hns
      · exact fun p => .nameless hne hns (by simp [hn])
    · refine h.exists_cut_of_range ?_ hheader hheader hheader (Nat.le_refl _) (Nat.le_refl _) hapart
        fun p hplace => .declared hne hns hn hplace
      rw [hedit, namespaceChange, hn]
      exact if_neg hns
  | some n =>
    -- a namespace governs it, which has a name or is the global one in braces
    obtain ⟨horder, hapart⟩ := h.governed n hn
    cases hspan : n.nameSpan with
    | none =>
      by_cases hns : target.ns = ""
      · apply h.exists_cut_of_none
        · simp only [hedit, namespaceChange, hn, hspan, hns, if_true]
        · exact fun p => .nameless hne hns (by simp [hn, hspan])
      · refine h.exists_cut_of_range ?_ horder.keyword horder.keyword horder.stop (Nat.le_refl _)
          horder.keyword_before hapart fun p hplace => .named n hne hns hn hspan hplace
        simp only [hedit, namespaceChange, hn, hspan, hns, if_false]
        rfl
    | some span =>
      obtain ⟨hstart, hstop, hafter, hupright, hbefore⟩ := horder.name span hspan
      by_cases hns : target.ns = ""
      -- the name is dropped, and without braces the whole declaration
      · cases hbraced : n.braced with
        | false => exact h.exists_cut_of_dropped hne hns hn (by rw [hspan]; rfl) hbraced
        | true =>
          refine h.exists_cut_of_range ?_ horder.keyword hstop horder.stop
            (Nat.le_trans hafter hupright)
            hbefore hapart fun p hplace => .unnamed n span hne hns hn hspan hbraced hplace
          simp only [hedit, namespaceChange, hn, hspan, hns, ne_eq, not_true, if_false,
            hbraced, if_true]
      · refine h.exists_cut_of_range ?_ hstart hstop horder.stop hupright hbefore hapart
          fun p hplace => .renamed n hne hns hn (hplace ▸ hspan)
        simp only [hedit, namespaceChange, hn, hspan, hns, ne_eq, not_false_eq_true, if_true]

/-- The edits of a rename are among those of the two parts. -/
theorem Cut.edits_sublist (h : Cut text file c target p written) :
    (edits file c target text).Sublist
      [⟨file.path, p.placeSpan, written⟩, ⟨file.path, p.nameSpan, target.short⟩] := by
  have hspace : ((namespaceEdit? file c target text).toList).Sublist [(p.placeSpan, written)] := by
    rcases h.edit with ⟨hnone, -, -⟩ | hsome
    · rw [hnone]
      exact List.nil_sublist _
    · rw [hsome]
      exact List.Sublist.refl _
  have hname : ((nameEdit? c target).toList).Sublist [(p.nameSpan, target.short)] := by
    unfold nameEdit?
    split
    · exact List.nil_sublist _
    · rw [h.name]
      exact List.Sublist.refl _
  exact (hspace.append hname).map fun change => (⟨file.path, change.1, change.2⟩ : Edit)

/-- The two parts that may change are filled anew, and all others stay. -/
theorem Cut.renamed_eq_filled (h : Cut text file c target p written) :
    renamed file c target text =
      p.filled written.toList
        (if c.name.short = target.short then p.name else target.short.toList) := by
  have hclear := Parts.placeSpan_stop_lt h.between
  -- the name is exchanged first, since it stands behind the namespace
  have hname : exchanged file.path (nameEdit? c target) text =
      p.filled p.place (if c.name.short = target.short then p.name else target.short.toList) := by
    rw [← h.whole, nameEdit?]
    split
    · rfl
    · rw [← h.name]
      exact Parts.apply_nameSpan file.path target.short
  rw [renamed_eq, hname]
  · rcases h.edit with ⟨hnone, hplace, rfl⟩ | hsome
    · rw [hnone, hplace]
      rfl
    · rw [hsome]
      exact Parts.apply_placeSpan _ file.path written
  · intro space name hspace hname
    rcases h.edit with ⟨hnone, -, -⟩ | hsome
    · rw [hnone] at hspace
      cases hspace
    · obtain rfl := Option.some.inj (hsome.symm.trans hspace)
      unfold nameEdit? at hname
      split at hname
      · cases hname
      · obtain rfl := Option.some.inj hname
        rw [← h.name]
        exact Nat.lt_of_le_of_lt (Nat.le_add_right _ _) hclear

/-- **A rename changes the namespace and the name of the class, and nothing else.** For every text
and every class in it that is declared behind the namespace which governs it, and for every new
name: the edits lie in the text, on its boundaries, begin at different offsets and do not overlap,
so all of them are made. The outcome is the text in which the place of the namespace is filled with
what the new name asks for, and the name of the class with the new one, if it has another. -/
theorem rename_changes_two_parts (h : WellPlaced text file c) (target : ClassName) :
    (∀ e ∈ edits file c target text, e.Inside text ∧ e.fits text = true) ∧
      ((edits file c target text).Pairwise fun a b => a.range.start ≠ b.range.start) ∧
      ((edits file c target text).Pairwise fun a b => a.range.overlaps b.range = false) ∧
      renamed file c target text = Edit.atOnce text (edits file c target text) ∧
      ∃ (p : Parts) (written : String), p.text = text ∧ p.nameSpan = c.nameSpan ∧
        Rehoused file c target.ns p written ∧
        renamed file c target text = p.filled written.toList
          (if c.name.short = target.short then p.name else target.short.toList) := by
  obtain ⟨p, written, hcut⟩ := h.exists_cut target
  have hclear := Parts.placeSpan_stop_lt hcut.between
  have hplace : p.placeSpan.start ≤ p.placeSpan.stop := Nat.le_add_right _ _
  -- all edits are among those of the two parts, which are apart
  have hedits : ∀ e ∈ edits file c target text, e.Inside text ∧ e.fits text = true := by
    intro e he
    have hmem := hcut.edits_sublist.subset he
    rw [← hcut.whole]
    rcases List.mem_pair.mp hmem with rfl | rfl
    · exact ⟨p.inside_placeSpan _ _, p.fits_placeSpan _ _⟩
    · exact ⟨p.inside_nameSpan _ _, p.fits_nameSpan _ _⟩
  have hstarts : (edits file c target text).Pairwise fun a b => a.range.start ≠ b.range.start := by
    refine List.Pairwise.sublist hcut.edits_sublist (List.pairwise_pair.mpr ?_)
    exact Nat.ne_of_lt (Nat.lt_of_le_of_lt hplace hclear)
  have hapart : (edits file c target text).Pairwise fun a b =>
      a.range.overlaps b.range = false := by
    refine List.Pairwise.sublist hcut.edits_sublist (List.pairwise_pair.mpr ?_)
    exact Bool.and_eq_false_iff.mpr (.inr (decide_eq_false (Nat.not_lt_of_lt hclear)))
  have hlast : Edit.InsertionsLast (edits file c target text) := by
    apply List.Pairwise.imp _ hstarts
    intro a b hne _
    exact hne
  exact ⟨hedits, hstarts, hapart, Edit.applyAll_eq_atOnce (fun e he => (hedits e he).1)
    hapart hlast, p, written, hcut.whole, hcut.name, hcut.rehoused, hcut.renamed_eq_filled⟩

end

def leavingText : Text := "<?php\nnamespace App;\r\n\n/** café */\nclass Foo \x7b\x7d\n".toList

def leavingClass : ClassModel :=
  { name := ⟨"App", "Foo"⟩, kind := .isClass, parent := none, implemented := [], traits := [],
    methods := [], properties := [], assigned := [], imports := [], isAbstract := false,
    nameSpan := ⟨42, 45⟩, body := ⟨46, 48⟩ }

def leavingFile : FileModel :=
  { path := "Foo.php", headerEnd := 5, imports := [], classes := [leavingClass],
    namespaces := [{ name := some "App", nameSpan := some ⟨16, 19⟩, keywordEnd := 15,
                     statement := ⟨6, 20⟩, span := ⟨6, 48⟩, braced := false, imports := [] }] }

/-- A class leaves its namespace and gets another name. Two line ends go with the declaration of the
namespace, and what is said about the class stays. -/
theorem leaving_class_changes_two_parts :
    FileModel.ofText "Foo.php" leavingText = .ok leavingFile ∧
      WellPlaced leavingText leavingFile leavingClass ∧
      renamed leavingFile leavingClass ⟨"", "Bar"⟩ leavingText =
        "<?php\n/** café */\nclass Bar \x7b\x7d\n".toList ∧
      renamed leavingFile leavingClass ⟨"", "Bar"⟩ leavingText =
        Edit.atOnce leavingText (edits leavingFile leavingClass ⟨"", "Bar"⟩ leavingText) ∧
      ∃ (p : Parts) (written : String), p.text = leavingText ∧ p.nameSpan = ⟨42, 45⟩ ∧
        Rehoused leavingFile leavingClass "" p written ∧
        renamed leavingFile leavingClass ⟨"", "Bar"⟩ leavingText =
          p.filled written.toList "Bar".toList := by
  have hplaced : WellPlaced leavingText leavingFile leavingClass := by decide +kernel
  exact ⟨by decide +kernel, hplaced, by decide +kernel,
    (rename_changes_two_parts hplaced ⟨"", "Bar"⟩).2.2.2⟩

end CodeInsight.Rename
