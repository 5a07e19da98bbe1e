import CodeInsight.ClassName
import CodeInsight.Text.Basic
import Mathlib.Data.List.TakeWhile

/-!
# Names of classes and their texts

A qualified name is taken apart at its last separator. Reading a text never gives a class with a
longer one, and it gives back the class that was written just if the class can be taken apart there.

## Main Results

- `toList_eq_of_separator_mem`: a qualified name is put together from its parts
- `ClassName.length_text_ofText_le`: what is read is not longer than the text
- `ClassName.eq_of_ofText_eq`: qualified names are told apart by their classes
- `ClassName.ofText_text_iff`: which classes are read back from their texts
- `ClassName.names_and_texts_round_trip`: what is kept in both directions
-/

namespace CodeInsight

variable {x : String} {rest : Text}

/-! ## Section 1: The parts of a name -/

/-- A qualified name is put together from its parts. -/
theorem toList_eq_of_separator_mem (h : separator ∈ x.toList) :
    x.toList = (namespaceOf x).toList ++ separator :: (shortName x).toList := by
  have hparts := List.takeWhile_append_dropWhile (p := (· ≠ separator)) (l := x.toList.reverse)
  cases hrest : x.toList.reverse.dropWhile (· ≠ separator) with
  | nil =>
    have hall := List.dropWhile_eq_nil_iff.mp hrest separator (List.mem_reverse.mpr h)
    simp at hall
  | cons c rest =>
    obtain rfl : c = separator := by
      have hhead := List.head?_dropWhile_not (· ≠ separator) x.toList.reverse
      rw [hrest] at hhead
      simpa using hhead
    have hx :
        x.toList = (x.toList.reverse.takeWhile (· ≠ separator) ++ separator :: rest).reverse := by
      rw [← hrest, hparts, List.reverse_reverse]
    unfold namespaceOf shortName
    rw [hrest, String.toList_ofList, String.toList_ofList]
    refine hx.trans ?_
    rw [List.reverse_append, List.reverse_cons, List.append_assoc]
    rfl

theorem separator_notMem_shortName (x : String) : separator ∉ (shortName x).toList := by
  unfold shortName
  rw [String.toList_ofList, List.mem_reverse]
  intro hmem
  simpa using List.mem_takeWhile_imp hmem

theorem shortName_of_notMem (h : separator ∉ x.toList) : shortName x = x := by
  have hall : x.toList.reverse.takeWhile (· ≠ separator) = x.toList.reverse := by
    apply List.takeWhile_eq_self_iff.mpr
    intro c hc
    simpa using fun heq : c = separator => h (heq ▸ List.mem_reverse.mp hc)
  rw [shortName, hall, List.reverse_reverse, String.ofList_toList]

theorem namespaceOf_of_notMem (h : separator ∉ x.toList) : namespaceOf x = "" := by
  have hnone : x.toList.reverse.dropWhile (· ≠ separator) = [] := by
    apply List.dropWhile_eq_nil_iff.mpr
    intro c hc
    simpa using fun heq : c = separator => h (heq ▸ List.mem_reverse.mp hc)
  rw [namespaceOf, hnone]
  rfl

/-- The parts of a name are found again where the second has no separator. -/
theorem parts_of_toList_eq {a b : Text} (hx : x.toList = a ++ separator :: b) (hb : separator ∉ b) :
    namespaceOf x = String.ofList a ∧ shortName x = String.ofList b := by
  have hreverse : x.toList.reverse = b.reverse ++ separator :: a.reverse := by
    rw [hx, List.reverse_append, List.reverse_cons, List.append_assoc, List.singleton_append]
  -- read backwards, the last segment goes up to the separator
  have hsegment : ∀ c ∈ b.reverse, (decide (c ≠ separator)) = true := by
    intro c hc
    simpa using fun heq : c = separator => hb (heq ▸ List.mem_reverse.mp hc)
  rw [namespaceOf, shortName, hreverse, List.dropWhile_append_of_pos hsegment,
    List.takeWhile_append_of_pos hsegment, List.dropWhile_cons_of_neg (by simp),
    List.takeWhile_cons_of_neg (by simp), List.append_nil, List.reverse_reverse, List.drop_one,
    List.tail_cons, List.reverse_reverse]
  exact ⟨rfl, rfl⟩

theorem withoutRoot_of_head (h : x.toList.head? ≠ some separator) : withoutRoot x = x := by
  unfold withoutRoot
  split
  next rest hrest => exact absurd (by rw [hrest]; rfl) h
  next => rfl

theorem withoutRoot_of_toList_eq (h : x.toList = separator :: rest) :
    withoutRoot x = String.ofList rest := by
  unfold withoutRoot
  split
  next rest' hrest' =>
    obtain rfl := (List.cons.inj (h.symm.trans hrest')).2
    rfl
  next hnone => exact absurd h (hnone rest)

theorem toList_withoutRoot (x : String) :
    (withoutRoot x).toList =
      if x.toList.head? = some separator then x.toList.tail else x.toList := by
  split
  next hhead =>
    obtain ⟨rest, hrest⟩ := List.head?_eq_some_iff.mp hhead
    rw [withoutRoot_of_toList_eq hrest, String.toList_ofList, hrest, List.tail_cons]
  next hhead => rw [withoutRoot_of_head hhead]

/-! ## Section 2: Classes read back from their texts -/

namespace ClassName

/-- The class keeps its namespace and its short name when its text is taken apart. -/
def IsSeparable (c : ClassName) : Prop :=
  c.ns.toList.head? ≠ some separator ∧ separator ∉ c.short.toList

instance (c : ClassName) : Decidable c.IsSeparable := inferInstanceAs (Decidable (_ ∧ _))

theorem toList_text (c : ClassName) (h : c.ns ≠ "") :
    c.text.toList = c.ns.toList ++ separator :: c.short.toList := by
  rw [text, if_neg h, String.toList_append, String.toList_append, List.append_assoc]
  rfl

/-- The text of what is read is the name without its root, but an empty namespace is left out
together with its separator. -/
theorem text_ofText_cases (x : String) :
    (ofText x).text = withoutRoot x ∨
      (withoutRoot x).toList = separator :: (ofText x).text.toList ∧
        separator ∉ (ofText x).text.toList := by
  by_cases hmem : separator ∈ (withoutRoot x).toList
  · have hparts := toList_eq_of_separator_mem hmem
    by_cases hns : (ofText x).ns = ""
    · right
      have hempty : namespaceOf (withoutRoot x) = "" := hns
      rw [text, if_pos hns, hparts, hempty]
      exact ⟨rfl, separator_notMem_shortName _⟩
    · left
      rw [← String.toList_inj, toList_text _ hns, hparts]
      rfl
  · left
    have hns : (ofText x).ns = "" := namespaceOf_of_notMem hmem
    rw [text, if_pos hns]
    exact shortName_of_notMem hmem

theorem length_text_ofText_le (x : String) :
    (ofText x).text.toList.length ≤ (withoutRoot x).toList.length := by
  obtain heq | ⟨hrest, -⟩ := text_ofText_cases x
  · rw [heq]
  · rw [hrest, List.length_cons]
    omega

/-- Qualified names without a root are told apart by their classes. -/
theorem eq_of_ofText_eq {y : String} (hx : separator ∈ x.toList) (hy : separator ∈ y.toList)
    (hx' : x.toList.head? ≠ some separator) (hy' : y.toList.head? ≠ some separator)
    (h : ofText x = ofText y) : x = y := by
  rw [ofText, ofText, withoutRoot_of_head hx', withoutRoot_of_head hy'] at h
  obtain ⟨hspace, hshort⟩ := ClassName.mk.inj h
  rw [← String.toList_inj, toList_eq_of_separator_mem hx, toList_eq_of_separator_mem hy,
    hspace, hshort]

theorem length_withoutRoot_le (x : String) : (withoutRoot x).toList.length ≤ x.toList.length := by
  rw [toList_withoutRoot]
  split
  · rw [List.length_tail]
    omega
  · exact le_rfl

/-- **Reading back**: a class is read back from its text just if the text is taken apart where it
was put together. -/
theorem ofText_text_iff {c : ClassName} : ofText c.text = c ↔ c.IsSeparable := by
  constructor
  · intro hread
    refine ⟨fun hhead => ?_, ?_⟩
    · -- a separator in front would be taken for the root, and what is read would be shorter
      have hns : c.ns ≠ "" := by
        intro hempty
        rw [hempty] at hhead
        cases hhead
      obtain ⟨rest, hrest⟩ := List.head?_eq_some_iff.mp hhead
      have hle := length_text_ofText_le c.text
      rw [hread, withoutRoot_of_toList_eq (by rw [toList_text c hns, hrest, List.cons_append]),
        toList_text c hns, hrest, List.cons_append, List.length_cons, String.toList_ofList] at hle
      omega
    · rw [← congrArg short hread]
      exact separator_notMem_shortName _
  · rintro ⟨hhead, hshort⟩
    by_cases hns : c.ns = ""
    · have htext : c.text = c.short := by rw [text, if_pos hns]
      have hroot : withoutRoot c.short = c.short := by
        apply withoutRoot_of_head
        exact fun hhead => hshort (List.mem_of_mem_head? hhead)
      rw [htext, ofText, hroot, namespaceOf_of_notMem hshort, shortName_of_notMem hshort, ← hns]
    · have hroot : withoutRoot c.text = c.text := by
        apply withoutRoot_of_head
        obtain ⟨a, rest, hcons⟩ := List.exists_cons_of_ne_nil fun hnil =>
          hns (String.toList_eq_nil_iff.mp hnil)
        rw [toList_text c hns, hcons, List.cons_append, List.head?_cons,
          ← @List.head?_cons _ a rest, ← hcons]
        exact hhead
      obtain ⟨hspace, hname⟩ := parts_of_toList_eq (toList_text c hns) hshort
      rw [ofText, hroot, hspace, hname, String.ofList_toList, String.ofList_toList]

/-! ## Section 3: Texts written back from their classes -/

/-- Unless two separators stand in front, all that reading and writing takes away is the root. -/
theorem text_ofText_of_single (h : ¬[separator, separator] <+: x.toList) :
    (ofText x).text = withoutRoot x := by
  obtain heq | ⟨hrest, -⟩ := text_ofText_cases x
  · exact heq
  -- an empty namespace stands before a separator that is left behind the root
  · rw [toList_withoutRoot] at hrest
    split at hrest
    next hhead =>
      obtain ⟨rest, hx⟩ := List.head?_eq_some_iff.mp hhead
      rw [hx, List.tail_cons] at hrest
      exact absurd ⟨_, by rw [hx, hrest]; rfl⟩ h
    next hhead => exact absurd (by rw [hrest]; rfl) hhead

/-- Of two separators in front the second is kept just if there is one more to take the name
apart. -/
theorem toList_text_ofText_of_double (h : x.toList = separator :: separator :: rest) :
    (ofText x).text.toList = if separator ∈ rest then separator :: rest else rest := by
  have hroot : (withoutRoot x).toList = separator :: rest := by
    rw [withoutRoot_of_toList_eq h, String.toList_ofList]
  split
  next hmem =>
    obtain heq | ⟨hrest, hnot⟩ := text_ofText_cases x
    · rw [heq, hroot]
    · rw [hroot] at hrest
      rw [← (List.cons.inj hrest).2] at hnot
      exact absurd hmem hnot
  next hnot =>
    obtain ⟨hspace, hshort⟩ := parts_of_toList_eq (a := []) hroot hnot
    have hns : (ofText x).ns = "" := hspace.trans String.ofList_nil
    rw [text, if_pos hns]
    exact (congrArg String.toList hshort).trans String.toList_ofList

/-- **Round trips**: a class is read back from its text just if its short name has no separator and
its namespace does not begin with one. A text is written back without its root unless it begins with
two separators, and then the second one goes as well where no other is left. No short name that is
read has a separator. -/
theorem names_and_texts_round_trip :
    (∀ ns short : String, ofText (ClassName.mk ns short).text = ⟨ns, short⟩ ↔
      separator ∉ short.toList ∧ ns.toList.head? ≠ some separator) ∧
    ∀ s : String,
      (¬[separator, separator] <+: s.toList → (ofText s).text.toList =
        if s.toList.head? = some separator then s.toList.tail else s.toList) ∧
      (∀ rest, s.toList = separator :: separator :: rest → (ofText s).text.toList =
        if separator ∈ rest then separator :: rest else rest) ∧
      separator ∉ (ofText s).short.toList := by
  refine ⟨fun ns short => ofText_text_iff.trans and_comm, fun s => ⟨fun hsingle => ?_, ?_, ?_⟩⟩
  · rw [text_ofText_of_single hsingle, toList_withoutRoot]
  · exact fun rest => toList_text_ofText_of_double
  · exact separator_notMem_shortName _

/-- One root is taken off a name; of two, both go where nothing else takes the name apart. -/
theorem rooted_names_round_trip :
    ofText (ClassName.mk "App\\" "Tür").text = ⟨"App\\", "Tür"⟩ ∧
    (ofText "\\App\\Tür\\").text.toList = "App\\Tür\\".toList ∧
    (ofText "\\\\Tür").text.toList = "Tür".toList ∧
    separator ∉ (ofText "\\\\Tür").short.toList := by
  obtain ⟨hnames, htexts⟩ := names_and_texts_round_trip
  refine ⟨(hnames _ _).mpr (by decide), ?_, ?_, (htexts _).2.2⟩
  · exact (htexts "\\App\\Tür\\").1 (by decide)
  · exact (htexts "\\\\Tür").2.1 "Tür".toList (by decide)

end ClassName

end CodeInsight
