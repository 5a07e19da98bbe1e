import CodeInsight.Proofs.TextLaws
import CodeInsight.Text.Alphanumeric
import Mathlib.Data.List.Induction

/-!
# Texts without the blanks around them

Taking blanks off one end of a text, character by character, and the pieces of a text between marks
once the blanks around them are taken off. Characters of identifiers are never taken off.

## Main Results

- `trimEnd_eq_self_iff`: when nothing is taken off at the end
- `mem_trim`: what is not blank is not taken off
- `isBlank_eq_false_of_isIdentifierPart`: no blank is part of an identifier
- `pieces_trim`: blanks around a text are blanks around pieces of it
-/

namespace CodeInsight.Text

variable {text : Text} {c : Char}

/-! ## Section 1: Blanks at the ends -/

theorem ne_of_isBlank {d : Char} (hc : isBlank c = true) (hd : isBlank d = false) : c ≠ d := by
  rintro rfl
  rw [hc] at hd
  cases hd

theorem trimStart_cons_blank (h : isBlank c = true) (text : Text) :
    trimStart (c :: text) = trimStart text :=
  List.dropWhile_cons_of_pos h

theorem trimStart_cons_of_not_blank (h : isBlank c = false) (text : Text) :
    trimStart (c :: text) = c :: text := by
  apply List.dropWhile_cons_of_neg
  simp [h]

theorem trimEnd_concat_blank (h : isBlank c = true) (text : Text) :
    trimEnd (text ++ [c]) = trimEnd text := by
  unfold trimEnd
  rw [List.reverse_append, List.reverse_singleton, List.singleton_append,
    List.dropWhile_cons_of_pos h]

theorem trimEnd_concat_of_not_blank (h : isBlank c = false) (text : Text) :
    trimEnd (text ++ [c]) = text ++ [c] := by
  unfold trimEnd
  rw [List.reverse_append, List.reverse_singleton, List.singleton_append,
    List.dropWhile_cons_of_neg (by simp [h]), List.reverse_cons, List.reverse_reverse]

/-- What begins with a character that is not blank keeps it when blanks at the end are taken off. -/
theorem trimEnd_cons_of_not_blank (h : isBlank c = false) (text : Text) :
    trimEnd (c :: text) = c :: trimEnd text := by
  induction text using List.reverseRecOn with
  | nil => exact trimEnd_concat_of_not_blank h []
  | append_singleton text d ih =>
    rw [← List.cons_append]
    cases hd : isBlank d with
    | true => rw [trimEnd_concat_blank hd, trimEnd_concat_blank hd, ih]
    | false => rw [trimEnd_concat_of_not_blank hd, trimEnd_concat_of_not_blank hd, List.cons_append]

theorem trim_cons_blank (h : isBlank c = true) (text : Text) : trim (c :: text) = trim text := by
  unfold trim
  rw [trimStart_cons_blank h]

theorem trim_cons_of_not_blank (h : isBlank c = false) (text : Text) :
    trim (c :: text) = c :: trimEnd text := by
  unfold trim
  rw [trimStart_cons_of_not_blank h, trimEnd_cons_of_not_blank h]

theorem trim_concat_blank (h : isBlank c = true) (text : Text) :
    trim (text ++ [c]) = trim text := by
  induction text with
  | nil => exact trim_cons_blank h []
  | cons d text ih =>
    rw [List.cons_append]
    cases hd : isBlank d with
    | true => rw [trim_cons_blank hd, trim_cons_blank hd, ih]
    | false => rw [trim_cons_of_not_blank hd, trim_cons_of_not_blank hd, trimEnd_concat_blank h]

theorem trimEnd_prefix_self (text : Text) : trimEnd text <+: text := by
  rw [← List.reverse_suffix, trimEnd, List.reverse_reverse]
  exact List.dropWhile_suffix isBlank

/-- A text ends in no blank just if none is taken off. -/
theorem trimEnd_eq_self_iff : trimEnd text = text ↔ text.getLast?.any isBlank = false := by
  induction text using List.reverseRecOn with
  | nil => simp [trimEnd]
  | append_singleton text d _ =>
    rw [List.getLast?_concat, Option.any_some]
    cases hd : isBlank d with
    | true =>
      rw [trimEnd_concat_blank hd]
      refine ⟨fun heq => ?_, fun h => absurd h.symm Bool.false_ne_true⟩
      -- what is left would be longer than what there was
      have hlength := congrArg List.length heq
      have hle : (trimEnd text).length ≤ text.length := (trimEnd_prefix_self text).length_le
      rw [List.length_append, List.length_singleton] at hlength
      omega
    | false => exact ⟨fun _ => rfl, fun _ => trimEnd_concat_of_not_blank hd text⟩

theorem mem_trimEnd (h : isBlank c = false) : c ∈ trimEnd text ↔ c ∈ text := by
  induction text using List.reverseRecOn with
  | nil => rfl
  | append_singleton text d ih =>
    cases hd : isBlank d with
    | true =>
      have hne : c ≠ d := (ne_of_isBlank hd h).symm
      rw [trimEnd_concat_blank hd, ih, List.mem_append, List.mem_singleton, or_iff_left hne]
    | false => rw [trimEnd_concat_of_not_blank hd]

theorem mem_trim (h : isBlank c = false) : c ∈ trim text ↔ c ∈ text := by
  induction text with
  | nil => rfl
  | cons d text ih =>
    cases hd : isBlank d with
    | true =>
      have hne : c ≠ d := (ne_of_isBlank hd h).symm
      rw [trim_cons_blank hd, ih, List.mem_cons, or_iff_right hne]
    | false => rw [trim_cons_of_not_blank hd, List.mem_cons, List.mem_cons, mem_trimEnd h]

/-! ## Section 2: Characters of identifiers -/

/-- Code points of blanks beyond ASCII. -/
def blankCodes : List Nat :=
  [0x85, 0xa0, 0x1680, 0x2000, 0x2001, 0x2002, 0x2003, 0x2004, 0x2005, 0x2006, 0x2007, 0x2008,
    0x2009, 0x200a, 0x2028, 0x2029, 0x202f, 0x205f, 0x3000]

theorem mem_blankCodes (h : isBlank c = true) (hcode : 0x80 ≤ c.toNat) : c.toNat ∈ blankCodes := by
  simp only [isBlank, Bool.or_eq_true, Bool.and_eq_true, beq_iff_eq, decide_eq_true_eq, Char.le_def,
    UInt32.le_iff_toNat_le, ← Char.toNat_inj, Char.toNat, Char.reduceVal, UInt32.reduceToNat]
    at h hcode ⊢
  simp only [blankCodes, List.mem_cons, List.not_mem_nil, or_false]
  omega

/-- **No blank is part of an identifier.** -/
theorem isBlank_eq_false_of_isIdentifierPart (h : isIdentifierPart c = true) :
    isBlank c = false := by
  rw [isIdentifierPart, isAlphanumeric, Bool.or_eq_true, Bool.or_eq_true, Bool.and_eq_true] at h
  rcases h with (hascii | ⟨hcode, hrange⟩) | hunder
  · rcases Bool.or_eq_true_iff.mp hascii with halpha | hdigit
    · exact isBlank_eq_false_of_isAlpha halpha
    · obtain ⟨hmin, hmax⟩ := Bool.and_eq_true_iff.mp hdigit
      have hmin : c.val.toNat ≥ 48 := of_decide_eq_true hmin
      have hmax : c.val.toNat ≤ 57 := of_decide_eq_true hmax
      exact isBlank_eq_false_of_visible (by omega) (by omega)
  · -- beyond ASCII the tables of letters and of blanks have nothing in common
    have hnone : (blankCodes.all fun n =>
        !alphanumericRanges.any fun range => range.1 ≤ n && n ≤ range.2) = true := by decide +kernel
    by_contra hblank
    have hmem := mem_blankCodes (Bool.not_eq_false _ ▸ hblank) (of_decide_eq_true hcode)
    have hout := List.all_eq_true.mp hnone _ hmem
    rw [Bool.not_eq_true'] at hout
    exact absurd (hout.symm.trans hrange) Bool.false_ne_true
  · rw [eq_of_beq hunder]
    decide

theorem toList_toLower (s : String) : s.toLower.toList = s.toList.map Char.toLower :=
  String.toList_map

/-! ## Section 3: Pieces without blanks around them -/

section

variable {mark : Char}

/-- The pieces of a text between marks, without the blanks around them. -/
def pieces (mark : Char) (text : Text) : List Text := (splitOn mark text).map trim

theorem pieces_append_mark (mark : Char) (a b : Text) :
    pieces mark (a ++ mark :: b) = pieces mark a ++ pieces mark b := by
  unfold pieces
  rw [splitOn_append_mark, List.map_append]

theorem pieces_of_notMem (h : mark ∉ text) : pieces mark text = [trim text] := by
  unfold pieces
  rw [splitOn_of_notMem h, List.map_singleton]

/-- The first piece goes up to the first mark. -/
theorem pieces_eq_cons (mark : Char) (text : Text) :
    ∃ others, pieces mark text = trim (text.takeWhile (· ≠ mark)) :: others := by
  have hsplit : ∃ others, splitOn mark text = text.takeWhile (· ≠ mark) :: others := by
    induction text with
    | nil => exact ⟨[], rfl⟩
    | cons c text ih =>
      obtain ⟨others, hothers⟩ := ih
      by_cases hc : c = mark
      · exact ⟨splitOn mark text,
          by rw [splitOn, if_pos hc, List.takeWhile_cons_of_neg (by simp [hc])]⟩
      · exact ⟨others,
          by rw [splitOn, if_neg hc, hothers, List.takeWhile_cons_of_pos (by simp [hc])]⟩
  obtain ⟨others, hothers⟩ := hsplit
  exact ⟨others.map trim, by rw [pieces, hothers, List.map_cons]⟩

theorem pieces_cons_blank (hc : isBlank c = true) (hne : c ≠ mark) (text : Text) :
    pieces mark (c :: text) = pieces mark text := by
  obtain ⟨piece, rest, hsplit⟩ := List.exists_cons_of_ne_nil (splitOn_ne_nil mark text)
  unfold pieces
  rw [splitOn, if_neg hne, hsplit]
  simp only [List.map_cons, trim_cons_blank hc]

theorem pieces_append_blanks {lead : Text} (h : ∀ c ∈ lead, isBlank c = true ∧ c ≠ mark)
    (text : Text) :
    pieces mark (lead ++ text) = pieces mark text := by
  induction lead with
  | nil => rfl
  | cons c lead ih =>
    obtain ⟨hblank, hne⟩ := h c List.mem_cons_self
    rw [List.cons_append, pieces_cons_blank hblank hne, ih fun d hd =>
      h d (List.mem_cons_of_mem c hd)]

/-- What is added at the end belongs to the last piece. -/
theorem splitOn_concat (hne : c ≠ mark) (text : Text) :
    ∃ front piece, splitOn mark text = front ++ [piece] ∧
      splitOn mark (text ++ [c]) = front ++ [piece ++ [c]] := by
  induction text with
  | nil => exact ⟨[], [], rfl, by simp [splitOn, hne]⟩
  | cons d text ih =>
    obtain ⟨front, piece, hsplit, hconcat⟩ := ih
    rw [List.cons_append, splitOn, splitOn, hsplit, hconcat]
    by_cases hd : d = mark
    · exact ⟨[] :: front, piece, by simp [hd], by simp [hd]⟩
    · -- the character goes in front of the first piece, which may be the last one
      cases front with
      | nil => exact ⟨[], d :: piece, by simp [hd], by simp [hd]⟩
      | cons first front => exact ⟨(d :: first) :: front, piece, by simp [hd], by simp [hd]⟩

theorem pieces_concat_blank (hc : isBlank c = true) (hne : c ≠ mark) (text : Text) :
    pieces mark (text ++ [c]) = pieces mark text := by
  obtain ⟨front, piece, hsplit, hconcat⟩ := splitOn_concat hne text
  unfold pieces
  rw [hsplit, hconcat, List.map_append, List.map_append, List.map_singleton, List.map_singleton,
    trim_concat_blank hc]

theorem pieces_append_replicate (hc : isBlank c = true) (hne : c ≠ mark) (text : Text) (k : Nat) :
    pieces mark (text ++ List.replicate k c) = pieces mark text := by
  induction k with
  | zero => rw [List.replicate_zero, List.append_nil]
  | succ k ih => rw [List.replicate_succ', ← List.append_assoc, pieces_concat_blank hc hne, ih]

theorem pieces_trimEnd (hmark : isBlank mark = false) (text : Text) :
    pieces mark (trimEnd text) = pieces mark text := by
  induction text using List.reverseRecOn with
  | nil => rfl
  | append_singleton text d ih =>
    cases hd : isBlank d with
    | true =>
      rw [trimEnd_concat_blank hd, ih, pieces_concat_blank hd (ne_of_isBlank hd hmark)]
    | false => rw [trimEnd_concat_of_not_blank hd]

/-- Blanks around a text are blanks around pieces of it. -/
theorem pieces_trim (hmark : isBlank mark = false) (text : Text) :
    pieces mark (trim text) = pieces mark text := by
  induction text with
  | nil => rfl
  | cons d text ih =>
    cases hd : isBlank d with
    | true =>
      rw [trim_cons_blank hd, ih, pieces_cons_blank hd (ne_of_isBlank hd hmark)]
    | false => rw [trim_cons_of_not_blank hd, ← trimEnd_cons_of_not_blank hd, pieces_trimEnd hmark]

end

end CodeInsight.Text
