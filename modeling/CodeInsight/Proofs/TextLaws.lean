import CodeInsight.Text.Blank
import CodeInsight.Text.Encoding
import Mathlib.Data.List.Basic

/-!
# Laws of texts

Equations for the operations on texts: a part taken off at either end, characters replaced one by
one, pieces between marks, sizes in bytes of texts that begin alike, cuts at offsets, texts as
bytes, and the blanks around a text.

## Main Results

- `dropLeading?_eq_some_iff`, `dropTrailing?_eq_some_iff`: what is taken off is what stood there
- `replaceChar_replaceChar`: replacing is undone where the new character did not occur
- `splitOn_intercalate`: pieces without the mark are found again
- `prefix_of_size_le`: of two beginnings of one text the one with fewer bytes begins the other
- `cut?_eq_some_iff`: where a text is cut
- `isFloor_floor`: the boundary that an offset is moved back to
- `slice?_eq_some_iff`: what is cut out of a text between two offsets
- `decode?_encode`: a text survives its encoding
- `trim_of_letters`: a text of letters has no blanks around it
-/

namespace CodeInsight.Text

variable {text : Text} {offset start : Nat} {stop : Nat} {c : Char} {pieces : List Text}
  {mark : Char} {x a b : Text}

/-! ## Section 1: Parts taken off at the ends -/

theorem dropLeading?_eq_some_iff {lead rest : Text} : dropLeading? text lead = some rest ↔
    text = lead ++ rest := by
  induction text, lead using dropLeading?.induct with
  | case1 text => simp [dropLeading?]
  | case2 p ps => simp [dropLeading?]
  | case3 cs p ps ih => simp [dropLeading?, ih]
  | case4 c cs p ps hne => simp [dropLeading?, hne]

@[simp] theorem dropLeading?_append (lead rest : Text) :
    dropLeading? (lead ++ rest) lead = some rest :=
  dropLeading?_eq_some_iff.mpr rfl

theorem dropLeading?_eq_none_iff {lead : Text} : dropLeading? text lead = none ↔
    ¬ lead <+: text := by
  constructor
  · rintro hnone ⟨rest, rfl⟩
    simp at hnone
  · intro hnot
    cases hdrop : dropLeading? text lead with
    | none => rfl
    | some rest => exact absurd ⟨rest, (dropLeading?_eq_some_iff.mp hdrop).symm⟩ hnot

theorem dropTrailing?_eq_some_iff {ending stem : Text} :
    dropTrailing? text ending = some stem ↔ text = stem ++ ending := by
  unfold dropTrailing?
  rw [Option.map_eq_some_iff]
  constructor
  · rintro ⟨front, hfront, rfl⟩
    have hrev := congrArg List.reverse (dropLeading?_eq_some_iff.mp hfront)
    simpa using hrev
  · rintro rfl
    exact ⟨stem.reverse, by rw [List.reverse_append]; simp, List.reverse_reverse stem⟩

/-! ## Section 2: Replacing a character -/

@[simp] theorem replaceChar_nil (old new : Char) : replaceChar old new [] = [] := rfl

@[simp] theorem replaceChar_append (old new : Char) (a b : Text) :
    replaceChar old new (a ++ b) = replaceChar old new a ++ replaceChar old new b :=
  List.map_append

@[simp] theorem replaceChar_eq_nil_iff {old new : Char} :
    replaceChar old new text = [] ↔ text = [] :=
  List.map_eq_nil_iff

/-- A character that does not occur is not replaced. -/
theorem replaceChar_of_notMem {old new : Char} (h : old ∉ text) :
    replaceChar old new text = text := by
  unfold replaceChar
  refine (List.map_congr_left fun c hc => ?_).trans (List.map_id text)
  have hne : c ≠ old := fun heq => h (heq ▸ hc)
  simp [hne]

/-- Nothing is left of a replaced character. -/
theorem notMem_replaceChar {old new : Char} (hne : old ≠ new) (text : Text) :
    old ∉ replaceChar old new text := by
  intro hmem
  obtain ⟨c, _, hc⟩ := List.mem_map.mp hmem
  by_cases h : c = old
  · rw [if_pos h] at hc
    exact hne hc.symm
  · rw [if_neg h] at hc
    exact h hc

/-- Replacing is undone where the new character did not occur before. -/
theorem replaceChar_replaceChar {old new : Char} (h : new ∉ text) :
    replaceChar new old (replaceChar old new text) = text := by
  unfold replaceChar
  rw [List.map_map]
  refine (List.map_congr_left fun c hc => ?_).trans (List.map_id text)
  have hne : c ≠ new := fun heq => h (heq ▸ hc)
  by_cases hold : c = old
  · simp [hold]
  · simp [hold, hne]

/-! ## Section 3: Pieces between marks -/

theorem splitOn_ne_nil (mark : Char) (text : Text) : splitOn mark text ≠ [] := by
  cases text with
  | nil => simp [splitOn]
  | cons c cs =>
    unfold splitOn
    split
    · simp
    · split <;> simp

/-- A text without the mark is one piece. -/
theorem splitOn_of_notMem (h : mark ∉ text) : splitOn mark text = [text] := by
  induction text with
  | nil => rfl
  | cons c cs ih =>
    have hc : c ≠ mark := fun heq => h (heq ▸ List.mem_cons_self)
    have hcs : mark ∉ cs := fun hmem => h (List.mem_cons_of_mem c hmem)
    rw [splitOn, if_neg hc, ih hcs]

/-- A mark divides the pieces before it from those after it. -/
theorem splitOn_append_mark (mark : Char) (a b : Text) :
    splitOn mark (a ++ mark :: b) = splitOn mark a ++ splitOn mark b := by
  induction a with
  | nil => simp [splitOn]
  | cons c cs ih =>
    by_cases hc : c = mark
    · simp [splitOn, hc, ih]
    · -- the first piece of `cs` gets the character `c`, whatever follows it
      obtain ⟨piece, pieces, hcs⟩ := List.exists_cons_of_ne_nil (splitOn_ne_nil mark cs)
      simp [splitOn, hc, ih, hcs]

/-- Pieces without the mark are found again when marks are put between them. -/
theorem splitOn_intercalate (hne : pieces ≠ []) (hfree : ∀ piece ∈ pieces, mark ∉ piece) :
    splitOn mark (List.intercalate [mark] pieces) = pieces := by
  induction pieces with
  | nil => exact absurd rfl hne
  | cons piece rest ih =>
    have hpiece : mark ∉ piece := hfree piece List.mem_cons_self
    cases rest with
    | nil => simpa using splitOn_of_notMem hpiece
    | cons next rest =>
      have htail := ih (List.cons_ne_nil next rest)
        fun p hp => hfree p (List.mem_cons_of_mem piece hp)
      rw [List.intercalate_cons_cons, List.append_assoc, List.singleton_append,
        splitOn_append_mark, splitOn_of_notMem hpiece, htail, List.singleton_append]

/-- A character that is in no piece and is not the mark is nowhere between or in the pieces. -/
theorem notMem_intercalate {other : Char} (hne : other ≠ mark)
    (hfree : ∀ piece ∈ pieces, other ∉ piece) : other ∉ List.intercalate [mark] pieces := by
  induction pieces with
  | nil => simp
  | cons piece rest ih =>
    have hpiece : other ∉ piece := hfree piece List.mem_cons_self
    cases rest with
    | nil => simpa using hpiece
    | cons next rest =>
      have htail := ih fun p hp => hfree p (List.mem_cons_of_mem piece hp)
      rw [List.intercalate_cons_cons]
      simp [hpiece, hne, htail]

/-- Replacing the mark between pieces that have none. -/
theorem replaceChar_intercalate {old new : Char} (hfree : ∀ piece ∈ pieces, old ∉ piece) :
    replaceChar old new (List.intercalate [old] pieces) = List.intercalate [new] pieces := by
  induction pieces with
  | nil => rfl
  | cons piece rest ih =>
    have hpiece : replaceChar old new piece = piece :=
      replaceChar_of_notMem (hfree piece List.mem_cons_self)
    cases rest with
    | nil => simpa using hpiece
    | cons next rest =>
      have htail := ih fun p hp => hfree p (List.mem_cons_of_mem piece hp)
      rw [List.intercalate_cons_cons, List.intercalate_cons_cons, replaceChar_append,
        replaceChar_append, hpiece, htail]
      simp [replaceChar]

/-! ## Section 4: Sizes in bytes -/

theorem size_eq_zero_iff : size text = 0 ↔ text = [] := by
  cases text with
  | nil => simp
  | cons c cs => simpa using fun h => absurd h (Nat.ne_of_gt c.utf8Size_pos)

/-- A beginning that is not smaller than the whole is the whole. -/
theorem eq_of_prefix_of_size_le (h : a <+: b) (hsize : size b ≤ size a) : a = b := by
  obtain ⟨rest, rfl⟩ := h
  have hrest : size rest = 0 := by
    rw [size_append] at hsize
    omega
  simp [size_eq_zero_iff.mp hrest]

/-- Of two beginnings of one text, the one with fewer bytes begins the other. -/
theorem prefix_of_size_le (ha : a <+: text) (hb : b <+: text) (hsize : size a ≤ size b) :
    a <+: b := by
  rcases List.prefix_or_prefix_of_prefix ha hb with h | h
  · exact h
  · have heq : b = a := eq_of_prefix_of_size_le h hsize
    exact heq ▸ List.prefix_rfl

theorem size_reverse (text : Text) : size text.reverse = size text := by
  induction text with
  | nil => rfl
  | cons c cs ih =>
    rw [List.reverse_cons, size_append, ih, size_cons, size_cons, size_nil]
    omega

/-! ## Section 5: Cuts -/

theorem cut?_append (a s : Text) (offset : Nat) :
    cut? (a ++ s) (size a + offset) = (cut? s offset).map fun (before, after) =>
      (a ++ before, after) := by
  induction a with
  | nil => simp
  | cons c a ih =>
    have hpos := c.utf8Size_pos
    obtain ⟨o, ho⟩ : ∃ o, size (c :: a) + offset = o + 1 :=
      ⟨size (c :: a) + offset - 1, by simp; omega⟩
    have hrest : o + 1 - c.utf8Size = size a + offset := by
      rw [← ho, size_cons]
      omega
    rw [ho, List.cons_append, cut?, if_pos (by rw [← ho, size_cons]; omega), hrest, ih,
      Option.map_map]
    rfl

theorem cut?_size (a s : Text) : cut? (a ++ s) (size a) = some (a, s) := by
  have hcut := cut?_append a s 0
  rw [Nat.add_zero] at hcut
  rw [hcut]
  simp [cut?]

/-- A text is cut in one way at an offset. -/
theorem append_inj_of_size {s t : Text} (h : a ++ s = b ++ t) (hsize : size a = size b) :
    a = b ∧ s = t := by
  have hcut := cut?_size a s
  rw [h, hsize, cut?_size] at hcut
  exact (Prod.mk.inj (Option.some.inj hcut)).imp Eq.symm Eq.symm

@[simp] theorem after_size (a s : Text) : after (a ++ s) (size a) = s := by
  rw [after, cut?_size]
  rfl

@[simp] theorem before_size (a s : Text) : before (a ++ s) (size a) = a := by
  rw [before, cut?_size]
  rfl

/-- A text is cut at an offset into a part of that size and the rest. -/
theorem cut?_eq_some_iff : cut? text offset = some (a, b) ↔ text = a ++ b ∧ size a = offset := by
  constructor
  · intro hcut
    induction text, offset using cut?.induct generalizing a with
    | case1 text =>
      rw [cut?] at hcut
      obtain ⟨rfl, rfl⟩ := Prod.mk.inj (Option.some.inj hcut)
      exact ⟨rfl, rfl⟩
    | case2 offset => cases hcut
    | case3 c cs offset hle ih =>
      rw [cut?, if_pos hle] at hcut
      obtain ⟨⟨before, after⟩, hrest, heq⟩ := Option.map_eq_some_iff.mp hcut
      obtain ⟨rfl, rfl⟩ := Prod.mk.inj heq
      obtain ⟨rfl, hsize⟩ := ih hrest
      refine ⟨rfl, ?_⟩
      rw [size_cons]
      omega
    | case4 c cs offset hle =>
      rw [cut?, if_neg hle] at hcut
      cases hcut
  · rintro ⟨rfl, rfl⟩
    exact cut?_size a b

/-- The boundaries of a text are the sizes of its beginnings. -/
theorem isBoundary_iff : isBoundary text offset = true ↔ ∃ a, a <+: text ∧ size a = offset := by
  unfold isBoundary
  rw [Option.isSome_iff_exists]
  constructor
  · rintro ⟨⟨a, b⟩, hcut⟩
    obtain ⟨rfl, hsize⟩ := cut?_eq_some_iff.mp hcut
    exact ⟨a, List.prefix_append a b, hsize⟩
  · rintro ⟨a, ⟨b, rfl⟩, rfl⟩
    exact ⟨(a, b), cut?_size a b⟩

theorem isBoundary_size (a s : Text) : isBoundary (a ++ s) (size a) = true :=
  isBoundary_iff.mpr ⟨a, List.prefix_append a s, rfl⟩

theorem le_size_of_isBoundary (h : isBoundary text offset = true) : offset ≤ size text := by
  obtain ⟨a, ⟨s, rfl⟩, rfl⟩ := isBoundary_iff.mp h
  rw [size_append]
  exact Nat.le_add_right _ _

/-- A boundary is not moved back to an earlier one. -/
theorem floor_size (a s : Text) : floor (a ++ s) (size a) = size a := by
  induction a with
  | nil =>
    cases s with
    | nil => rfl
    | cons c cs =>
      have hpos := c.utf8Size_pos
      exact if_neg (by rw [size_nil]; omega)
  | cons c cs ih =>
    rw [List.cons_append, floor, size_cons, if_pos (Nat.le_add_right _ _),
      Nat.add_sub_cancel_left, ih]

theorem floor_eq_self (h : isBoundary text offset = true) : floor text offset = offset := by
  obtain ⟨a, ⟨s, rfl⟩, rfl⟩ := isBoundary_iff.mp h
  exact floor_size a s

/-- The last boundary up to an offset. -/
structure IsFloor (text : Text) (offset place : Nat) : Prop where
  boundary : isBoundary text place = true
  le : place ≤ offset
  last : ∀ o, o ≤ offset → isBoundary text o = true → o ≤ place

theorem isFloor_floor (text : Text) (offset : Nat) : IsFloor text offset (floor text offset) := by
  induction text generalizing offset with
  | nil =>
    refine ⟨rfl, Nat.zero_le _, fun o _ ho => ?_⟩
    obtain ⟨a, ha, rfl⟩ := isBoundary_iff.mp ho
    rw [List.prefix_nil.mp ha]
    exact Nat.le_refl 0
  | cons c cs ih =>
    rw [floor]
    split
    next hle =>
      obtain ⟨hboundary, hbefore, hlast⟩ := ih (offset - c.utf8Size)
      obtain ⟨a, ha, hsize⟩ := isBoundary_iff.mp hboundary
      refine ⟨isBoundary_iff.mpr ⟨c :: a, List.cons_prefix_cons.mpr ⟨rfl, ha⟩,
        by rw [size_cons, hsize]⟩, by omega, fun o hoffset ho => ?_⟩
      -- a boundary in front of the first character, or one of the rest
      obtain ⟨b, hb, rfl⟩ := isBoundary_iff.mp ho
      cases b with
      | nil => exact Nat.zero_le _
      | cons d b =>
        obtain ⟨rfl, hrest⟩ := List.cons_prefix_cons.mp hb
        rw [size_cons] at hoffset ⊢
        have hle := hlast (size b) (by omega) (isBoundary_iff.mpr ⟨b, hrest, rfl⟩)
        omega
    next hlt =>
      refine ⟨isBoundary_size [] (c :: cs), Nat.zero_le _, fun o hoffset ho => ?_⟩
      obtain ⟨b, hb, rfl⟩ := isBoundary_iff.mp ho
      cases b with
      | nil => exact Nat.le_refl 0
      | cons d b =>
        obtain ⟨rfl, -⟩ := List.cons_prefix_cons.mp hb
        rw [size_cons] at hoffset
        omega

/-- A text is cut at the last boundary up to an offset. -/
theorem exists_floor (text : Text) (offset : Nat) :
    ∃ a b, text = a ++ b ∧ size a = floor text offset := by
  obtain ⟨a, ⟨b, hb⟩, hsize⟩ := isBoundary_iff.mp (isFloor_floor text offset).boundary
  exact ⟨a, b, hb.symm, hsize⟩

/-- The boundaries within a part of a text do not depend on what follows the part. -/
theorem isBoundary_append (h : offset ≤ size a) (s s' : Text) :
    isBoundary (a ++ s) offset = isBoundary (a ++ s') offset := by
  have hone : ∀ s s' : Text, isBoundary (a ++ s) offset = true →
      isBoundary (a ++ s') offset = true := by
    intro s s' hs
    obtain ⟨b, hb, rfl⟩ := isBoundary_iff.mp hs
    have hba : b <+: a := prefix_of_size_le hb (List.prefix_append a s) h
    exact isBoundary_iff.mpr ⟨b, hba.trans (List.prefix_append a s'), rfl⟩
  exact Bool.eq_iff_iff.mpr ⟨hone s s', hone s' s⟩

/-- A text is cut at the boundaries of a longer one. -/
theorem exists_split {s : Text} (hoffset : isBoundary (a ++ s) offset = true)
    (hle : offset ≤ size a) : ∃ u x, a = u ++ x ∧ size u = offset := by
  obtain ⟨u, hu, rfl⟩ := isBoundary_iff.mp hoffset
  obtain ⟨x, rfl⟩ := prefix_of_size_le hu (List.prefix_append a s) hle
  exact ⟨u, x, rfl, rfl⟩

/-- Between two boundaries there is a part of the text. -/
theorem exists_part (hstart : isBoundary text start = true) (hstop : isBoundary text stop = true)
    (h : start ≤ stop) : ∃ a x b, text = a ++ (x ++ b) ∧ size a = start ∧ size (a ++ x) = stop := by
  obtain ⟨a, ha, rfl⟩ := isBoundary_iff.mp hstart
  obtain ⟨c, ⟨b, rfl⟩, rfl⟩ := isBoundary_iff.mp hstop
  obtain ⟨x, rfl⟩ := prefix_of_size_le ha (List.prefix_append c b) h
  exact ⟨a, x, b, List.append_assoc a x b, rfl, rfl⟩

theorem slice?_of_le (h : start ≤ stop) (text : Text) :
    slice? text start stop = (cut? text start).bind fun (_, after) =>
      (cut? after (stop - start)).bind fun (inside, _) => some inside := by
  unfold slice? guard
  rw [if_pos h]
  rfl

theorem slice?_of_lt (h : stop < start) (text : Text) : slice? text start stop = none := by
  unfold slice? guard
  rw [if_neg (Nat.not_le.mpr h)]
  rfl

/-- A part of a text is found between its ends. -/
theorem slice?_size (a x s : Text) : slice? (a ++ (x ++ s)) (size a)
    (size a + size x) = some x := by
  rw [slice?_of_le (Nat.le_add_right _ _), cut?_size, Nat.add_sub_cancel_left]
  simp [cut?_size]

theorem slice?_eq_some_iff :
    slice? text start stop = some x ↔ ∃ a s, text = a ++ (x ++ s) ∧ size a = start ∧
      start + size x = stop := by
  constructor
  · intro h
    rcases Nat.lt_or_ge stop start with hlt | hle
    · rw [slice?_of_lt hlt] at h
      cases h
    · rw [slice?_of_le hle] at h
      obtain ⟨⟨a, rest⟩, hfront, h⟩ := Option.bind_eq_some_iff.mp h
      obtain ⟨⟨inside, s⟩, hback, h⟩ := Option.bind_eq_some_iff.mp h
      obtain rfl := Option.some.inj h
      obtain ⟨rfl, hsize⟩ := cut?_eq_some_iff.mp hfront
      obtain ⟨rfl, hinside⟩ := cut?_eq_some_iff.mp hback
      exact ⟨a, s, rfl, hsize, by omega⟩
  · rintro ⟨a, s, rfl, rfl, rfl⟩
    exact slice?_size a x s

/-- A part is cut out of a text between boundaries. -/
theorem isBoundary_of_slice? (h : slice? text start stop = some x) :
    isBoundary text start = true ∧ isBoundary text stop = true := by
  obtain ⟨a, s, rfl, rfl, rfl⟩ := slice?_eq_some_iff.mp h
  have hstop := isBoundary_size (a ++ x) s
  rw [List.append_assoc, size_append] at hstop
  exact ⟨isBoundary_size a (x ++ s), hstop⟩

theorem slice_size (a x s : Text) : slice (a ++ (x ++ s)) (size a) (size a + size x) = x := by
  rw [slice, slice?_size]
  rfl

/-! ## Section 6: Texts as bytes -/

theorem byteArray_toList_loop (bytes : ByteArray) (i : Nat) (read : List UInt8) :
    ByteArray.toList.loop bytes i read = read.reverse ++ bytes.data.toList.drop i := by
  fun_induction ByteArray.toList.loop bytes i read with
  | case1 i read hlt ih =>
    have hlen : i < bytes.data.toList.length := by simpa using hlt
    rw [ih, List.drop_eq_getElem_cons hlen]
    simp [ByteArray.get!, hlt]
  | case2 i read hge =>
    have hlen : bytes.data.toList.length ≤ i := by simpa using Nat.le_of_not_lt hge
    rw [List.drop_eq_nil_of_le hlen, List.append_nil]

/-- **A text survives its encoding.** -/
theorem decode?_encode (text : Text) : decode? (encode text) = some text := by
  have hbytes : (⟨(encode text).toArray⟩ : ByteArray) = (String.ofList text).toUTF8 := by
    unfold encode ByteArray.toList
    rw [byteArray_toList_loop]
    rfl
  have hstring : String.fromUTF8? (String.ofList text).toUTF8 = some (String.ofList text) :=
    dif_pos (String.ofList text).isValidUTF8
  unfold decode?
  rw [hbytes, hstring]
  simp

/-- The bytes of a text are those of its characters. -/
theorem encode_eq_flatMap (text : Text) : encode text = text.flatMap String.utf8EncodeChar := by
  unfold encode ByteArray.toList
  rw [byteArray_toList_loop, String.toUTF8_eq_toByteArray, String.toByteArray_ofList]
  simp [List.utf8Encode]

@[simp] theorem encode_nil : encode [] = [] := encode_eq_flatMap []

@[simp] theorem encode_append (a b : Text) : encode (a ++ b) = encode a ++ encode b := by
  rw [encode_eq_flatMap, List.flatMap_append, ← encode_eq_flatMap, ← encode_eq_flatMap]

@[simp] theorem length_encode (text : Text) : (encode text).length = size text := by
  rw [encode_eq_flatMap]
  induction text with
  | nil => rfl
  | cons c cs ih =>
    rw [List.flatMap_cons, List.length_append, String.length_utf8EncodeChar, ih, size_cons]

/-- A character of ASCII is one byte. -/
theorem encode_cons_ascii (h : c.utf8Size = 1) (cs : Text) :
    encode (c :: cs) = c.toUInt8 :: encode cs := by
  rw [encode_eq_flatMap, List.flatMap_cons, String.utf8EncodeChar_eq_singleton h,
    ← encode_eq_flatMap]
  rfl

/-! ## Section 7: Letters and blanks -/

/-- Only letters have letters as their lower case. -/
theorem isAlpha_of_toLower (h : c.toLower.isLower = true) : c.isAlpha = true := by
  unfold Char.toLower at h
  split at h
  next hupper => exact Bool.or_eq_true_iff.mpr (.inl (decide_eq_true hupper))
  next => exact Bool.or_eq_true_iff.mpr (.inr h)

/-- A mark below the letters is the lower case of itself only. -/
theorem eq_of_toLower {d : Char} (hd : d.val.toNat < 65) (h : c.toLower = d) : c = d := by
  unfold Char.toLower at h
  split at h
  next hupper =>
    obtain ⟨hmin, hmax⟩ : c.val.toNat ≥ 65 ∧ c.val.toNat ≤ 90 := hupper
    have hcode : (c.val + 32).toNat = d.val.toNat := congrArg (fun d : Char => d.val.toNat) h
    have hsum : (c.val + 32).toNat = (c.val.toNat + 32) % 4294967296 := UInt32.toNat_add c.val 32
    omega
  next => exact h

/-- The visible characters of ASCII are not blank. -/
theorem isBlank_eq_false_of_visible (hmin : 33 ≤ c.val.toNat) (hmax : c.val.toNat ≤ 126) :
    isBlank c = false := by
  simp only [isBlank, Bool.or_eq_false_iff, Bool.and_eq_false_iff, beq_eq_false_iff_ne, ne_eq,
    decide_eq_false_iff_not, Char.le_def, UInt32.le_iff_toNat_le, ← Char.toNat_inj, Char.toNat,
    Char.reduceVal, UInt32.reduceToNat]
  omega

theorem code_of_isAlpha (h : c.isAlpha = true) : 65 ≤ c.val.toNat ∧ c.val.toNat ≤ 122 := by
  rcases Bool.or_eq_true_iff.mp h with hupper | hlower
  · obtain ⟨hmin, hmax⟩ : c.val.toNat ≥ 65 ∧ c.val.toNat ≤ 90 := of_decide_eq_true hupper
    omega
  · obtain ⟨hmin, hmax⟩ := Bool.and_eq_true_iff.mp hlower
    have hmin : c.val.toNat ≥ 97 := of_decide_eq_true hmin
    have hmax : c.val.toNat ≤ 122 := of_decide_eq_true hmax
    omega

theorem isBlank_eq_false_of_isAlpha (h : c.isAlpha = true) : isBlank c = false := by
  obtain ⟨hmin, hmax⟩ := code_of_isAlpha h
  exact isBlank_eq_false_of_visible (by omega) (by omega)

/-- A letter takes one byte. -/
theorem size_of_letters (h : ∀ c ∈ text, c.isAlpha = true) : size text = text.length := by
  induction text with
  | nil => rfl
  | cons c rest ih =>
    obtain ⟨hc, hrest⟩ := List.forall_mem_cons.mp h
    have hone : c.utf8Size = 1 := by
      obtain ⟨-, hmax⟩ := code_of_isAlpha hc
      exact Char.utf8Size_eq_one_iff.mpr
        (UInt32.le_iff_toNat_le.mpr (Nat.le_trans hmax (by decide)))
    rw [size_cons, hone, ih hrest, List.length_cons, Nat.add_comm]

/-- A text of letters has no blanks around it. -/
theorem trim_of_letters (h : ∀ c ∈ text, c.isAlpha = true) : trim text = text := by
  have hkept : ∀ cs : Text, (∀ c ∈ cs, c.isAlpha = true) → cs.dropWhile isBlank = cs := by
    intro cs hcs
    cases cs with
    | nil => rfl
    | cons c rest =>
      rw [List.dropWhile_cons_of_neg]
      simp [isBlank_eq_false_of_isAlpha (hcs c List.mem_cons_self)]
  unfold trim trimEnd trimStart
  rw [hkept text h, hkept text.reverse (fun c hc => h c (List.mem_reverse.mp hc)),
    List.reverse_reverse]

end CodeInsight.Text
