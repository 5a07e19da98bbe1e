import CodeInsight.Edit
import CodeInsight.Proofs.StableSort
import CodeInsight.Proofs.TextLaws

/-!
# Edits made at once

Several edits are applied one after the other, each to the text that the ones before it have left.
What they are meant to do is said here without an order: every character of the text is looked at
once, with all edits in view. Applying edits from the last to the first comes to the same as long as
each one ends before those applied earlier begin. Two edits that do not overlap may still begin at
the same offset, and then the order in which they are given matters.

## Main Results

- `Edit.atOnce`: a text with edits made at once
- `Edit.foldl_apply`: edits that are applied from the last to the first
- `Edit.applyAll_is_simultaneous`: edits that begin at different offsets
- `Edit.permuted_edits_agree`: edits in another order
-/

namespace CodeInsight.Edit

variable {a m : Text}

/-! ## Section 1: All edits at once -/

/-- Both ends of the range are boundaries of the text. -/
def fits (text : Text) (e : Edit) : Bool :=
  Text.isBoundary text e.range.start && Text.isBoundary text e.range.stop

/-- What edits put in at an offset: insertions come first, then what takes the place of the bytes
that follow. -/
def putAt (edits : List Edit) (offset : Nat) : Text :=
  ((edits.filter fun e => e.range.start = offset && e.range.isEmpty) ++
    edits.filter fun e => e.range.start = offset && !e.range.isEmpty).flatMap
      fun e => e.replacement.toList

/-- The byte at an offset is replaced. -/
def replaces (edits : List Edit) (offset : Nat) : Bool :=
  edits.any fun e => e.range.contains offset

/-- A text that begins at an offset, after edits: before each character, and at the end, stands what
the edits put in there, and characters that are replaced are left out. -/
def carriedOut (edits : List Edit) : Nat → Text → Text
  | offset, [] => putAt edits offset
  | offset, c :: cs =>
    putAt edits offset ++
      ((if replaces edits offset then [] else [c]) ++ carriedOut edits (offset + c.utf8Size) cs)

/-- A text with edits made at once. Edits with a range that ends within a character are left out. -/
def atOnce (text : Text) (edits : List Edit) : Text :=
  carriedOut (edits.filter (fits text)) 0 text

/-- The characters of a text that begins at an offset which no edit replaces. -/
def kept (edits : List Edit) : Nat → Text → Text
  | _, [] => []
  | offset, c :: cs =>
    (if replaces edits offset then [] else [c]) ++ kept edits (offset + c.utf8Size) cs

section

variable {edits : List Edit} {e : Edit} {offset : Nat}

/-- Characters that are not replaced stay in their order. -/
theorem kept_sublist (edits : List Edit) (offset : Nat) (text : Text) :
    (kept edits offset text).Sublist (carriedOut edits offset text) := by
  induction text generalizing offset with
  | nil => exact List.nil_sublist _
  | cons c cs ih =>
    rw [kept, carriedOut]
    apply List.Sublist.trans _ (List.sublist_append_right _ _)
    exact (List.Sublist.refl _).append (ih _)

theorem putAt_eq_nil (h : ∀ d ∈ edits, d.range.start ≠ offset) : putAt edits offset = [] := by
  unfold putAt
  rw [List.filter_eq_nil_iff.mpr fun d hd => by simp [h d hd],
    List.filter_eq_nil_iff.mpr fun d hd => by simp [h d hd]]
  rfl

theorem replaces_eq_false (h : ∀ d ∈ edits, d.range.stop ≤ offset) :
    replaces edits offset = false := by
  apply List.any_eq_false.mpr
  intro d hd
  have hstop := h d hd
  simp only [Span.contains, Bool.and_eq_true, decide_eq_true_eq, not_and]
  omega

/-- An edit that begins elsewhere puts nothing in. -/
theorem putAt_cons_of_ne (h : e.range.start ≠ offset) :
    putAt (e :: edits) offset = putAt edits offset := by
  unfold putAt
  rw [List.filter_cons_of_neg (by simp [h]), List.filter_cons_of_neg (by simp [h])]

/-- An edit that begins later replaces nothing yet. -/
theorem replaces_cons_of_lt (h : offset < e.range.start) :
    replaces (e :: edits) offset = replaces edits offset := by
  have hout : e.range.contains offset = false := by
    simp only [Span.contains, Bool.and_eq_false_iff, decide_eq_false_iff_not]
    omega
  unfold replaces
  rw [List.any_cons, hout, Bool.false_or]

end

/-! ## Section 2: Parts of a text -/

/-- The first edit may be applied before the second: the second one ends where the first begins, or
earlier, and no two insertions are made at one offset. -/
structure Clears (a b : Edit) : Prop where
  upright : b.range.start ≤ b.range.stop
  below : b.range.stop ≤ a.range.start
  single : a.range.isEmpty = true → b.range.start ≠ a.range.start

section

variable {edits : List Edit} {e : Edit} {offset : Nat}

/-- A text behind all edits stays as it is. -/
theorem carriedOut_behind (hstart : ∀ d ∈ edits, d.range.start < offset)
    (hstop : ∀ d ∈ edits, d.range.stop ≤ offset) (text : Text) :
    carriedOut edits offset text = text := by
  induction text generalizing offset with
  | nil => exact putAt_eq_nil fun d hd => Nat.ne_of_lt (hstart d hd)
  | cons c cs ih =>
    have hrest : carriedOut edits (offset + c.utf8Size) cs = cs :=
      ih (fun d hd => Nat.lt_add_right _ (hstart d hd))
        (fun d hd => Nat.le_add_right_of_le (hstop d hd))
    rw [carriedOut, putAt_eq_nil fun d hd => Nat.ne_of_lt (hstart d hd),
      replaces_eq_false hstop, hrest]
    rfl

/-- Edits that end at an offset put in there what they put in at the end of a text. -/
theorem carriedOut_at_end (hupright : ∀ d ∈ edits, d.range.start ≤ d.range.stop)
    (hstop : ∀ d ∈ edits, d.range.stop ≤ offset) (s : Text) :
    carriedOut edits offset s = putAt edits offset ++ s := by
  cases s with
  | nil => exact (List.append_nil _).symm
  | cons c cs =>
    have hstart : ∀ d ∈ edits, d.range.start < offset + c.utf8Size := fun d hd =>
      Nat.lt_of_le_of_lt (Nat.le_trans (hupright d hd) (hstop d hd))
        (Nat.lt_add_of_pos_right c.utf8Size_pos)
    rw [carriedOut, replaces_eq_false hstop,
      carriedOut_behind hstart fun d hd => Nat.le_add_right_of_le (hstop d hd)]
    rfl

/-- What follows all edits is left as it is. -/
theorem carriedOut_append (hupright : ∀ d ∈ edits, d.range.start ≤ d.range.stop)
    (hstop : ∀ d ∈ edits, d.range.stop ≤ offset + Text.size a) (s : Text) :
    carriedOut edits offset (a ++ s) = carriedOut edits offset a ++ s := by
  induction a generalizing offset with
  | nil => exact carriedOut_at_end hupright hstop s
  | cons c a ih =>
    have hrest : carriedOut edits (offset + c.utf8Size) (a ++ s) =
        carriedOut edits (offset + c.utf8Size) a ++ s := by
      apply ih
      intro d hd
      rw [Nat.add_assoc]
      exact hstop d hd
    rw [List.cons_append, carriedOut, carriedOut, hrest]
    simp only [List.append_assoc]

/-- The edit that is applied first puts its text in behind what the others put in at its offset. -/
theorem putAt_cons_self (h : ∀ d ∈ edits, e.Clears d) :
    putAt (e :: edits) e.range.start = putAt edits e.range.start ++ e.replacement.toList := by
  by_cases hempty : e.range.isEmpty = true
  · have hnone : putAt edits e.range.start = [] := putAt_eq_nil fun d hd => (h d hd).single hempty
    unfold putAt at hnone ⊢
    rw [List.filter_cons_of_pos (by simp [hempty]), List.filter_cons_of_neg (by simp [hempty]),
      List.cons_append, List.flatMap_cons, hnone, List.append_nil]
    rfl
  · -- the others are insertions, if they begin there at all
    have hinserts : edits.filter (fun d => d.range.start = e.range.start && !d.range.isEmpty) =
        [] := by
      apply List.filter_eq_nil_iff.mpr
      intro d hd
      have hupright := (h d hd).upright
      have hbelow := (h d hd).below
      simp only [Span.isEmpty, Bool.and_eq_true, decide_eq_true_eq, Bool.not_eq_true',
        beq_eq_false_iff_ne]
      omega
    unfold putAt
    rw [List.filter_cons_of_neg (by simp [hempty]), List.filter_cons_of_pos (by simp [hempty]),
      hinserts, List.append_nil, List.flatMap_append, List.flatMap_cons, List.flatMap_nil,
      List.append_nil]

/-- The rest of a range that began earlier is passed over. -/
theorem carriedOut_inside (hlater : e.range.start < offset) (h : ∀ d ∈ edits, e.Clears d)
    (hstop : e.range.stop = offset + Text.size m) (s : Text) :
    carriedOut (e :: edits) offset (m ++ s) = s := by
  -- the edit begins before these characters, and all others begin before it
  have hstart : ∀ d ∈ e :: edits, d.range.start < offset := by
    intro d hd
    rcases List.mem_cons.mp hd with rfl | hd
    · exact hlater
    · have hupright := (h d hd).upright
      have hbelow := (h d hd).below
      omega
  induction m generalizing offset with
  | nil =>
    apply carriedOut_behind hstart
    intro d hd
    rcases List.mem_cons.mp hd with rfl | hd
    · exact Nat.le_of_eq hstop
    · exact Nat.le_trans (h d hd).below (Nat.le_of_lt hlater)
  | cons c m ih =>
    -- a character within the range is left out, and nothing is put before it
    have hreplaced : replaces (e :: edits) offset = true := by
      have hpos := c.utf8Size_pos
      rw [Text.size_cons] at hstop
      apply List.any_eq_true.mpr
      refine ⟨e, List.mem_cons_self, ?_⟩
      simp only [Span.contains, Bool.and_eq_true, decide_eq_true_eq]
      omega
    have hrest : carriedOut (e :: edits) (offset + c.utf8Size) (m ++ s) = s :=
      ih (Nat.lt_add_right _ hlater) (by rw [hstop, Text.size_cons, Nat.add_assoc])
        fun d hd => Nat.lt_add_right _ (hstart d hd)
    rw [List.cons_append, carriedOut, putAt_eq_nil fun d hd => Nat.ne_of_lt (hstart d hd),
      hreplaced, hrest]
    rfl

/-- **The edit that is applied first** replaces its range, and all others stay before it. -/
theorem carriedOut_cons (h : ∀ d ∈ edits, e.Clears d)
    (hstart : e.range.start = offset + Text.size a)
    (hstop : e.range.stop = e.range.start + Text.size m) (s : Text) :
    carriedOut (e :: edits) offset (a ++ (m ++ s)) =
      carriedOut edits offset a ++ (e.replacement.toList ++ s) := by
  induction a generalizing offset with
  | nil =>
    -- the range begins here
    obtain rfl : e.range.start = offset := hstart
    rw [List.nil_append, carriedOut, ← List.append_assoc, ← putAt_cons_self h]
    cases m with
    | nil =>
      apply carriedOut_at_end
      · intro d hd
        rcases List.mem_cons.mp hd with rfl | hd
        · exact Nat.le_of_eq hstop.symm
        · exact (h d hd).upright
      · intro d hd
        rcases List.mem_cons.mp hd with rfl | hd
        · exact Nat.le_of_eq hstop
        · exact (h d hd).below
    | cons c m =>
      have hpos := c.utf8Size_pos
      have hreplaced : replaces (e :: edits) e.range.start = true := by
        rw [Text.size_cons] at hstop
        apply List.any_eq_true.mpr
        refine ⟨e, List.mem_cons_self, ?_⟩
        simp only [Span.contains, Bool.and_eq_true, decide_eq_true_eq]
        omega
      have hrest : carriedOut (e :: edits) (e.range.start + c.utf8Size) (m ++ s) = s :=
        carriedOut_inside (Nat.lt_add_of_pos_right hpos) h
          (by rw [hstop, Text.size_cons, Nat.add_assoc]) s
      rw [List.cons_append, carriedOut, hreplaced, hrest]
      rfl
  | cons c a ih =>
    have hpos := c.utf8Size_pos
    have hlater : offset < e.range.start := by
      rw [hstart, Text.size_cons]
      omega
    have hrest : carriedOut (e :: edits) (offset + c.utf8Size) (a ++ (m ++ s)) =
        carriedOut edits (offset + c.utf8Size) a ++ (e.replacement.toList ++ s) :=
      ih (by rw [hstart, Text.size_cons, Nat.add_assoc])
    rw [List.cons_append, carriedOut, carriedOut, putAt_cons_of_ne (Nat.ne_of_gt hlater),
      replaces_cons_of_lt hlater, hrest]
    simp only [List.append_assoc]

end

/-! ## Section 3: One edit after the other -/

/-- An edit of a piece puts its replacement there. -/
theorem apply_exchange (u x s : Text) (path replacement : String) {range : Span}
    (h : range = ⟨Text.size u, Text.size u + Text.size x⟩) :
    Edit.apply (u ++ (x ++ s)) ⟨path, range, replacement⟩ = u ++ (replacement.toList ++ s) := by
  subst h
  have hrange : Edit.rangeIn ⟨path, ⟨Text.size u, Text.size u + Text.size x⟩, replacement⟩
    (u ++ (x ++ s)) =
      ⟨Text.size u, Text.size u + Text.size x⟩ := by
    simp only [Edit.rangeIn, Text.size_append]
    rw [Nat.min_eq_left (by omega), Nat.min_eq_left (by omega)]
  have hstop : Text.cut? (u ++ (x ++ s)) (Text.size u + Text.size x) = some (u ++ x, s) := by
    rw [← List.append_assoc, ← Text.size_append, Text.cut?_size]
  unfold Edit.apply
  simp only [hrange, Text.cut?_size, hstop, List.append_assoc]

/-- The range of an edit lies in the text. -/
structure Inside (text : Text) (e : Edit) : Prop where
  upright : e.range.start ≤ e.range.stop
  bounded : e.range.stop ≤ Text.size text

instance (text : Text) (e : Edit) : Decidable (e.Inside text) :=
  decidable_of_iff (e.range.start ≤ e.range.stop ∧ e.range.stop ≤ Text.size text)
    ⟨fun h => ⟨h.1, h.2⟩, fun h => ⟨h.upright, h.bounded⟩⟩

section

variable {text : Text} {edits : List Edit} {e : Edit}

/-- A range that fits cuts the text into three pieces. -/
theorem Inside.pieces (h : e.Inside text) (hfits : e.fits text = true) :
    ∃ a m s, text = a ++ (m ++ s) ∧ e.range.start = Text.size a ∧
      e.range.stop = e.range.start + Text.size m := by
  obtain ⟨hstart, hstop⟩ := Bool.and_eq_true_iff.mp hfits
  obtain ⟨b, ⟨s, rfl⟩, hsize'⟩ := Text.isBoundary_iff.mp hstop
  -- the beginning up to the end of the range goes through its start
  obtain ⟨a, m, rfl, hsize⟩ := Text.exists_split hstart (hsize' ▸ h.upright)
  refine ⟨a, m, s, List.append_assoc a m s, hsize.symm, ?_⟩
  rw [← hsize', ← hsize, Text.size_append]

/-- A range that ends within a character changes nothing. -/
theorem Inside.apply_of_not_fits (h : e.Inside text) (hfits : e.fits text = false) :
    Edit.apply text e = text := by
  have hrange : e.rangeIn text = e.range := by
    unfold Edit.rangeIn
    simp only [Nat.min_eq_left h.bounded, Nat.min_eq_left h.upright]
  unfold Edit.apply
  simp only [hrange]
  unfold fits Text.isBoundary at hfits
  cases hstart : Text.cut? text e.range.start with
  | none => rfl
  | some before =>
    cases hstop : Text.cut? text e.range.stop with
    | none => rfl
    | some after =>
      rw [hstart, hstop] at hfits
      cases hfits

/-- Whether an edit fits is told by the part of the text that reaches to its end. -/
theorem fits_append (hupright : e.range.start ≤ e.range.stop) (h : e.range.stop ≤ Text.size a)
    (s s' : Text) : e.fits (a ++ s) = e.fits (a ++ s') := by
  unfold fits
  rw [Text.isBoundary_append (Nat.le_trans hupright h) s s', Text.isBoundary_append h s s']

/-- **Edits that are applied from the last to the first.** The part of the text before the last edit
applied is still what it was, so each edit finds its range there, and the outcome is that of all
edits at once. -/
theorem foldl_apply (hinside : ∀ d ∈ edits, d.Inside text) (hclear : edits.Pairwise Clears) :
    edits.foldl Edit.apply text = atOnce text edits := by
  induction edits generalizing text with
  | nil =>
    apply Eq.symm
    apply carriedOut_behind
    · exact List.forall_mem_nil _
    · exact List.forall_mem_nil _
  | cons e rest ih =>
    obtain ⟨hfirst, hrest⟩ := List.pairwise_cons.mp hclear
    have he := hinside e List.mem_cons_self
    rw [List.foldl_cons]
    by_cases hfits : e.fits text = true
    · obtain ⟨a, m, s, rfl, hstart, hstop⟩ := he.pieces hfits
      have hchanged : Edit.apply (a ++ (m ++ s)) e = a ++ (e.replacement.toList ++ s) := by
        apply apply_exchange a m s e.path e.replacement
        rw [← hstart, ← hstop]
      have hwithin : ∀ d ∈ rest, d.range.stop ≤ Text.size a := fun d hd =>
        hstart ▸ (hfirst d hd).below
      -- the edits that are left lie in the part that has not changed
      have hstill : ∀ d ∈ rest, d.Inside (a ++ (e.replacement.toList ++ s)) := fun d hd =>
        ⟨(hfirst d hd).upright, by
          rw [Text.size_append]
          exact Nat.le_add_right_of_le (hwithin d hd)⟩
      have hfilter : rest.filter (fits (a ++ (e.replacement.toList ++ s))) =
          rest.filter (fits (a ++ (m ++ s))) :=
        List.filter_congr fun d hd => fits_append (hfirst d hd).upright (hwithin d hd) _ _
      have hclears : ∀ d ∈ rest.filter (fits (a ++ (m ++ s))), e.Clears d := fun d hd =>
        hfirst d (List.mem_filter.mp hd).1
      calc rest.foldl Edit.apply (Edit.apply (a ++ (m ++ s)) e)
          = carriedOut (rest.filter (fits (a ++ (m ++ s)))) 0
              (a ++ (e.replacement.toList ++ s)) := by
            rw [hchanged, ih hstill hrest, atOnce, hfilter]
        _ = carriedOut (rest.filter (fits (a ++ (m ++ s)))) 0 a ++ (e.replacement.toList ++ s) := by
            apply carriedOut_append
            · exact fun d hd => (hclears d hd).upright
            · intro d hd
              rw [Nat.zero_add, ← hstart]
              exact (hclears d hd).below
        _ = carriedOut (e :: rest.filter (fits (a ++ (m ++ s)))) 0 (a ++ (m ++ s)) :=
            (carriedOut_cons hclears (by rw [hstart, Nat.zero_add]) hstop s).symm
        _ = atOnce (a ++ (m ++ s)) (e :: rest) := by
            rw [atOnce, List.filter_cons_of_pos hfits]
    · have hnot : e.fits text = false := Bool.not_eq_true _ ▸ hfits
      rw [he.apply_of_not_fits hnot, ih (fun d hd => hinside d (List.mem_cons_of_mem e hd)) hrest,
        atOnce, atOnce, List.filter_cons_of_neg hfits]

end

/-! ## Section 4: Edits in any order -/

section

variable {text : Text} {edits edits' : List Edit}

/-- At one offset there is at most one insertion and at most one replacement. -/
def Separate (a b : Edit) : Prop :=
  a.range.start = b.range.start → a.range.isEmpty ≠ b.range.isEmpty

/-- Of a list in which no two elements satisfy a condition, the order does not matter to it. -/
theorem filter_eq_of_perm {α : Type} {xs ys : List α} {p : α → Bool} (h : xs.Perm ys)
    (hone : xs.Pairwise fun a b => ¬(p a = true ∧ p b = true)) : xs.filter p = ys.filter p := by
  have hperm := h.filter p
  have hfew : (xs.filter p).Pairwise fun _ _ => False :=
    List.pairwise_filter.mpr (hone.imp fun hnot ha hb => hnot ⟨ha, hb⟩)
  cases hxs : xs.filter p with
  | nil =>
    rw [hxs] at hperm
    exact hperm.nil_eq
  | cons a rest =>
    cases rest with
    | nil =>
      rw [hxs] at hperm
      exact hperm.singleton_eq
    | cons b rest =>
      rw [hxs] at hfew
      exact (List.rel_of_pairwise_cons hfew List.mem_cons_self).elim

theorem putAt_perm (h : edits.Perm edits') (hseparate : edits.Pairwise Separate) (offset : Nat) :
    putAt edits offset = putAt edits' offset := by
  have hinsert : edits.Pairwise fun a b => ¬((a.range.start = offset && a.range.isEmpty) = true ∧
      (b.range.start = offset && b.range.isEmpty) = true) := by
    apply hseparate.imp
    rintro a b hab ⟨ha, hb⟩
    simp only [Bool.and_eq_true, decide_eq_true_eq] at ha hb
    exact hab (ha.1.trans hb.1.symm) (ha.2.trans hb.2.symm)
  have hreplace : edits.Pairwise fun a b => ¬((a.range.start = offset && !a.range.isEmpty) = true ∧
      (b.range.start = offset && !b.range.isEmpty) = true) := by
    apply hseparate.imp
    rintro a b hab ⟨ha, hb⟩
    simp only [Bool.and_eq_true, decide_eq_true_eq, Bool.not_eq_true'] at ha hb
    exact hab (ha.1.trans hb.1.symm) (ha.2.trans hb.2.symm)
  unfold putAt
  rw [filter_eq_of_perm h hinsert, filter_eq_of_perm h hreplace]

theorem replaces_perm (h : edits.Perm edits') (offset : Nat) :
    replaces edits offset = replaces edits' offset := by
  unfold replaces
  exact Bool.eq_iff_iff.mpr (by simp only [List.any_eq_true, h.mem_iff])

/-- Edits made at once need no order. -/
theorem atOnce_perm (h : edits.Perm edits') (hseparate : edits.Pairwise Separate) (text : Text) :
    atOnce text edits = atOnce text edits' := by
  have hperm := h.filter (fits text)
  have hfitting : (edits.filter (fits text)).Pairwise Separate := hseparate.filter _
  have hsame : ∀ (offset : Nat) (s : Text), carriedOut (edits.filter (fits text)) offset s =
      carriedOut (edits'.filter (fits text)) offset s := by
    intro offset s
    induction s generalizing offset with
    | nil => exact putAt_perm hperm hfitting offset
    | cons c cs ih =>
      rw [carriedOut, carriedOut, putAt_perm hperm hfitting, replaces_perm hperm, ih]
  exact hsame 0 text

theorem pairwise_later (edits : List Edit) :
    (stableSort later edits).Pairwise fun a b => b.range.start ≤ a.range.start := by
  apply (pairwise_stableSort _ _ edits).imp
  · exact fun h => of_decide_eq_true h
  · intro a b
    simp only [later, decide_eq_true_eq]
    omega
  · intro a b c
    simp only [later, decide_eq_true_eq]
    omega

/-- No insertion stands before another edit that begins at its offset. -/
def InsertionsLast (edits : List Edit) : Prop :=
  edits.Pairwise fun a b => a.range.isEmpty = true → a.range.start ≠ b.range.start

instance (edits : List Edit) : Decidable (InsertionsLast edits) :=
  inferInstanceAs (Decidable (edits.Pairwise _))

theorem overlaps_symm {a b : Edit} (h : a.range.overlaps b.range = false) :
    b.range.overlaps a.range = false := by
  rw [← h, Span.overlaps, Span.overlaps, Bool.and_comm]

/-- Of two edits that do not overlap, the later one clears the other unless it is an insertion at
the same offset. -/
theorem clears_of_overlaps {a b : Edit} (hb : b.range.start ≤ b.range.stop)
    (ha : a.range.start ≤ a.range.stop) (hstart : b.range.start ≤ a.range.start)
    (hapart : a.range.overlaps b.range = false)
    (hlead : a.range.isEmpty = true → a.range.start ≠ b.range.start) : a.Clears b := by
  simp only [Span.overlaps, Bool.and_eq_false_iff, decide_eq_false_iff_not, Span.isEmpty,
    beq_iff_eq] at *
  refine ⟨hb, ?_, fun hempty => ?_⟩
  · omega
  · simp only [Span.isEmpty, beq_iff_eq] at hempty
    omega

theorem separate_of_overlaps (hupright : ∀ d ∈ edits, d.range.start ≤ d.range.stop)
    (hapart : edits.Pairwise fun a b => a.range.overlaps b.range = false)
    (hlast : InsertionsLast edits) : edits.Pairwise Separate := by
  apply List.pairwise_iff_forall_sublist.mpr
  intro a b hab hstart hsame
  by_cases hempty : a.range.isEmpty = true
  · exact List.pairwise_iff_forall_sublist.mp hlast hab hempty hstart
  · -- two replacements that begin together overlap
    have ha := hupright a (hab.subset List.mem_cons_self)
    have hb := hupright b (hab.subset (List.mem_cons_of_mem a List.mem_cons_self))
    have hempty' : ¬b.range.isEmpty = true := hsame ▸ hempty
    have hoverlap := List.pairwise_iff_forall_sublist.mp hapart hab
    simp only [Span.overlaps, Bool.and_eq_false_iff, decide_eq_false_iff_not] at hoverlap
    simp only [Span.isEmpty, beq_iff_eq] at hempty hempty'
    omega

/-- Elements of a sorted list of edits that begin at one offset came in this order. -/
theorem sublist_of_sorted {a b : Edit} (h : [a, b].Sublist (stableSort later edits))
    (hstart : a.range.start = b.range.start) : [a, b].Sublist edits := by
  have hfiltered := h.filter fun d => d.range.start = b.range.start
  rw [filter_stableSort (fun c hc d hd => by simp_all [later])] at hfiltered
  rw [List.filter_cons_of_pos (by simp [hstart]), List.filter_cons_of_pos (by simp),
    List.filter_nil] at hfiltered
  exact hfiltered.trans List.filter_sublist

/-- Edits that do not overlap have the outcome of all edits at once, as long as insertions stand
last. -/
theorem applyAll_eq_atOnce (hinside : ∀ d ∈ edits, d.Inside text)
    (hapart : edits.Pairwise fun a b => a.range.overlaps b.range = false)
    (hlast : InsertionsLast edits) : applyAll text edits = atOnce text edits := by
  have hperm := perm_stableSort later edits
  have hclear : (stableSort later edits).Pairwise Clears := by
    apply List.pairwise_iff_forall_sublist.mpr
    intro a b hab
    have ha : a ∈ edits := hperm.mem_iff.mp (hab.subset List.mem_cons_self)
    have hb : b ∈ edits := hperm.mem_iff.mp (hab.subset (List.mem_cons_of_mem a List.mem_cons_self))
    have hsorted := List.pairwise_iff_forall_sublist.mp (pairwise_later edits) hab
    have hoverlap :=
      List.pairwise_iff_forall_sublist.mp ((hperm.pairwise_iff overlaps_symm).mpr hapart) hab
    apply clears_of_overlaps (hinside b hb).upright (hinside a ha).upright hsorted hoverlap
    -- edits that begin at one offset have not changed places
    intro hempty hstart
    exact List.pairwise_iff_forall_sublist.mp hlast (sublist_of_sorted hab hstart) hempty hstart
  have hseparate := separate_of_overlaps (fun d hd => (hinside d hd).upright) hapart hlast
  calc applyAll text edits = (stableSort later edits).foldl Edit.apply text := rfl
    _ = atOnce text (stableSort later edits) :=
        foldl_apply (fun d hd => hinside d (mem_stableSort.mp hd)) hclear
    _ = atOnce text edits := (atOnce_perm hperm.symm hseparate text).symm

/-- Only the order of edits that begin at one offset tells. -/
theorem applyAll_congr (h : ∀ offset, edits'.filter (fun e => e.range.start = offset) =
      edits.filter fun e => e.range.start = offset) (text : Text) :
    applyAll text edits' = applyAll text edits := by
  have hsorted : stableSort later edits' = stableSort later edits := by
    apply eq_of_filter_eq (pairwise_later edits') (pairwise_later edits)
    intro offset
    rw [filter_stableSort (fun c hc d hd => by simp_all [later]),
      filter_stableSort (fun c hc d hd => by simp_all [later]), h offset]
  unfold applyAll
  rw [hsorted]

/-- **Applying edits is replacing their ranges at once.** For every text and every list of edits in
it that begin at different offsets and do not overlap, the outcome is the text in which each range
that ends at no place within a character is replaced, all of them being found in the text as it was.
What is outside of these ranges stays, in its order. -/
theorem applyAll_is_simultaneous (hinside : ∀ e ∈ edits, e.Inside text)
    (hstarts : edits.Pairwise fun a b => a.range.start ≠ b.range.start)
    (hapart : edits.Pairwise fun a b => a.range.overlaps b.range = false) :
    applyAll text edits = atOnce text edits ∧
      (kept (edits.filter (fits text)) 0 text).Sublist (applyAll text edits) := by
  have hlast : InsertionsLast edits := by
    apply List.Pairwise.imp _ hstarts
    intro a b hne _
    exact hne
  have hall := applyAll_eq_atOnce hinside hapart hlast
  refine ⟨hall, ?_⟩
  rw [hall]
  exact kept_sublist _ 0 text

/-- A text with a character of three bytes. -/
def pricedText : Text := "a€bcd".toList

/-- One of these edits ends within a character. Two others are made where a range ends. -/
def pricedEdits : List Edit :=
  [⟨"t", ⟨5, 6⟩, "XY"⟩, ⟨"t", .empty 7, "!"⟩, ⟨"t", ⟨2, 4⟩, "?"⟩, ⟨"t", ⟨0, 1⟩, ""⟩,
    ⟨"t", .empty 4, "["⟩]

theorem priced_edits_are_simultaneous :
    applyAll pricedText pricedEdits = "€[bXYd!".toList ∧ (∀ e ∈ pricedEdits, e.Inside pricedText) ∧
      (pricedEdits.Pairwise fun a b => a.range.start ≠ b.range.start) ∧
      (pricedEdits.Pairwise fun a b => a.range.overlaps b.range = false) ∧
      applyAll pricedText pricedEdits = atOnce pricedText pricedEdits ∧
      (kept (pricedEdits.filter (fits pricedText)) 0 pricedText).Sublist
        (applyAll pricedText pricedEdits) := by
  have hinside : ∀ e ∈ pricedEdits, e.Inside pricedText := by decide +kernel
  have hstarts : pricedEdits.Pairwise fun a b => a.range.start ≠ b.range.start := by decide +kernel
  have hapart : pricedEdits.Pairwise fun a b => a.range.overlaps b.range = false :=
    by decide +kernel
  exact ⟨by decide +kernel, hinside, hstarts, hapart,
    applyAll_is_simultaneous hinside hstarts hapart⟩

/-- **Edits in another order** have the same outcome as long as those that begin at one offset are
in the same order. If insertions stand last, it is that of all edits at once, whatever the order is
otherwise. -/
theorem permuted_edits_agree (hinside : ∀ e ∈ edits, e.Inside text)
    (hapart : edits.Pairwise fun a b => a.range.overlaps b.range = false)
    (hperm : edits'.Perm edits) :
    ((∀ offset, edits'.filter (fun e => e.range.start = offset) =
        edits.filter fun e => e.range.start = offset) → applyAll text edits' =
          applyAll text edits) ∧
      (InsertionsLast edits' → applyAll text edits' = atOnce text edits) := by
  refine ⟨fun h => applyAll_congr h text, fun hlast => ?_⟩
  have hinside' : ∀ e ∈ edits', e.Inside text := fun e he => hinside e (hperm.mem_iff.mp he)
  have hapart' := (hperm.pairwise_iff overlaps_symm).mpr hapart
  have hseparate := separate_of_overlaps (fun e he => (hinside' e he).upright) hapart' hlast
  rw [applyAll_eq_atOnce hinside' hapart' hlast, atOnce_perm hperm hseparate text]

/-- An insertion. -/
def inserting : Edit := ⟨"t", .empty 2, "X"⟩

/-- A replacement that begins where the insertion is made. -/
def replacing : Edit := ⟨"t", ⟨2, 4⟩, "Y"⟩

/-- A deletion further on. -/
def deleting : Edit := ⟨"t", ⟨5, 6⟩, ""⟩

/-- The insertion is put behind the replacement, and then the outcome is that of all edits at
once. -/
theorem insertion_put_last_agrees :
    applyAll "abcdef".toList [deleting, replacing, inserting] = "abXYe".toList ∧
      (∀ e ∈ [inserting, replacing, deleting], e.Inside "abcdef".toList) ∧
      ([inserting, replacing, deleting].Pairwise fun a b => a.range.overlaps b.range = false) ∧
      [deleting, replacing, inserting].Perm [inserting, replacing, deleting] ∧
      InsertionsLast [deleting, replacing, inserting] ∧
      applyAll "abcdef".toList [deleting, replacing, inserting] =
        atOnce "abcdef".toList [inserting, replacing, deleting] := by
  have hinside : ∀ e ∈ [inserting, replacing, deleting], e.Inside "abcdef".toList :=
    by decide +kernel
  have hapart : [inserting, replacing, deleting].Pairwise fun a b =>
      a.range.overlaps b.range = false := by
    decide +kernel
  have hperm : [deleting, replacing, inserting].Perm [inserting, replacing, deleting] :=
    by decide +kernel
  have hlast : InsertionsLast [deleting, replacing, inserting] := by decide +kernel
  exact ⟨by decide +kernel, hinside, hapart, hperm, hlast,
    (permuted_edits_agree hinside hapart hperm).2 hlast⟩

/-- An insertion that stands before a replacement at its offset is overwritten by it, although the
two do not overlap. -/
theorem insertion_put_first_is_overwritten :
    (∀ e ∈ [inserting, replacing], e.Inside "abcdef".toList ∧ e.fits "abcdef".toList = true) ∧
      inserting.range.overlaps replacing.range = false ∧ replacing.range.isEmpty = false ∧
      [replacing, inserting].Perm [inserting, replacing] ∧
      applyAll "abcdef".toList [inserting, replacing] = "abYdef".toList ∧
      applyAll "abcdef".toList [replacing, inserting] = "abXYef".toList := by
  decide +kernel

end

end CodeInsight.Edit
