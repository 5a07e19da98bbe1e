import CodeInsight.Order
import Mathlib.Data.List.Sort

/-!
# Laws of stable sorting

Sorting by a Boolean comparison is insertion sort, so it permutes its list and puts it in order.
Elements that may precede each other stay in the order in which they came.

## Main Results

- `pairwise_stableSort`: a sorted list is in order
- `filter_stableSort`: elements that compare equal keep their order
- `eq_of_filter_eq`: a list in order is told by its elements of each key
-/

namespace CodeInsight

section

variable {α : Type} {mayPrecede : α → α → Bool} {p : α → Bool} {a : α}

theorem insertSorted_eq_orderedInsert (mayPrecede : α → α → Bool) (a : α) (xs : List α) :
    insertSorted mayPrecede a xs = xs.orderedInsert (fun x y => mayPrecede x y = true) a := by
  induction xs with
  | nil => rfl
  | cons b rest ih => rw [insertSorted, List.orderedInsert_cons, ih]

/-- Sorting is insertion sort for the same comparison. -/
theorem stableSort_eq_insertionSort (mayPrecede : α → α → Bool) (xs : List α) :
    stableSort mayPrecede xs = xs.insertionSort (fun x y => mayPrecede x y = true) := by
  induction xs with
  | nil => rfl
  | cons a rest ih =>
    rw [List.insertionSort_cons, ← ih, ← insertSorted_eq_orderedInsert]
    rfl

theorem perm_stableSort (mayPrecede : α → α → Bool) (xs : List α) :
    (stableSort mayPrecede xs).Perm xs := by
  rw [stableSort_eq_insertionSort]
  exact List.perm_insertionSort _ xs

@[simp] theorem mem_stableSort {xs : List α} : a ∈ stableSort mayPrecede xs ↔ a ∈ xs := by
  rw [stableSort_eq_insertionSort]
  exact List.mem_insertionSort _

/-- A sorted list is in order if any two elements compare and the comparison is transitive. -/
theorem pairwise_stableSort (htotal : ∀ a b, mayPrecede a b = true ∨ mayPrecede b a = true)
    (htrans : ∀ a b c, mayPrecede a b = true → mayPrecede b c = true → mayPrecede a c = true)
    (xs : List α) : (stableSort mayPrecede xs).Pairwise fun a b => mayPrecede a b = true := by
  have : Std.Total fun a b => mayPrecede a b = true := ⟨htotal⟩
  have : IsTrans α fun a b => mayPrecede a b = true := ⟨htrans⟩
  rw [stableSort_eq_insertionSort]
  exact List.pairwise_insertionSort _ xs

/-- Inserting puts an element in front of all those that it may precede. -/
theorem filter_insertSorted (h : p a = true → ∀ b, p b = true → mayPrecede a b = true)
    (xs : List α) :
    (insertSorted mayPrecede a xs).filter p = (a :: xs).filter p := by
  induction xs with
  | nil => rfl
  | cons b rest ih =>
    rw [insertSorted]
    split
    · rfl
    next hafter =>
      -- `a` goes behind `b`, so one of them is filtered out
      rw [List.filter_cons, ih, List.filter_cons, List.filter_cons, List.filter_cons]
      by_cases ha : p a = true
      · have hb : p b ≠ true := fun hb => hafter (h ha b hb)
        rw [if_neg hb, if_neg hb]
      · rw [if_neg ha, if_neg ha]

/-- **Elements that may precede each other** keep their order. -/
theorem filter_stableSort (h : ∀ a, p a = true → ∀ b, p b = true → mayPrecede a b = true)
    (xs : List α) : (stableSort mayPrecede xs).filter p = xs.filter p := by
  induction xs with
  | nil => rfl
  | cons a rest ih =>
    have hinsert : stableSort mayPrecede (a :: rest) =
        insertSorted mayPrecede a (stableSort mayPrecede rest) := rfl
    rw [hinsert, filter_insertSorted (h a), List.filter_cons, List.filter_cons, ih]

end

section Keys

variable {α : Type} {key : α → Nat}

theorem filter_key_cons {k : Nat} {a : α} (ha : key a = k) (xs : List α) :
    (a :: xs).filter (fun x => key x = k) = a :: xs.filter (fun x => key x = k) :=
  List.filter_cons_of_pos (decide_eq_true ha)

/-- In a list with descending keys, no key is greater than that of the first element. -/
theorem key_le_head {a b : α} {xs ys : List α} (hys : (b :: ys).Pairwise fun x y => key y ≤ key x)
    (h : (a :: xs).filter (fun x => key x = key a) = (b :: ys).filter (fun x => key x = key a)) :
    key a ≤ key b := by
  rw [filter_key_cons rfl] at h
  have hfiltered : a ∈ (b :: ys).filter (fun x => key x = key a) := h ▸ List.mem_cons_self
  rcases List.mem_cons.mp (List.mem_filter.mp hfiltered).1 with rfl | ha
  · exact Nat.le_refl _
  · exact List.rel_of_pairwise_cons hys ha

/-- **A list with descending keys** is told by its elements of each key, in their order. -/
theorem eq_of_filter_eq : ∀ {xs ys : List α},
    xs.Pairwise (fun x y => key y ≤ key x) → ys.Pairwise (fun x y => key y ≤ key x) →
    (∀ k, xs.filter (fun x => key x = k) = ys.filter (fun y => key y = k)) → xs = ys
  | [], [], _, _, _ => rfl
  | [], b :: ys, _, _, h => by
    have hkey := h (key b)
    rw [filter_key_cons rfl] at hkey
    cases hkey
  | a :: xs, [], _, _, h => by
    have hkey := h (key a)
    rw [filter_key_cons rfl] at hkey
    cases hkey
  | a :: xs, b :: ys, hxs, hys, h => by
    -- the first elements have the greatest key of either list, so the filters for it begin with
    -- them
    have hkeys : key b = key a :=
      Nat.le_antisymm (key_le_head hxs (h (key b)).symm) (key_le_head hys (h (key a)))
    have hheads := h (key a)
    rw [filter_key_cons rfl, filter_key_cons hkeys] at hheads
    obtain ⟨rfl, htails⟩ := List.cons.inj hheads
    have hrest : ∀ k, xs.filter (fun x => key x = k) = ys.filter (fun y => key y = k) := by
      intro k
      by_cases hk : key a = k
      · subst hk
        exact htails
      · have hk' := h k
        rwa [List.filter_cons_of_neg (by simpa using hk),
          List.filter_cons_of_neg (by simpa using hk)] at hk'
    rw [eq_of_filter_eq hxs.of_cons hys.of_cons hrest]

end Keys

end CodeInsight
