import CodeInsight.Generation.Property
import CodeInsight.Hierarchy

/-!
# The first of each name

Several parts of the library go through declarations in order and keep the first one of every name:
the table of the members of a class, the searches for methods and for properties that are missing,
and the list of the visible variables. All of them are one function, and one description says what
it keeps.

Which places of a list are chosen is also said without any function, by a property of the places.

## Main Results

- `ChosenAt`: what stands at the places with a property, in their order
- `firstOfEach_firstFree`: what is kept, where it comes from and in which order it stands
- `Hierarchy.firstOfEach_merged`: tables of members
- `Generation.firstUntaken_eq`, `Generation.firstUndeclared_eq`: missing methods and properties
-/

namespace CodeInsight

variable {α : Type}

/-! ## Section 1: Choosing by places -/

/-- What is chosen stands at the places with a property, in the order of these places. -/
def ChosenAt (P : Nat → Prop) (all chosen : List α) : Prop :=
  ∃ places : List Nat, places.Pairwise (· < ·) ∧ (∀ place, place ∈ places ↔ P place) ∧
    chosen.map some = places.map fun place => all[place]?

section

variable {P Q : Nat → Prop} {rest chosen : List α} {a : α}

theorem chosenAt_nil (h : ∀ place, ¬ P place) : ChosenAt P ([] : List α) [] :=
  ⟨[], .nil, fun place => iff_of_false List.not_mem_nil (h place), rfl⟩

theorem pairwise_shifted {places : List Nat} (h : places.Pairwise (· < ·)) :
    (places.map (· + 1)).Pairwise (· < ·) :=
  List.pairwise_map.mpr (h.imp Nat.succ_lt_succ)

/-- In front of the others, an element that is not chosen moves all places by one. -/
theorem ChosenAt.skip (h : ChosenAt P rest chosen) (hzero : ¬ Q 0)
    (hsucc : ∀ place, Q (place + 1) ↔ P place) : ChosenAt Q (a :: rest) chosen := by
  obtain ⟨places, hordered, hplaces, hchosen⟩ := h
  refine ⟨places.map (· + 1), pairwise_shifted hordered, fun place => ?_, ?_⟩
  · cases place with
    | zero => exact iff_of_false (by simp) hzero
    | succ place =>
      rw [hsucc, ← hplaces]
      simp
  · rw [hchosen, List.map_map]
    rfl

/-- So does one that is chosen, and it comes first. -/
theorem ChosenAt.take (h : ChosenAt P rest chosen) (hzero : Q 0)
    (hsucc : ∀ place, Q (place + 1) ↔ P place) : ChosenAt Q (a :: rest) (a :: chosen) := by
  obtain ⟨places, hordered, hplaces, hchosen⟩ := h
  refine ⟨0 :: places.map (· + 1), .cons ?_ (pairwise_shifted hordered), fun place => ?_, ?_⟩
  · intro place hplace
    obtain ⟨before, -, rfl⟩ := List.mem_map.mp hplace
    exact Nat.succ_pos _
  · cases place with
    | zero => exact iff_of_true List.mem_cons_self hzero
    | succ place =>
      rw [hsucc, ← hplaces]
      simp
  · rw [List.map_cons, List.map_cons, hchosen, List.map_map]
    rfl

end

/-! ## Section 2: Choosing by keys -/

variable {key : α → String}

/-- The first element of every key that is not taken. -/
def firstFree (key : α → String) : List String → List α → List α
  | _, [] => []
  | taken, a :: rest =>
    if key a ∈ taken then firstFree key taken rest
    else a :: firstFree key (key a :: taken) rest

/-- Where an element with a key stands first. -/
def firstPlace (key : α → String) (all : List α) (k : String) : Nat :=
  all.findIdx fun a => key a = k

/-- The elements chosen are the first ones of the keys that are not taken, in their old order. -/
structure FirstOfEach (key : α → String) (taken : String → Prop) (all chosen : List α) : Prop where
  mem_iff : ∀ k, k ∈ chosen.map key ↔ k ∈ all.map key ∧ ¬ taken k
  first : ∀ a ∈ chosen, all.find? (fun b => key b = key a) = some a
  ordered : chosen.Pairwise fun a b => firstPlace key all (key a) < firstPlace key all (key b)

variable {taken : String → Prop} {all rest chosen : List α} {a : α}

section

variable (h : FirstOfEach key taken all chosen)
include h

/-- No key is chosen twice. -/
theorem FirstOfEach.nodup : (chosen.map key).Nodup := by
  rw [List.Nodup, List.pairwise_map]
  refine h.ordered.imp fun {a b} hlt hkey => ?_
  rw [hkey] at hlt
  exact absurd hlt (Nat.lt_irrefl _)

/-- What is chosen has nothing of its key before it. -/
theorem FirstOfEach.split (ha : a ∈ chosen) :
    ∃ before rest, all = before ++ a :: rest ∧ ∀ b ∈ before, key b ≠ key a := by
  obtain ⟨_, before, rest, hsplit, hbefore⟩ := List.find?_eq_some_iff_append.mp (h.first a ha)
  exact ⟨before, rest, hsplit, fun b hb => by simpa using hbefore b hb⟩

/-- Chosen is what stands first under a key that is free. -/
theorem FirstOfEach.mem_iff_find? :
    a ∈ chosen ↔ all.find? (fun b => key b = key a) = some a ∧ ¬ taken (key a) := by
  constructor
  · intro ha
    exact ⟨h.first a ha, ((h.mem_iff (key a)).mp (List.mem_map_of_mem ha)).2⟩
  · rintro ⟨hfirst, hfree⟩
    have hkey : key a ∈ all.map key := List.mem_map_of_mem (List.mem_of_find?_eq_some hfirst)
    obtain ⟨b, hb, hsame⟩ := List.mem_map.mp ((h.mem_iff (key a)).mpr ⟨hkey, hfree⟩)
    have hfirst' := h.first b hb
    rw [hsame, hfirst, Option.some.injEq] at hfirst'
    exact hfirst' ▸ hb

/-- It matters which keys are taken, and not how that is said. -/
theorem FirstOfEach.congr {taken' : String → Prop} (hsame : ∀ k, taken k ↔ taken' k) :
    FirstOfEach key taken' all chosen :=
  ⟨fun k => (h.mem_iff k).trans (and_congr_right fun _ => not_congr (hsame k)), h.first, h.ordered⟩

end

theorem firstPlace_cons_self (a : α) (rest : List α) : firstPlace key (a :: rest) (key a) = 0 := by
  simp [firstPlace, List.findIdx_cons]

theorem firstPlace_cons_of_ne {k : String} (h : key a ≠ k) (rest : List α) :
    firstPlace key (a :: rest) k = firstPlace key rest k + 1 := by
  simp [firstPlace, List.findIdx_cons, h]

/-- A choice from the rest is a choice from the whole if the first element has a key that is
taken. -/
theorem FirstOfEach.skip (htaken : taken (key a)) (h : FirstOfEach key taken rest chosen) :
    FirstOfEach key taken (a :: rest) chosen := by
  -- nothing chosen has this key, so the first of each key stays and all places move by one
  have hother : ∀ b ∈ chosen, key a ≠ key b := by
    intro b hb hsame
    have hfree := ((h.mem_iff (key b)).mp (List.mem_map_of_mem hb)).2
    exact hfree (hsame ▸ htaken)
  refine ⟨fun k => ?_, fun b hb => ?_, ?_⟩
  · rw [h.mem_iff, List.map_cons, List.mem_cons]
    constructor
    · rintro ⟨hk, hfree⟩
      exact ⟨.inr hk, hfree⟩
    · rintro ⟨rfl | hk, hfree⟩
      · exact absurd htaken hfree
      · exact ⟨hk, hfree⟩
  · rw [List.find?_cons_of_neg (by simpa using hother b hb)]
    exact h.first b hb
  · refine h.ordered.imp_of_mem fun {b d} hb hd hlt => ?_
    rw [firstPlace_cons_of_ne (hother b hb), firstPlace_cons_of_ne (hother d hd)]
    exact Nat.succ_lt_succ hlt

/-- The first element is chosen if its key is free, and takes the key. -/
theorem FirstOfEach.take (hfree : ¬ taken (key a))
    (h : FirstOfEach key (fun k => k = key a ∨ taken k) rest chosen) :
    FirstOfEach key taken (a :: rest) (a :: chosen) := by
  -- nothing else of this key is chosen, since the key is taken for the rest
  have hother : ∀ b ∈ chosen, key a ≠ key b := by
    intro b hb hsame
    have hout := ((h.mem_iff (key b)).mp (List.mem_map_of_mem hb)).2
    exact hout (.inl hsame.symm)
  refine ⟨fun k => ?_, List.forall_mem_cons.mpr ⟨?_, fun b hb => ?_⟩,
    List.pairwise_cons.mpr ⟨?_, ?_⟩⟩
  · rw [List.map_cons, List.map_cons, List.mem_cons, List.mem_cons, h.mem_iff]
    by_cases hk : k = key a
    · simp [hk, hfree]
    · simp [hk]
  · exact List.find?_cons_of_pos (decide_eq_true rfl)
  · rw [List.find?_cons_of_neg (by simpa using hother b hb)]
    exact h.first b hb
  · intro b hb
    rw [firstPlace_cons_self, firstPlace_cons_of_ne (hother b hb)]
    exact Nat.succ_pos _
  · refine h.ordered.imp_of_mem fun {b d} hb hd hlt => ?_
    rw [firstPlace_cons_of_ne (hother b hb), firstPlace_cons_of_ne (hother d hd)]
    exact Nat.succ_lt_succ hlt

/-- **The first of each key** is chosen, in order. -/
theorem firstOfEach_firstFree (key : α → String) (taken : List String) (all : List α) :
    FirstOfEach key (· ∈ taken) all (firstFree key taken all) := by
  induction all generalizing taken with
  | nil => exact ⟨by simp [firstFree], by simp [firstFree], .nil⟩
  | cons a rest ih =>
    rw [firstFree]
    split
    next htaken => exact (ih taken).skip htaken
    next hfree => exact ((ih (key a :: taken)).congr fun _ => List.mem_cons).take hfree

/-! ## Section 3: Where it is used -/

theorem firstFree_congr {taken taken' : List String} (h : ∀ k, k ∈ taken ↔ k ∈ taken')
    (all : List α) : firstFree key taken all = firstFree key taken' all := by
  induction all generalizing taken taken' with
  | nil => rfl
  | cons a rest ih =>
    simp only [firstFree, h (key a)]
    split
    · exact ih h
    · have hmore : ∀ k, k ∈ key a :: taken ↔ k ∈ key a :: taken' := by
        intro k
        simp only [List.mem_cons, h k]
      rw [ih hmore]

/-- What is chosen from two lists one after the other. -/
theorem firstFree_append (taken : List String) (front back : List α) :
    firstFree key taken (front ++ back) =
      firstFree key taken front ++ firstFree key (front.map key ++ taken) back := by
  induction front generalizing taken with
  | nil => rfl
  | cons a rest ih =>
    simp only [List.cons_append, firstFree, List.map_cons]
    split
    next htaken =>
      rw [ih]
      congr 1
      -- the key was taken before, and is no news for the second list
      apply firstFree_congr
      intro k
      simp only [List.mem_append, List.mem_cons]
      constructor
      · exact .inr
      · rintro (rfl | h)
        · exact .inr htaken
        · exact h
    next hfree =>
      rw [ih, List.cons_append]
      congr 2
      apply firstFree_congr
      intro k
      simp only [List.mem_append, List.mem_cons]
      exact or_left_comm

theorem firstFree_map {β : Type} (f : β → α) (taken : List String) (all : List β) :
    firstFree key taken (all.map f) = (firstFree (fun b => key (f b)) taken all).map f := by
  induction all generalizing taken with
  | nil => rfl
  | cons b rest ih =>
    simp only [List.map_cons, firstFree, ih]
    split <;> rfl

/-- A list grows by the first elements of keys that it does not hold. -/
theorem foldl_eq_append_firstFree {add : List α → α → List α}
    (hadd : ∀ known a, add known a = if key a ∈ known.map key then known else known ++ [a])
    (all known : List α) : all.foldl add known = known ++ firstFree key (known.map key) all := by
  induction all generalizing known with
  | nil => simp [firstFree]
  | cons a rest ih =>
    rw [List.foldl_cons, firstFree, ih, hadd]
    split
    next => rfl
    next =>
      rw [List.append_assoc, List.singleton_append]
      congr 2
      apply firstFree_congr
      intro k
      simp only [List.map_append, List.map_cons, List.map_nil, List.mem_append, List.mem_cons,
        List.not_mem_nil, or_false]
      exact or_comm

namespace Hierarchy

/-- A table grows by the first declarations of names that it does not hold. -/
theorem foldl_addMember_eq (name : α → String) (all known : List (Declared α)) :
    all.foldl (addMember name) known =
      known ++ firstFree (fun d => name d.member) (known.map fun d => name d.member) all := by
  refine foldl_eq_append_firstFree (fun known d => ?_) all known
  simp [addMember]

/-- **A table of members** holds the first of the declarations of each name that are offered. -/
theorem firstOfEach_merged (name : α → String) (visibility : α → Visibility)
    (declarations : ClassModel → List α) (own : List ClassName) (owners : List ClassModel) :
    FirstOfEach (fun d => name d.member) (fun _ => False)
      (owners.flatMap (offered visibility declarations own))
      (merged name visibility declarations own owners) := by
  rw [merged, foldl_addMember_eq]
  exact (firstOfEach_firstFree _ [] _).congr fun _ => iff_of_false List.not_mem_nil not_false

end Hierarchy

namespace Generation

theorem firstUntaken_eq (taken : List String) (demands : List (ClassModel × MethodModel)) :
    firstUntaken taken demands = firstFree (fun demand => methodKey demand.2) taken demands := by
  induction demands generalizing taken with
  | nil => rfl
  | cons demand rest ih => simp only [firstUntaken, firstFree, ih, List.contains_iff_mem]

theorem firstUndeclared_eq (taken : List String) (properties : List PropertyModel) :
    firstUndeclared taken properties =
      (firstFree PropertyModel.name taken properties).map
        fun p => { p with isAbstract := false } := by
  induction properties generalizing taken with
  | nil => rfl
  | cons p rest ih =>
    simp only [firstUndeclared, firstFree, ih, List.contains_iff_mem]
    split <;> rfl

end Generation

end CodeInsight
