import CodeInsight.Hierarchy

/-!
# Declarations in order

Members are looked up owner by owner, and in each owner declaration by declaration. Going through
all declarations of a list of owners one after the other comes to the same: the first declaration of
some sort is in the first owner that has one.

## Main Results

- `findSome?_eq_find?_along`: a search owner by owner is a search through all declarations
- `firstAlong_of_find?`: what is found first, owner by owner
-/

namespace CodeInsight.Hierarchy

variable {α : Type} {declarations : ClassModel → List α} {owners : List ClassModel}
  {owner : ClassModel} {p : ClassModel → α → Prop} {m : α} {e : ClassModel × α}

/-- The declarations of some owners one after the other, each with its owner. -/
def along (declarations : ClassModel → List α) (owners : List ClassModel) :
    List (ClassModel × α) :=
  owners.flatMap fun owner => (declarations owner).map fun m => (owner, m)

theorem along_cons (declarations : ClassModel → List α) (owner : ClassModel)
    (rest : List ClassModel) :
    along declarations (owner :: rest) =
      (declarations owner).map (fun m => (owner, m)) ++ along declarations rest :=
  List.flatMap_cons

theorem mem_along_iff : e ∈ along declarations owners ↔ e.1 ∈ owners ∧ e.2 ∈ declarations e.1 := by
  simp only [along, List.mem_flatMap, List.mem_map]
  constructor
  · rintro ⟨owner, howner, m, hm, rfl⟩
    exact ⟨howner, hm⟩
  · rintro ⟨howner, hm⟩
    exact ⟨e.1, howner, e.2, hm, rfl⟩

/-- **A search owner by owner** is a search through all declarations. -/
theorem findSome?_eq_find?_along {β : Type} (declarations : ClassModel → List α)
    (owners : List ClassModel) (p : α → Bool) (f : ClassModel → α → β) :
    (owners.findSome? fun owner => ((declarations owner).find? p).map (f owner)) =
      ((along declarations owners).find? fun e => p e.2).map fun e => f e.1 e.2 := by
  induction owners with
  | nil => rfl
  | cons owner rest ih =>
    rw [along_cons, List.find?_append, List.find?_map, List.findSome?_cons, ih]
    simp only [Function.comp_def]
    cases (declarations owner).find? p <;> rfl

/-- A declaration is the first one of some sort: no owner before its own has one, and neither has
its owner before it. -/
structure FirstAlong (declarations : ClassModel → List α) (owners : List ClassModel)
    (p : ClassModel → α → Prop) (owner : ClassModel) (m : α) : Prop where
  holds : p owner m
  first_owner : ∃ before after, owners = before ++ owner :: after ∧
    ∀ b ∈ before, ∀ n ∈ declarations b, ¬ p b n
  first_in_owner : ∃ earlier later, declarations owner = earlier ++ m :: later ∧
    ∀ n ∈ earlier, ¬ p owner n

section

variable (h : FirstAlong declarations owners p owner m)
include h

theorem FirstAlong.mem_owners : owner ∈ owners := by
  obtain ⟨before, after, hsplit, _⟩ := h.first_owner
  simp [hsplit]

theorem FirstAlong.mem_declarations : m ∈ declarations owner := by
  obtain ⟨earlier, later, hsplit, _⟩ := h.first_in_owner
  simp [hsplit]

/-- Sorts that agree on all declarations have the same first ones. -/
theorem FirstAlong.congr {q : ClassModel → α → Prop}
    (hsame : ∀ b ∈ owners, ∀ n ∈ declarations b, p b n ↔ q b n) :
    FirstAlong declarations owners q owner m := by
  have howner := h.mem_owners
  have hm := h.mem_declarations
  obtain ⟨hp, ⟨before, after, hplace, hbefore⟩, earlier, later, hsplit, hearlier⟩ := h
  refine ⟨(hsame owner howner m hm).mp hp, ⟨before, after, hplace, fun b hb n hn hq => ?_⟩,
    earlier, later, hsplit, fun n hn hq => ?_⟩
  · exact hbefore b hb n hn ((hsame b (by simp [hplace, hb]) n hn).mpr hq)
  · exact hearlier n hn ((hsame owner howner n (by simp [hsplit, hn])).mpr hq)

end

/-- **What is found first** among all declarations is what is found first owner by owner. -/
theorem firstAlong_of_find? {p : ClassModel × α → Bool}
    (h : (along declarations owners).find? p = some e) :
    FirstAlong declarations owners (fun owner m => p (owner, m) = true) e.1 e.2 := by
  induction owners with
  | nil => cases h
  | cons o os ih =>
    rw [along_cons, List.find?_append, Option.or_eq_some_iff, List.find?_map] at h
    rcases h with h | ⟨hnone, h⟩
    · -- the first owner has one
      obtain ⟨m, hm, rfl⟩ := Option.map_eq_some_iff.mp h
      obtain ⟨hp, earlier, later, hsplit, hearlier⟩ := List.find?_eq_some_iff_append.mp hm
      refine ⟨hp, ⟨[], os, rfl, List.forall_mem_nil _⟩, earlier, later, hsplit, ?_⟩
      intro n hn
      simpa using hearlier n hn
    · obtain ⟨hp, ⟨before, after, hplace, hbefore⟩, hin⟩ := ih h
      refine ⟨hp, ⟨o :: before, after, by rw [hplace, List.cons_append], ?_⟩, hin⟩
      have hno := List.find?_eq_none.mp (Option.map_eq_none_iff.mp hnone)
      exact List.forall_mem_cons.mpr ⟨hno, hbefore⟩

end CodeInsight.Hierarchy
