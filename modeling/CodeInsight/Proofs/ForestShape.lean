import CodeInsight.Scope.Forest
import Mathlib.Data.List.Induction

/-!
# The shape of a forest of scopes

Which scope lies in which one, and on what range, apart from the bindings. Opening a scope and
binding a variable keep a forest well formed: every scope but the file has a parent opened before it
and lies within the parent's range. If the children of a scope also come one behind the other, then
ranges of scopes overlap only along a chain, and the search for an offset ends in the innermost
scope there is.

## Main Results

- `WellFormed.nest`, `WellFormed.bind`: what a call preserves
- `WellFormed.chain_of_parent`: a chain is a scope and the chain of its parent
- `Tidy.overlaps_eq_false`: scopes on different branches do not overlap
- `WellFormed.scopeAt_spec`: where the search for an offset ends
- `Tidy.mem_chain_scopeAt`: every scope that holds an offset is on the chain of the one found
-/

namespace CodeInsight.Span

variable {offset : Nat}

/-! ## Section 1: Ranges -/

theorem encloses_iff {outer inner : Span} :
    outer.encloses inner = true ↔ outer.start ≤ inner.start ∧ inner.stop ≤ outer.stop := by
  simp [Span.encloses]

theorem encloses_refl (range : Span) : range.encloses range = true :=
  encloses_iff.mpr ⟨Nat.le_refl _, Nat.le_refl _⟩

theorem encloses_trans {a b c : Span} (hab : a.encloses b = true) (hbc : b.encloses c = true) :
    a.encloses c = true := by
  rw [encloses_iff] at *
  omega

theorem overlaps_eq_false_iff {a b : Span} :
    a.overlaps b = false ↔ a.stop ≤ b.start ∨ b.stop ≤ a.start := by
  simp only [Span.overlaps, Bool.and_eq_false_iff, decide_eq_false_iff_not, Nat.not_lt]
  exact Or.comm

theorem overlaps_eq_false_of_encloses {a b c d : Span} (hac : a.encloses c = true)
    (hbd : b.encloses d = true) (h : a.overlaps b = false) : c.overlaps d = false := by
  rw [overlaps_eq_false_iff] at *
  rw [encloses_iff] at hac hbd
  omega

theorem contains_iff {range : Span} :
    range.contains offset = true ↔ range.start ≤ offset ∧ offset < range.stop := by
  simp [Span.contains]

theorem contains_of_encloses {a b : Span} (h : a.encloses b = true)
    (hb : b.contains offset = true) :
    a.contains offset = true := by
  rw [encloses_iff] at h
  rw [contains_iff] at *
  omega

end CodeInsight.Span

namespace CodeInsight.Forest

variable {forest : Forest} {scope : Nat} {outer a : Nat} {offset : Nat}

/-! ## Section 2: Parents and ranges -/

/-- The scope around a scope, if there is one. -/
def parentOf? (forest : Forest) (scope : Nat) : Option Nat :=
  forest.scopes[scope]?.bind Scope.parent

/-- The range of a scope. -/
def rangeOf (forest : Forest) (scope : Nat) : Span :=
  (forest.scopes[scope]?.map Scope.range).getD ⟨0, 0⟩

theorem parentOf?_eq_none_of_le (h : forest.next ≤ scope) : forest.parentOf? scope = none := by
  simp [parentOf?, List.getElem?_eq_none h]

theorem lt_next_of_parentOf? (h : forest.parentOf? scope = some outer) : scope < forest.next := by
  refine Nat.lt_of_not_le fun hle => ?_
  rw [parentOf?_eq_none_of_le hle] at h
  cases h

theorem next_nest (forest : Forest) (outer : Nat) (kind : ScopeKind) (range : Span) :
    (forest.nest outer kind range).next = forest.next + 1 := by
  simp [next, nest]

theorem next_bind (forest : Forest) (scope : Nat) (name : String) (offset : Nat)
    (type : InferredType) : (forest.bind scope name offset type).next = forest.next := by
  simp [next, bind]

theorem parentOf?_nest (forest : Forest) (outer : Nat) (kind : ScopeKind) (range : Span)
    (scope : Nat) :
    (forest.nest outer kind range).parentOf? scope =
      if scope = forest.next then some outer else forest.parentOf? scope := by
  rcases Nat.lt_trichotomy scope forest.next with hlt | rfl | hgt
  · rw [if_neg (Nat.ne_of_lt hlt)]
    unfold next at hlt
    simp [parentOf?, nest, List.getElem?_append_left hlt]
  · simp [parentOf?, nest, next]
  · rw [if_neg (Nat.ne_of_gt hgt), parentOf?_eq_none_of_le (Nat.le_of_lt hgt),
      parentOf?_eq_none_of_le (by rw [next_nest]; exact hgt)]

theorem rangeOf_nest_self (forest : Forest) (outer : Nat) (kind : ScopeKind) (range : Span) :
    (forest.nest outer kind range).rangeOf forest.next = fit (forest.rangeOf outer) range := by
  simp [rangeOf, nest, next]

theorem rangeOf_nest_of_lt (forest : Forest) (outer : Nat) (kind : ScopeKind) (range : Span)
    (h : scope < forest.next) :
    (forest.nest outer kind range).rangeOf scope = forest.rangeOf scope := by
  unfold next at h
  simp [rangeOf, nest, List.getElem?_append_left h]

theorem parentOf?_bind (forest : Forest) (scope : Nat) (name : String) (offset : Nat)
    (type : InferredType) (i : Nat) :
    (forest.bind scope name offset type).parentOf? i = forest.parentOf? i := by
  unfold parentOf? bind
  rw [List.getElem?_modify]
  by_cases h : scope = i <;> cases forest.scopes[i]? <;> simp [h]

theorem rangeOf_bind (forest : Forest) (scope : Nat) (name : String) (offset : Nat)
    (type : InferredType) (i : Nat) :
    (forest.bind scope name offset type).rangeOf i = forest.rangeOf i := by
  unfold rangeOf bind
  rw [List.getElem?_modify]
  by_cases h : scope = i <;> cases forest.scopes[i]? <;> simp [h]

/-! ## Section 3: Well-formed forests -/

/-- The file comes first and has no parent. Every other scope has a parent opened before it and lies
within the parent's range. -/
structure WellFormed (forest : Forest) : Prop where
  nonempty : fileScope < forest.next
  file : forest.parentOf? fileScope = none
  parent : ∀ i, fileScope < i → i < forest.next → ∃ p, forest.parentOf? i = some p
  parent_lt : ∀ i p, forest.parentOf? i = some p → p < i
  inside : ∀ i p, forest.parentOf? i = some p →
    (forest.rangeOf p).encloses (forest.rangeOf i) = true
  proper : ∀ i, (forest.rangeOf i).start ≤ (forest.rangeOf i).stop

/-- A range cut to another one lies within it. -/
theorem fit_within {outer : Span} (h : outer.start ≤ outer.stop) (range : Span) :
    outer.encloses (fit outer range) = true ∧ (fit outer range).start ≤ (fit outer range).stop := by
  rw [Span.encloses_iff]
  unfold fit clampTo
  dsimp only
  split <;> split <;> (try split) <;> (try split) <;> omega

/-- A range that lies within another one is not cut. -/
theorem fit_eq_self {outer range : Span} (h : outer.encloses range = true)
    (hproper : range.start ≤ range.stop) : fit outer range = range := by
  obtain ⟨hstart, hstop⟩ := Span.encloses_iff.mp h
  have h₁ : clampTo outer.start outer.stop range.start = range.start := by
    unfold clampTo
    rw [if_neg (by omega), if_neg (by omega)]
  have h₂ : clampTo range.start outer.stop range.stop = range.stop := by
    unfold clampTo
    rw [if_neg (by omega), if_neg (by omega)]
  simp only [fit, h₁, h₂]

theorem WellFormed.ofSize (size : Nat) : WellFormed (ofSize size) := by
  have hparent : ∀ i, (Forest.ofSize size).parentOf? i = none := by
    intro i
    cases i <;> simp [parentOf?, Forest.ofSize]
  refine ⟨Nat.one_pos, hparent _, ?_, ?_, ?_, ?_⟩
  · intro i hpos hlt
    exact absurd hpos (Nat.not_lt_of_le (Nat.le_of_lt_succ hlt))
  · intro i p hp
    simp [hparent] at hp
  · intro i p hp
    simp [hparent] at hp
  · intro i
    cases i <;> simp [rangeOf, Forest.ofSize]

/-- **Opening a scope** in one that is there keeps a forest well formed, whatever range is asked
for. -/
theorem WellFormed.nest (h : WellFormed forest) (houter : outer < forest.next) (kind : ScopeKind)
    (range : Span) : WellFormed (forest.nest outer kind range) := by
  have hfit := fit_within (h.proper outer) range
  -- parents of old scopes are old, so nothing about them changes
  have hlt : ∀ i p, forest.parentOf? i = some p → p < forest.next := fun i p hp =>
    Nat.lt_trans (h.parent_lt i p hp) (lt_next_of_parentOf? hp)
  refine ⟨?_, ?_, ?_, ?_, ?_, ?_⟩
  · rw [next_nest]
    exact Nat.lt_succ_of_lt h.nonempty
  · rw [parentOf?_nest, if_neg (Nat.ne_of_lt h.nonempty), h.file]
  · intro i hpos hi
    rw [next_nest] at hi
    rw [parentOf?_nest]
    by_cases hnew : i = forest.next
    · exact ⟨outer, if_pos hnew⟩
    · rw [if_neg hnew]
      exact h.parent i hpos (by omega)
  · intro i p hp
    rw [parentOf?_nest] at hp
    split at hp
    next hnew =>
      cases hp
      rwa [hnew]
    next => exact h.parent_lt i p hp
  · intro i p hp
    rw [parentOf?_nest] at hp
    split at hp
    next hnew =>
      cases hp
      rw [hnew, rangeOf_nest_self, rangeOf_nest_of_lt _ _ _ _ houter]
      exact hfit.1
    next =>
      rw [rangeOf_nest_of_lt _ _ _ _ (lt_next_of_parentOf? hp),
        rangeOf_nest_of_lt _ _ _ _ (hlt i p hp)]
      exact h.inside i p hp
  · intro i
    rcases Nat.lt_trichotomy i forest.next with hi | rfl | hi
    · rw [rangeOf_nest_of_lt _ _ _ _ hi]
      exact h.proper i
    · rw [rangeOf_nest_self]
      exact hfit.2
    · have hnone : (forest.nest outer kind range).scopes[i]? = none :=
        List.getElem?_eq_none (by rw [← next, next_nest]; exact hi)
      simp [rangeOf, hnone]

theorem WellFormed.bind (h : WellFormed forest) (scope : Nat) (name : String) (offset : Nat)
    (type : InferredType) : WellFormed (forest.bind scope name offset type) := by
  constructor <;> simp only [next_bind, parentOf?_bind, rangeOf_bind]
  · exact h.nonempty
  · exact h.file
  · exact h.parent
  · exact h.parent_lt
  · exact h.inside
  · exact h.proper

/-! ## Section 4: Chains -/

theorem chainFrom_succ (forest : Forest) (fuel scope : Nat) :
    forest.chainFrom (fuel + 1) scope =
      scope :: match forest.parentOf? scope with
        | some outer => forest.chainFrom fuel outer
        | none => [] := rfl

/-- More steps than the position of a scope do not lead further. -/
theorem WellFormed.chainFrom_eq_chain (h : WellFormed forest) {fuel : Nat} (hfuel : scope < fuel) :
    forest.chainFrom fuel scope = forest.chain scope := by
  induction scope using Nat.strongRecOn generalizing fuel with
  | ind scope ih =>
    obtain ⟨more, rfl⟩ : ∃ more, fuel = more + 1 := ⟨fuel - 1, by omega⟩
    rw [chain, chainFrom_succ, chainFrom_succ]
    -- the parent has a smaller position, so both amounts of steps are enough for it
    cases hparent : forest.parentOf? scope with
    | none => rfl
    | some outer =>
      have hlt := h.parent_lt scope outer hparent
      dsimp only
      rw [ih outer hlt (by omega), ih outer hlt hlt]

/-- **The chain of a scope** is the scope and the chain of its parent. -/
theorem WellFormed.chain_of_parent (h : WellFormed forest)
    (hparent : forest.parentOf? scope = some outer) :
    forest.chain scope = scope :: forest.chain outer := by
  rw [chain, chainFrom_succ, hparent]
  dsimp only
  rw [h.chainFrom_eq_chain (h.parent_lt scope outer hparent)]

theorem chain_of_no_parent (hparent : forest.parentOf? scope = none) :
    forest.chain scope = [scope] := by
  rw [chain, chainFrom_succ, hparent]

theorem WellFormed.chain_eq (h : WellFormed forest) (s : Nat) :
    forest.chain s = s :: ((forest.parentOf? s).map forest.chain).getD [] := by
  cases hparent : forest.parentOf? s with
  | none => exact chain_of_no_parent hparent
  | some outer => exact h.chain_of_parent hparent

/-- Induction along the way out. -/
theorem WellFormed.induction (h : WellFormed forest) {motive : Nat → Prop}
    (top : ∀ scope, forest.parentOf? scope = none → motive scope)
    (step : ∀ scope outer, forest.parentOf? scope = some outer → motive outer → motive scope)
    (scope : Nat) : motive scope := by
  induction scope using Nat.strongRecOn with
  | ind scope ih =>
    cases hparent : forest.parentOf? scope with
    | none => exact top scope hparent
    | some outer => exact step scope outer hparent (ih outer (h.parent_lt scope outer hparent))

theorem mem_chain_self (forest : Forest) (scope : Nat) : scope ∈ forest.chain scope :=
  List.mem_cons_self

section

variable (h : WellFormed forest)
include h

/-- What holds of a scope, and of every scope whose parent it holds of, holds all the way in. -/
theorem WellFormed.of_mem_chain {P : Nat → Prop} (here : P a)
    (step : ∀ scope outer, forest.parentOf? scope = some outer → P outer → P scope) :
    a ∈ forest.chain scope → P scope := by
  induction scope using h.induction with
  | top scope hnone =>
    rw [chain_of_no_parent hnone, List.mem_singleton]
    rintro rfl
    exact here
  | step scope outer hparent ih =>
    rw [h.chain_of_parent hparent, List.mem_cons]
    rintro (rfl | hmem)
    · exact here
    · exact step scope outer hparent (ih hmem)

theorem WellFormed.le_of_mem_chain : a ∈ forest.chain scope → a ≤ scope :=
  h.of_mem_chain (Nat.le_refl a) fun scope outer hparent hle =>
    Nat.le_trans hle (Nat.le_of_lt (h.parent_lt scope outer hparent))

/-- Only the file has no parent. -/
theorem WellFormed.eq_file (hnone : forest.parentOf? scope = none) (hlt : scope < forest.next) :
    scope = fileScope := by
  rcases Nat.eq_zero_or_pos scope with hzero | hpos
  · exact hzero
  · obtain ⟨p, hp⟩ := h.parent scope hpos hlt
    rw [hnone] at hp
    cases hp

/-- Every chain ends at the file. -/
theorem WellFormed.file_mem_chain : scope < forest.next → fileScope ∈ forest.chain scope := by
  induction scope using h.induction with
  | top scope hnone =>
    intro hlt
    obtain rfl := h.eq_file hnone hlt
    exact mem_chain_self forest fileScope
  | step scope outer hparent ih =>
    intro hlt
    rw [h.chain_of_parent hparent]
    exact List.mem_cons_of_mem _ (ih (Nat.lt_trans (h.parent_lt scope outer hparent) hlt))

/-- Ranges grow along a chain. -/
theorem WellFormed.encloses_of_mem_chain :
    a ∈ forest.chain scope → (forest.rangeOf a).encloses (forest.rangeOf scope) = true :=
  h.of_mem_chain (P := fun scope => (forest.rangeOf a).encloses (forest.rangeOf scope) = true)
    (Span.encloses_refl _) fun scope outer hparent hencloses =>
      Span.encloses_trans hencloses (h.inside scope outer hparent)

/-- The last step of a chain before a scope that it passes. -/
theorem WellFormed.exists_child_on_chain (hne : a ≠ scope) :
    a ∈ forest.chain scope → ∃ c ∈ forest.chain scope, forest.parentOf? c = some a := by
  induction scope using h.induction with
  | top scope hnone =>
    rw [chain_of_no_parent hnone, List.mem_singleton]
    exact fun heq => absurd heq hne
  | step scope outer hparent ih =>
    rw [h.chain_of_parent hparent, List.mem_cons]
    rintro (heq | hmem)
    · exact absurd heq hne
    · by_cases houter : a = outer
      · exact ⟨scope, List.mem_cons_self, houter ▸ hparent⟩
      · obtain ⟨c, hc, hparent'⟩ := ih houter hmem
        exact ⟨c, List.mem_cons_of_mem _ hc, hparent'⟩

end

/-! ## Section 5: Tidy forests -/

/-- A well-formed forest in which the children of a scope come one behind the other. -/
structure Tidy (forest : Forest) : Prop extends WellFormed forest where
  siblings : ∀ i j p, i < j → forest.parentOf? i = some p → forest.parentOf? j = some p →
    (forest.rangeOf i).stop ≤ (forest.rangeOf j).start

theorem Tidy.overlaps_of_siblings (h : Tidy forest) {i j p : Nat} (hne : i ≠ j)
    (hi : forest.parentOf? i = some p) (hj : forest.parentOf? j = some p) :
    (forest.rangeOf i).overlaps (forest.rangeOf j) = false := by
  rw [Span.overlaps_eq_false_iff]
  rcases Nat.lt_or_gt_of_ne hne with hlt | hgt
  · exact Or.inl (h.siblings i j p hlt hi hj)
  · exact Or.inr (h.siblings j i p hgt hj hi)

/-- **Different branches do not overlap.** The way out from `j` is followed until it meets the
branch of `i`; there two siblings separate them. -/
theorem Tidy.overlaps_eq_false (h : Tidy forest) {i j : Nat} (hi : i < forest.next) :
    j < forest.next → i ∉ forest.chain j → j ∉ forest.chain i →
      (forest.rangeOf i).overlaps (forest.rangeOf j) = false := by
  have hwf := h.toWellFormed
  induction j using hwf.induction with
  | top j hnone =>
    intro hj _ hji
    obtain rfl := hwf.eq_file hnone hj
    exact absurd (hwf.file_mem_chain hi) hji
  | step j outer hparent ih =>
    intro hj hij hji
    have houter := hwf.inside j outer hparent
    rw [hwf.chain_of_parent hparent, List.mem_cons, not_or] at hij
    by_cases hmeet : outer ∈ forest.chain i
    · -- the branch of `i` leaves `outer` through a sibling of `j`
      have hne : outer ≠ i := fun heq => hij.2 (heq ▸ mem_chain_self forest outer)
      obtain ⟨c, hc, hcparent⟩ := hwf.exists_child_on_chain hne hmeet
      have hcj : c ≠ j := fun heq => hji (heq ▸ hc)
      exact Span.overlaps_eq_false_of_encloses (hwf.encloses_of_mem_chain hc) (Span.encloses_refl _)
        (h.overlaps_of_siblings hcj hcparent hparent)
    · have hlt := Nat.lt_trans (hwf.parent_lt j outer hparent) hj
      exact Span.overlaps_eq_false_of_encloses (Span.encloses_refl _) houter (ih hlt hij.2 hmeet)

/-! ## Section 6: The search for an offset -/

/-- One step of the search: into the scope at a position, if it is a child of the current one and
holds the offset. -/
def searchStep (offset current : Nat) (entry : Scope × Nat) : Nat :=
  if entry.1.parent = some current && entry.1.range.contains offset then entry.2 else current

/-- **The search** looks at one scope after the other. What holds of the file before the search, and
is kept by each step, holds of the scope that is found. -/
theorem search_induction {P : Nat → Nat → Prop} (start : P 0 fileScope)
    (step : ∀ position current scope, forest.scopes[position]? = some scope → P position current →
      P (position + 1) (searchStep offset current (scope, position))) :
    P forest.next (forest.scopeAt offset) := by
  have hprefix : ∀ front : List Scope, front <+: forest.scopes →
      P front.length (front.zipIdx.foldl (searchStep offset) fileScope) := by
    intro front
    induction front using List.reverseRecOn with
    | nil => exact fun _ => start
    | append_singleton front scope ih =>
      rintro ⟨back, hback⟩
      have hscope : forest.scopes[front.length]? = some scope := by
        rw [← hback]
        simp
      have hstep := step _ _ _ hscope (ih ⟨scope :: back, by rw [← hback]; simp⟩)
      rw [List.zipIdx_append, List.foldl_append, List.length_append]
      simpa using hstep
  exact hprefix forest.scopes (List.prefix_refl _)

/-- The current scope of a search that has looked at the scopes before a position: the search has
stepped into scopes that hold the offset, and has met no child of the current one that does. -/
structure Reached (forest : Forest) (offset position current : Nat) : Prop where
  lt : current < forest.next
  holds : ∀ a ∈ forest.chain current, a ≠ fileScope → (forest.rangeOf a).contains offset = true
  passed : ∀ c, c < position → forest.parentOf? c = some current →
    (forest.rangeOf c).contains offset = false

theorem WellFormed.reached_searchStep (h : WellFormed forest) {position current : Nat}
    (hr : Reached forest offset position current) {scope : Scope}
    (hscope : forest.scopes[position]? = some scope) :
    Reached forest offset (position + 1) (searchStep offset current (scope, position)) := by
  have hparent : forest.parentOf? position = scope.parent := by simp [parentOf?, hscope]
  have hrange : forest.rangeOf position = scope.range := by simp [rangeOf, hscope]
  unfold searchStep
  by_cases hinto : scope.parent = some current ∧ scope.range.contains offset = true
  · -- the search steps into the scope, whose children all come later
    rw [if_pos (by simpa using hinto)]
    rw [← hparent, ← hrange] at hinto
    refine ⟨lt_next_of_parentOf? hinto.1, ?_, ?_⟩
    · intro a ha hne
      rw [h.chain_of_parent hinto.1, List.mem_cons] at ha
      rcases ha with rfl | ha
      · exact hinto.2
      · exact hr.holds a ha hne
    · intro c hc hchild
      exact absurd (h.parent_lt c position hchild) (by omega)
  · rw [if_neg (by simpa using hinto)]
    refine ⟨hr.lt, hr.holds, fun c hc hchild => ?_⟩
    rcases Nat.lt_or_eq_of_le (Nat.le_of_lt_succ hc) with hlt | rfl
    · exact hr.passed c hlt hchild
    · rw [hparent] at hchild
      rw [hrange, ← Bool.not_eq_true]
      exact fun hcontains => hinto ⟨hchild, hcontains⟩

theorem WellFormed.reached_file (h : WellFormed forest) (offset : Nat) :
    Reached forest offset 0 fileScope := by
  refine ⟨h.nonempty, fun a ha hne => ?_, fun c hc => absurd hc (Nat.not_lt_zero c)⟩
  rw [chain_of_no_parent h.file, List.mem_singleton] at ha
  exact absurd ha hne

/-- **Where the search ends**: every scope of the chain other than the file holds the offset, and no
child of the scope that is found does. -/
theorem WellFormed.scopeAt_spec (h : WellFormed forest) (offset : Nat) :
    Reached forest offset forest.next (forest.scopeAt offset) :=
  search_induction (h.reached_file offset) fun _ _ _ hscope hr => h.reached_searchStep hr hscope

/-- **The search ends in the innermost scope**: every scope that holds the offset is on its
chain. -/
theorem Tidy.mem_chain_scopeAt (h : Tidy forest) {i : Nat} (hi : i < forest.next)
    (hcontains : (forest.rangeOf i).contains offset = true) :
    i ∈ forest.chain (forest.scopeAt offset) := by
  have hwf := h.toWellFormed
  obtain ⟨hlt, hholds, hpassed⟩ := hwf.scopeAt_spec offset
  by_contra hout
  by_cases hin : forest.scopeAt offset ∈ forest.chain i
  · -- a child of the scope found lies on the way to `i`, and holds the offset too
    have hne : forest.scopeAt offset ≠ i := fun heq => hout (heq ▸ mem_chain_self forest i)
    obtain ⟨c, hc, hchild⟩ := hwf.exists_child_on_chain hne hin
    have hcc := Span.contains_of_encloses (hwf.encloses_of_mem_chain hc) hcontains
    rw [hpassed c (lt_next_of_parentOf? hchild) hchild] at hcc
    cases hcc
  · have hne : forest.scopeAt offset ≠ fileScope := fun heq => hin (heq ▸ hwf.file_mem_chain hi)
    have hfound := hholds _ (mem_chain_self forest _) hne
    have hapart := h.overlaps_eq_false hi hlt hout hin
    rw [Span.overlaps_eq_false_iff] at hapart
    rw [Span.contains_iff] at hcontains hfound
    omega

end CodeInsight.Forest
