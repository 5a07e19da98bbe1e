import CodeInsight.Proofs.ForestHistory
import Mathlib.Data.List.Chain
import Mathlib.Logic.Relation

/-!
# What every forest keeps to

A forest is changed by opening scopes and by binding variables, and every range may be asked for,
also one that is turned round or lies outside of the scope it is opened in. Whatever the calls are,
ranges stay upright and within those of their parents, parents come first, and bindings stay in the
order of their offsets. Chains therefore end at the file, and the search for an offset goes down
from the file by one child at a time until no child holds the offset.

## Main Results

- `WellFormed.chained`: a chain leads from parent to parent and ends at the file
- `WellFormed.found_scopeAt`: the search for an offset as a descent
- `replay_consistent`: what holds after any calls
-/

namespace CodeInsight.Forest

variable {forest : Forest}

/-! ## Section 1: Chains end at the file -/

/-- Scopes each of which is the parent of the one before it, from a scope up to the file. -/
structure Chained (forest : Forest) (scope : Nat) (chain : List Nat) : Prop where
  first : chain.head? = some scope
  parents : chain.IsChain fun inner outer => forest.parentOf? inner = some outer
  last : chain.getLast? = some fileScope

theorem WellFormed.chained (h : WellFormed forest) {scope : Nat} :
    scope < forest.next → Chained forest scope (forest.chain scope) := by
  induction scope using h.induction with
  | top scope hnone =>
    intro hlt
    obtain rfl := h.eq_file hnone hlt
    rw [chain_of_no_parent hnone]
    exact ⟨rfl, .singleton _, rfl⟩
  | step scope outer hparent ih =>
    intro hlt
    obtain ⟨hfirst, hparents, hlast⟩ := ih (Nat.lt_trans (h.parent_lt scope outer hparent) hlt)
    rw [h.chain_of_parent hparent]
    refine ⟨rfl, List.isChain_cons.mpr ⟨?_, hparents⟩, ?_⟩
    · intro next hnext
      obtain rfl : outer = next := Option.some.inj (hfirst.symm.trans hnext)
      exact hparent
    · rw [List.getLast?_cons, hlast]
      rfl

/-! ## Section 2: The search as a descent -/

/-- A step of the search: into the first child of a scope that holds the offset. -/
structure Enters (forest : Forest) (offset outer inner : Nat) : Prop where
  child : forest.parentOf? inner = some outer
  holds : (forest.rangeOf inner).contains offset = true
  first : ∀ c < inner, forest.parentOf? c = some outer → (forest.rangeOf c).contains offset = false

/-- The end of a search: it is reached from the file by steps into children, all of which hold the
offset, and there is no further step. -/
structure Found (forest : Forest) (offset found : Nat) : Prop where
  lt : found < forest.next
  descent : Relation.ReflTransGen (forest.Enters offset) fileScope found
  holds : ∀ a ∈ forest.chain found, a ≠ fileScope → (forest.rangeOf a).contains offset = true
  innermost : ∀ c, forest.parentOf? c = some found → (forest.rangeOf c).contains offset = false

/-- No search goes on for ever, since every step leads to a later scope. -/
theorem WellFormed.wellFounded_enters (h : WellFormed forest) (offset : Nat) :
    WellFounded fun inner outer => forest.Enters offset outer inner := by
  apply Subrelation.wf _ (measure fun scope => forest.next - scope).wf
  intro inner outer henters
  have hlater := h.parent_lt inner outer henters.child
  have hlt := lt_next_of_parentOf? henters.child
  show forest.next - inner < forest.next - outer
  omega

/-- One position of the list is one step of the search, or none. -/
theorem Reached.descent_searchStep {offset position current : Nat}
    (hr : Reached forest offset position current) {scope : Scope}
    (hscope : forest.scopes[position]? = some scope)
    (hdescent : Relation.ReflTransGen (forest.Enters offset) fileScope current) :
    Relation.ReflTransGen (forest.Enters offset) fileScope
      (searchStep offset current (scope, position)) := by
  unfold searchStep
  split
  next hinto =>
    obtain ⟨hchild, hholds⟩ := Bool.and_eq_true_iff.mp hinto
    refine hdescent.tail ⟨?_, ?_, hr.passed⟩
    · simpa [parentOf?, hscope] using hchild
    · simpa [rangeOf, hscope] using hholds
  next => exact hdescent

/-- **The search for an offset** goes down from the file by one child at a time, and it ends where
no child holds the offset. -/
theorem WellFormed.found_scopeAt (h : WellFormed forest) (offset : Nat) :
    Found forest offset (forest.scopeAt offset) := by
  obtain ⟨⟨hlt, hholds, hpassed⟩, hdescent⟩ := search_induction
    (P := fun position current => Reached forest offset position current ∧
      Relation.ReflTransGen (forest.Enters offset) fileScope current)
    ⟨h.reached_file offset, .refl⟩ fun _ _ _ hscope ⟨hr, hdescent⟩ =>
      ⟨h.reached_searchStep hr hscope, hr.descent_searchStep hscope hdescent⟩
  exact ⟨hlt, hdescent, hholds, fun c hc => hpassed c (lt_next_of_parentOf? hc) hc⟩

/-! ## Section 3: Forests made by calls -/

/-- What holds of a forest at all times. -/
structure Consistent (forest : Forest) : Prop extends WellFormed forest where
  ordered : ∀ scope, Ordered (forest.bindingsOf scope)
  chains : ∀ scope < forest.next, Chained forest scope (forest.chain scope)
  search : ∀ offset, Found forest offset (forest.scopeAt offset)
  terminates : ∀ offset, WellFounded fun inner outer => forest.Enters offset outer inner

/-- **After any calls** that open scopes in scopes which are there, on whatever ranges, and bind
variables in them, from whatever offsets: every range is upright and lies within that of the parent,
the parent has a smaller position, bindings are in the order of their offsets, every chain ends at
the file, and the search for every offset terminates, in a scope whose chain holds the offset, the
file apart, and none of whose children does. -/
theorem replay_consistent (size : Nat) (calls : List Call) (h : Admissible calls (ofSize size)) :
    Consistent (replay calls (ofSize size)) := by
  have hwf := (WellFormed.ofSize size).replay h
  have hrepresents := represents_replay (represents_ofSize size) h
  exact ⟨hwf, fun scope => (hrepresents scope).ordered, fun _ hlt => hwf.chained hlt,
    hwf.found_scopeAt, hwf.wellFounded_enters⟩

/-- Scopes opened on a range that is turned round, on one that sticks out of its parent, on one that
lies outside of it, and on one that overlaps its neighbour. -/
def looseRanges : List Call :=
  [.nest 0 .function ⟨40, 10⟩, .nest 0 .method ⟨10, 80⟩, .nest 2 .closure ⟨5, 30⟩,
    .nest 3 .closure ⟨35, 50⟩, .bind 2 "$a" 30 .unknown, .nest 2 .arrowFunction ⟨20, 45⟩,
    .bind 2 "$b" 12 .unknown]

theorem loose_ranges_consistent :
    Admissible looseRanges (ofSize 60) ∧
      (replay looseRanges (ofSize 60)).scopes.map Scope.range =
        [⟨0, 60⟩, ⟨40, 40⟩, ⟨10, 60⟩, ⟨10, 30⟩, ⟨30, 30⟩, ⟨20, 45⟩] ∧
      [5, 25, 40, 60].map (replay looseRanges (ofSize 60)).scopeAt = [0, 3, 5, 0] ∧
      Consistent (replay looseRanges (ofSize 60)) :=
  ⟨by decide, by decide, by decide, replay_consistent 60 looseRanges (by decide)⟩

end CodeInsight.Forest
