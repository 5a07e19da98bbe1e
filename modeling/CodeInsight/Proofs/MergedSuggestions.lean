import CodeInsight.Completion
import CodeInsight.Proofs.FirstOfEach

/-!
# Merged suggestions

The offers of the providers are merged one after the other, and a suggestion is added unless one
with its label and kind is there. So what is there stays in front, and what is added are the first
offers of the keys that are new.

## Main Results

- `FirstOffers`: the first offers of all keys that are not known
- `foldl_add`: merging offers into known suggestions
- `completion_keeps_first_offers`: what the providers offer together, and what one more of them adds
-/

namespace CodeInsight.Completion

/-- What suggestions are told apart by. -/
def key (s : Suggestion) : String × SuggestionKind := (s.label, s.kind)

/-- What is offered at a place has a key that is neither known nor offered before. -/
def IsFirst (known offered : List Suggestion) (place : Nat) : Prop :=
  ∃ s, offered[place]? = some s ∧ key s ∉ known.map key ∧
    ∀ earlier o, earlier < place → offered[earlier]? = some o → key o ≠ key s

/-- The chosen suggestions are the first ones offered of each key that is not known, in the order of
the places at which they are offered. -/
structure FirstOffers (known offered chosen : List Suggestion) : Prop where
  places : ∃ places : List Nat, places.Pairwise (· < ·) ∧
    (∀ place, place ∈ places ↔ IsFirst known offered place) ∧
    chosen.map some = places.map fun place => offered[place]?
  sublist : chosen.Sublist offered
  distinct : (chosen.map key).Nodup
  mem_iff : ∀ s, s ∈ chosen ↔
    offered.find? (fun o => key o = key s) = some s ∧ key s ∉ known.map key

variable {known offered chosen : List Suggestion} {s : Suggestion}

/-- Every key that is offered and not known is there with its first offer. -/
theorem FirstOffers.covers (h : FirstOffers known offered chosen) (hs : s ∈ offered)
    (hnew : key s ∉ known.map key) :
    ∃ first ∈ chosen, offered.find? (fun o => key o = key s) = some first := by
  obtain ⟨first, hfirst⟩ : ∃ first, offered.find? (fun o => key o = key s) = some first :=
    Option.isSome_iff_exists.mp (List.find?_isSome.mpr ⟨s, hs, decide_eq_true rfl⟩)
  have hkey : key first = key s := by simpa using List.find?_some hfirst
  exact ⟨first, (h.mem_iff first).mpr ⟨hkey ▸ hfirst, hkey ▸ hnew⟩, hfirst⟩

/-! ## Section 1: One more offer -/

theorem isFirst_zero : IsFirst known (s :: offered) 0 ↔ key s ∉ known.map key := by
  constructor
  · rintro ⟨a, ha, hnew, -⟩
    obtain rfl : s = a := Option.some.inj ha
    exact hnew
  · exact fun hnew => ⟨s, rfl, hnew, fun earlier o hlt => absurd hlt (Nat.not_lt_zero _)⟩

/-- Behind an offer its key counts as known. -/
theorem isFirst_succ {place : Nat} :
    IsFirst known (s :: offered) (place + 1) ↔ IsFirst (known ++ [s]) offered place := by
  refine exists_congr fun a => and_congr_right fun _ => ?_
  rw [List.map_append, List.mem_append, not_or, List.map_singleton, List.mem_singleton, and_assoc]
  refine and_congr_right fun _ => ?_
  constructor
  · intro h
    exact ⟨fun heq => h 0 s (Nat.succ_pos _) rfl heq.symm,
      fun earlier o hlt ho => h (earlier + 1) o (Nat.succ_lt_succ hlt) ho⟩
  · rintro ⟨hne, h⟩ earlier o hlt ho
    cases earlier with
    | zero => exact fun heq => hne (Option.some.inj ho ▸ heq.symm)
    | succ earlier => exact h earlier o (Nat.lt_of_succ_lt_succ hlt) ho

/-- It makes no difference if it was known before. -/
theorem isFirst_known (hknown : key s ∈ known.map key) {place : Nat} :
    IsFirst (known ++ [s]) offered place ↔ IsFirst known offered place := by
  refine exists_congr fun a => and_congr_right fun _ => and_congr_left fun _ => not_congr ?_
  rw [List.map_append, List.mem_append, List.map_singleton, List.mem_singleton]
  exact ⟨fun h => h.elim id fun heq => heq ▸ hknown, .inl⟩

theorem any_sameKey_iff : known.any (sameKey s) = true ↔ key s ∈ known.map key := by
  rw [List.any_eq_true, List.mem_map]
  refine exists_congr fun a => and_congr_right fun _ => ?_
  simp only [sameKey, key, Bool.and_eq_true, decide_eq_true_eq, Prod.mk.injEq]
  exact and_congr eq_comm eq_comm

theorem add_of_known (h : key s ∈ known.map key) : add known s = known :=
  if_pos (any_sameKey_iff.mpr h)

theorem add_of_new (h : key s ∉ known.map key) : add known s = known ++ [s] :=
  if_neg (mt any_sameKey_iff.mp h)

/-- An offer with a known key is passed over. -/
theorem FirstOffers.skip (hknown : key s ∈ known.map key) (h : FirstOffers known offered chosen) :
    FirstOffers known (s :: offered) chosen := by
  refine ⟨?_, h.sublist.cons s, h.distinct, fun a => (h.mem_iff a).trans ?_⟩
  · exact ChosenAt.skip h.places (fun hfirst => isFirst_zero.mp hfirst hknown)
      fun _ => isFirst_succ.trans (isFirst_known hknown)
  · refine and_congr_left fun hnew => ?_
    have hother : key s ≠ key a := fun heq => hnew (heq ▸ hknown)
    rw [List.find?_cons_of_neg (by simpa using hother)]

/-- An offer with a new key is chosen, and its key is known from there on. -/
theorem FirstOffers.take (hnew : key s ∉ known.map key)
    (h : FirstOffers (known ++ [s]) offered chosen) :
    FirstOffers known (s :: offered) (s :: chosen) := by
  have hknown : ∀ a, key a ∉ (known ++ [s]).map key ↔ key a ∉ known.map key ∧ key a ≠ key s := by
    intro a
    rw [List.map_append, List.mem_append, not_or, List.map_singleton, List.mem_singleton]
  refine ⟨?_, h.sublist.cons_cons s, ?_, fun a => ?_⟩
  · exact ChosenAt.take h.places (isFirst_zero.mpr hnew) fun _ => isFirst_succ
  · rw [List.map_cons, List.nodup_cons]
    refine ⟨fun hmem => ?_, h.distinct⟩
    obtain ⟨a, ha, heq⟩ := List.mem_map.mp hmem
    exact ((hknown a).mp ((h.mem_iff a).mp ha).2).2 heq
  · rw [List.mem_cons, h.mem_iff, hknown]
    -- the first offer of its key is this one, and of all other keys it stays
    by_cases hsame : key s = key a
    · rw [List.find?_cons_of_pos (by simpa using hsame), Option.some.injEq]
      constructor
      · rintro (rfl | ⟨-, -, hother⟩)
        · exact ⟨rfl, hnew⟩
        · exact absurd hsame.symm hother
      · exact fun h => .inl h.1.symm
    · rw [List.find?_cons_of_neg (by simpa using hsame)]
      constructor
      · rintro (rfl | ⟨hfirst, hfree, -⟩)
        · exact absurd rfl hsame
        · exact ⟨hfirst, hfree⟩
      · exact fun h => .inr ⟨h.1, h.2, fun heq => hsame heq.symm⟩

/-! ## Section 2: All offers -/

/-- Merging leaves what is known in front and adds the first offers of new keys. -/
theorem foldl_add (known offered : List Suggestion) :
    ∃ chosen, offered.foldl add known = known ++ chosen ∧ FirstOffers known offered chosen := by
  induction offered generalizing known with
  | nil =>
    refine ⟨[], (List.append_nil _).symm, chosenAt_nil ?_, .slnil, .nil, by simp⟩
    rintro place ⟨_, hnone, -⟩
    cases hnone
  | cons s rest ih =>
    rw [List.foldl_cons]
    by_cases hs : key s ∈ known.map key
    · rw [add_of_known hs]
      obtain ⟨chosen, heq, hchosen⟩ := ih known
      exact ⟨chosen, heq, hchosen.skip hs⟩
    · rw [add_of_new hs]
      obtain ⟨chosen, heq, hchosen⟩ := ih (known ++ [s])
      exact ⟨s :: chosen, by simpa using heq, hchosen.take hs⟩

/-- **Completion** answers with the first offers of all keys: a selection from the offers of the
providers in their order, without a label and kind twice, in which every offered label and kind has
its first offer. One more provider adds to these suggestions, behind them, the first of its offers
with other labels or kinds, and nothing else. -/
theorem completion_keeps_first_offers (lookup : Lookup) (providers : List Provider) (path : String)
    (text : Text) (offset : Nat) (kept : Analyses) :
    complete lookup providers path text offset kept =
        ((Resolution.resolve lookup path text offset kept).1.map (suggestions providers),
          (Resolution.resolve lookup path text offset kept).2) ∧
      ∀ r : Resolution,
        FirstOffers [] (providers.flatMap fun p => p.provide r) (suggestions providers r) ∧
        (∀ s, s ∈ providers.flatMap (fun p => p.provide r) → ∃ first ∈ suggestions providers r,
          (providers.flatMap fun p => p.provide r).find? (fun o => key o = key s) = some first) ∧
        ∀ added : Provider, ∃ more,
          suggestions (providers ++ [added]) r = suggestions providers r ++ more ∧
            FirstOffers (suggestions providers r) (added.provide r) more := by
  constructor
  · unfold complete
    cases Resolution.resolve lookup path text offset kept with
    | mk answer kept => cases answer <;> rfl
  · intro r
    obtain ⟨chosen, heq, hchosen⟩ := foldl_add [] (providers.flatMap fun p => p.provide r)
    have hall : FirstOffers [] (providers.flatMap fun p => p.provide r)
        (suggestions providers r) := by
      rw [suggestions, heq, List.nil_append]
      exact hchosen
    refine ⟨hall, fun s hs => hall.covers hs List.not_mem_nil, fun added => ?_⟩
    obtain ⟨more, hmore, hfirst⟩ := foldl_add (suggestions providers r) (added.provide r)
    refine ⟨more, ?_, hfirst⟩
    rw [← hmore]
    simp only [suggestions, List.flatMap_append, List.flatMap_singleton, List.foldl_append]

end CodeInsight.Completion
