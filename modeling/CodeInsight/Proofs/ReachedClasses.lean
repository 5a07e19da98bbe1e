import CodeInsight.Proofs.ClassTours
import Mathlib.Data.List.Chain
import Mathlib.Data.List.Nodup

/-!
# Classes that a tour reaches

A tour meets every name once, and all ways of getting from class to class share the names met. So a
name that was first met deep down is not entered again from higher up, and a class could be lost
behind the limit on levels. It is not, as long as paths without repetitions stay within the limit:
whenever an errand is dropped for want of levels, the classes on the way to it form a path that is
already as long as can be, so the name is one of those met.

## Main Results

- `Recorded.moves`: every name is met once, and what is found are the classes of the names met
- `Justified.moves`: a tour only meets names that links lead to
- `Pursued.moves`: every link from a class that was met is on the agenda or was followed
- `mem_seen_iff`: at its end a tour has met exactly the classes that links lead to
-/

namespace CodeInsight

variable {name : ClassName} {link : Link} {d : ClassModel} {depth : Nat} {first : List ClassModel}
  {t next : Tour} {e : Errand} {seen : List ClassName} {lookup : Lookup} {c : ClassModel}
  {last : Tour}

/-! ## Section 1: Links between classes -/

/-- Every class is found under its own name and no other. -/
def Lookup.Named (lookup : Lookup) : Prop := ∀ name c, lookup name = some c → c.name = name

/-- The lookup from the point of view of a class, whose own name stands for the class itself. -/
def Lookup.seenFrom (lookup : Lookup) (c : ClassModel) : Lookup :=
  fun name => if name = c.name then some c else lookup name

namespace Lookup

theorem seenFrom_self (lookup : Lookup) (c : ClassModel) : lookup.seenFrom c c.name = some c :=
  if_pos rfl

theorem seenFrom_of_ne (lookup : Lookup) (h : name ≠ c.name) :
    lookup.seenFrom c name = lookup name :=
  if_neg h

/-- A class that is found under its name sees the lookup as it is. -/
theorem seenFrom_eq_self (h : lookup c.name = some c) : lookup.seenFrom c = lookup := by
  funext name
  by_cases hname : name = c.name
  · rw [hname, seenFrom_self, h]
  · exact seenFrom_of_ne lookup hname

theorem Named.seenFrom (h : lookup.Named) (c : ClassModel) : (lookup.seenFrom c).Named := by
  intro name d hd
  by_cases hname : name = c.name
  · rw [hname, seenFrom_self] at hd
    rw [hname, Option.some.inj hd]
  · rw [seenFrom_of_ne lookup hname] at hd
    exact h name d hd

end Lookup

namespace Hierarchy

/-- A class names another one, and both are found by their names. -/
def Leads (lookup : Lookup) (link : Link) (a b : ClassModel) : Prop :=
  lookup a.name = some a ∧ ∃ name ∈ link.names a, lookup name = some b

/-- The links of a path: parents of parents, traits in traits, and interfaces that interfaces
extend. -/
def Follows (lookup : Lookup) (link : Link) (a b : ClassModel) : Prop :=
  Leads lookup link a b ∧ (link = .interface → a.kind = .isInterface)

/-- No path without repetitions is longer than a number of links. -/
def NoLonger (lookup : Lookup) (link : Link) (n : Nat) : Prop :=
  ∀ path : List ClassModel, path.Nodup → path.IsChain (Follows lookup link) →
    path.length ≤ n + 1

/-! ## Section 2: Where a tour should go -/

/-- The ways in which a tour goes on from a class that was found in one of the ways. -/
def Link.onward : Link → List Link
  | .parent => [.parent, .trait, .interface]
  | .trait => [.trait]
  | .interface => [.interface]

theorem Link.onward_trans {a b : Link} (hb : b ∈ a.onward) (hlink : link ∈ b.onward) :
    link ∈ a.onward := by
  cases a <;> cases b <;> simp_all [Link.onward]

/-- The classes that a tour should find, by the way in which it gets to them. The tour begins with
a class as if it had been found in the way `root`. -/
inductive Reached (lookup : Lookup) (root : Link) (c : ClassModel) : Link → ClassModel → Prop where
  | first {link : Link} {d : ClassModel} (hlink : link ∈ root.onward)
      (hd : Leads lookup link c d) : Reached lookup root c link d
  | next {way link : Link} {d e : ClassModel} (hway : Reached lookup root c way d)
      (hlink : link ∈ way.onward) (he : Leads lookup link d e) : Reached lookup root c link e

variable {root : Link}

theorem Reached.mem_onward (h : Reached lookup root c link d) : link ∈ root.onward := by
  induction h with
  | first hlink _ => exact hlink
  | next _ hlink _ ih => exact Link.onward_trans ih hlink

theorem Reached.exists_leads (h : Reached lookup root c link d) : ∃ a, Leads lookup link a d := by
  cases h with
  | first _ hd => exact ⟨c, hd⟩
  | next _ _ he => exact ⟨_, he⟩

theorem Leads.found {a b : ClassModel} (h : Leads lookup link a b) (hnamed : lookup.Named) :
    lookup b.name = some b := by
  obtain ⟨_, name, _, hname⟩ := h
  rw [hnamed name b hname]
  exact hname

theorem Reached.found (h : Reached lookup root c link d) (hnamed : lookup.Named) :
    lookup d.name = some d := by
  obtain ⟨a, ha⟩ := h.exists_leads
  exact ha.found hnamed

/-- The errands that a class gives rise to once it was found in the way `link`. -/
theorem mem_sooner_append_later :
    e ∈ sooner link depth d ++ later link depth d ↔
      e.link ∈ link.onward ∧ e.name ∈ e.link.names d ∧
        e.depth = if e.link = link then depth else maxDepth + 1 := by
  obtain ⟨way, levels, name⟩ := e
  cases link <;> cases way <;>
    simp [sooner, later, errands, Link.onward, Link.names, and_comm, eq_comm]

theorem exists_errand {way : Link} (hlink : link ∈ way.onward) (hname : name ∈ link.names d)
    (depth : Nat) : ∃ e ∈ sooner way depth d ++ later way depth d, e.name = name :=
  ⟨⟨link, if link = way then depth else maxDepth + 1, name⟩,
    mem_sooner_append_later.mpr ⟨hlink, hname, rfl⟩, rfl⟩

/-! ## Section 3: Names met and classes found -/

/-- Every name is met once, the name of the first class before all others, and the classes found
are those of the names met after it. -/
def Recorded (lookup : Lookup) (c : ClassModel) (first : List ClassModel) (t : Tour) : Prop :=
  ∃ met, t.seen = c.name :: met ∧ t.seen.Nodup ∧
    t.found = first ++ met.filterMap (lookup.seenFrom c)

section

variable (h : Recorded lookup c first t)
include h

theorem Recorded.name_mem : c.name ∈ t.seen := by
  obtain ⟨met, hseen, _, _⟩ := h
  rw [hseen]
  exact List.mem_cons_self

theorem Recorded.seenFrom_eq (hnew : name ∉ t.seen) : lookup.seenFrom c name = lookup name := by
  apply Lookup.seenFrom_of_ne
  rintro rfl
  exact hnew h.name_mem

/-- The record grows by a new name and by the class of that name, if there is one. -/
theorem Recorded.grow (hnew : name ∉ t.seen) (agenda : List Errand) :
    Recorded lookup c first ⟨t.seen ++ [name], t.found ++ (lookup name).toList, agenda⟩ := by
  have hname := h.seenFrom_eq hnew
  obtain ⟨met, hseen, hnodup, hfound⟩ := h
  refine ⟨met ++ [name], ?_, ?_, ?_⟩
  · show t.seen ++ [name] = c.name :: (met ++ [name])
    rw [hseen, List.cons_append]
  · exact hnodup.append (List.nodup_singleton name) (List.disjoint_singleton.mpr hnew)
  · show t.found ++ (lookup name).toList = first ++ (met ++ [name]).filterMap (lookup.seenFrom c)
    rw [hfound, List.filterMap_append, List.append_assoc, ← hname]
    cases hclass : lookup.seenFrom c name <;> simp [hclass]

end

/-- **Every step keeps the record.** -/
theorem Recorded.moves (hmove : t.Moves lookup next) (h : Recorded lookup c first t) :
    Recorded lookup c first next := by
  cases hmove with
  | dropped seen found e rest _ => exact h
  | missed seen found e rest hnew hnone =>
    have hgrown := h.grow hnew rest
    rw [hnone, Option.toList_none, List.append_nil] at hgrown
    exact hgrown
  | visited seen found link depth name rest d hnew hsome =>
    have hgrown := h.grow hnew (sooner link depth d ++ rest ++ later link depth d)
    rw [hsome, Option.toList_some] at hgrown
    exact hgrown

/-! ## Section 4: Only what links lead to -/

/-- Links lead to all classes of the names met and of the names on the agenda. -/
structure Justified (lookup : Lookup) (root : Link) (c : ClassModel) (t : Tour) : Prop where
  seen : ∀ name ∈ t.seen, ∀ d, lookup name = some d →
    d = c ∨ ∃ link, Reached lookup root c link d
  agenda : ∀ e ∈ t.agenda, ∀ d, lookup e.name = some d → Reached lookup root c e.link d

/-- **Every step is justified** by the links of the class that it visits. -/
theorem Justified.moves (hnamed : lookup.Named) (hmove : t.Moves lookup next)
    (hrecord : Recorded lookup c first t) (h : Justified (lookup.seenFrom c) root c t) :
    Justified (lookup.seenFrom c) root c next := by
  cases hmove with
  | dropped seen found e rest _ =>
    exact ⟨h.seen, fun e' he' => h.agenda e' (List.mem_cons_of_mem e he')⟩
  | missed seen found e rest hnew hnone =>
    refine ⟨fun name hname d hd => ?_, fun e' he' => h.agenda e' (List.mem_cons_of_mem e he')⟩
    rcases List.mem_append.mp hname with hname | hname
    · exact h.seen name hname d hd
    · rw [List.mem_singleton.mp hname] at hd
      exact .inr ⟨e.link, h.agenda e List.mem_cons_self d hd⟩
  | visited seen found link depth name rest d hnew hsome =>
    have hhead : (⟨link, depth + 1, name⟩ : Errand) ∈
        (⟨link, depth + 1, name⟩ : Errand) :: rest := List.mem_cons_self
    have hd : lookup.seenFrom c name = some d := (hrecord.seenFrom_eq hnew).trans hsome
    have hreached : Reached (lookup.seenFrom c) root c link d := h.agenda _ hhead d hd
    constructor
    · intro name' hname' d' hd'
      rcases List.mem_append.mp hname' with hname' | hname'
      · exact h.seen name' hname' d' hd'
      · rw [List.mem_singleton.mp hname'] at hd'
        exact .inr ⟨link, h.agenda _ hhead d' hd'⟩
    · intro e he d' hd'
      -- an errand of the class itself, or one that was there before
      have hcases : e ∈ rest ∨ e ∈ sooner link depth d ++ later link depth d := by
        simp only [List.mem_append] at he ⊢
        tauto
      rcases hcases with hold | hown
      · exact h.agenda e (List.mem_cons_of_mem _ hold) d' hd'
      · obtain ⟨hlink, hmem, _⟩ := mem_sooner_append_later.mp hown
        exact hreached.next hlink ⟨hreached.found (hnamed.seenFrom c), e.name, hmem, hd'⟩

/-! ## Section 5: Everything that links lead to -/

/-- What keeps a tour from losing classes: no class is reached in two ways, no path is longer than
the limit, and interfaces extend interfaces only. -/
structure Orderly (lookup : Lookup) (root : Link) (c : ClassModel) : Prop where
  one_way : ∀ {way link d}, Reached lookup root c way d → Reached lookup root c link d → way = link
  no_longer : ∀ {link d}, Reached lookup root c link d → NoLonger lookup link maxDepth
  interfaces : ∀ {d}, Reached lookup root c .interface d → d.kind = .isInterface

/-- The classes on the way to an errand, the nearest one first, form a path of classes that were
met; the path and the levels that are left make up the limit. -/
def Trailed (lookup : Lookup) (seen : List ClassName) (e : Errand) : Prop :=
  ∃ path : List ClassModel, maxDepth + 1 ≤ path.length + e.depth ∧ path.Nodup ∧
    (∀ a ∈ path, a.name ∈ seen) ∧
    ∀ d, lookup e.name = some d → (d :: path).IsChain fun b a => Follows lookup e.link a b

theorem Trailed.mono {more : List ClassName} (h : Trailed lookup seen e) (hmore : seen ⊆ more) :
    Trailed lookup more e := by
  obtain ⟨path, hlong, hnodup, hmet, hchain⟩ := h
  exact ⟨path, hlong, hnodup, fun a ha => hmore (hmet a ha), hchain⟩

/-- **An errand for which no level is left** is one for a name that was met, if there is a class of
that name: otherwise the path to the class would be too long. -/
theorem Trailed.mem_of_no_level (h : Trailed lookup seen e) (hnamed : lookup.Named)
    (hdepth : e.depth = 0) (hd : lookup e.name = some d)
    (hshort : NoLonger lookup e.link maxDepth) :
    e.name ∈ seen := by
  obtain ⟨path, hlong, hnodup, hmet, hchain⟩ := h
  by_contra hnew
  have hfresh : d ∉ path := by
    intro hmem
    apply hnew
    rw [← hnamed e.name d hd]
    exact hmet d hmem
  -- the trail with this class in front has one class more than a path may have
  have hlength := hshort (d :: path).reverse
    (List.nodup_reverse.mpr (List.nodup_cons.mpr ⟨hfresh, hnodup⟩))
    (List.isChain_reverse.mpr (hchain d hd))
  simp only [List.length_reverse, List.length_cons] at hlength
  omega

/-- The errands that a class gives rise to have trails if there is one to the class. -/
theorem trailed_onward {path : List ClassModel} (hfound : lookup d.name = some d)
    (hmet : d.name ∈ seen) (hlong : maxDepth + 1 ≤ path.length + (depth + 1))
    (hnodup : (d :: path).Nodup) (hpath : ∀ a ∈ path, a.name ∈ seen)
    (hchain : (d :: path).IsChain fun b a => Follows lookup link a b)
    (hkind : link = .interface → d.kind = .isInterface)
    (he : e ∈ sooner link depth d ++ later link depth d) : Trailed lookup seen e := by
  obtain ⟨_, hmem, hdepth⟩ := mem_sooner_append_later.mp he
  by_cases hsame : e.link = link
  · -- the path goes on
    rw [if_pos hsame] at hdepth
    refine ⟨d :: path, ?_, hnodup, List.forall_mem_cons.mpr ⟨hmet, hpath⟩, ?_⟩
    · rw [List.length_cons, hdepth]
      omega
    · intro d' hd'
      rw [hsame] at hmem ⊢
      exact List.isChain_cons_cons.mpr ⟨⟨⟨hfound, e.name, hmem, hd'⟩, hkind⟩, hchain⟩
  · -- a new path begins, with all levels left
    rw [if_neg hsame] at hdepth
    refine ⟨[], ?_, List.nodup_nil, List.forall_mem_nil _, ?_⟩
    · rw [hdepth]
      omega
    · intro d' _
      exact List.isChain_singleton d'

/-- A tour owes the links that go on from the first class and from every class it should find. -/
def Owed (lookup : Lookup) (root : Link) (c d : ClassModel) (link : Link) : Prop :=
  (d = c ∧ link ∈ root.onward) ∨ ∃ way, Reached lookup root c way d ∧ link ∈ way.onward

/-- The name was met, or it is on the agenda. -/
def Tour.Minds (t : Tour) (name : ClassName) : Prop :=
  name ∈ t.seen ∨ ∃ e ∈ t.agenda, e.name = name

/-- All errands have trails, and all links that are owed for the names met are minded. -/
structure Pursued (lookup : Lookup) (root : Link) (c : ClassModel) (t : Tour) : Prop where
  trails : ∀ e ∈ t.agenda, Trailed lookup t.seen e
  minded : ∀ d, d.name ∈ t.seen → ∀ link, Owed lookup root c d link →
    ∀ name ∈ link.names d, (lookup name).isSome = true → t.Minds name

theorem Owed.found (h : Owed lookup root c d link) (hnamed : lookup.Named)
    (hc : lookup c.name = some c) : lookup d.name = some d := by
  rcases h with ⟨rfl, _⟩ | ⟨way, hway, _⟩
  · exact hc
  · exact hway.found hnamed

/-- What a tour minds stays minded as long as every errand does. -/
theorem Tour.Minds.mono (h : t.Minds name) (hseen : t.seen ⊆ next.seen)
    (hagenda : ∀ e ∈ t.agenda, next.Minds e.name) : next.Minds name := by
  rcases h with hmet | ⟨e, he, rfl⟩
  · exact .inl (hseen hmet)
  · exact hagenda e he

/-- **Every step pursues** the links of the class that it visits, and forgets none of the others. -/
theorem Pursued.moves (hnamed : lookup.Named) (horder : Orderly (lookup.seenFrom c) root c)
    (hmove : t.Moves lookup next) (hrecord : Recorded lookup c first t)
    (hjust : Justified (lookup.seenFrom c) root c t) (h : Pursued (lookup.seenFrom c) root c t) :
    Pursued (lookup.seenFrom c) root c next := by
  have hnamed' := hnamed.seenFrom c
  have hc := lookup.seenFrom_self c
  cases hmove with
  | dropped seen found e rest hidle =>
    refine ⟨fun e' he' => h.trails e' (List.mem_cons_of_mem e he'), ?_⟩
    intro d hd link howed name hname hsome
    rcases h.minded d hd link howed name hname hsome with hmet | ⟨e', he', rfl⟩
    · exact .inl hmet
    · rcases List.mem_cons.mp he' with rfl | hrest
      · -- the errand itself: its name was met, even if no level was left
        obtain ⟨d', hd'⟩ := Option.isSome_iff_exists.mp hsome
        rcases hidle with hdepth | hmet
        · have hreached := hjust.agenda e' List.mem_cons_self d' hd'
          exact .inl ((h.trails e' List.mem_cons_self).mem_of_no_level hnamed' hdepth hd'
            (horder.no_longer hreached))
        · exact .inl hmet
      · exact .inr ⟨e', hrest, rfl⟩
  | missed seen found e rest hnew hnone =>
    have hmore : seen ⊆ seen ++ [e.name] := List.subset_append_left seen [e.name]
    refine ⟨fun e' he' => (h.trails e' (List.mem_cons_of_mem e he')).mono hmore, ?_⟩
    intro d hd link howed name hname hsome
    rcases List.mem_append.mp hd with hd | hd
    · refine (h.minded d hd link howed name hname hsome).mono hmore fun e' he' => ?_
      rcases List.mem_cons.mp he' with rfl | hrest
      · exact .inl List.mem_concat_self
      · exact .inr ⟨e', hrest, rfl⟩
    · -- there is no class of the name that was missed
      have hfound := howed.found hnamed' hc
      rw [List.mem_singleton.mp hd, hrecord.seenFrom_eq hnew, hnone] at hfound
      cases hfound
  | visited seen found link depth name rest d hnew hsome =>
    have hmore : seen ⊆ seen ++ [name] := List.subset_append_left seen [name]
    have hd : lookup.seenFrom c name = some d := (hrecord.seenFrom_eq hnew).trans hsome
    have hdname : d.name = name := hnamed' name d hd
    have hreached : Reached (lookup.seenFrom c) root c link d :=
      hjust.agenda _ List.mem_cons_self d hd
    -- the errands of the class are on the agenda, and those of before as well
    have hagenda : ∀ e, e ∈ sooner link depth d ++ rest ++ later link depth d ↔
        e ∈ rest ∨ e ∈ sooner link depth d ++ later link depth d := by
      intro e
      simp only [List.mem_append]
      tauto
    constructor
    · intro e he
      rcases (hagenda e).mp he with hold | hown
      · exact (h.trails e (List.mem_cons_of_mem _ hold)).mono hmore
      · obtain ⟨path, hlong, hnodup, hmet, hchain⟩ := h.trails _ List.mem_cons_self
        have hfresh : d ∉ path := fun hmem => hnew (hdname ▸ hmet d hmem)
        exact trailed_onward (hreached.found hnamed') (hdname ▸ List.mem_concat_self) hlong
          (List.nodup_cons.mpr ⟨hfresh, hnodup⟩) (fun a ha => hmore (hmet a ha)) (hchain d hd)
          (fun hlink => horder.interfaces (hlink ▸ hreached)) hown
    · intro d' hd' link' howed name' hname' hsome'
      rcases List.mem_append.mp hd' with hd' | hd'
      · refine (h.minded d' hd' link' howed name' hname' hsome').mono hmore fun e he => ?_
        rcases List.mem_cons.mp he with rfl | hrest
        · exact .inl List.mem_concat_self
        · exact .inr ⟨e, (hagenda e).mpr (.inl hrest), rfl⟩
      · -- the class itself goes on in the way in which it was found
        have hfound := howed.found hnamed' hc
        rw [List.mem_singleton.mp hd', hd] at hfound
        obtain rfl := Option.some.inj hfound
        rcases howed with ⟨rfl, _⟩ | ⟨way, hway, honward⟩
        · exact absurd (hdname ▸ hrecord.name_mem) hnew
        · obtain rfl := horder.one_way hway hreached
          obtain ⟨e, he, hname⟩ := exists_errand honward hname' depth
          exact .inr ⟨e, (hagenda e).mpr (.inr he), hname⟩

/-! ## Section 6: Whole tours -/

theorem agenda_of_over (h : t.step lookup = none) : t.agenda = [] := by
  obtain ⟨seen, found, agenda⟩ := t
  cases agenda with
  | nil => rfl
  | cons e rest =>
    obtain ⟨link, depth, name⟩ := e
    cases depth with
    | zero => cases h
    | succ depth =>
      simp only [Tour.step] at h
      split at h
      · cases h
      · split at h <;> cases h

theorem recorded_start (lookup : Lookup) (root : Link) (depth : Nat) (first : List ClassModel)
    (c : ClassModel) : Recorded lookup c first (.start root depth first c) :=
  ⟨[], rfl, List.nodup_singleton c.name, (List.append_nil first).symm⟩

theorem justified_start (hc : lookup c.name = some c) (depth : Nat) (first : List ClassModel) :
    Justified lookup root c (.start root depth first c) := by
  constructor
  · intro name hname d hd
    rw [List.mem_singleton.mp hname, hc] at hd
    exact .inl (Option.some.inj hd).symm
  · intro e he d hd
    obtain ⟨hlink, hmem, _⟩ := mem_sooner_append_later.mp he
    exact .first hlink ⟨hc, e.name, hmem, hd⟩

theorem pursued_start (hnamed : lookup.Named) (hc : lookup c.name = some c)
    (hdepth : maxDepth ≤ depth) (hroot : root ≠ .interface) (first : List ClassModel) :
    Pursued lookup root c (.start root depth first c) := by
  constructor
  · intro e he
    have hlong : maxDepth + 1 ≤ ([] : List ClassModel).length + (depth + 1) := by
      simpa using hdepth
    exact trailed_onward hc List.mem_cons_self hlong (List.nodup_singleton c)
      (List.forall_mem_nil _) (List.isChain_singleton c)
      (fun h => absurd h hroot) he
  · intro d hd link howed name hname _
    have hfound := howed.found hnamed hc
    rw [List.mem_singleton.mp hd, hc] at hfound
    obtain rfl := Option.some.inj hfound
    -- even if the first class is reached again, the tour does not owe it more than at the start
    have honward : link ∈ root.onward := by
      rcases howed with ⟨_, h⟩ | ⟨way, hway, h⟩
      · exact h
      · exact Link.onward_trans hway.mem_onward h
    exact .inr (exists_errand honward hname depth)

/-- The names met at the end of a tour are met once, and lead to what is found. -/
theorem recorded_of_ends (hends : (Tour.start root depth first c).Ends lookup last) :
    Recorded lookup c first last :=
  hends.1.keeps Recorded.moves (recorded_start lookup root depth first c)

/-- **A tour has met exactly the classes that links lead to** when it comes to its end. -/
theorem mem_seen_iff (hnamed : lookup.Named) (horder : Orderly (lookup.seenFrom c) root c)
    (hroot : root ≠ .interface) (hdepth : maxDepth ≤ depth)
    (hends : (Tour.start root depth first c).Ends lookup last) :
    (d.name ∈ last.seen ∧ lookup.seenFrom c d.name = some d) ↔
      d = c ∨ ∃ link, Reached (lookup.seenFrom c) root c link d := by
  have hnamed' := hnamed.seenFrom c
  have hc := lookup.seenFrom_self c
  obtain ⟨hreaches, hover⟩ := hends
  -- all three facts are kept together, since each step needs the ones before
  have hkept : Recorded lookup c first last ∧ Justified (lookup.seenFrom c) root c last ∧
      Pursued (lookup.seenFrom c) root c last := by
    refine hreaches.keeps (P := fun t => Recorded lookup c first t ∧
      Justified (lookup.seenFrom c) root c t ∧ Pursued (lookup.seenFrom c) root c t) ?_ ?_
    · rintro t next hmove ⟨hrecord, hjust, hpursued⟩
      exact ⟨hrecord.moves hmove, hjust.moves hnamed hmove hrecord,
        hpursued.moves hnamed horder hmove hrecord hjust⟩
    · exact ⟨recorded_start lookup root depth first c, justified_start hc depth first,
        pursued_start hnamed' hc hdepth hroot first⟩
  obtain ⟨hrecord, hjust, hpursued⟩ := hkept
  -- nothing is left on the agenda, so all links that are owed were followed
  have hclosed : ∀ d, d.name ∈ last.seen → ∀ link, Owed (lookup.seenFrom c) root c d link →
      ∀ b, Leads (lookup.seenFrom c) link d b → b.name ∈ last.seen := by
    intro d hd link howed b ⟨_, name, hname, hb⟩
    rw [hnamed' name b hb]
    rcases hpursued.minded d hd link howed name hname (by rw [hb]; rfl) with hmet | ⟨e, he, _⟩
    · exact hmet
    · rw [agenda_of_over hover] at he
      cases he
  have hreached : ∀ link d, Reached (lookup.seenFrom c) root c link d → d.name ∈ last.seen := by
    intro link d h
    induction h with
    | first hlink hd => exact hclosed c hrecord.name_mem _ (.inl ⟨rfl, hlink⟩) _ hd
    | next hway hlink he ih => exact hclosed _ ih _ (.inr ⟨_, hway, hlink⟩) _ he
  constructor
  · rintro ⟨hmet, hd⟩
    exact hjust.seen d.name hmet d hd
  · rintro (rfl | ⟨link, h⟩)
    · exact ⟨hrecord.name_mem, hc⟩
    · exact ⟨hreached link d h, h.found hnamed'⟩

/-- The names of the classes found are names met, in the same order. -/
theorem map_name_filterMap_sublist (hnamed : lookup.Named) (names : List ClassName) :
    ((names.filterMap lookup).map ClassModel.name).Sublist names := by
  induction names with
  | nil => exact List.Sublist.slnil
  | cons name names ih =>
    cases hname : lookup name with
    | none =>
      rw [List.filterMap_cons_none hname]
      exact ih.cons name
    | some d =>
      rw [List.filterMap_cons_some hname, List.map_cons, hnamed name d hname]
      exact ih.cons_cons name

/-- A class is among those of some names if its own name is one of them. -/
theorem mem_filterMap_iff (hnamed : lookup.Named) {names : List ClassName} :
    d ∈ names.filterMap lookup ↔ d.name ∈ names ∧ lookup d.name = some d := by
  rw [List.mem_filterMap]
  constructor
  · rintro ⟨name, hname, hd⟩
    rw [hnamed name d hd]
    exact ⟨hname, hd⟩
  · rintro ⟨hname, hd⟩
    exact ⟨d.name, hname, hd⟩

end Hierarchy

end CodeInsight
