import CodeInsight.Hierarchy
import Mathlib.Logic.Relation

/-!
# Tours through a hierarchy

The ancestors of a class are gathered in three ways: up the chain of its parents, down into the
traits that each of them uses, and level by level through their interfaces. Here the three are one
machine that looks up one name after the other. What is still to be looked up stands on an agenda:
traits and parents of a class that was just found come before everything else, interfaces come
last. A tour is over when its agenda is empty.

## Main Results

- `Tour.moves_of_step`: everything that one step of a tour can do
- `reaches_walkTraits`, `reaches_walkParents`, `reaches_walkInterfaces`: the walks are tours
- `ends_ancestry`: the tour of a class comes to its end, whatever the lookup answers, and what it
  has found then is the ancestry of the class
-/

namespace CodeInsight.Hierarchy

variable {name : ClassName}

/-! ## Section 1: Errands -/

/-- The ways in which a class names others. -/
inductive Link where
  | parent | trait | interface
  deriving DecidableEq

/-- The names that a class gives in one of the ways. -/
def Link.names : Link → ClassModel → List ClassName
  | .parent, c => c.parent.toList
  | .trait, c => c.traits
  | .interface, c => c.implemented

/-- A name to be looked up, with the way in which it was given and the number of levels that may
still be entered. -/
structure Errand where
  link : Link
  depth : Nat
  name : ClassName

/-- The errands that a class gives rise to in one of the ways. -/
def errands (link : Link) (depth : Nat) (c : ClassModel) : List Errand :=
  (link.names c).map fun name => ⟨link, depth, name⟩

/-- What comes before everything else once a class was found in one of the ways. Every class of the
chain of parents begins anew with its traits. -/
def sooner : Link → Nat → ClassModel → List Errand
  | .parent, depth, c => errands .trait (maxDepth + 1) c ++ errands .parent depth c
  | .trait, depth, c => errands .trait depth c
  | .interface, _, _ => []

/-- What comes after everything else. -/
def later : Link → Nat → ClassModel → List Errand
  | .parent, _, c => errands .interface (maxDepth + 1) c
  | .trait, _, _ => []
  | .interface, depth, c => errands .interface depth c

/-! ## Section 2: One step after the other -/

/-- A tour: the names met, the classes found and the errands that are left. -/
structure Tour where
  seen : List ClassName
  found : List ClassModel
  agenda : List Errand

namespace Tour

/-- Runs the first errand. There is no next step when none is left. -/
def step (lookup : Lookup) (t : Tour) : Option Tour :=
  match t.agenda with
  | [] => none
  -- with no level left the name does not count as met, so another errand may still meet it
  | ⟨_, 0, _⟩ :: rest => some { t with agenda := rest }
  | ⟨link, depth + 1, name⟩ :: rest =>
    if t.seen.contains name then some { t with agenda := rest }
    else
      match lookup name with
      | none => some ⟨t.seen ++ [name], t.found, rest⟩
      | some c =>
        some ⟨t.seen ++ [name], t.found ++ [c], sooner link depth c ++ rest ++ later link depth c⟩

/-- What a step does. -/
inductive Moves (lookup : Lookup) : Tour → Tour → Prop where
  /-- No level is left, or the name was met before. -/
  | dropped (seen : List ClassName) (found : List ClassModel) (e : Errand) (rest : List Errand)
      (hidle : e.depth = 0 ∨ e.name ∈ seen) :
      Moves lookup ⟨seen, found, e :: rest⟩ ⟨seen, found, rest⟩
  /-- There is no class of this name. -/
  | missed (seen : List ClassName) (found : List ClassModel) (e : Errand) (rest : List Errand)
      (hnew : e.name ∉ seen) (hnone : lookup e.name = none) :
      Moves lookup ⟨seen, found, e :: rest⟩ ⟨seen ++ [e.name], found, rest⟩
  /-- A class is found, and gives rise to errands of its own. -/
  | visited (seen : List ClassName) (found : List ClassModel) (link : Link) (depth : Nat)
      (name : ClassName) (rest : List Errand) (c : ClassModel)
      (hnew : name ∉ seen) (hsome : lookup name = some c) :
      Moves lookup ⟨seen, found, ⟨link, depth + 1, name⟩ :: rest⟩
        ⟨seen ++ [name], found ++ [c], sooner link depth c ++ rest ++ later link depth c⟩

/-- **One step** drops an errand, misses a class or visits one. -/
theorem moves_of_step {lookup : Lookup} {t next : Tour} (h : t.step lookup = some next) :
    t.Moves lookup next := by
  obtain ⟨seen, found, agenda⟩ := t
  cases agenda with
  | nil => cases h
  | cons e rest =>
    obtain ⟨link, depth, name⟩ := e
    -- dropped if it is too deep or was met before, missed or visited else
    cases depth with
    | zero =>
      obtain rfl := Option.some.inj h
      exact .dropped seen found _ rest (.inl rfl)
    | succ depth =>
      simp only [step] at h
      split at h
      next hmet =>
        obtain rfl := Option.some.inj h
        exact .dropped seen found _ rest (.inr (List.contains_iff_mem.mp hmet))
      next hfresh =>
        have hnew : name ∉ seen := fun hmem => hfresh (List.contains_iff_mem.mpr hmem)
        split at h
        next hnone =>
          obtain rfl := Option.some.inj h
          exact .missed seen found _ rest hnew hnone
        next c hsome =>
          obtain rfl := Option.some.inj h
          exact .visited seen found link depth name rest c hnew hsome

/-- One tour is the other some steps later. -/
def Reaches (lookup : Lookup) : Tour → Tour → Prop :=
  Relation.ReflTransGen fun t next => t.step lookup = some next

/-- A tour comes to its end. Since a step leaves no choice, there is no other way it can go on. -/
def Ends (lookup : Lookup) (t last : Tour) : Prop :=
  t.Reaches lookup last ∧ last.step lookup = none

/-- What every step keeps, all steps keep. -/
theorem Reaches.keeps {lookup : Lookup} {t last : Tour} (h : t.Reaches lookup last)
    {P : Tour → Prop} (hstep : ∀ {t next}, Moves lookup t next → P t → P next) (ht : P t) :
    P last := by
  induction h with
  | refl => exact ht
  | tail _ hnext ih => exact hstep (moves_of_step hnext) ih

end Tour

/-! ## Section 3: Walks as tours -/

open Tour

variable (lookup : Lookup)

theorem reaches_once {lookup : Lookup} {t next last : Tour} (h : t.step lookup = some next)
    (hrest : next.Reaches lookup last) : t.Reaches lookup last :=
  Relation.ReflTransGen.head h hrest

/-- Errands for which no level is left are dropped. -/
theorem reaches_drop (link : Link) (names : List ClassName) (seen : List ClassName)
    (found : List ClassModel) (rest : List Errand) :
    Reaches lookup ⟨seen, found, names.map (fun name => ⟨link, 0, name⟩) ++ rest⟩
      ⟨seen, found, rest⟩ := by
  induction names with
  | nil => exact .refl
  | cons name names ih => exact reaches_once rfl ih

/-- Running an errand for which there is no class, or not a new one. -/
theorem reaches_of_meet_none {lookup : Lookup} {w met : Walk} (h : w.meet lookup name = (met, none))
    (link : Link) (depth : Nat) (rest : List Errand) :
    Reaches lookup ⟨w.seen, w.found, ⟨link, depth + 1, name⟩ :: rest⟩
      ⟨met.seen, met.found, rest⟩ := by
  unfold Walk.meet at h
  split at h
  next hmet =>
    cases h
    exact reaches_once (by simp only [step, hmet, if_true]) .refl
  next hnew =>
    obtain ⟨rfl, hnone⟩ := Prod.mk.inj h
    exact reaches_once (by simp only [step, hnew, hnone]; rfl) .refl

/-- Running an errand that finds a class. -/
theorem reaches_of_meet_some {lookup : Lookup} {w met : Walk} {c : ClassModel}
    (h : w.meet lookup name = (met, some c)) (link : Link) (depth : Nat) (rest : List Errand) :
    Reaches lookup ⟨w.seen, w.found, ⟨link, depth + 1, name⟩ :: rest⟩
      ⟨met.seen, (met.add c).found, sooner link depth c ++ rest ++ later link depth c⟩ := by
  unfold Walk.meet at h
  split at h
  · cases h
  next hnew =>
    obtain ⟨rfl, hsome⟩ := Prod.mk.inj h
    exact reaches_once (by simp only [step, hnew, hsome]; rfl) .refl

/-- **The walk through traits is a tour** over the errands for them. -/
theorem reaches_walkTraits (depth : Nat) (names : List ClassName) (w : Walk) (rest : List Errand) :
    Reaches lookup ⟨w.seen, w.found, names.map (fun name => ⟨.trait, depth, name⟩) ++ rest⟩
      ⟨(walkTraits lookup depth names w).seen, (walkTraits lookup depth names w).found, rest⟩ := by
  -- on the levels left, and in each of them on the names; what is on the agenda stays behind
  induction depth generalizing names w rest with
  | zero => exact reaches_drop lookup .trait names w.seen w.found rest
  | succ depth ih =>
    induction names generalizing w with
    | nil => exact .refl
    | cons name names ihnames =>
      -- the first name is met, then the traits of its class, then the other names
      rw [walkTraits, List.foldl_cons]
      cases hmeet : w.meet lookup name with
      | mk met found =>
        cases found with
        | none => exact (reaches_of_meet_none hmeet .trait depth _).trans (ihnames met)
        | some c =>
          have hfirst := reaches_of_meet_some hmeet .trait depth
            (names.map (fun name => ⟨.trait, depth + 1, name⟩) ++ rest)
          simp only [later, List.append_nil] at hfirst
          exact hfirst.trans ((ih c.traits (met.add c) _).trans (ihnames _))

theorem pending_meet (w : Walk) (name : ClassName) :
    (w.meet lookup name).1.pending = w.pending := by
  unfold Walk.meet
  split <;> rfl

/-- Traits say nothing about interfaces. -/
theorem pending_walkTraits (depth : Nat) (names : List ClassName) (w : Walk) :
    (walkTraits lookup depth names w).pending = w.pending := by
  induction depth generalizing names w with
  | zero => rfl
  | succ depth ih =>
    induction names generalizing w with
    | nil => rfl
    | cons name names ihnames =>
      have hpending := pending_meet lookup w name
      rw [walkTraits, List.foldl_cons]
      cases hmeet : w.meet lookup name with
      | mk met found =>
        rw [hmeet] at hpending
        cases found with
        | none => exact (ihnames met).trans hpending
        | some c => exact (ihnames _).trans ((ih c.traits (met.add c)).trans hpending)

/-- The errands for the interfaces that a walk has noted. -/
def Walk.noted (w : Walk) (depth : Nat) : List Errand :=
  w.pending.map fun name => ⟨.interface, depth, name⟩

/-- A class is walked by running the errands for its traits. -/
theorem reaches_walkClass (c : ClassModel) (w : Walk) (rest : List Errand) :
    Reaches lookup ⟨w.seen, (w.add c).found, errands .trait (maxDepth + 1) c ++ rest⟩
      ⟨(walkClass lookup c w).seen, (walkClass lookup c w).found, rest⟩ :=
  reaches_walkTraits lookup (maxDepth + 1) c.traits
    { (w.add c) with pending := w.pending ++ c.implemented } rest

theorem noted_of_meet {lookup : Lookup} {w met : Walk} {c : Option ClassModel}
    (h : w.meet lookup name = (met, c)) (depth : Nat) : met.noted depth = w.noted depth := by
  have hpending := pending_meet lookup w name
  rw [h] at hpending
  rw [Walk.noted, hpending, Walk.noted]

theorem noted_walkClass (c : ClassModel) (w : Walk) (depth : Nat) :
    (walkClass lookup c w).noted depth = w.noted depth ++ errands .interface depth c := by
  unfold Walk.noted walkClass
  rw [pending_walkTraits]
  exact List.map_append

/-- **The walk up the chain of parents is a tour** that goes on where the first class was walked. -/
theorem reaches_walkParents (depth : Nat) (c : ClassModel) (w : Walk) :
    Reaches lookup
      ⟨(walkClass lookup c w).seen, (walkClass lookup c w).found,
        errands .parent depth c ++ (walkClass lookup c w).noted (maxDepth + 1)⟩
      ⟨(walkParents lookup depth c w).seen, (walkParents lookup depth c w).found,
        (walkParents lookup depth c w).noted (maxDepth + 1)⟩ := by
  induction depth generalizing c w with
  | zero => exact reaches_drop lookup .parent c.parent.toList _ _ _
  | succ depth ih =>
    rw [walkParents]
    cases hparent : c.parent with
    | none =>
      have hnone : errands .parent (depth + 1) c = [] := by rw [errands, Link.names, hparent]; rfl
      rw [hnone]
      exact .refl
    | some parent =>
      have hone : errands .parent (depth + 1) c = [⟨.parent, depth + 1, parent⟩] := by
        rw [errands, Link.names, hparent]
        rfl
      rw [hone, List.singleton_append]
      dsimp only
      cases hmeet : (walkClass lookup c w).meet lookup parent with
      | mk met found =>
        rw [← noted_of_meet hmeet]
        cases found with
        | none => exact reaches_of_meet_none hmeet .parent depth _
        | some p =>
          -- the parent is found, then its traits, and its interfaces are noted
          have hfirst := reaches_of_meet_some hmeet .parent depth (met.noted (maxDepth + 1))
          have htraits := reaches_walkClass lookup p met
            (errands .parent depth p ++ (walkClass lookup p met).noted (maxDepth + 1))
          rw [noted_walkClass] at htraits
          simp only [sooner, later, List.append_assoc] at hfirst
          refine hfirst.trans (htraits.trans ?_)
          rw [← noted_walkClass]
          exact ih p met

/-- One round through interfaces: those that are noted on the way come after all others. -/
theorem reaches_visitInterfaces (depth : Nat) (names : List ClassName) (w : Walk) :
    Reaches lookup
      ⟨w.seen, w.found, names.map (fun name => ⟨.interface, depth + 1, name⟩) ++ w.noted depth⟩
      ⟨(names.foldl (visitInterface lookup) w).seen, (names.foldl (visitInterface lookup) w).found,
        (names.foldl (visitInterface lookup) w).noted depth⟩ := by
  induction names generalizing w with
  | nil => exact .refl
  | cons name names ih =>
    rw [List.foldl_cons, List.map_cons, List.cons_append]
    cases hmeet : w.meet lookup name with
    | mk met found =>
      rw [← noted_of_meet hmeet]
      cases found with
      | none =>
        have hvisit : visitInterface lookup w name = met := by rw [visitInterface, hmeet]
        rw [hvisit]
        exact (reaches_of_meet_none hmeet .interface depth _).trans (ih met)
      | some c =>
        have hvisit : visitInterface lookup w name =
            { (met.add c) with pending := met.pending ++ c.implemented } := by
          rw [visitInterface, hmeet]
        have hfirst := reaches_of_meet_some hmeet .interface depth
          (names.map (fun name => ⟨.interface, depth + 1, name⟩) ++ met.noted depth)
        -- its own interfaces come behind all that was noted
        have hmore : (visitInterface lookup w name).noted depth =
            met.noted depth ++ errands .interface depth c := by
          rw [hvisit]
          exact List.map_append
        have hrest := ih (visitInterface lookup w name)
        rw [hmore, ← List.append_assoc] at hrest
        refine hfirst.trans ?_
        rw [hvisit] at hrest ⊢
        exact hrest

/-- **The walk through interfaces is a tour** over those noted. -/
theorem reaches_walkInterfaces (depth : Nat) (w : Walk) :
    Reaches lookup ⟨w.seen, w.found, w.noted depth⟩
      ⟨(walkInterfaces lookup depth w).seen, (walkInterfaces lookup depth w).found, []⟩ := by
  induction depth generalizing w with
  | zero =>
    have hdrop := reaches_drop lookup .interface w.pending w.seen w.found []
    rw [List.append_nil] at hdrop
    exact hdrop
  | succ depth ih =>
    -- a round begins with nothing noted, and what it notes is the next round
    have hround := reaches_visitInterfaces lookup depth w.pending
      { w with pending := [] }
    have hnone : ({ w with pending := [] } : Walk).noted depth = [] := rfl
    rw [hnone, List.append_nil] at hround
    exact hround.trans (ih _)

/-! ## Section 4: The tour of a class -/

/-- The tour that begins with a class, as if the class had just been found in one of the ways. -/
def Tour.start (link : Link) (depth : Nat) (found : List ClassModel) (c : ClassModel) : Tour :=
  ⟨[c.name], found, sooner link depth c ++ later link depth c⟩

/-- **The tour of a class comes to its end**, whatever the lookup answers, and has then found the
ancestry of the class. -/
theorem ends_ancestry (c : ClassModel) :
    ∃ last, (Tour.start .parent maxDepth [c] c).Ends lookup last ∧
      last.seen = (walkFrom lookup c).seen ∧ last.found = ancestry lookup c := by
  have htraits := reaches_walkClass lookup c ⟨[c.name], [], []⟩
    (errands .parent maxDepth c ++
      (walkClass lookup c ⟨[c.name], [], []⟩).noted (maxDepth + 1))
  have hparents := reaches_walkParents lookup maxDepth c ⟨[c.name], [], []⟩
  have hinterfaces := reaches_walkInterfaces lookup (maxDepth + 1)
    (walkParents lookup maxDepth c ⟨[c.name], [], []⟩)
  have hstart : Tour.start .parent maxDepth [c] c =
      ⟨[c.name], [c], errands .trait (maxDepth + 1) c ++ (errands .parent maxDepth c ++
        (walkClass lookup c ⟨[c.name], [], []⟩).noted (maxDepth + 1))⟩ := by
    rw [noted_walkClass, Tour.start, sooner, later, List.append_assoc]
    rfl
  rw [hstart]
  refine ⟨_, ⟨htraits.trans (hparents.trans hinterfaces), rfl⟩, ?_, ?_⟩
  · rw [walkFrom]
  · rw [ancestry, walkFrom]

/-- The tour through the traits of a class comes to its end. -/
theorem ends_walkTraits (depth : Nat) (c : ClassModel) (found : List ClassModel)
    (pending : List ClassName) :
    ∃ last, (Tour.start .trait depth found c).Ends lookup last ∧
      last.seen = (walkTraits lookup depth c.traits ⟨[c.name], found, pending⟩).seen ∧
      last.found = (walkTraits lookup depth c.traits ⟨[c.name], found, pending⟩).found := by
  have htraits := reaches_walkTraits lookup depth c.traits ⟨[c.name], found, pending⟩ []
  refine ⟨_, ⟨htraits, rfl⟩, ?_, ?_⟩ <;> dsimp only

end CodeInsight.Hierarchy
