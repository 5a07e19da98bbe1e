import CodeInsight.Workspace
import CodeInsight.Proofs.ReachedClasses
import Mathlib.Data.List.Perm.Subperm

/-!
# The ancestry of a class

A class is followed by everything it inherits from: its traits, its parents with their traits, and
the interfaces of all of them. Whatever the lookup answers, the ancestry is found in finitely many
steps and has no name twice. Where parents are classes, traits are traits and interfaces are
interfaces, and no path is too long, it is complete.

## Main Results

- `ancestry_eq_filterMap`: an ancestry consists of the classes of the names met
- `inherits_iff`: what a class inherits from is what links lead to
- `ancestry_is_exact`: the ancestry of a class, for every lookup
- `Workspace.named_lookupFrom`: the lookups of a project find classes under their own names
-/

namespace CodeInsight

variable {d : ClassModel} {classes : List ClassModel} {name : ClassName} {c : ClassModel}
  {link : Link}

/-! ## Section 1: Lookups in files and projects -/

/-- A file finds its classes under their own names. -/
theorem FileModel.named_find? (file : FileModel) : Lookup.Named file.find? := by
  intro name c h
  simpa using List.find?_some h

theorem Lookup.Named.within {lookup : Lookup} (h : lookup.Named) (file : FileModel) :
    (lookup.within file).Named := by
  intro name c hc
  unfold Lookup.within at hc
  cases hfile : file.find? name with
  | none =>
    rw [hfile] at hc
    exact h name c hc
  | some d =>
    rw [hfile] at hc
    obtain rfl := Option.some.inj hc
    exact file.named_find? name d hfile

theorem Workspace.classIn_eq_ok_iff {file : FileModel} {path : String} :
    classIn file path name = .ok c ↔ file.find? name = some c := by
  unfold classIn
  cases file.find? name <;> simp

theorem Workspace.name_of_classNamed {ws : Workspace} (h : ws.classNamed name = .ok c) :
    c.name = name := by
  unfold Workspace.classNamed at h
  obtain ⟨path, -, h⟩ := bind_eq_ok.mp h
  obtain ⟨text, -, h⟩ := bind_eq_ok.mp h
  obtain ⟨file, -, h⟩ := bind_eq_ok.mp h
  exact file.named_find? name c (classIn_eq_ok_iff.mp h)

/-- **All lookups of a project** find classes under their own names. -/
theorem Workspace.named_lookupFrom (ws : Workspace) (asking : Option FileModel) :
    (ws.lookupFrom asking).Named := by
  have hlookup : ws.lookup.Named := by
    intro name c h
    unfold Workspace.lookup at h
    cases hclass : ws.classNamed name with
    | error failure => rw [hclass] at h; cases h
    | ok d =>
      rw [hclass] at h
      obtain rfl := Option.some.inj h
      exact Workspace.name_of_classNamed hclass
  cases asking with
  | none => exact hlookup
  | some file => exact hlookup.within file

namespace Hierarchy

variable {lookup : Lookup}

/-! ## Section 2: Names met and classes listed -/

/-- The ancestry of a class consists of the classes of the names met. -/
theorem ancestry_eq_filterMap (lookup : Lookup) (c : ClassModel) :
    (walkFrom lookup c).seen.Nodup ∧ (walkFrom lookup c).seen.head? = some c.name ∧
      ancestry lookup c = (walkFrom lookup c).seen.filterMap (lookup.seenFrom c) := by
  obtain ⟨last, hends, hmet, hancestry⟩ := ends_ancestry lookup c
  obtain ⟨met, hseen, hnodup, hfound⟩ := recorded_of_ends hends
  rw [← hmet, ← hancestry]
  refine ⟨hnodup, by rw [hseen]; rfl, ?_⟩
  rw [hfound, hseen, List.filterMap_cons_some (lookup.seenFrom_self c), List.singleton_append]

theorem mem_ancestry_iff (hnamed : lookup.Named) :
    d ∈ ancestry lookup c ↔
      d.name ∈ (walkFrom lookup c).seen ∧ lookup.seenFrom c d.name = some d := by
  rw [(ancestry_eq_filterMap lookup c).2.2]
  exact mem_filterMap_iff (hnamed.seenFrom c)

/-- **No class is listed twice** in an ancestry. -/
theorem nodup_names_ancestry (hnamed : lookup.Named) (c : ClassModel) :
    ((ancestry lookup c).map ClassModel.name).Nodup := by
  obtain ⟨hnodup, _, hfound⟩ := ancestry_eq_filterMap lookup c
  rw [hfound]
  exact hnodup.sublist (map_name_filterMap_sublist (hnamed.seenFrom c) _)

/-- **A class comes first** among itself and its ancestors. -/
theorem ancestry_eq_cons (lookup : Lookup) (c : ClassModel) :
    ancestry lookup c = c :: (ancestry lookup c).drop 1 := by
  obtain ⟨last, hends, _, hancestry⟩ := ends_ancestry lookup c
  obtain ⟨met, _, _, hfound⟩ := recorded_of_ends hends
  rw [← hancestry, hfound]
  rfl

/-! ## Section 3: What a class inherits from -/

/-- A class inherits from the classes of its chain of parents, from the traits that they use,
directly or through other traits, and from the interfaces that they implement, directly or through
other interfaces. The chain begins with the class itself. -/
def Inherits (lookup : Lookup) (c d : ClassModel) : Prop :=
  Relation.ReflTransGen (Leads lookup .parent) c d ∨
    ∃ b, Relation.ReflTransGen (Leads lookup .parent) c b ∧
      (Relation.TransGen (Leads lookup .trait) b d ∨
        Relation.TransGen (Leads lookup .interface) b d)

theorem eq_or_reached_of_chain {b : ClassModel}
    (h : Relation.ReflTransGen (Leads lookup .parent) c b) :
    b = c ∨ Reached lookup .parent c .parent b := by
  induction h with
  | refl => exact .inl rfl
  | tail _ hnext ih =>
    rcases ih with rfl | ih
    · exact .inr (.first (by simp [Link.onward]) hnext)
    · exact .inr (.next ih (by simp [Link.onward]) hnext)

/-- Links lead up the chain of parents first, and then on in one way only. -/
theorem reached_parent_iff :
    Reached lookup .parent c link d ↔
      ∃ b, Relation.ReflTransGen (Leads lookup .parent) c b ∧
        Relation.TransGen (Leads lookup link) b d := by
  constructor
  · intro h
    induction h with
    | first _ hd => exact ⟨c, .refl, .single hd⟩
    | @next way link d e _ hlink he ih =>
      obtain ⟨b, hb, hd⟩ := ih
      by_cases hsame : way = link
      · rw [hsame] at hd
        exact ⟨b, hb, hd.tail he⟩
      · -- only from a class of the chain does the way change
        have hway : way = .parent := by
          cases way <;> cases link <;> simp_all [Link.onward]
        rw [hway] at hd
        exact ⟨d, hb.trans hd.to_reflTransGen, .single he⟩
  · rintro ⟨b, hb, hd⟩
    have hchain := eq_or_reached_of_chain hb
    have hon : link ∈ Link.parent.onward := by cases link <;> simp [Link.onward]
    induction hd with
    | single hd =>
      rcases hchain with rfl | hchain
      · exact .first hon hd
      · exact .next hchain hon hd
    | tail _ hnext ih => exact .next ih (by cases link <;> simp [Link.onward]) hnext

/-- What a class inherits from is what links lead to. -/
theorem inherits_iff : Inherits lookup c d ↔ d = c ∨ ∃ link, Reached lookup .parent c link d := by
  simp only [reached_parent_iff]
  constructor
  · rintro (h | ⟨b, hb, h | h⟩)
    · rcases Relation.reflTransGen_iff_eq_or_transGen.mp h with rfl | h
      · exact .inl rfl
      · exact .inr ⟨.parent, c, .refl, h⟩
    · exact .inr ⟨.trait, b, hb, h⟩
    · exact .inr ⟨.interface, b, hb, h⟩
  · rintro (rfl | ⟨link, b, hb, h⟩)
    · exact .inl .refl
    · cases link with
      | parent => exact .inl (hb.trans h.to_reflTransGen)
      | trait => exact .inr ⟨b, hb, .inl h⟩
      | interface => exact .inr ⟨b, hb, .inr h⟩

/-! ## Section 4: The ancestry holds what a class inherits from -/

/-- The kind of declaration that a link should lead to. -/
def Link.kind : Link → ClassKind
  | .parent => .isClass
  | .trait => .isTrait
  | .interface => .isInterface

theorem Link.kind_injective {a b : Link} (h : a.kind = b.kind) : a = b := by
  cases a <;> cases b <;> simp_all [Link.kind]

/-- Parents are classes, used traits are traits, and implemented interfaces are interfaces. -/
def WellKinded (lookup : Lookup) : Prop :=
  ∀ link a b, Leads lookup link a b → b.kind = link.kind

/-- A hierarchy in which links lead to the right kinds, and no path is too long, is orderly: the
kind of a class tells in which way it is reached. -/
theorem orderly_of_wellKinded (hkinds : WellKinded lookup)
    (hshort : ∀ link, NoLonger lookup link maxDepth) : Orderly lookup .parent c where
  one_way := by
    -- some link leads to the class in either way, and both tell its kind
    intro way link d hway hlink
    obtain ⟨a, ha⟩ := hway.exists_leads
    obtain ⟨b, hb⟩ := hlink.exists_leads
    have hkind : way.kind = link.kind := (hkinds way a d ha).symm.trans (hkinds link b d hb)
    exact Link.kind_injective hkind
  no_longer := fun {link} _ _ => hshort link
  interfaces := by
    intro d hd
    obtain ⟨a, ha⟩ := hd.exists_leads
    exact hkinds .interface a d ha

/-- **The ancestry of a class.** For every lookup that finds classes under their own names, and
every class: gathering the ancestry comes to an end; the class comes first and no name occurs
twice; and if links lead to classes, traits and interfaces as they should, and no path without
repetitions has more than 20 links, then the ancestry holds exactly the classes that the class
inherits from. -/
theorem ancestry_is_exact {lookup : Lookup} (hnamed : lookup.Named) (c : ClassModel) :
    (∃ last, (Tour.start .parent maxDepth [c] c).Ends lookup last ∧
      last.found = ancestry lookup c) ∧
    (ancestry lookup c).head? = some c ∧
    ((ancestry lookup c).map ClassModel.name).Nodup ∧
    (WellKinded (lookup.seenFrom c) → (∀ link, NoLonger (lookup.seenFrom c) link 20) →
      ∀ d, d ∈ ancestry lookup c ↔ Inherits (lookup.seenFrom c) c d) := by
  obtain ⟨last, hends, hmet, hfound⟩ := ends_ancestry lookup c
  have hfirst : (ancestry lookup c).head? = some c := by
    rw [ancestry_eq_cons]
    rfl
  refine ⟨⟨last, hends, hfound⟩, hfirst, nodup_names_ancestry hnamed c, ?_⟩
  intro hkinds hshort d
  have hroot : Link.parent ≠ .interface := by decide
  rw [inherits_iff, mem_ancestry_iff hnamed, ← hmet]
  exact mem_seen_iff hnamed (orderly_of_wellKinded hkinds hshort) hroot (Nat.le_refl maxDepth)
    hends

/-! ## Section 5: A hierarchy that goes in circles -/

/-- All classes of a path but the first one have a link that leads to them. -/
theorem exists_leads_of_isChain {a : ClassModel} {path : List ClassModel}
    (h : (a :: path).IsChain (Follows lookup link)) : ∀ d ∈ path, ∃ b, Leads lookup link b d := by
  induction path generalizing a with
  | nil => exact List.forall_mem_nil _
  | cons b rest ih =>
    obtain ⟨hfirst, hrest⟩ := List.isChain_cons_cons.mp h
    exact List.forall_mem_cons.mpr ⟨⟨a, hfirst.1⟩, ih hrest⟩

/-- Paths cannot be longer than there are classes. -/
theorem noLonger_of_few (hall : ∀ name c, lookup name = some c → c ∈ classes) {n : Nat}
    (hfew : classes.length ≤ n + 1) (link : Link) : NoLonger lookup link n := by
  intro path hnodup hchain
  cases path with
  | nil => exact Nat.zero_le _
  | cons a rest =>
    cases rest with
    | nil => exact Nat.le_add_left 1 n
    | cons b rest =>
      -- all classes of the path can be found, and none of them twice
      have hfirst : a ∈ classes := hall a.name a (List.isChain_cons_cons.mp hchain).1.1.1
      have hothers : ∀ d ∈ b :: rest, d ∈ classes := by
        intro d hd
        obtain ⟨_, _, name, _, hname⟩ := exists_leads_of_isChain hchain d hd
        exact hall name d hname
      have hlength := (hnodup.subperm (List.forall_mem_cons.mpr ⟨hfirst, hothers⟩)).length_le
      exact hlength.trans hfew

theorem wellKinded_of_all (hall : ∀ name c, lookup name = some c → c ∈ classes)
    (hkinds : ∀ a ∈ classes, ∀ link ∈ Link.parent.onward, ∀ name ∈ link.names a,
      ((lookup name).all fun b => b.kind = link.kind) = true) : WellKinded lookup := by
  intro link a b ⟨ha, name, hname, hb⟩
  have hlink : link ∈ Link.parent.onward := by cases link <;> simp [Link.onward]
  have hkind := hkinds a (hall a.name a ha) link hlink name hname
  rw [hb] at hkind
  simpa using hkind

/-- A declaration of which only the links matter. -/
def bareClass (short : String) (kind : ClassKind) (parent : Option ClassName)
    (implemented traits : List ClassName) : ClassModel :=
  ⟨⟨"", short⟩, kind, parent, implemented, traits, [], [], [], [], false, ⟨0, 0⟩, ⟨0, 0⟩⟩

/-- A class and its parent extend one another, two traits use one another, two interfaces extend one
another, some names are missing, and one class has nothing to do with the others. -/
def circular : FileModel :=
  ⟨"C.php", [], [], 5,
    [bareClass "C" .isClass (some ⟨"", "P"⟩) [⟨"", "I"⟩] [⟨"", "T"⟩],
     bareClass "P" .isClass (some ⟨"", "C"⟩) [⟨"", "J"⟩] [⟨"", "U"⟩],
     bareClass "T" .isTrait none [] [⟨"", "Missing"⟩, ⟨"", "U"⟩],
     bareClass "U" .isTrait none [] [⟨"", "T"⟩],
     bareClass "I" .isInterface none [⟨"", "J"⟩] [],
     bareClass "J" .isInterface none [⟨"", "I"⟩, ⟨"", "Missing"⟩] [],
     bareClass "X" .isClass (some ⟨"", "P"⟩) [] []]⟩

/-- The first class of the circle. -/
def circularFirst : ClassModel :=
  bareClass "C" .isClass (some ⟨"", "P"⟩) [⟨"", "I"⟩] [⟨"", "T"⟩]

/-- The ancestry of a class in the circle holds every class of the circle once. -/
theorem circular_ancestry_is_exact :
    (ancestry circular.find? circularFirst).map (fun d => d.name.short) =
      ["C", "T", "U", "P", "I", "J"] ∧
    WellKinded (Lookup.seenFrom circular.find? circularFirst) ∧
    (∀ link, NoLonger (Lookup.seenFrom circular.find? circularFirst) link 20) ∧
    ((ancestry circular.find? circularFirst).map ClassModel.name).Nodup ∧
    ∀ d, d ∈ ancestry circular.find? circularFirst ↔
      Inherits (Lookup.seenFrom circular.find? circularFirst) circularFirst d := by
  have hsame : Lookup.seenFrom circular.find? circularFirst = circular.find? :=
    Lookup.seenFrom_eq_self (by decide +kernel)
  have hall : ∀ name c, circular.find? name = some c → c ∈ circular.classes :=
    fun name c hc => List.mem_of_find?_eq_some hc
  have hkinds : WellKinded (Lookup.seenFrom circular.find? circularFirst) := by
    rw [hsame]
    exact wellKinded_of_all hall (by decide +kernel)
  have hshort : ∀ link, NoLonger (Lookup.seenFrom circular.find? circularFirst) link 20 := by
    rw [hsame]
    exact noLonger_of_few hall (by decide)
  obtain ⟨_, _, hnodup, hexact⟩ := ancestry_is_exact circular.named_find? circularFirst
  exact ⟨by decide +kernel, hkinds, hshort, hnodup, hexact hkinds hshort⟩

end Hierarchy

end CodeInsight
