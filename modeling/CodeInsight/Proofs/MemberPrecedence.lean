import CodeInsight.Proofs.MemberTypes

/-!
# Precedence and privacy of members

The table of a class lists the members of its ancestors by name. What is private stays with the
class that declares it, except that the members of traits are copied into the classes that use them:
a class has its own members and those of the traits it uses, directly or through other traits. Which
traits these are is found by a second walk, apart from the one that gathers the ancestry. Both find
the same traits of the class itself, since the first walk begins in the same way as the second.

## Main Results

- `mem_ownNames_iff`: the classes whose private members a class has
- `mem_ancestry_of_owns`: they are all among its ancestors
- `precedence_merged`: what a table of members holds, name by name
- `members_follow_precedence`: precedence and privacy in the table of a class
-/

namespace CodeInsight.Hierarchy

variable {link : Link}

/-! ## Section 1: A class and its traits -/

/-- A class owns the members of itself and of the traits it uses, directly or through others. -/
def Owns (lookup : Lookup) (c owner : ClassModel) : Prop :=
  owner = c ∨ Relation.TransGen (Leads lookup .trait) c owner

section Traits

variable {lookup : Lookup} {c : ClassModel}
variable {d : ClassModel}

/-- A tour of traits stays with traits. -/
theorem Reached.trait_eq (h : Reached lookup .trait c link d) : link = .trait := by
  simpa [Link.onward] using h.mem_onward

theorem Reached.transGen (h : Reached lookup .trait c link d) :
    Relation.TransGen (Leads lookup .trait) c d := by
  induction h with
  | first hlink hd =>
    obtain rfl := (Reached.first hlink hd).trait_eq
    exact .single hd
  | next hway hlink he ih =>
    obtain rfl := (hway.next hlink he).trait_eq
    exact ih.tail he

theorem reached_of_transGen (h : Relation.TransGen (Leads lookup .trait) c d) :
    Reached lookup .trait c .trait d := by
  have honward : Link.trait ∈ Link.trait.onward := by simp [Link.onward]
  induction h with
  | single hd => exact .first honward hd
  | tail _ hnext ih => exact .next ih honward hnext

/-- What a class owns is what a tour of traits should find. -/
theorem owns_iff : Owns lookup c d ↔ d = c ∨ ∃ link, Reached lookup .trait c link d := by
  constructor
  · rintro (rfl | h)
    · exact .inl rfl
    · exact .inr ⟨.trait, reached_of_transGen h⟩
  · rintro (rfl | ⟨link, h⟩)
    · exact .inl rfl
    · exact .inr h.transGen

/-- For a tour of traits only the paths through traits matter. -/
theorem orderly_traits (hshort : NoLonger lookup .trait maxDepth) : Orderly lookup .trait c where
  one_way := fun hway hlink => hway.trait_eq.trans hlink.trait_eq.symm
  no_longer := fun h => h.trait_eq ▸ hshort
  interfaces := fun h => absurd h.trait_eq (by decide)

/-- **A walk through the traits of a class** meets what the class owns, whatever was found and noted
before. -/
theorem mem_seen_walkTraits_iff (hnamed : lookup.Named)
    (hshort : NoLonger (lookup.seenFrom c) .trait maxDepth) (found : List ClassModel)
    (pending : List ClassName) (hd : lookup.seenFrom c d.name = some d) :
    d.name ∈ (walkTraits lookup (maxDepth + 1) c.traits ⟨[c.name], found, pending⟩).seen ↔
      Owns (lookup.seenFrom c) c d := by
  obtain ⟨last, hends, hseen, _⟩ := ends_walkTraits lookup (maxDepth + 1) c found pending
  have hmet := mem_seen_iff hnamed (orderly_traits hshort) (by decide) (Nat.le_succ maxDepth) hends
    (d := d)
  rw [owns_iff, ← hmet, hseen]
  exact (and_iff_left hd).symm

/-- **The classes whose private members a class has** are those it owns. -/
theorem mem_ownNames_iff (hnamed : lookup.Named)
    (hshort : NoLonger (lookup.seenFrom c) .trait maxDepth)
    (hd : lookup.seenFrom c d.name = some d) :
    d.name ∈ c.name :: traitNames lookup c ↔ Owns (lookup.seenFrom c) c d := by
  rw [← mem_seen_walkTraits_iff hnamed hshort [] [] hd]
  -- the walk lists the classes it finds, and only names of missing classes are met but not listed
  obtain ⟨last, hends, hseen, hfound⟩ := ends_walkTraits lookup (maxDepth + 1) c [] []
  obtain ⟨met, hmet, _, hclasses⟩ := recorded_of_ends hends
  rw [traitNames, ← hfound, ← hseen, hmet, hclasses, List.nil_append, List.mem_cons, List.mem_cons]
  refine or_congr_right ?_
  constructor
  · intro hname
    exact (map_name_filterMap_sublist (hnamed.seenFrom c) met).subset hname
  · intro hname
    exact List.mem_map_of_mem ((mem_filterMap_iff (hnamed.seenFrom c)).mpr ⟨hname, hd⟩)

/-- No step forgets a name. -/
theorem Tour.Moves.seen_subset {t next : Tour} (h : t.Moves lookup next) :
    t.seen ⊆ next.seen := by
  cases h with
  | dropped => exact List.Subset.refl _
  | missed | visited => exact List.subset_append_left _ _

theorem Tour.Reaches.seen_subset {t last : Tour} (h : t.Reaches lookup last) :
    t.seen ⊆ last.seen :=
  h.keeps (P := fun u => t.seen ⊆ u.seen)
    (fun hmove hseen => List.Subset.trans hseen hmove.seen_subset) (List.Subset.refl _)

/-- The walk from a class begins with the walk through its own traits. -/
theorem seen_walkTraits_subset (lookup : Lookup) (c : ClassModel) :
    (walkTraits lookup (maxDepth + 1) c.traits ⟨[c.name], [c], c.implemented⟩).seen ⊆
      (walkFrom lookup c).seen := by
  have hparents := (reaches_walkParents lookup maxDepth c ⟨[c.name], [], []⟩).seen_subset
  have hinterfaces := (reaches_walkInterfaces lookup (maxDepth + 1)
    (walkParents lookup maxDepth c ⟨[c.name], [], []⟩)).seen_subset
  dsimp only at hparents hinterfaces
  simp only [walkClass, Walk.add, List.nil_append] at hparents
  rw [walkFrom]
  exact List.Subset.trans hparents hinterfaces

/-- **What a class owns** is among its ancestors, even if some parent uses the same traits. -/
theorem mem_ancestry_of_owns (hnamed : lookup.Named)
    (hshort : NoLonger (lookup.seenFrom c) .trait maxDepth)
    (h : Owns (lookup.seenFrom c) c d) : d ∈ ancestry lookup c := by
  have hd : lookup.seenFrom c d.name = some d := by
    rcases owns_iff.mp h with rfl | ⟨link, hlink⟩
    · exact lookup.seenFrom_self d
    · exact hlink.found (hnamed.seenFrom c)
  -- what was found and noted before makes no difference to the names that a walk meets
  have hmet := (mem_seen_walkTraits_iff hnamed hshort [c] c.implemented hd).mpr h
  exact (mem_ancestry_iff hnamed).mpr ⟨seen_walkTraits_subset lookup c hmet, hd⟩

end Traits

/-! ## Section 2: Tables of members -/

section Tables

variable {α : Type} {name : α → String} {visibility : α → Visibility}
  {declarations : ClassModel → List α} {owners : List ClassModel} {own : ClassModel → Prop}

/-- A declaration counts if it is not private, or if its owner is one whose private members count
as well. -/
def Counts (visibility : α → Visibility) (own : ClassModel → Prop) (owner : ClassModel) (m : α) :
    Prop :=
  visibility m ≠ .isPrivate ∨ own owner

/-- What a table of members holds, for all the members of one sort along a list of owners. -/
structure Precedence (name : α → String) (visibility : α → Visibility)
    (declarations : ClassModel → List α) (own : ClassModel → Prop) (owners : List ClassModel)
    (entries : List (Declared α)) : Prop where
  /-- No name occurs twice. -/
  distinct : (entries.map fun d => name d.member).Nodup
  /-- A name is listed just if some declaration of it counts. -/
  listed_iff : ∀ n, (∃ d ∈ entries, name d.member = n) ↔
    ∃ owner ∈ owners, ∃ m ∈ declarations owner, name m = n ∧ Counts visibility own owner m
  /-- Its entry is the first declaration of the name that counts. -/
  first : ∀ d ∈ entries, ∃ owner, owner.name = d.owner ∧
    FirstAlong declarations owners
      (fun b m => name m = name d.member ∧ Counts visibility own b m) owner d.member
  /-- No private member of any other owner is listed. -/
  not_private : ∀ owner ∈ owners, ¬ own owner →
    ∀ d ∈ entries, d.owner = owner.name → visibility d.member ≠ .isPrivate
  /-- Private members of owners that count are listed, unless an earlier owner has the name. -/
  private_listed : ∀ owner, own owner → ∀ m ∈ declarations owner, visibility m = .isPrivate →
    (∃ d ∈ entries, d.owner = owner.name ∧ name d.member = name m) ∨
    ∃ before after, owners = before ++ owner :: after ∧
      ∃ b ∈ before, ∃ m' ∈ declarations b, name m' = name m

/-- What counts is what is not hidden. -/
theorem not_hidden_iff {names : List ClassName} {owner : ClassModel} {m : α}
    (hown : owner.name ∈ names ↔ own owner) :
    ¬ Hidden visibility names (owner, m) ↔ Counts visibility own owner m := by
  rw [Hidden, Counts, ← hown, not_and_or, not_not]

variable {names : List ClassName}

section

variable (hown : ∀ owner ∈ owners, owner.name ∈ names ↔ own owner)
include hown

theorem listed_merged_iff (n : String) :
    (∃ d ∈ merged name visibility declarations names owners, name d.member = n) ↔
      ∃ owner ∈ owners, ∃ m ∈ declarations owner, name m = n ∧ Counts visibility own owner m := by
  have hchosen := (firstOfEach_merged name visibility declarations names owners).mem_iff n
  rw [flatMap_offered_eq_along, List.mem_map, and_iff_left not_false] at hchosen
  rw [hchosen]
  simp only [List.map_map, List.mem_map, List.mem_filter, decide_eq_true_eq, mem_along_iff,
    Function.comp_apply]
  constructor
  · rintro ⟨e, ⟨⟨howner, hm⟩, hopen⟩, hname⟩
    exact ⟨e.1, howner, e.2, hm, hname, (not_hidden_iff (hown e.1 howner)).mp hopen⟩
  · rintro ⟨owner, howner, m, hm, hname, hcounts⟩
    exact ⟨(owner, m), ⟨⟨howner, hm⟩, (not_hidden_iff (hown owner howner)).mpr hcounts⟩, hname⟩

theorem firstAlong_of_mem_merged {d : Declared α}
    (hd : d ∈ merged name visibility declarations names owners) :
    ∃ owner, owner.name = d.owner ∧ FirstAlong declarations owners
      (fun b m => name m = name d.member ∧ Counts visibility own b m) owner d.member := by
  obtain ⟨owner, howner, hfind⟩ := find?_of_mem_merged hd
  refine ⟨owner, howner, (firstAlong_of_find? hfind).congr fun b hb m _ => ?_⟩
  rw [decide_eq_true_eq, not_hidden_iff (hown b hb)]
  exact and_comm

end

/-- Of two places in a list, one is before the other or they are the same. -/
theorem before_or_eq_or_after {β : Type} {front front' back back' : List β} {a b : β}
    (h : front ++ a :: back = front' ++ b :: back') : b ∈ front ∨ a = b ∨ a ∈ front' := by
  rcases List.append_eq_append_iff.mp h with ⟨mid, rfl, hmid⟩ | ⟨mid, rfl, hmid⟩
  · cases mid with
    | nil => exact .inr (.inl (List.cons.inj hmid).1)
    | cons x mid =>
      obtain ⟨rfl, _⟩ := List.cons.inj hmid
      exact .inr (.inr (by simp))
  · cases mid with
    | nil => exact .inr (.inl (List.cons.inj hmid).1.symm)
    | cons x mid =>
      obtain ⟨rfl, _⟩ := List.cons.inj hmid
      exact .inl (by simp)

/-- **A table of members keeps to precedence and privacy**, if owners have different names and all
that count are among them. -/
theorem precedence_merged (hnames : (owners.map ClassModel.name).Nodup)
    (hown : ∀ owner ∈ owners, owner.name ∈ names ↔ own owner)
    (hall : ∀ owner, own owner → owner ∈ owners) :
    Precedence name visibility declarations own owners
      (merged name visibility declarations names owners) where
  distinct := (firstOfEach_merged name visibility declarations names owners).nodup
  listed_iff := listed_merged_iff hown
  first := fun _ hd => firstAlong_of_mem_merged hown hd
  not_private := by
    intro owner howner hother d hd hname
    obtain ⟨owner', howner', hfirst⟩ := firstAlong_of_mem_merged hown hd
    -- the entry has only the name of its owner, which tells the owner
    obtain rfl := List.inj_on_of_nodup_map hnames hfirst.mem_owners howner (howner'.trans hname)
    exact hfirst.holds.2.resolve_right hother
  private_listed := by
    intro owner howner m hm _
    obtain ⟨before, after, hplace⟩ := List.append_of_mem (hall owner howner)
    obtain ⟨d, hd, hname⟩ := (listed_merged_iff hown (name m)).mpr
      ⟨owner, hall owner howner, m, hm, rfl, .inr howner⟩
    obtain ⟨owner', howner', hfirst⟩ := firstAlong_of_mem_merged hown hd
    obtain ⟨before', after', hplace', hpassed⟩ := hfirst.first_owner
    rcases before_or_eq_or_after (hplace.symm.trans hplace') with hsooner | rfl | hlater
    · -- the entry is from an earlier owner
      exact .inr ⟨before, after, hplace, owner', hsooner, d.member, hfirst.mem_declarations, hname⟩
    · exact .inl ⟨d, hd, howner'.symm, hname⟩
    · -- the entry cannot be from a later one, since the declaration here counts
      exact absurd ⟨hname.symm, .inr howner⟩ (hpassed owner hlater m hm)

end Tables

/-! ## Section 3: The table of a class -/

/-- **Members follow precedence and privacy.** For every lookup that finds classes under their own
names and has no path through traits, without repetitions, of more than 20 links, and for every
class: its table has no name of a method or of a property twice; it lists a name just if some class
of the ancestry declares it, not as private or as the class itself or a trait that the class uses,
directly or through other traits; and the entry is the first such declaration along the ancestry.
In particular nothing is listed that is private to another ancestor, and what is private to a trait
of the class is listed unless an earlier ancestor declares the name. -/
theorem members_follow_precedence {lookup : Lookup} (hnamed : lookup.Named) (c : ClassModel)
    (hshort : NoLonger (lookup.seenFrom c) .trait 20) :
    Precedence MethodModel.name MethodModel.visibility ClassModel.methods
      (Owns (lookup.seenFrom c) c) (ancestry lookup c) (members lookup c).methods ∧
    Precedence PropertyModel.name PropertyModel.visibility ClassModel.properties
      (Owns (lookup.seenFrom c) c) (ancestry lookup c) (members lookup c).properties := by
  have hnames := nodup_names_ancestry hnamed c
  have hown : ∀ owner ∈ ancestry lookup c,
      owner.name ∈ c.name :: traitNames lookup c ↔ Owns (lookup.seenFrom c) c owner :=
    fun owner howner => mem_ownNames_iff hnamed hshort ((mem_ancestry_iff hnamed).mp howner).2
  have hall : ∀ owner, Owns (lookup.seenFrom c) c owner → owner ∈ ancestry lookup c :=
    fun owner howner => mem_ancestry_of_owns hnamed hshort howner
  simp only [members]
  exact ⟨precedence_merged hnames hown hall, precedence_merged hnames hown hall⟩

/-! ## Section 4: Traits that a class shares with its parent -/

def sharingMethod (name : String) (visibility : Visibility) : MethodModel :=
  ⟨name, visibility, [], none, false, false⟩

/-- A class and its parent use a trait in common, which uses another one and is used by it. The
parent has a trait of its own, and each of them has something private. -/
def sharing : FileModel :=
  ⟨"C.php", [], [], 5,
    [{ bareClass "C" .isClass (some ⟨"", "P"⟩) [⟨"", "I"⟩] [⟨"", "T"⟩] with
        methods := [sharingMethod "run" .isPrivate] },
     { bareClass "P" .isClass none [] [⟨"", "T"⟩, ⟨"", "V"⟩] with
        methods := [sharingMethod "help" .isPublic, sharingMethod "hide" .isPrivate]
        properties := [⟨"state", .isPublic, none, false, false⟩] },
     { bareClass "T" .isTrait none [] [⟨"", "U"⟩] with
        methods := [sharingMethod "help" .isPrivate] },
     { bareClass "U" .isTrait none [] [⟨"", "T"⟩] with
        methods := [sharingMethod "run" .isPrivate, sharingMethod "deep" .isPrivate]
        properties := [⟨"state", .isPrivate, none, false, false⟩] },
     { bareClass "V" .isTrait none [] [] with
        methods := [sharingMethod "inner" .isPrivate, sharingMethod "outer" .isProtected] },
     { bareClass "I" .isInterface none [] [] with
        methods := [sharingMethod "hide" .isPublic, sharingMethod "inner" .isPrivate] }]⟩

def sharingFirst : ClassModel :=
  { bareClass "C" .isClass (some ⟨"", "P"⟩) [⟨"", "I"⟩] [⟨"", "T"⟩] with
    methods := [sharingMethod "run" .isPrivate] }

/-- The class has what is private to the traits it shares, and nothing else that is private. -/
theorem sharing_members_follow_precedence :
    (members sharing.find? sharingFirst).methods.map (fun d => (d.owner.short, d.member.name)) =
      [("C", "run"), ("T", "help"), ("U", "deep"), ("V", "outer"), ("I", "hide")] ∧
    (members sharing.find? sharingFirst).properties.map (fun d => d.owner.short) = ["U"] ∧
    NoLonger (Lookup.seenFrom sharing.find? sharingFirst) .trait 20 ∧
    Precedence MethodModel.name MethodModel.visibility ClassModel.methods
      (Owns (Lookup.seenFrom sharing.find? sharingFirst) sharingFirst)
      (ancestry sharing.find? sharingFirst) (members sharing.find? sharingFirst).methods ∧
    Precedence PropertyModel.name PropertyModel.visibility ClassModel.properties
      (Owns (Lookup.seenFrom sharing.find? sharingFirst) sharingFirst)
      (ancestry sharing.find? sharingFirst) (members sharing.find? sharingFirst).properties := by
  have hsame : Lookup.seenFrom sharing.find? sharingFirst = sharing.find? :=
    Lookup.seenFrom_eq_self (by decide +kernel)
  have hall : ∀ name c, sharing.find? name = some c → c ∈ sharing.classes :=
    fun name c hc => List.mem_of_find?_eq_some hc
  have hshort : NoLonger (Lookup.seenFrom sharing.find? sharingFirst) .trait 20 := by
    rw [hsame]
    exact noLonger_of_few hall (by decide) .trait
  exact ⟨by decide +kernel, by decide +kernel, hshort,
    members_follow_precedence sharing.named_find? sharingFirst hshort⟩

end CodeInsight.Hierarchy
