import CodeInsight.Proofs.Ancestors
import CodeInsight.Proofs.DeclarationOrder
import CodeInsight.Proofs.FirstOfEach

/-!
# Types of listed members

A class offers the members of its table, and a fetch or a call has the type of the first declaration
that is found among its ancestors. Both go through the same ancestors in the same order. The table
passes over what is private to a parent or an interface and tells spellings apart; the search for a
type does neither, as far as methods go. So a listed member has the type of its own hint unless an
earlier declaration was passed over.

## Main Results

- `find?_of_mem_merged`: what a table holds is the first declaration of its name that the class may
  see
- `find?_along_of_mem_merged`: what is found under the name of an entry of a table
- `listed_members_have_first_types`: the types of all members that a class lists
-/

namespace CodeInsight.Hierarchy

variable {α : Type} {name : α → String} {visibility : α → Visibility}
  {declarations : ClassModel → List α} {own : List ClassName} {owners : List ClassModel}
  {d : Declared α}

/-! ## Section 1: Entries of a table -/

/-- A declaration that is private to a class whose members are not copied. -/
def Hidden (visibility : α → Visibility) (own : List ClassName) (e : ClassModel × α) : Prop :=
  visibility e.2 = .isPrivate ∧ e.1.name ∉ own

instance (visibility : α → Visibility) (own : List ClassName) :
    DecidablePred (Hidden visibility own) :=
  fun _ => inferInstanceAs (Decidable (_ ∧ _))

/-- What a list of owners offers are the declarations that are not hidden. -/
theorem flatMap_offered_eq_along :
    owners.flatMap (offered visibility declarations own) =
      ((along declarations owners).filter fun e => ¬ Hidden visibility own e).map
        fun e => ⟨e.1.name, e.2⟩ := by
  induction owners with
  | nil => rfl
  | cons owner rest ih =>
    rw [along_cons, List.flatMap_cons, List.filter_append, List.map_append, ih]
    congr 1
    rw [offered, List.filter_map, List.map_map]
    congr 2
    funext m
    simp [Hidden, imp_iff_not_or, Bool.or_comm]

section

variable (h : d ∈ merged name visibility declarations own owners)
include h

/-- **An entry of a table** is the first declaration of its name that is not hidden. -/
theorem find?_of_mem_merged :
    ∃ owner, owner.name = d.owner ∧
      (along declarations owners).find?
        (fun e => ¬ Hidden visibility own e ∧ name e.2 = name d.member) =
          some (owner, d.member) := by
  have hfirst := (firstOfEach_merged name visibility declarations own owners).first d h
  rw [flatMap_offered_eq_along, List.find?_map, List.find?_filter] at hfirst
  obtain ⟨e, he, rfl⟩ := Option.map_eq_some_iff.mp hfirst
  exact ⟨e.1, rfl, by simpa using he⟩

/-- All declarations of the name before an entry of a table are hidden. -/
theorem mem_merged :
    ∃ before owner rest, along declarations owners = before ++ (owner, d.member) :: rest ∧
      owner.name = d.owner ∧
      ∀ e ∈ before, name e.2 = name d.member → Hidden visibility own e := by
  obtain ⟨owner, howner, hfind⟩ := find?_of_mem_merged h
  obtain ⟨_, before, rest, hsplit, hbefore⟩ := List.find?_eq_some_iff_append.mp hfind
  refine ⟨before, owner, rest, hsplit, howner, fun e he hname => ?_⟩
  by_contra hopen
  simpa [hopen, hname] using hbefore e he

/-- What is found under the name of an entry is the entry itself, or a declaration before it. -/
theorem find?_along_of_mem_merged (same : α → Bool) (hsame : same d.member = true) :
    ∃ before owner rest, along declarations owners = before ++ (owner, d.member) :: rest ∧
      owner.name = d.owner ∧
      (∀ e ∈ before, name e.2 = name d.member → Hidden visibility own e) ∧
      (along declarations owners).find? (fun e => same e.2) =
        some ((before.find? fun e => same e.2).getD (owner, d.member)) := by
  obtain ⟨before, owner, rest, hsplit, howner, hbefore⟩ := mem_merged h
  refine ⟨before, owner, rest, hsplit, howner, hbefore, ?_⟩
  have hhere : ((owner, d.member) :: rest).find? (fun e => same e.2) = some (owner, d.member) :=
    List.find?_cons_of_pos hsame
  rw [hsplit, List.find?_append, hhere]
  cases before.find? fun e => same e.2 <;> rfl

end

/-! ## Section 2: Types of listed members -/

/-- **Listed members have the types of first declarations.** For every method and every property in
the table of a class, all earlier declarations of its name are hidden from the class; and the type
that is inferred for it is that of the first declaration of its name, whether hidden or not, where
cases do not matter in names of methods. So it is the type of its own hint, read in its declaring
class, unless an earlier declaration is hidden or is a method that is spelled differently. -/
theorem listed_members_have_first_types {lookup : Lookup} {receiver : ClassName} {c : ClassModel}
    (hfound : lookup receiver = some c) :
    (∀ d ∈ (members lookup c).methods, ∃ before owner rest,
      along ClassModel.methods (ancestry lookup c) = before ++ (owner, d.member) :: rest ∧
      owner.name = d.owner ∧
      (∀ e ∈ before, e.2.name = d.member.name →
        Hidden MethodModel.visibility (c.name :: traitNames lookup c) e) ∧
      returnType lookup receiver d.member.name =
        match before.find? fun e => e.2.name.toLower = d.member.name.toLower with
        | some (first, m) => memberType m.returnType first receiver
        | none => memberType d.member.returnType owner receiver) ∧
    ∀ d ∈ (members lookup c).properties, ∃ before owner rest,
      along ClassModel.properties (ancestry lookup c) = before ++ (owner, d.member) :: rest ∧
      owner.name = d.owner ∧
      (∀ e ∈ before, e.2.name = d.member.name →
        Hidden PropertyModel.visibility (c.name :: traitNames lookup c) e) ∧
      propertyType lookup receiver d.member.name =
        match before.find? fun e => e.2.name = d.member.name with
        | some (first, p) => memberType p.declaredType first receiver
        | none => memberType d.member.declaredType owner receiver := by
  constructor
  · intro d hd
    simp only [members] at hd
    obtain ⟨before, owner, rest, hsplit, howner, hbefore, hfirst⟩ :=
      find?_along_of_mem_merged hd
        (fun m => m.name.toLower = d.member.name.toLower) (decide_eq_true rfl)
    refine ⟨before, owner, rest, hsplit, howner, hbefore, ?_⟩
    unfold returnType
    simp only [hfound]
    rw [findSome?_eq_find?_along, hfirst]
    cases before.find? fun e => e.2.name.toLower = d.member.name.toLower <;> rfl
  · intro d hd
    simp only [members] at hd
    obtain ⟨before, owner, rest, hsplit, howner, hbefore, hfirst⟩ :=
      find?_along_of_mem_merged hd (fun p => p.name = d.member.name) (decide_eq_true rfl)
    refine ⟨before, owner, rest, hsplit, howner, hbefore, ?_⟩
    unfold propertyType
    simp only [hfound]
    rw [findSome?_eq_find?_along, hfirst]
    cases before.find? fun e => e.2.name = d.member.name <;> rfl

/-! ## Section 3: A hidden property and a method in another spelling -/

/-- Three classes. The second one hides a property of the first, and the last one spells a method
its own way. -/
def shadowedText : Text :=
  ("<?php class P \x7b public A $x; function get(): A \x7b\x7d \x7d " ++
    "class Q extends P \x7b private B $x; \x7d " ++
    "class T extends Q \x7b function GET(): B \x7b\x7d \x7d").toList

def shadowedTop : ClassModel :=
  ⟨⟨"", "P"⟩, .isClass, none, [], [], [⟨"get", .isPublic, [], some "A", false, false⟩],
    [⟨"x", .isPublic, some "A", false, false⟩], [], [], false, ⟨12, 13⟩, ⟨14, 51⟩⟩

def shadowedMiddle : ClassModel :=
  ⟨⟨"", "Q"⟩, .isClass, some ⟨"", "P"⟩, [], [], [],
    [⟨"x", .isPrivate, some "B", false, false⟩], [], [], false, ⟨58, 59⟩, ⟨70, 87⟩⟩

def shadowedBottom : ClassModel :=
  ⟨⟨"", "T"⟩, .isClass, some ⟨"", "Q"⟩, [], [], [⟨"GET", .isPublic, [], some "B", false, false⟩],
    [], [], [], false, ⟨94, 95⟩, ⟨106, 130⟩⟩

def shadowed : FileModel :=
  ⟨"T.php", [], [], 5, [shadowedTop, shadowedMiddle, shadowedBottom]⟩

/-- The last class lists a method and a property of the first one, and their own hints are not the
types that are inferred for them. -/
theorem shadowed_members_have_other_types :
    FileModel.ofText "T.php" shadowedText = .ok shadowed ∧
      shadowed.find? ⟨"", "T"⟩ = some shadowedBottom ∧
      shadowed.find? ⟨"", "P"⟩ = some shadowedTop ∧
      (∃ d ∈ (members shadowed.find? shadowedBottom).methods,
        d.owner = ⟨"", "P"⟩ ∧ d.member ∈ shadowedTop.methods ∧
        memberType d.member.returnType shadowedTop ⟨"", "T"⟩ = .ofClass ⟨"", "A"⟩ ∧
        returnType shadowed.find? ⟨"", "T"⟩ d.member.name = .ofClass ⟨"", "B"⟩) ∧
      ∃ d ∈ (members shadowed.find? shadowedBottom).properties,
        d.owner = ⟨"", "P"⟩ ∧ d.member ∈ shadowedTop.properties ∧
        memberType d.member.declaredType shadowedTop ⟨"", "T"⟩ = .ofClass ⟨"", "A"⟩ ∧
        propertyType shadowed.find? ⟨"", "T"⟩ d.member.name = .ofClass ⟨"", "B"⟩ := by
  -- the kernel is slow to compare two words that are still to be lowered
  have hlowered : "get".toLower = "get" := by decide +kernel
  have hcalled : returnType shadowed.find? ⟨"", "T"⟩ "get" = .ofClass ⟨"", "B"⟩ := by
    rw [returnType, hlowered]
    decide +kernel
  refine ⟨by decide +kernel, by decide +kernel, by decide +kernel, ?_, by decide +kernel⟩
  exact ⟨⟨⟨"", "P"⟩, ⟨"get", .isPublic, [], some "A", false, false⟩⟩, by decide +kernel, rfl,
    by decide +kernel, by decide +kernel, hcalled⟩

/-- The types inferred for these members are those of declarations before them. -/
theorem shadowed_members_have_first_types :
    (∃ d ∈ (members shadowed.find? shadowedBottom).methods, d.owner = ⟨"", "P"⟩ ∧
      ∃ before owner rest,
        along ClassModel.methods (ancestry shadowed.find? shadowedBottom) =
          before ++ (owner, d.member) :: rest ∧
        returnType shadowed.find? ⟨"", "T"⟩ d.member.name =
          match before.find? fun e => e.2.name.toLower = d.member.name.toLower with
          | some (first, m) => memberType m.returnType first ⟨"", "T"⟩
          | none => memberType d.member.returnType owner ⟨"", "T"⟩) ∧
    ∃ d ∈ (members shadowed.find? shadowedBottom).properties, d.owner = ⟨"", "P"⟩ ∧
      ∃ before owner rest,
        along ClassModel.properties (ancestry shadowed.find? shadowedBottom) =
          before ++ (owner, d.member) :: rest ∧
        propertyType shadowed.find? ⟨"", "T"⟩ d.member.name =
          match before.find? fun e => e.2.name = d.member.name with
          | some (first, p) => memberType p.declaredType first ⟨"", "T"⟩
          | none => memberType d.member.declaredType owner ⟨"", "T"⟩ := by
  have hfound : shadowed.find? ⟨"", "T"⟩ = some shadowedBottom := by decide +kernel
  obtain ⟨methods, properties⟩ := listed_members_have_first_types hfound
  constructor
  · have hlisted : ∃ d ∈ (members shadowed.find? shadowedBottom).methods, d.owner = ⟨"", "P"⟩ := by
      decide +kernel
    obtain ⟨d, hd, howner⟩ := hlisted
    obtain ⟨before, owner, rest, hsplit, _, _, htype⟩ := methods d hd
    exact ⟨d, hd, howner, before, owner, rest, hsplit, htype⟩
  · have hlisted : ∃ d ∈ (members shadowed.find? shadowedBottom).properties,
        d.owner = ⟨"", "P"⟩ := by
      decide +kernel
    obtain ⟨d, hd, howner⟩ := hlisted
    obtain ⟨before, owner, rest, hsplit, _, _, htype⟩ := properties d hd
    exact ⟨d, hd, howner, before, owner, rest, hsplit, htype⟩

end CodeInsight.Hierarchy
