import CodeInsight.Proofs.Ancestors
import CodeInsight.Proofs.DeclarationOrder
import CodeInsight.Proofs.FirstOfEach
import CodeInsight.Proofs.SavedFiles

/-!
# Missing members

The ancestors of a class demand members of it: interfaces demand all that they declare, and others
what they declare as abstract. The class is given its own members and the concrete ones of its
ancestors, interfaces aside. What is missing is what is demanded and not given. The generators go
through all demands once and note what they have supplied; here the outcome is said for each name
apart, without such notes.

## Main Results

- `Generation.supplied_unmet`: the methods that are supplied
- `Generation.completes_missing`: the properties that are supplied, those assigned included
- `Generator.missing_methods_are_unmet_demands`: the stubs that are written for a class
- `Generator.missing_properties_are_undeclared`: the properties that are declared for a class
-/

namespace CodeInsight

variable {name : ClassName} {file : FileModel} {c : ClassModel} {text : Text} {k : String}

namespace Generation

open Hierarchy

/-! ## Section 1: Demanded and given -/

variable {α : Type} {key : α → String} {isAbstract : α → Bool} {declarations : ClassModel → List α}
  {owners : List ClassModel}

/-- The owner of a member demands that classes have it. -/
def Demands (isAbstract : α → Bool) (owner : ClassModel) (m : α) : Prop :=
  owner.kind = .isInterface ∨ isAbstract m = true

instance (isAbstract : α → Bool) (owner : ClassModel) : DecidablePred (Demands isAbstract owner) :=
  fun _ => inferInstanceAs (Decidable (_ ∨ _))

/-- Some owner demands a member of this name. -/
def Demanded (key : α → String) (isAbstract : α → Bool) (declarations : ClassModel → List α)
    (owners : List ClassModel) (k : String) : Prop :=
  ∃ owner ∈ owners, ∃ m ∈ declarations owner, Demands isAbstract owner m ∧ key m = k

/-- The class declares a member of this name, or inherits a concrete one. -/
def Given (key : α → String) (isAbstract : α → Bool) (declarations : ClassModel → List α)
    (c : ClassModel) (owners : List ClassModel) (k : String) : Prop :=
  (∃ m ∈ declarations c, key m = k) ∨
    ∃ owner ∈ owners, owner.kind ≠ .isInterface ∧
      ∃ m ∈ declarations owner, isAbstract m = false ∧ key m = k

/-- All demands in order, each with the owner that makes it. -/
def demands (isAbstract : α → Bool) (declarations : ClassModel → List α)
    (owners : List ClassModel) : List (ClassModel × α) :=
  (along declarations owners).filter fun e => Demands isAbstract e.1 e.2

theorem demands_eq_flatMap (isAbstract : α → Bool) (declarations : ClassModel → List α)
    (owners : List ClassModel) :
    demands isAbstract declarations owners = owners.flatMap fun owner =>
      ((declarations owner).filter fun m => Demands isAbstract owner m).map
        fun m => (owner, m) := by
  simp only [demands, along, List.filter_flatMap, List.filter_map, Function.comp_def]

theorem mem_map_demands_iff :
    k ∈ (demands isAbstract declarations owners).map (fun e => key e.2) ↔
      Demanded key isAbstract declarations owners k := by
  simp only [demands, List.mem_map, List.mem_filter, mem_along_iff, decide_eq_true_eq]
  constructor
  · rintro ⟨e, ⟨⟨howner, hm⟩, hdemand⟩, hkey⟩
    exact ⟨e.1, howner, e.2, hm, hdemand, hkey⟩
  · rintro ⟨owner, howner, m, hm, hdemand, hkey⟩
    exact ⟨(owner, m), ⟨⟨howner, hm⟩, hdemand⟩, hkey⟩

/-- The names of what a class declares and inherits are those of what it is given. -/
theorem mem_given_iff :
    k ∈ (declarations c ++ owners.flatMap fun owner =>
        if owner.kind = .isInterface then []
        else (declarations owner).filter fun m => !isAbstract m).map key ↔
      Given key isAbstract declarations c owners k := by
  simp only [List.map_append, List.mem_append, List.mem_map, List.mem_flatMap]
  refine or_congr Iff.rfl ⟨?_, ?_⟩
  · rintro ⟨m, ⟨owner, howner, hm⟩, hkey⟩
    split at hm
    · cases hm
    next hkind =>
      obtain ⟨hm, hbody⟩ := List.mem_filter.mp hm
      exact ⟨owner, howner, hkind, m, hm, by simpa using hbody, hkey⟩
  · rintro ⟨owner, howner, hkind, m, hm, hbody, hkey⟩
    refine ⟨m, ⟨owner, howner, ?_⟩, hkey⟩
    rw [if_neg hkind]
    exact List.mem_filter.mpr ⟨hm, by simp [hbody]⟩

/-! ## Section 2: What is supplied -/

/-- A class is supplied with some members, each of which comes with the owner that demands it. -/
structure Supplied (key : α → String) (isAbstract : α → Bool) (declarations : ClassModel → List α)
    (c : ClassModel) (owners : List ClassModel) (supplied : List (ClassModel × α)) : Prop where
  /-- No name occurs twice. -/
  distinct : (supplied.map fun s => key s.2).Nodup
  /-- A name is supplied just if it is demanded and not given. -/
  supplied_iff : ∀ k, k ∈ supplied.map (fun s => key s.2) ↔
    Demanded key isAbstract declarations owners k ∧ ¬ Given key isAbstract declarations c owners k
  /-- A member is taken from the first owner that demands its name. -/
  first : ∀ s ∈ supplied, FirstAlong declarations owners
    (fun owner m => Demands isAbstract owner m ∧ key m = key s.2) s.1 s.2
  /-- Members stand in the order of the first demands for their names. -/
  ordered : supplied.Pairwise fun s t =>
    firstPlace (fun e => key e.2) (demands isAbstract declarations owners) (key s.2) <
      firstPlace (fun e => key e.2) (demands isAbstract declarations owners) (key t.2)

variable {supplied : List (ClassModel × α)}

/-- **The first demand for each name** that is not given is what a class is to be supplied with. -/
theorem supplied_of_firstOfEach
    (h : FirstOfEach (fun e => key e.2) (Given key isAbstract declarations c owners)
      (demands isAbstract declarations owners) supplied) :
    Supplied key isAbstract declarations c owners supplied where
  distinct := h.nodup
  supplied_iff := fun k => (h.mem_iff k).trans (and_congr_left' mem_map_demands_iff)
  first := by
    intro s hs
    -- the first demand for a name is the first declaration of it that is a demand
    have hfind := h.first s hs
    rw [demands, List.find?_filter] at hfind
    refine (firstAlong_of_find? hfind).congr fun owner _ m _ => ?_
    rw [decide_eq_true_eq, decide_eq_true_eq, decide_eq_true_eq]
  ordered := h.ordered

/-- Nothing is supplied when all that is demanded is given, and only then. -/
theorem Supplied.eq_nil_iff (h : Supplied key isAbstract declarations c owners supplied) :
    supplied = [] ↔ ∀ k, Demanded key isAbstract declarations owners k →
      Given key isAbstract declarations c owners k := by
  rw [← List.map_eq_nil_iff (f := fun s => key s.2), List.eq_nil_iff_forall_not_mem]
  refine forall_congr' fun k => ?_
  rw [h.supplied_iff, not_and, not_not]

/-! ## Section 3: Methods -/

theorem mem_implementedKeys_iff :
    k ∈ implementedKeys c owners ↔
      Given methodKey MethodModel.isAbstract ClassModel.methods c owners k :=
  mem_given_iff

theorem requires_iff {owner : ClassModel} {m : MethodModel} :
    requires owner m = true ↔ Demands MethodModel.isAbstract owner m := by
  simp [requires, Demands]

theorem requirements_eq (owners : List ClassModel) :
    requirements owners = demands MethodModel.isAbstract ClassModel.methods owners := by
  simp only [demands_eq_flatMap, requirements, ← requires_iff, Bool.decide_eq_true]

/-- **The demands that a class does not meet** are the methods that it is to be supplied with. -/
theorem supplied_unmet (c : ClassModel) (owners : List ClassModel) :
    Supplied methodKey MethodModel.isAbstract ClassModel.methods c owners (unmet c owners) := by
  rw [unmet, firstUntaken_eq, requirements_eq]
  exact supplied_of_firstOfEach
    ((firstOfEach_firstFree _ _ _).congr fun _ => mem_implementedKeys_iff)

/-- **A class meets all demands** when every one of them is for a name that is implemented. -/
theorem unmet_eq_nil_iff :
    unmet c owners = [] ↔ ∀ owner ∈ owners, ∀ m ∈ owner.methods, requires owner m = true →
      methodKey m ∈ implementedKeys c owners := by
  rw [(supplied_unmet c owners).eq_nil_iff]
  constructor
  · intro h owner howner m hm hrequired
    exact mem_implementedKeys_iff.mpr (h _ ⟨owner, howner, m, hm, requires_iff.mp hrequired, rfl⟩)
  · rintro h k ⟨owner, howner, m, hm, hdemand, rfl⟩
    exact mem_implementedKeys_iff.mp (h owner howner m hm (requires_iff.mpr hdemand))

theorem stubs_eq (hkind : c.kind ≠ .isInterface) :
    stubs c owners = String.join ((unmet c owners).map fun s => stub (qualified s.1 s.2)) := by
  rw [stubs, if_neg hkind, missingMethods, List.map_map]
  rfl

theorem stub_ne_empty (m : MethodModel) : stub m ≠ "" := by
  intro h
  simp only [stub, String.append_eq_empty_iff] at h
  exact absurd h.2 (by decide)

/-- There are no stubs when all demands are met, and only then. -/
theorem stubs_eq_empty_iff (hkind : c.kind ≠ .isInterface) :
    stubs c owners = "" ↔ unmet c owners = [] := by
  rw [stubs_eq hkind]
  cases unmet c owners with
  | nil => simp
  | cons demand rest => simp [String.join_cons, stub_ne_empty]

/-! ## Section 4: Properties -/

/-- A class is supplied with the properties that its ancestors demand, and then with those that its
methods assign to. -/
structure Completes (c : ClassModel) (owners : List ClassModel)
    (contract : List (ClassModel × PropertyModel)) (assigned : List PropertyModel) : Prop where
  /-- No name occurs twice. -/
  distinct : ((contract.map Prod.snd ++ assigned).map PropertyModel.name).Nodup
  /-- A name is declared just if it is not given, and is demanded or assigned to. -/
  declared_iff : ∀ n, n ∈ (contract.map Prod.snd ++ assigned).map PropertyModel.name ↔
    ¬ Given PropertyModel.name PropertyModel.isAbstract ClassModel.properties c owners n ∧
      (Demanded PropertyModel.name PropertyModel.isAbstract ClassModel.properties owners n ∨
        ∃ p ∈ c.assigned, p.name = n)
  /-- The contract comes from the first demands, in their order. -/
  contract_supplied :
    Supplied PropertyModel.name PropertyModel.isAbstract ClassModel.properties c owners contract
  /-- The others are the first assigned ones of names that are not in the contract, in order. -/
  assigned_first : FirstOfEach PropertyModel.name
    (fun n => Demanded PropertyModel.name PropertyModel.isAbstract ClassModel.properties owners n ∨
      Given PropertyModel.name PropertyModel.isAbstract ClassModel.properties c owners n)
    c.assigned assigned

/-- Names are told apart as soon as the two parts are described. -/
theorem completes_of_parts {contract : List (ClassModel × PropertyModel)}
    {assigned : List PropertyModel}
    (hcontract : Supplied PropertyModel.name PropertyModel.isAbstract ClassModel.properties c owners
      contract)
    (hassigned : FirstOfEach PropertyModel.name
      (fun n =>
        Demanded PropertyModel.name PropertyModel.isAbstract ClassModel.properties owners n ∨
        Given PropertyModel.name PropertyModel.isAbstract ClassModel.properties c owners n)
      c.assigned assigned) : Completes c owners contract assigned where
  distinct := by
    rw [List.map_append, List.map_map, List.nodup_append]
    refine ⟨hcontract.distinct, hassigned.nodup, ?_⟩
    -- a name of the contract is demanded, and those that are demanded are not assigned again
    rintro n hn _ hn' rfl
    have hdemanded := ((hcontract.supplied_iff n).mp hn).1
    exact ((hassigned.mem_iff n).mp hn').2 (.inl hdemanded)
  declared_iff := by
    intro n
    have hfirst := hcontract.supplied_iff n
    have hsecond := hassigned.mem_iff n
    rw [List.mem_map (l := c.assigned)] at hsecond
    rw [List.map_append, List.map_map, List.mem_append, hsecond]
    refine (or_congr_left hfirst).trans ⟨?_, ?_⟩
    · rintro (⟨hdemanded, hopen⟩ | ⟨hp, hfree⟩)
      · exact ⟨hopen, .inl hdemanded⟩
      · exact ⟨fun hgiven => hfree (.inr hgiven), .inr hp⟩
    · rintro ⟨hopen, hdemanded | hp⟩
      · exact .inl ⟨hdemanded, hopen⟩
      · -- an assigned property that is demanded as well belongs to the contract
        by_cases hdemanded : Demanded PropertyModel.name PropertyModel.isAbstract
          ClassModel.properties owners n
        · exact .inl ⟨hdemanded, hopen⟩
        · exact .inr ⟨hp, fun h => h.elim hdemanded hopen⟩
  contract_supplied := hcontract
  assigned_first := hassigned

theorem mem_declaredNames_iff {n : String} :
    n ∈ declaredNames c owners ↔
      Given PropertyModel.name PropertyModel.isAbstract ClassModel.properties c owners n :=
  mem_given_iff

theorem flatMap_demandedProperties_eq (owners : List ClassModel) :
    owners.flatMap demandedProperties =
      (demands PropertyModel.isAbstract ClassModel.properties owners).map Prod.snd := by
  simp only [demands_eq_flatMap, List.map_flatMap, List.map_map, Function.comp_def, List.map_id']
  refine List.flatMap_congr fun owner _ => List.filter_congr fun p _ => ?_
  rw [Bool.eq_iff_iff, decide_eq_true_eq]
  simp [Demands]

/-- The first demands for properties that are not given. -/
def missingContract (c : ClassModel) (owners : List ClassModel) :
    List (ClassModel × PropertyModel) :=
  firstFree (fun e => e.2.name) (declaredNames c owners)
    (demands PropertyModel.isAbstract ClassModel.properties owners)

/-- The first assigned properties that are neither given nor demanded. -/
def missingAssigned (c : ClassModel) (owners : List ClassModel) : List PropertyModel :=
  firstFree PropertyModel.name
    ((demands PropertyModel.isAbstract ClassModel.properties owners).map (fun e => e.2.name) ++
      declaredNames c owners)
    c.assigned

/-- **The properties that a class lacks** are those of its contract and then the assigned ones. -/
theorem missingProperties_eq (c : ClassModel) (owners : List ClassModel) :
    missingProperties c owners =
      ((missingContract c owners).map Prod.snd ++ missingAssigned c owners).map
        fun p => { p with isAbstract := false } := by
  rw [missingProperties, firstUndeclared_eq, expectedProperties, flatMap_demandedProperties_eq,
    firstFree_append, firstFree_map, List.map_map]
  rfl

/-- **The two parts** are what a class is to be supplied with. -/
theorem completes_missing (c : ClassModel) (owners : List ClassModel) :
    Completes c owners (missingContract c owners) (missingAssigned c owners) := by
  apply completes_of_parts
  · exact supplied_of_firstOfEach
      ((firstOfEach_firstFree _ _ _).congr fun _ => mem_declaredNames_iff)
  · refine (firstOfEach_firstFree _ _ _).congr fun n => ?_
    rw [List.mem_append, mem_map_demands_iff, mem_declaredNames_iff]

/-- The text of some declarations in front of the rest of a body, which begins on a line of its
own. -/
def declaredText (properties : List PropertyModel) (rest : Text) : String :=
  if properties = [] then ""
  else String.join (properties.map declaration) ++ if startsLine rest then "" else "\n"

theorem declarations_eq (hkind : c.kind ≠ .isInterface) (rest : Text) :
    Generation.declarations c owners rest =
      declaredText ((missingContract c owners).map Prod.snd ++ missingAssigned c owners) rest := by
  rw [Generation.declarations, if_neg hkind, missingProperties_eq, declaredText]
  cases (missingContract c owners).map Prod.snd ++ missingAssigned c owners with
  | nil => rfl
  | cons p others =>
    -- a declaration says nothing about being abstract
    rw [if_neg (List.cons_ne_nil p others)]
    simp only [List.map_cons, List.map_map]
    rfl

end Generation

/-! ## Section 5: What the generators write -/

namespace Workspace

section

variable {ws : Workspace} {path : String}

theorem bare_target (ws : Workspace) (name : ClassName) : (ws.target name).2.bare = ws.bare := by
  unfold Workspace.target
  cases ws.table.pathOf name with
  | error failure => rfl
  | ok path =>
    have hfile : (ws.reflectFile path).2.bare = ws.bare := by
      unfold Workspace.reflectFile Workspace.reflect
      repeat' split
      all_goals rfl
    dsimp only
    split
    next heq => rwa [heq] at hfile
    next heq => rwa [heq] at hfile

/-- A class is found by its path, in the model of the file there. -/
theorem target_eq_ok_iff :
    (ws.target name).1 = .ok (path, file, c) ↔
      ws.table.pathOf name = .ok path ∧ (ws.reflectFile path).1 = .ok file ∧
        classIn file path name = .ok c := by
  rw [target_fst, bind_eq_ok]
  constructor
  · rintro ⟨found, hpath, h⟩
    obtain ⟨model, hfile, h⟩ := bind_eq_ok.mp h
    cases hclass : classIn model found name with
    | error failure => rw [hclass] at h; cases h
    | ok d =>
      rw [hclass] at h
      cases h
      exact ⟨hpath, hfile, hclass⟩
  · rintro ⟨hpath, hfile, hclass⟩
    refine ⟨path, hpath, bind_eq_ok.mpr ⟨file, hfile, ?_⟩⟩
    rw [hclass]
    rfl

/-- A text that stands in a file is loaded from there. -/
theorem load_of_entry (place : List Text)
    (hplace : ws.disk.locate (Path.join ws.root path) = .ok place)
    (hentry : ws.disk.entry? place = some (.file (Text.encode text))) :
    ws.load path = .ok text := by
  have hread := Disk.read_eq_ok_iff.mpr ⟨place, hplace, hentry⟩
  exact load_eq_ok_iff.mpr (Disk.readText_eq_ok_iff.mpr ⟨_, hread, Text.decode?_encode text⟩)

/-- A class is found in a file of which no model is kept. -/
theorem target_of_text (hpath : ws.table.pathOf name = .ok path) (hload : ws.load path = .ok text)
    (hnew : ws.known? path text = none) (hmodel : FileModel.ofText path text = .ok file)
    (hclass : classIn file path name = .ok c) : (ws.target name).1 = .ok (path, file, c) := by
  refine target_eq_ok_iff.mpr ⟨hpath, ?_, hclass⟩
  unfold reflectFile reflect
  simp only [hload, hnew, hmodel]

/-- The file of a class that was found can be read again. -/
theorem load_of_target (htarget : (ws.target name).1 = .ok (path, file, c)) :
    ∃ text, ws.load path = .ok text := by
  obtain ⟨_, hfile, _⟩ := target_eq_ok_iff.mp htarget
  cases hload : ws.load path with
  | error failure =>
    unfold reflectFile at hfile
    rw [hload] at hfile
    cases hfile
  | ok text => exact ⟨text, rfl⟩

theorem load_target (ws : Workspace) (name : ClassName) (path : String) :
    (ws.target name).2.load path = ws.load path := by
  -- reading a file does not look at kept models
  have hbare : (ws.target name).2.bare.load path = ws.bare.load path := by rw [bare_target]
  exact hbare

end

end Workspace

namespace Generator

theorem isNone_empty_iff (path : String) (offset : Nat) (replacement : String) :
    (Edit.isNone ⟨path, .empty offset, replacement⟩ = true) ↔ replacement = "" := by
  simp [Edit.isNone, Span.isEmpty, Span.empty]

section Answers

variable {ws : Workspace} {path : String} (htarget : (ws.target name).1 = .ok (path, file, c))
include htarget

theorem missingMethods_of_target (options : Generation.Options) :
    (missingMethods.generate ws name options).1 = .ok ⟨path, .empty (c.body.stop - 1),
      Generation.stubs c (contractOwners (ws.target name).2 file c)⟩ := by
  rw [missingMethods_fst, htarget]
  rfl

theorem missingProperties_of_target (hload : ws.load path = .ok text)
    (options : Generation.Options) :
    (missingProperties.generate ws name options).1 =
      .ok ⟨path, .empty (min (c.body.start + 1) c.body.stop),
        Generation.declarations c (contractOwners (ws.target name).2 file c)
          (Text.after text (min (c.body.start + 1) c.body.stop))⟩ := by
  rw [missingProperties_fst, htarget]
  dsimp only [Except.bind]
  -- the file is read once more after the class was found
  rw [Workspace.load_target, hload]
  rfl

/-- The edit changes nothing when the class meets all demands, and only then. -/
theorem missingMethods_isNone_iff {options : Generation.Options} {e : Edit}
    (hkind : c.kind ≠ .isInterface) (he : (missingMethods.generate ws name options).1 = .ok e) :
    e.isNone = true ↔ Generation.unmet c (contractOwners (ws.target name).2 file c) = [] := by
  rw [missingMethods_of_target htarget] at he
  obtain rfl := Except.ok.inj he
  rw [isNone_empty_iff]
  exact Generation.stubs_eq_empty_iff hkind

end Answers

/-- **Missing methods are the unmet demands.** For every class or trait that is found in a project,
the generator writes stubs of methods with different names, cases aside. A name gets a stub just if
some class of the ancestry after the first one demands a method of that name, since it is an
interface or the method is abstract, while the class itself declares none and no other class of the
ancestry, interfaces aside, has a concrete one. Each stub is made from the first demand for its
name, stubs stand in the order of these demands, and the edit changes nothing just if there are
none. -/
theorem missing_methods_are_unmet_demands {ws : Workspace} {name : ClassName}
    (options : Generation.Options) {path : String} {file : FileModel} {c : ClassModel}
    (htarget : (ws.target name).1 = .ok (path, file, c)) (hkind : c.kind ≠ .isInterface) :
    ∃ owners stubbed e,
      Hierarchy.ancestry ((ws.target name).2.lookup.within file) c = c :: owners ∧
      (missingMethods.generate ws name options).1 = .ok e ∧
      e = ⟨path, .empty (c.body.stop - 1),
        String.join (stubbed.map fun s => Generation.stub (Generation.qualified s.1 s.2))⟩ ∧
      Generation.Supplied Generation.methodKey MethodModel.isAbstract ClassModel.methods c owners
        stubbed ∧
      (e.isNone = true ↔ stubbed = []) := by
  have hedit := missingMethods_of_target htarget options
  refine ⟨contractOwners (ws.target name).2 file c,
    Generation.unmet c (contractOwners (ws.target name).2 file c), _,
    Hierarchy.ancestry_eq_cons _ c, hedit, ?_, Generation.supplied_unmet c _,
    missingMethods_isNone_iff htarget hkind hedit⟩
  rw [Generation.stubs_eq hkind]

/-- **Missing properties are the undeclared ones.** For every class or trait that is found in a
project, the generator declares properties with different names. A name is declared just if it is
neither that of a property of the class nor that of a property of some other class of the ancestry,
interfaces and abstract properties aside, and if it is demanded by the ancestry or assigned to in
the class. What is demanded comes first in the order of the ancestry, what is only assigned to after
it in the order of the assignments, and each declaration is made from the first property of its
name. -/
theorem missing_properties_are_undeclared {ws : Workspace} {name : ClassName}
    (options : Generation.Options) {path : String} {file : FileModel} {c : ClassModel}
    (htarget : (ws.target name).1 = .ok (path, file, c)) (hkind : c.kind ≠ .isInterface) :
    ∃ owners contract assigned text,
      Hierarchy.ancestry ((ws.target name).2.lookup.within file) c = c :: owners ∧
      ws.load path = .ok text ∧
      (missingProperties.generate ws name options).1 =
        .ok ⟨path, .empty (min (c.body.start + 1) c.body.stop),
          Generation.declaredText (contract.map Prod.snd ++ assigned)
            (Text.after text (min (c.body.start + 1) c.body.stop))⟩ ∧
      Generation.Completes c owners contract assigned := by
  obtain ⟨text, hload⟩ := Workspace.load_of_target htarget
  refine ⟨contractOwners (ws.target name).2 file c,
    Generation.missingContract c (contractOwners (ws.target name).2 file c),
    Generation.missingAssigned c (contractOwners (ws.target name).2 file c), text,
    Hierarchy.ancestry_eq_cons _ c, hload, ?_, Generation.completes_missing c _⟩
  rw [← Generation.declarations_eq hkind, missingProperties_of_target htarget hload]

/-! ## Section 6: Demands from all sides -/

/-- A class, its parent and its interface. A method is demanded in two spellings, another one is
given by the parent in a spelling of its own, and one of the two properties that the class assigns
to is demanded by the interface. -/
def demandingText : Text :=
  ["<?php interface I\x7bfunction A();", "function c();function d();", "public $p\x7bget;\x7d\x7d",
    "abstract class P\x7babstract function a();", "function C()\x7b\x7d",
    "abstract protected int $x\x7bget;\x7d\x7d", "class T extends P implements I\x7b",
    "function m()\x7b$this->q=1;$this->p=2;\x7d\x7d"].flatMap String.toList

/-- A method without parameters. -/
def demandingMethod (name : String) (isAbstract : Bool) : MethodModel :=
  ⟨name, .isPublic, [], none, isAbstract, false⟩

def demandingInterface : ClassModel :=
  ⟨⟨"", "I"⟩, .isInterface, none, [], [],
    [demandingMethod "A" true, demandingMethod "c" true, demandingMethod "d" true],
    [⟨"p", .isPublic, none, false, true⟩], [], [], true, ⟨16, 17⟩, ⟨17, 73⟩⟩

def demandingParent : ClassModel :=
  ⟨⟨"", "P"⟩, .isClass, none, [], [], [demandingMethod "a" true, demandingMethod "C" false],
    [⟨"x", .isProtected, some "int", false, true⟩], [], [], true, ⟨88, 89⟩, ⟨89, 158⟩⟩

def demandingClass : ClassModel :=
  ⟨⟨"", "T"⟩, .isClass, some ⟨"", "P"⟩, [⟨"", "I"⟩], [], [demandingMethod "m" false], [],
    [⟨"q", .isPrivate, none, false, false⟩, ⟨"p", .isPrivate, none, false, false⟩], [], false,
    ⟨164, 165⟩, ⟨188, 226⟩⟩

def demandingFile : FileModel :=
  ⟨"T.php", [], [], 5, [demandingInterface, demandingParent, demandingClass]⟩

/-- A project of this file. -/
def demanding : Workspace where
  root := "/p"
  disk := ⟨[['p']], [([['p']], .directory),
    ([['p'], "T.php".toList], .file (Text.encode demandingText))]⟩
  table := ⟨[⟨"", ""⟩]⟩
  models := []

theorem load_demanding : demanding.load "T.php" = .ok demandingText :=
  Workspace.load_of_entry [['p'], "T.php".toList] (by decide +kernel) rfl

theorem target_demanding :
    (demanding.target ⟨"", "T"⟩).1 = .ok ("T.php", demandingFile, demandingClass) :=
  Workspace.target_of_text (by decide +kernel) load_demanding rfl (by decide +kernel)
    (by decide +kernel)

/-- All ancestors of the class are in its file, so it does not matter what else can be found. -/
theorem contractOwners_demanding (ws : Workspace) :
    contractOwners ws demandingFile demandingClass = [demandingParent, demandingInterface] := by
  have hancestry (lookup : Lookup) : Hierarchy.ancestry (lookup.within demandingFile)
      demandingClass = [demandingClass, demandingParent, demandingInterface] := by cbv
  rw [contractOwners, hancestry]
  rfl

/-- Two methods are missing, one of the parent and one of the interface. -/
theorem demanding_methods_are_supplied :
    (missingMethods.generate demanding ⟨"", "T"⟩ []).1 = .ok ⟨"T.php", .empty 225,
      "\n    public function a()\n    \x7b\n    \x7d\n" ++
        "\n    public function d()\n    \x7b\n    \x7d\n"⟩ ∧
    demandingClass.kind ≠ .isInterface ∧
    ∃ owners stubbed e,
      Hierarchy.ancestry ((demanding.target ⟨"", "T"⟩).2.lookup.within demandingFile)
        demandingClass = demandingClass :: owners ∧
      (missingMethods.generate demanding ⟨"", "T"⟩ []).1 = .ok e ∧
      e = ⟨"T.php", .empty (demandingClass.body.stop - 1),
        String.join (stubbed.map fun s => Generation.stub (Generation.qualified s.1 s.2))⟩ ∧
      Generation.Supplied Generation.methodKey MethodModel.isAbstract ClassModel.methods
        demandingClass owners stubbed ∧
      (e.isNone = true ↔ stubbed = []) := by
  refine ⟨?_, by decide, missing_methods_are_unmet_demands [] target_demanding (by decide)⟩
  have hstubs : Generation.stubs demandingClass [demandingParent, demandingInterface] =
      "\n    public function a()\n    \x7b\n    \x7d\n" ++
        "\n    public function d()\n    \x7b\n    \x7d\n" := by decide +kernel
  rw [missingMethods_of_target target_demanding, contractOwners_demanding, hstubs]
  rfl

/-- Three properties are missing, and the one that is only assigned to comes last. -/
theorem demanding_properties_are_declared :
    (missingProperties.generate demanding ⟨"", "T"⟩ []).1 = .ok ⟨"T.php", .empty 189,
      "\n    protected int $x;\n    public $p;\n    private $q;\n"⟩ ∧
    demandingClass.kind ≠ .isInterface ∧
    ∃ owners contract assigned text,
      Hierarchy.ancestry ((demanding.target ⟨"", "T"⟩).2.lookup.within demandingFile)
        demandingClass = demandingClass :: owners ∧
      demanding.load "T.php" = .ok text ∧
      (missingProperties.generate demanding ⟨"", "T"⟩ []).1 =
        .ok ⟨"T.php", .empty (min (demandingClass.body.start + 1) demandingClass.body.stop),
          Generation.declaredText (contract.map Prod.snd ++ assigned)
            (Text.after text (min (demandingClass.body.start + 1) demandingClass.body.stop))⟩ ∧
      Generation.Completes demandingClass owners contract assigned := by
  refine ⟨?_, by decide, missing_properties_are_undeclared [] target_demanding (by decide)⟩
  have hdeclared : Generation.declarations demandingClass [demandingParent, demandingInterface]
      (Text.after demandingText 189) =
        "\n    protected int $x;\n    public $p;\n    private $q;\n" := by decide +kernel
  rw [missingProperties_of_target target_demanding load_demanding, contractOwners_demanding]
  exact congrArg (fun text => Except.ok (⟨"T.php", .empty 189, text⟩ : Edit)) hdeclared

end Generator

/-! ## Section 7: Stubs in their file -/

namespace Session

/-- Applies an edit to its file and writes the file. -/
def save (edit : Edit) : Request Unit := fun s =>
  match s.workspace.load edit.path with
  | .error failure => (.error failure, s)
  | .ok text =>
    let path := Path.join s.workspace.root edit.path
    match s.workspace.disk.write path (Text.encode (edit.apply text)) with
    | .error e => (.error (.unreadable path e), s)
    | .ok disk => (.ok (), s.withDisk disk)

/-- An interface with a comment within a type, and a class that implements it. -/
def commented : Session :=
  ⟨⟨"/p", ⟨[['p']], [([['p']], .directory), ([['p'], "app".toList], .directory),
      ([['p'], "app".toList, "I.php".toList], .file (Text.encode
        "<?php\nnamespace App;\ninterface I \x7b public function f(int| // why\n string $x); \x7d\n".toList)),
      ([['p'], "app".toList, "T.php".toList], .file (Text.encode
        "<?php\nnamespace App;\nclass T implements I\n\x7b\n\x7d\n".toList))]⟩,
      ⟨[⟨"App\\", "app/"⟩]⟩, []⟩, [], Completion.defaults, Generators.defaults, .simple⟩

/-- The comment in the stub takes the rest of the stub's line with it. -/
theorem commented_type_breaks_stub :
    let first := commented.generate "implement_missing_methods" ⟨"App", "T"⟩ []
    (first.1.map Edit.isNone) = .ok false ∧
      (first.1.bind fun edit => (first.2.save edit).1) = .ok () ∧
      (first.1.bind fun edit =>
        ((first.2.save edit).2.generate "implement_missing_methods" ⟨"App", "T"⟩ []).1) =
        .error (.malformed "app/T.php" 99) := by
  decide +kernel

end Session

end CodeInsight
