import CodeInsight.Proofs.MissingMembers

/-!
# Methods that stay open

The generator of missing methods and the table of members answer one question in two ways. For the
generator a method is implemented when any class, parent or trait has a body for it, whatever stands
before that body, who may see it and in which cases its name is written. The table holds the first
declaration of every spelling that the class may see. So a class with nothing left to implement may
still have abstract methods in its table, but each of them has a body that the table passes over.

## Main Results

- `Hierarchy.mem_members_methods`: what a table holds is the first declaration of its name
- `Hierarchy.passedOver_of_ne`: why a table does not hold a declaration
- `Generator.open_methods_have_bodies`: every abstract method left has a body elsewhere
-/

namespace CodeInsight

variable {d : Declared MethodModel} {owner : ClassModel} {lookup : Lookup} {c : ClassModel}

namespace Hierarchy

/-! ## Section 1: The first declaration of a name -/

/-- The declarations that a class has or inherits, in the order in which members are looked up. -/
def methodsInOrder (lookup : Lookup) (c : ClassModel) : List (Declared MethodModel) :=
  (ancestry lookup c).flatMap
    (offered MethodModel.visibility ClassModel.methods (c.name :: traitNames lookup c))

/-- **The table of members** holds the first declaration of every name. -/
theorem mem_members_methods (h : d ∈ (members lookup c).methods) :
    ∃ before rest, methodsInOrder lookup c = before ++ d :: rest ∧
      ∀ e ∈ before, e.member.name ≠ d.member.name := by
  simp only [members] at h
  exact (firstOfEach_merged _ _ _ _ _).split h

theorem mem_offered_iff {α : Type} {visibility : α → Visibility}
    {declarations : ClassModel → List α} {own : List ClassName} {d : Declared α} :
    d ∈ offered visibility declarations own owner ↔
      d.owner = owner.name ∧ d.member ∈ declarations owner ∧
        (owner.name ∈ own ∨ visibility d.member ≠ .isPrivate) := by
  obtain ⟨name, m⟩ := d
  simp only [offered, List.mem_map, List.mem_filter, Declared.mk.injEq, Bool.or_eq_true,
    List.contains_iff_mem, decide_eq_true_eq]
  constructor
  · rintro ⟨found, ⟨hfound, hseen⟩, rfl, rfl⟩
    exact ⟨rfl, hfound, hseen⟩
  · rintro ⟨rfl, hfound, hseen⟩
    exact ⟨m, ⟨hfound, hseen⟩, rfl, rfl⟩

/-- Why the table of a class holds the declaration `d` and not the body `m` of some owner: the body
is spelled differently, the class may not see it, or it comes later. -/
inductive PassedOver (lookup : Lookup) (c : ClassModel) (d : Declared MethodModel)
    (owner : ClassModel) (m : MethodModel) : Prop where
  | spelled (h : m.name ≠ d.member.name)
  | hidden (hprivate : m.visibility = .isPrivate)
      (hforeign : owner.name ∉ c.name :: traitNames lookup c)
  | later (before rest : List (Declared MethodModel))
      (hsplit : methodsInOrder lookup c = before ++ d :: rest)
      (hrest : (⟨owner.name, m⟩ : Declared MethodModel) ∈ rest)

/-- A declaration of an ancestor that the table does not hold is passed over. -/
theorem passedOver_of_ne (hd : d ∈ (members lookup c).methods) (howner : owner ∈ ancestry lookup c)
    {m : MethodModel} (hm : m ∈ owner.methods) (hne : m ≠ d.member) :
    PassedOver lookup c d owner m := by
  by_cases hname : m.name = d.member.name
  · by_cases hseen : owner.name ∈ c.name :: traitNames lookup c ∨ m.visibility ≠ .isPrivate
    · obtain ⟨before, rest, hsplit, hbefore⟩ := mem_members_methods hd
      have hoffered : (⟨owner.name, m⟩ : Declared MethodModel) ∈ methodsInOrder lookup c :=
        List.mem_flatMap.mpr ⟨owner, howner, mem_offered_iff.mpr ⟨rfl, hm, hseen⟩⟩
      rw [hsplit] at hoffered
      rcases List.mem_append.mp hoffered with hearlier | hlater
      · exact absurd hname (hbefore _ hearlier)
      · rcases List.mem_cons.mp hlater with rfl | hrest
        · exact absurd rfl hne
        · exact .later before rest hsplit hrest
    · rw [not_or, not_not] at hseen
      exact .hidden hseen.2 hseen.1
  · exact .spelled hname

end Hierarchy

/-! ## Section 2: What is left after nothing is missing -/

namespace Generator

/-- **Every abstract method left has a body elsewhere.** If nothing is missing in a class that
declares no abstract method itself, then every abstract method in the table of its members has a
body, in the class or in a parent or trait, under the same name up to cases; and the table passes
that body over because it is spelled differently, hidden from the class, or declared later. -/
theorem open_methods_have_bodies {ws : Workspace} {name : ClassName} {options : Generation.Options}
    {path : String} {file : FileModel} {c : ClassModel} {e : Edit}
    (htarget : (ws.target name).1 = .ok (path, file, c)) (hkind : c.kind = .isClass)
    (hown : ∀ m ∈ c.methods, m.isAbstract = false)
    (he : (missingMethods.generate ws name options).1 = .ok e) (hnone : e.isNone = true)
    {d : Declared MethodModel}
    (hd : d ∈ (Hierarchy.members ((ws.target name).2.lookup.within file) c).methods)
    (hopen : d.member.isAbstract = true) :
    ∃ owner ∈ Hierarchy.ancestry ((ws.target name).2.lookup.within file) c,
      owner.kind ≠ .isInterface ∧ ∃ m ∈ owner.methods, m.isAbstract = false ∧
        Generation.methodKey m = Generation.methodKey d.member ∧
        Hierarchy.PassedOver ((ws.target name).2.lookup.within file) c d owner m := by
  have hclass : c.kind ≠ .isInterface := by simp [hkind]
  have hmet := (missingMethods_isNone_iff htarget hclass he).mp hnone
  have hfirst := Hierarchy.ancestry_eq_cons ((ws.target name).2.lookup.within file) c
  -- the declaration comes from an ancestor, which demands it
  obtain ⟨before, rest, hsplit, _⟩ := Hierarchy.mem_members_methods hd
  have hordered : d ∈ Hierarchy.methodsInOrder ((ws.target name).2.lookup.within file) c := by
    simp [hsplit]
  obtain ⟨source, hsource, hoffered⟩ := List.mem_flatMap.mp hordered
  obtain ⟨_, hmember, _⟩ := Hierarchy.mem_offered_iff.mp hoffered
  have hancestor : source ∈ contractOwners (ws.target name).2 file c := by
    rw [hfirst] at hsource
    rcases List.mem_cons.mp hsource with rfl | hancestor
    · rw [hown _ hmember] at hopen
      cases hopen
    · exact hancestor
  have hkey := Generation.unmet_eq_nil_iff.mp hmet source hancestor d.member hmember
    (by simp [Generation.requires, hopen])
  -- a body of the same name cannot be the abstract declaration itself
  rcases Generation.mem_implementedKeys_iff.mp hkey with
    ⟨m, hm, hsame⟩ | ⟨owner, howner, hnot, m, hm, hbody, hsame⟩
  · have hne : m ≠ d.member := by
      rintro rfl
      rw [hown _ hm] at hopen
      cases hopen
    have hc : c ∈ Hierarchy.ancestry ((ws.target name).2.lookup.within file) c := by
      rw [hfirst]
      exact List.mem_cons_self
    exact ⟨c, hc, hclass, m, hm, hown m hm, hsame, Hierarchy.passedOver_of_ne hd hc hm hne⟩
  · have hne : m ≠ d.member := by
      rintro rfl
      rw [hbody] at hopen
      cases hopen
    have howner' := List.mem_of_mem_drop howner
    exact ⟨owner, howner', hnot, m, hm, hbody, hsame,
      Hierarchy.passedOver_of_ne hd howner' hm hne⟩

/-! ## Section 3: A method that is taken back -/

/-- A project of three classes. The parent of the last one makes a method of its own parent abstract
again. -/
def retracted : Workspace where
  root := "/p"
  disk := ⟨[['p']], [([['p']], .directory),
    ([['p'], "P.php".toList],
      .file (Text.encode "<?php class P \x7b public function f() \x7b\x7d \x7d".toList)),
    ([['p'], "Q.php".toList],
      .file (Text.encode
        "<?php abstract class Q extends P \x7b abstract public function f(); \x7d".toList)),
    ([['p'], "T.php".toList], .file (Text.encode "<?php class T extends Q \x7b\x7d".toList))]⟩
  table := ⟨[⟨"", ""⟩]⟩
  models := []

/-- The last class is no abstract one by its own methods, and yet one of its methods is abstract. -/
theorem retracted_target :
    ∃ path file c, (retracted.target ⟨"", "T"⟩).1 = .ok (path, file, c) ∧ c.kind = .isClass ∧
      (∀ m ∈ c.methods, m.isAbstract = false) ∧
      ∃ d ∈ (Hierarchy.members ((retracted.target ⟨"", "T"⟩).2.lookup.within file) c).methods,
        d.member.isAbstract = true := by
  have hfound : ((retracted.target ⟨"", "T"⟩).1.toOption.any fun found =>
      decide (found.2.2.kind = .isClass ∧ (∀ m ∈ found.2.2.methods, m.isAbstract = false) ∧
        ∃ d ∈ (Hierarchy.members ((retracted.target ⟨"", "T"⟩).2.lookup.within found.2.1)
          found.2.2).methods, d.member.isAbstract = true)) = true := by decide +kernel
  cases htarget : (retracted.target ⟨"", "T"⟩).1 with
  | error failure =>
    rw [htarget] at hfound
    cases hfound
  | ok found =>
    rw [htarget] at hfound
    exact ⟨found.1, found.2.1, found.2.2, rfl, of_decide_eq_true hfound⟩

theorem retracted_missingMethods :
    (missingMethods.generate retracted ⟨"", "T"⟩ []).1 = .ok ⟨"T.php", .empty 25, ""⟩ := by
  decide +kernel

/-- Nothing is missing in the last class, and its method is abstract all the same. -/
theorem retracted_method_stays_open :
    (missingMethods.generate retracted ⟨"", "T"⟩ []).1 = .ok ⟨"T.php", .empty 25, ""⟩ ∧
      ∃ path file c, (retracted.target ⟨"", "T"⟩).1 = .ok (path, file, c) ∧ c.kind = .isClass ∧
        (∀ m ∈ c.methods, m.isAbstract = false) ∧
        ∃ d ∈ (Hierarchy.members ((retracted.target ⟨"", "T"⟩).2.lookup.within file) c).methods,
          d.member.isAbstract = true :=
  ⟨retracted_missingMethods, retracted_target⟩

/-- The method that was taken back has a body that comes later. -/
theorem retracted_method_has_body :
    ∃ path file c d, (retracted.target ⟨"", "T"⟩).1 = .ok (path, file, c) ∧
      d ∈ (Hierarchy.members ((retracted.target ⟨"", "T"⟩).2.lookup.within file) c).methods ∧
      d.member.isAbstract = true ∧
      ∃ owner ∈ Hierarchy.ancestry ((retracted.target ⟨"", "T"⟩).2.lookup.within file) c,
        owner.kind ≠ .isInterface ∧ ∃ m ∈ owner.methods, m.isAbstract = false ∧
          Generation.methodKey m = Generation.methodKey d.member ∧
          Hierarchy.PassedOver ((retracted.target ⟨"", "T"⟩).2.lookup.within file) c d owner m := by
  obtain ⟨path, file, c, htarget, hkind, hown, d, hd, hopen⟩ := retracted_target
  exact ⟨path, file, c, d, htarget, hd, hopen,
    open_methods_have_bodies htarget hkind hown retracted_missingMethods (by decide) hd hopen⟩

end Generator

end CodeInsight
