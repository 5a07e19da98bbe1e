import CodeInsight.Proofs.MissingMembers
import CodeInsight.Proofs.TypeReadings

/-!
# Copied types

The properties that a class lacks are declared with the types that its ancestors give them, letter
by letter. A type is then read in the class, where its name may stand for something else. No class
has the name of one of its ancestors, so types that are about the class itself never keep their
meaning.

## Main Results

- `TypeHint.single_eq_iff`: which names mean the same in two classes
- `Generator.copied_types_keep_meaning_iff`: which types of declared properties keep their meaning
-/

namespace CodeInsight

/-! ## Section 1: Names that mean the same in two classes -/

/-- A name means the same in two different classes: it is not about the class itself, the classes
have one parent if it is about the parent, and it is resolved to one class if it is that of a
class. -/
def Portable (a b : ClassModel) (name : String) : Prop :=
  name.toLower ∉ ["self", "static", "$this"] ∧
    (name.toLower = "parent" → a.parent = b.parent) ∧
    (isBuiltinType name.toLower = false →
      resolveName name a.imports (some a.name.ns) = resolveName name b.imports (some b.name.ns))

instance (a b : ClassModel) (name : String) : Decidable (Portable a b name) :=
  inferInstanceAs (Decidable (_ ∧ _ ∧ _))

theorem InferredType.ofClass?_inj {a b : Option ClassName} :
    InferredType.ofClass? a = InferredType.ofClass? b ↔ a = b := by
  cases a <;> cases b <;> simp [InferredType.ofClass?]

/-- **Names that keep their meaning** from one class to another. -/
theorem TypeHint.single_eq_iff {a b : ClassModel} (hne : a.name ≠ b.name) (name : String) :
    single name a.context = single name b.context ↔ Portable a b name := by
  have hself : InferredType.ofClass? (some a.name) ≠ InferredType.ofClass? (some b.name) := by
    intro heq
    exact hne (Option.some.inj (InferredType.ofClass?_inj.mp heq))
  unfold single Portable ClassModel.context
  by_cases hword : name.toLower ∈ ["self", "static", "$this"]
  · -- the class itself has another name
    refine iff_of_false ?_ fun hportable => hportable.1 hword
    simp only [List.mem_cons, List.not_mem_nil, or_false] at hword
    rcases hword with h | h | h <;> simpa [h] using hself
  · have hwords : name.toLower ≠ "self" ∧ name.toLower ≠ "static" ∧ name.toLower ≠ "$this" := by
      simpa using hword
    simp only [hwords, hword, decide_false, Bool.or_self, Bool.false_eq_true, if_false,
      not_false_eq_true, true_and]
    by_cases hparent : name.toLower = "parent"
    · have hbuiltin : isBuiltinType "parent" = true := by decide +kernel
      simp [hparent, hbuiltin, InferredType.ofClass?_inj]
    · by_cases hmixed : name.toLower = "mixed"
      · have hbuiltin : isBuiltinType "mixed" = true := by decide +kernel
        simp [hmixed, hbuiltin]
      · cases hbuiltin : isBuiltinType name.toLower with
        | true => simp [hparent, hmixed]
        | false => simp [hparent, hmixed]

theorem TypeHint.read_eq_iff {a b : ClassModel} (hne : a.name ≠ b.name) (hint : String) :
    read hint a.context = read hint b.context ↔ ∀ n, soleName? hint = some n → Portable a b n := by
  rw [read_eq, read_eq]
  cases hname : soleName? hint with
  | none => exact iff_of_true rfl fun n h => absurd h.symm (Option.some_ne_none n)
  | some n =>
    rw [Option.elim_some, Option.elim_some, single_eq_iff hne]
    exact ⟨fun h _ hn => Option.some.inj hn ▸ h, fun h => h n rfl⟩

/-! ## Section 2: Types of the properties that are declared -/

/-- No class has the name of one of its ancestors. -/
theorem Workspace.name_ne_of_mem_owners {ws : Workspace} {file : FileModel} {c owner : ClassModel}
    {owners : List ClassModel}
    (h : Hierarchy.ancestry (ws.lookup.within file) c = c :: owners) (howner : owner ∈ owners) :
    c.name ≠ owner.name := by
  have hnodup := Hierarchy.nodup_names_ancestry (ws.named_lookupFrom (some file)) c
  rw [show ws.lookupFrom (some file) = ws.lookup.within file from rfl, h, List.map_cons,
    List.nodup_cons] at hnodup
  exact fun heq => hnodup.1 (heq ▸ List.mem_map_of_mem howner)

namespace Generator

/-- **Types of declared properties are copied.** For every class or trait that is found in a
project, a property that an ancestor demands is declared with the type that the ancestor gives it.
It is read in the class as it is read in the ancestor just if its name, where it has one, is
portable. -/
theorem copied_types_keep_meaning_iff {ws : Workspace} {name : ClassName}
    (options : Generation.Options) {path : String} {file : FileModel} {c : ClassModel}
    (htarget : (ws.target name).1 = .ok (path, file, c)) (hkind : c.kind ≠ .isInterface) :
    ∃ owners contract assigned text,
      Hierarchy.ancestry ((ws.target name).2.lookup.within file) c = c :: owners ∧
      ws.load path = .ok text ∧
      (missingProperties.generate ws name options).1 =
        .ok ⟨path, .empty (min (c.body.start + 1) c.body.stop),
          Generation.declaredText (contract.map Prod.snd ++ assigned)
            (Text.after text (min (c.body.start + 1) c.body.stop))⟩ ∧
      Generation.Completes c owners contract assigned ∧
      ∀ owner p hint, (owner, p) ∈ contract → p.declaredType = some hint →
        owner ∈ owners ∧ p ∈ owner.properties ∧
          (TypeHint.read hint c.context = TypeHint.read hint owner.context ↔
            ∀ n, TypeHint.soleName? hint = some n → Portable c owner n) := by
  obtain ⟨text, hload⟩ := Workspace.load_of_target htarget
  have hancestry := Hierarchy.ancestry_eq_cons ((ws.target name).2.lookup.within file) c
  have hcompletes := Generation.completes_missing c (contractOwners (ws.target name).2 file c)
  refine ⟨contractOwners (ws.target name).2 file c, _, _, text, hancestry, hload, ?_,
    hcompletes, ?_⟩
  · rw [← Generation.declarations_eq hkind, missingProperties_of_target htarget hload]
  · intro owner p hint hcontract _
    have hfirst := hcompletes.contract_supplied.first (owner, p) hcontract
    exact ⟨hfirst.mem_owners, hfirst.mem_declarations,
      TypeHint.read_eq_iff (Workspace.name_ne_of_mem_owners hancestry hfirst.mem_owners) hint⟩

/-! ## Section 3: A contract in another namespace -/

/-- A class that implements an interface of another namespace. Of the two properties that are
demanded, one has a fully qualified type. -/
def borrowingText : Text :=
  ["<?php namespace App\x7binterface I\x7b", "public Item $item\x7bget;\x7d",
    "public ?\\Lib\\Item $kept\x7bget;\x7d\x7d\x7d", "namespace Lib\x7bclass T implements",
    " \\App\\I\x7b\x7d\x7d"].flatMap String.toList

def borrowedInterface : ClassModel :=
  ⟨⟨"App", "I"⟩, .isInterface, none, [], [], [],
    [⟨"item", .isPublic, some "Item", false, true⟩,
      ⟨"kept", .isPublic, some "?\\Lib\\Item", false, true⟩],
    [], [], true, ⟨30, 31⟩, ⟨31, 85⟩⟩

def borrowingClass : ClassModel :=
  ⟨⟨"Lib", "T"⟩, .isClass, none, [⟨"App", "I"⟩], [], [], [], [], [], false, ⟨106, 107⟩, ⟨125, 127⟩⟩

def borrowingFile : FileModel :=
  ⟨"T.php", [⟨some "App", some ⟨16, 19⟩, 15, ⟨6, 19⟩, ⟨6, 86⟩, true, []⟩,
    ⟨some "Lib", some ⟨96, 99⟩, 95, ⟨86, 99⟩, ⟨86, 128⟩, true, []⟩], [], 5,
    [borrowedInterface, borrowingClass]⟩

/-- A project of this file. -/
def borrowing : Workspace where
  root := "/p"
  disk := ⟨[['p']], [([['p']], .directory),
    ([['p'], "T.php".toList], .file (Text.encode borrowingText))]⟩
  table := ⟨[⟨"Lib\\", ""⟩]⟩
  models := []

theorem load_borrowing : borrowing.load "T.php" = .ok borrowingText :=
  Workspace.load_of_entry [['p'], "T.php".toList] (by decide +kernel) rfl

theorem target_borrowing :
    (borrowing.target ⟨"Lib", "T"⟩).1 = .ok ("T.php", borrowingFile, borrowingClass) :=
  Workspace.target_of_text (by decide +kernel) load_borrowing rfl (by decide +kernel)
    (by decide +kernel)

/-- The interface is in the file of the class, so it does not matter what else can be found. -/
theorem contractOwners_borrowing (ws : Workspace) :
    contractOwners ws borrowingFile borrowingClass = [borrowedInterface] := by
  have hancestry (lookup : Lookup) : Hierarchy.ancestry (lookup.within borrowingFile)
      borrowingClass = [borrowingClass, borrowedInterface] := by cbv
  rw [contractOwners, hancestry]
  rfl

theorem generate_borrowing :
    (missingProperties.generate borrowing ⟨"Lib", "T"⟩ []).1 = .ok ⟨"T.php", .empty 126,
      "\n    public Item $item;\n    public ?\\Lib\\Item $kept;\n"⟩ := by
  have hdeclared : Generation.declarations borrowingClass [borrowedInterface]
      (Text.after borrowingText 126) =
        "\n    public Item $item;\n    public ?\\Lib\\Item $kept;\n" := by decide +kernel
  rw [missingProperties_of_target target_borrowing load_borrowing, contractOwners_borrowing]
  exact congrArg (fun text => Except.ok (⟨"T.php", .empty 126, text⟩ : Edit)) hdeclared

/-- Of the two types that are copied, the qualified one is portable. -/
theorem borrowed_types_are_copied :
    borrowingClass.kind ≠ .isInterface ∧
    TypeHint.soleName? "?\\Lib\\Item" = some "\\Lib\\Item" ∧
    Portable borrowingClass borrowedInterface "\\Lib\\Item" ∧
    ¬Portable borrowingClass borrowedInterface "Item" ∧
    ∃ owners contract assigned text,
      Hierarchy.ancestry ((borrowing.target ⟨"Lib", "T"⟩).2.lookup.within borrowingFile)
        borrowingClass = borrowingClass :: owners ∧
      borrowing.load "T.php" = .ok text ∧
      (missingProperties.generate borrowing ⟨"Lib", "T"⟩ []).1 =
        .ok ⟨"T.php", .empty (min (borrowingClass.body.start + 1) borrowingClass.body.stop),
          Generation.declaredText (contract.map Prod.snd ++ assigned)
            (Text.after text (min (borrowingClass.body.start + 1) borrowingClass.body.stop))⟩ ∧
      Generation.Completes borrowingClass owners contract assigned ∧
      ∀ owner p hint, (owner, p) ∈ contract → p.declaredType = some hint →
        owner ∈ owners ∧ p ∈ owner.properties ∧
          (TypeHint.read hint borrowingClass.context = TypeHint.read hint owner.context ↔
            ∀ n, TypeHint.soleName? hint = some n → Portable borrowingClass owner n) :=
  ⟨by decide, by decide +kernel, by decide +kernel, by decide +kernel,
    copied_types_keep_meaning_iff [] target_borrowing (by decide)⟩

/-- A type that is copied into another namespace is read there as another class. -/
theorem borrowed_type_changes_meaning :
    (borrowing.target ⟨"Lib", "T"⟩).1 = .ok ("T.php", borrowingFile, borrowingClass) ∧
    contractOwners (borrowing.target ⟨"Lib", "T"⟩).2 borrowingFile borrowingClass =
      [borrowedInterface] ∧
    (missingProperties.generate borrowing ⟨"Lib", "T"⟩ []).1 = .ok ⟨"T.php", .empty 126,
      "\n    public Item $item;\n    public ?\\Lib\\Item $kept;\n"⟩ ∧
    TypeHint.read "Item" borrowedInterface.context = .ofClass ⟨"App", "Item"⟩ ∧
    TypeHint.read "Item" borrowingClass.context = .ofClass ⟨"Lib", "Item"⟩ :=
  ⟨target_borrowing, contractOwners_borrowing _, generate_borrowing, by decide +kernel,
    by decide +kernel⟩

end Generator

end CodeInsight
