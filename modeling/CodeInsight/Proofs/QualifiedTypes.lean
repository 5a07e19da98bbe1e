import CodeInsight.Analysis
import CodeInsight.Generation.Stub
import CodeInsight.Proofs.NameTexts
import CodeInsight.Proofs.TypeReadings

/-!
# Qualified types

The types in a stub are written out in full, so that they mean in the class what they mean where the
method is declared. A scanner goes over the characters of a type and replaces every name by the one
of the class that it denotes; a reader then takes the text apart. The outcome is the same type in
every context, unless the reader does not find the class in what the scanner has written, or takes a
mark for a part of its name.

## Main Results

- `ClassName.read_rooted_iff`: which classes a reader finds under their full names
- `Generation.qualifyFrom_render`: the scanner replaces the names and nothing else
- `Generation.exists_read_ne_of_marked`: a mark within a type is read as part of a name
- `Generation.qualified_type_keeps_meaning_iff`: which types keep their meaning
-/

namespace CodeInsight

open TypeHint

variable {c : ClassName} {n : TypeName}

/-! ## Section 1: Classes under their full names -/

/-- What begins with a separator names a class, in every context. -/
theorem TypeHint.single_of_separator (rest : Text) (context : NameContext) :
    single (String.ofList (separator :: rest)) context =
      .ofClass (.ofText (String.ofList rest)) := by
  rw [single_of_foreign (by decide)]
  unfold resolveName
  rw [String.toList_ofList]
  rfl

namespace ClassName

/-- The text of the class can be taken apart again, has no mark of a type in it and ends in no
blank. -/
def IsLegible (c : ClassName) : Prop :=
  c.IsSeparable ∧ (∀ mark ∈ '|' :: otherMarks, mark ∉ c.text.toList) ∧
    c.text.toList.getLast?.any Text.isBlank = false

instance (c : ClassName) : Decidable c.IsLegible :=
  have : Decidable (∀ mark ∈ '|' :: otherMarks, mark ∉ c.text.toList) := List.decidableBAll _ _
  inferInstanceAs (Decidable (_ ∧ _ ∧ _))

theorem toList_rooted (c : ClassName) :
    (Generation.rooted c).toList = separator :: c.text.toList := by
  rw [Generation.rooted, String.toList_append]
  rfl

/-- What is read as a class is its whole text. -/
theorem eq_text_of_ofText {q : Text} (hstart : q <+: c.text.toList)
    (h : ofText (String.ofList q) = c) : q = c.text.toList := by
  apply hstart.eq_of_length_le
  calc c.text.toList.length = (ofText (String.ofList q)).text.toList.length := by rw [h]
    _ ≤ (withoutRoot (String.ofList q)).toList.length := length_text_ofText_le _
    _ ≤ (String.ofList q).toList.length := length_withoutRoot_le _
    _ = q.length := by rw [String.toList_ofList]

/-- **Reading full names**: exactly the legible classes are found under their full names. -/
theorem read_rooted_iff (c : ClassName) (context : NameContext) :
    (outcome (Generation.rooted c).toList).elim .unknown (single · context) = .ofClass c ↔
      c.IsLegible := by
  obtain ⟨others, hmembers⟩ := unionMembers_of_foreign (c := separator) (by decide) c.text.toList
  rw [toList_rooted]
  constructor
  · intro hread
    cases hfound : outcome (separator :: c.text.toList) with
    | none =>
      rw [hfound] at hread
      cases hread
    | some s =>
      obtain ⟨hmarks, hsole⟩ := outcome_eq_some_iff.mp hfound
      obtain rfl := (List.cons.inj (hmembers.symm.trans hsole)).1
      rw [hfound, Option.elim_some, single_of_separator] at hread
      have hclass := InferredType.ofClass.inj hread
      -- nothing is taken off, neither behind a bar nor at the end
      have hstart : c.text.toList.takeWhile (· ≠ '|') <+: c.text.toList := List.takeWhile_prefix _
      have hwhole := eq_text_of_ofText ((Text.trimEnd_prefix_self _).trans hstart) hclass
      have hbar : c.text.toList.takeWhile (· ≠ '|') = c.text.toList := by
        apply hstart.eq_of_length_le
        rw [← congrArg List.length hwhole]
        exact (Text.trimEnd_prefix_self _).length_le
      rw [hbar] at hwhole
      rw [hbar, hwhole, String.ofList_toList] at hclass
      refine ⟨ofText_text_iff.mp hclass, ?_, Text.trimEnd_eq_self_iff.mp hwhole⟩
      intro mark hmark hmem
      rcases List.mem_cons.mp hmark with rfl | hother
      · simpa using List.takeWhile_eq_self_iff.mp hbar '|' hmem
      · exact hmarks mark hother (List.mem_cons_of_mem _ hmem)
  · rintro ⟨hseparable, hmarks, hend⟩
    have hnone : ∀ mark ∈ '|' :: otherMarks, mark ∉ separator :: c.text.toList := by
      intro mark hmark hmem
      refine (List.mem_cons.mp hmem).elim ?_ (hmarks mark hmark)
      rintro rfl
      exact absurd hmark (by decide)
    have hfound : outcome (separator :: c.text.toList) =
        some (String.ofList (separator :: c.text.toList)) := by
      apply outcome_eq_some_iff.mpr
      refine ⟨fun mark hmark => hnone mark (List.mem_cons_of_mem _ hmark), ?_⟩
      show ((Text.pieces '|' (separator :: c.text.toList)).map String.ofList).filter _ = _
      rw [Text.pieces_of_notMem (hnone '|' List.mem_cons_self),
        Text.trim_cons_of_not_blank (by decide), Text.trimEnd_eq_self_iff.mpr hend]
      exact List.filter_cons_of_pos
        (decide_eq_true (toLower_ne_of_foreign (by decide) _ (by decide)))
    rw [hfound, Option.elim_some, single_of_separator, String.ofList_toList,
      ofText_text_iff.mpr hseparable]

end ClassName

/-! ## Section 2: What a name denotes -/

namespace TypeHint.TypeName

theorem toList_lower (n : TypeName) : n.lower.toList = n.text.map Char.toLower := by
  rw [lower, Text.toList_toLower, String.toList_ofList]

/-- Only rooted names begin with a separator. -/
theorem head?_text_iff : n.text.head? = some separator ↔ n.isRooted = true := by
  unfold text
  cases n.isRooted with
  | true => exact iff_of_true rfl rfl
  | false =>
    refine iff_of_false ?_ Bool.false_ne_true
    obtain ⟨hne, hwords⟩ := n.areWords
    obtain ⟨word, rest, hcons⟩ := List.exists_cons_of_ne_nil hne
    obtain ⟨hword, hparts⟩ := hwords word (by rw [hcons]; exact List.mem_cons_self)
    obtain ⟨c, cs, hword⟩ := List.exists_cons_of_ne_nil hword
    -- the first character is that of the first word
    have hhead : (List.intercalate [separator] n.words).head? = some c := by
      rw [hcons, hword]
      cases rest <;> simp [List.intercalate_cons_cons]
    have hc : Text.isIdentifierPart c = true := hparts c (by rw [hword]; exact List.mem_cons_self)
    rw [if_neg Bool.false_ne_true, hhead]
    intro heq
    rw [Option.some.inj heq] at hc
    exact absurd hc (by decide)

theorem lower_ne_this (n : TypeName) : n.lower ≠ "$this" := by
  intro heq
  have hmem : '$' ∈ n.text.map Char.toLower := by
    rw [← toList_lower, heq]
    decide
  obtain ⟨c, hc, hlower⟩ := List.mem_map.mp hmem
  rw [Text.eq_of_toLower (by decide) hlower] at hc
  exact notMem_text (by decide) (by decide) hc

theorem exists_of_isRooted (h : n.isRooted = true) : ∃ rest, n.text = separator :: rest :=
  List.head?_eq_some_iff.mp (head?_text_iff.mpr h)

end TypeHint.TypeName

namespace Generation

/-- The class that a name in a type of another class stands for, where the name has to be
replaced. -/
def denoted? (owner : ClassModel) (n : TypeName) : Option ClassName :=
  if n.isRooted then none
  else if n.lower = "self" then some owner.name
  else if n.lower = "parent" then owner.parent
  else if isBuiltinType n.lower then none
  else some (resolveName (String.ofList n.text) owner.imports (some owner.name.ns))

variable {owner : ClassModel}

/-- A name is replaced by the full name of the class that it denotes. -/
theorem qualifyName_eq (hkind : owner.kind ≠ .isTrait) (n : TypeName) :
    qualifyName owner (String.ofList n.text) =
      (denoted? owner n).elim (String.ofList n.text) rooted := by
  have hrooted : (String.ofList n.text).toList.head? = some '\\' ↔ n.isRooted = true := by
    rw [String.toList_ofList]
    exact TypeName.head?_text_iff
  have hlower : (String.ofList n.text).toLower = n.lower := rfl
  simp only [qualifyName, denoted?, hrooted, hlower, hkind, ne_eq, not_false_eq_true, decide_true,
    Bool.and_true, decide_eq_true_eq]
  split
  · rfl
  · split
    · rfl
    · split
      · cases owner.parent <;> rfl
      · split <;> rfl

/-- In the class that a type belongs to, a name stands for the class that it denotes. -/
theorem single_of_denoted (h : denoted? owner n = some c) (static : Option ClassName) :
    single (String.ofList n.text) { owner.context with staticClass := static } = .ofClass c := by
  have hlower : (String.ofList n.text).toLower = n.lower := rfl
  unfold denoted? at h
  split at h
  · cases h
  · split at h
    next hself =>
      obtain rfl := Option.some.inj h
      simp only [single, hlower, hself, if_true]
      rfl
    next hself =>
      split at h
      next hparent =>
        simp only [single, hlower, hparent, ClassModel.context, h, InferredType.ofClass?]
        rfl
      next hparent =>
        split at h
        · cases h
        next hbuiltin =>
          obtain rfl := Option.some.inj h
          -- the other words that a reader knows are built-in types
          have hword : ∀ {word : String}, isBuiltinType word = true → n.lower ≠ word := by
            rintro _ hword rfl
            exact hbuiltin hword
          simp only [single, hlower, hself, hparent, n.lower_ne_this, hbuiltin,
            hword (show isBuiltinType "static" = true by decide +kernel),
            hword (show isBuiltinType "mixed" = true by decide +kernel), decide_false, Bool.or_self,
            Bool.false_eq_true, if_false]
          rfl

/-- A name that is left alone means the same in all contexts with one class for `static`. -/
theorem single_of_not_denoted (h : denoted? owner n = none)
    (hparent : n.lower = "parent" → owner.parent ≠ none) {a b : NameContext}
    (hstatic : a.staticClass = b.staticClass) :
    single (String.ofList n.text) a = single (String.ofList n.text) b := by
  have hlower : (String.ofList n.text).toLower = n.lower := rfl
  unfold denoted? at h
  split at h
  next hrooted =>
    obtain ⟨rest, hrest⟩ := TypeName.exists_of_isRooted hrooted
    rw [hrest, single_of_separator, single_of_separator]
  next =>
    split at h
    · cases h
    next hself =>
      split at h
      next hword => exact absurd h (hparent hword)
      next hword =>
        split at h
        next hbuiltin =>
          simp only [single, hlower, hself, hword, hbuiltin, hstatic, if_false, if_true]
        next => cases h

/-! ## Section 3: The scanner -/

/-- A name as the scanner writes it. -/
def written (owner : ClassModel) (n : TypeName) : Text :=
  (qualifyName owner (String.ofList n.text)).toList

/-- What is no part of a name parts the text. -/
theorem qualifyFrom_append {c : Char} (hc : isTypePart c = false) (owner : ClassModel)
    (read a b : Text) :
    qualifyFrom owner read (a ++ c :: b) = qualifyFrom owner read a ++
      c :: qualifyFrom owner [] b := by
  induction a generalizing read with
  | nil => simp only [List.nil_append, qualifyFrom, hc, Bool.false_eq_true, if_false]
  | cons d a ih =>
    rw [List.cons_append, qualifyFrom, qualifyFrom]
    split
    · exact ih (d :: read)
    · rw [ih [], List.append_assoc, List.cons_append]

theorem qualifyFrom_of_parts {name : Text} (h : ∀ c ∈ name, isTypePart c = true)
    (owner : ClassModel)
    (read : Text) : qualifyFrom owner read name = qualifyRead owner (name.reverse ++ read) := by
  induction name generalizing read with
  | nil => rfl
  | cons c name ih =>
    rw [qualifyFrom, if_pos (h c List.mem_cons_self), ih fun d hd =>
      h d (List.mem_cons_of_mem c hd), List.reverse_cons, List.append_assoc, List.singleton_append]

theorem qualifyFrom_text (owner : ClassModel) (n : TypeName) :
    qualifyFrom owner [] n.text = written owner n := by
  have hparts : ∀ c ∈ n.text, isTypePart c = true := by
    intro c hc
    rw [isTypePart, Bool.or_eq_true, beq_iff_eq]
    exact TypeName.mem_text hc
  have hne : n.text.reverse ≠ [] := fun hnil => n.text_ne_nil (List.reverse_eq_nil_iff.mp hnil)
  rw [qualifyFrom_of_parts hparts, List.append_nil, qualifyRead, if_neg hne, List.reverse_reverse,
    written]

/-- **The scanner** replaces the names of a type and nothing else. -/
theorem qualifyFrom_render (owner : ClassModel) (t : TypeTree) :
    qualifyFrom owner [] (t.render TypeName.text) = t.render (written owner) := by
  have hlead : ∀ {c : Char}, isTypePart c = false → ∀ text : Text,
      qualifyFrom owner [] (c :: text) = c :: qualifyFrom owner [] text := fun hc text =>
    qualifyFrom_append hc owner [] [] text
  induction t with
  | name n => exact qualifyFrom_text owner n
  | union a b iha ihb | intersection a b iha ihb =>
    rw [TypeTree.render, qualifyFrom_append (by decide), iha, ihb, TypeTree.render]
  | group t ih =>
    rw [TypeTree.render, hlead (by decide), qualifyFrom_append (by decide), ih, TypeTree.render]
    rfl
  | marked t ih | spaced t ih => rw [TypeTree.render, hlead (by decide), ih, TypeTree.render]
  | followed t ih =>
    rw [TypeTree.render, qualifyFrom_append (by decide), ih, TypeTree.render]
    rfl

theorem qualifyType_text (owner : ClassModel) (t : TypeTree) :
    qualifyType owner t.text = String.ofList (t.render (written owner)) := by
  rw [qualifyType, TypeTree.text, String.toList_ofList, qualifyFrom_render]

/-! ## Section 4: Types that keep their meaning -/

theorem written_of_not_denoted (hkind : owner.kind ≠ .isTrait) (h : denoted? owner n = none) :
    written owner n = n.text := by
  rw [written, qualifyName_eq hkind, h, Option.elim_none, String.toList_ofList]

theorem written_of_denoted (hkind : owner.kind ≠ .isTrait) (h : denoted? owner n = some c) :
    written owner n = (rooted c).toList := by
  rw [written, qualifyName_eq hkind, h, Option.elim_some]

theorem denoted?_null (h : n.isNull = true) : denoted? owner n = none := by
  have hlower : n.lower = "null" := of_decide_eq_true h
  have hbuiltin : isBuiltinType "null" = true := by decide +kernel
  simp [denoted?, hlower, hbuiltin]

theorem telling_written (hkind : owner.kind ≠ .isTrait) : Telling (written owner) where
  begun n := by
    cases h : denoted? owner n with
    | none =>
      rw [written_of_not_denoted hkind h]
      exact telling_text.begun n
    | some c =>
      rw [written_of_denoted hkind h, ClassName.toList_rooted]
      exact ⟨separator, c.text.toList, rfl, by decide, by decide⟩
  null n h := written_of_not_denoted hkind (denoted?_null h)
  other n h := by
    cases hdenoted : denoted? owner n with
    | none =>
      rw [written_of_not_denoted hkind hdenoted]
      exact telling_text.other n h
    | some c =>
      obtain ⟨others, hmembers⟩ := unionMembers_of_foreign (c := separator)
        (by decide) c.text.toList
      rw [written_of_denoted hkind hdenoted, ClassName.toList_rooted, hmembers]
      exact List.cons_ne_nil _ _

section

variable {hint : TypeTree} {m : Member}

/-- A type with no mark within it is read as before just if its class is found under its full
name. -/
theorem read_qualified_iff (hkind : owner.kind ≠ .isTrait)
    (hparent : ∀ n ∈ hint.names, n.lower = "parent" → owner.parent ≠ none)
    (hsubject : hint.subject? = some m) (hmarked : m.isMarked = false) (target : NameContext) :
    read (qualifyType owner hint.text) target =
        read hint.text { owner.context with staticClass := target.staticClass } ↔
      ∀ c, denoted? owner m.name = some c → c.IsLegible := by
  obtain ⟨hmem, hnull⟩ := TypeTree.mem_of_sole? hsubject
  have hname : m.name.isNull = false := by
    rw [Member.isNull, hmarked] at hnull
    exact hnull
  have hnames : m.name ∈ hint.names := hint.names_unmarked ▸ TypeTree.name_mem_names hmem
  rw [qualifyType_text, read_render (telling_written hkind), TypeTree.text,
    read_render telling_text, hsubject, Option.bind_some, Option.bind_some,
    Member.outcome_text hmarked, Member.outcome_text hmarked, TypeName.outcome_text hname,
    Option.elim_some]
  cases hdenoted : denoted? owner m.name with
  | none =>
    rw [written_of_not_denoted hkind hdenoted, TypeName.outcome_text hname, Option.elim_some]
    refine iff_of_true (single_of_not_denoted hdenoted (hparent _ hnames) rfl) ?_
    exact fun c h => absurd h.symm (Option.some_ne_none c)
  | some c =>
    rw [written_of_denoted hkind hdenoted, single_of_denoted hdenoted, ClassName.read_rooted_iff]
    exact ⟨fun h _ hc => Option.some.inj hc ▸ h, fun h => h c rfl⟩

/-- A name with a mark in front belongs to the namespace that it is read in. -/
theorem resolveName_of_mark (rest : Text) {ns : String} (hns : ns ≠ "") :
    resolveName (String.ofList ('?' :: rest)) [] (some ns) =
      .ofText (ns ++ "\\" ++ String.ofList ('?' :: rest)) := by
  unfold resolveName
  rw [String.toList_ofList]
  simp only [Imports.find?, List.lookup_nil, if_neg hns]
  rfl

/-- So it stands for two classes in two namespaces. -/
theorem resolveName_of_mark_ne (rest : Text) :
    resolveName (String.ofList ('?' :: rest)) [] (some "A") ≠
      resolveName (String.ofList ('?' :: rest)) [] (some "B") := by
  have hsep : ∀ ns : String, separator ∈ (ns ++ "\\" ++ String.ofList ('?' :: rest)).toList := by
    intro ns
    simp [separator]
  rw [resolveName_of_mark rest (by decide), resolveName_of_mark rest (by decide)]
  intro heq
  have hsame := ClassName.eq_of_ofText_eq (hsep "A") (hsep "B") (by simp [separator])
    (by simp [separator]) heq
  -- the names begin with different letters
  have hhead := congrArg (fun s : String => s.toList.head?) hsame
  simp at hhead

/-- **A mark within a type** is read as part of a name, and what the name stands for depends on the
namespace. -/
theorem exists_read_ne_of_marked (hkind : owner.kind ≠ .isTrait) (hsubject : hint.subject? = some m)
    (hmarked : m.isMarked = true) (static : Option ClassName) :
    ∃ target : NameContext, target.staticClass = static ∧
      read (qualifyType owner hint.text) target ≠
        read hint.text { owner.context with staticClass := static } := by
  rw [qualifyType_text, TypeTree.text, read_render telling_text, hsubject]
  simp only [read_render (telling_written hkind), hsubject, Option.bind_some]
  obtain ⟨rest, hrest⟩ := (Member.outcome_of_marked hmarked TypeName.text).resolve_left
    (Member.outcome_text_ne_none hmarked)
  rw [hrest, Option.elim_some, single_of_foreign (by decide)]
  rcases Member.outcome_of_marked hmarked (written owner) with hnone | ⟨rest', hrest'⟩
  · refine ⟨⟨none, [], none, static, none⟩, rfl, ?_⟩
    rw [hnone]
    exact InferredType.noConfusion
  · rw [hrest']
    by_cases hsame : resolveName (String.ofList ('?' :: rest')) [] (some "A") =
        resolveName (String.ofList ('?' :: rest)) owner.imports (some owner.name.ns)
    · refine ⟨⟨some "B", [], none, static, none⟩, rfl, ?_⟩
      rw [Option.elim_some, single_of_foreign (by decide)]
      intro heq
      exact resolveName_of_mark_ne rest' (hsame.trans (InferredType.ofClass.inj heq).symm)
    · refine ⟨⟨some "A", [], none, static, none⟩, rfl, ?_⟩
      rw [Option.elim_some, single_of_foreign (by decide)]
      exact fun heq => hsame (InferredType.ofClass.inj heq)

end

/-- **Qualified types keep their meaning**: whatever the context is, a type whose names are replaced
is read there as the type is read where it was written, given one class for `static`, just if no
mark stands within the type and the class that it is about is found under its full name. -/
theorem qualified_type_keeps_meaning_iff (owner : ClassModel) (hkind : owner.kind ≠ .isTrait)
    (hint : TypeTree) (hparent : ∀ n ∈ hint.names, n.lower = "parent" → owner.parent ≠ none)
    (static : Option ClassName) :
    (∀ target : NameContext, target.staticClass = static →
        read (qualifyType owner hint.text) target =
          read hint.text { owner.context with staticClass := static }) ↔
      ∀ m, hint.subject? = some m →
        m.isMarked = false ∧ ∀ c, denoted? owner m.name = some c → c.IsLegible := by
  constructor
  · intro hkeeps m hsubject
    have hmarked : m.isMarked = false := by
      by_contra hmark
      obtain ⟨target, hstatic, hne⟩ :=
        exists_read_ne_of_marked hkind hsubject (by simpa using hmark) static
      exact hne (hkeeps target hstatic)
    let home : NameContext := { owner.context with staticClass := static }
    exact ⟨hmarked, (read_qualified_iff hkind hparent hsubject hmarked home).mp (hkeeps home rfl)⟩
  · intro hsubjects target hstatic
    subst hstatic
    cases hsubject : hint.subject? with
    | none =>
      rw [qualifyType_text, read_render (telling_written hkind), TypeTree.text,
        read_render telling_text, hsubject]
      rfl
    | some m =>
      obtain ⟨hmarked, hlegible⟩ := hsubjects m hsubject
      exact (read_qualified_iff hkind hparent hsubject hmarked target).mpr hlegible

/-! ## Section 5: A class whose name ends in a blank -/

/-- A name of one word. -/
def word (w : Text) (h : (!w.isEmpty && w.all Text.isIdentifierPart) = true) : TypeName where
  isRooted := false
  words := [w]
  areWords := by
    obtain ⟨hne, hparts⟩ := Bool.and_eq_true_iff.mp h
    refine ⟨List.cons_ne_nil w [], fun piece hpiece => ?_⟩
    obtain rfl := List.mem_singleton.mp hpiece
    exact ⟨by simpa using hne, List.all_eq_true.mp hparts⟩

/-- A file with one interface, whose name ends in a no-break space. -/
def paddedText : Text :=
  ["<?php namespace App;", "use Lib\\Item;", "interface I\u00a0\x7b\x7d"].flatMap String.toList

def paddedInterface : ClassModel :=
  ⟨⟨"App", "I\u00a0"⟩, .isInterface, none, [], [], [], [], [], [("Item", ⟨"Lib", "Item"⟩)], true,
    ⟨43, 46⟩, ⟨46, 48⟩⟩

/-- The context of a class in another namespace, where `Item` is another class. -/
def foreignContext : NameContext :=
  ⟨some "Other", [("Item", ⟨"Other\\Part", "Item"⟩)], some ⟨"Other", "T"⟩,
    some ⟨"Other", "T"⟩, none⟩

/-- The type `?Item |null`. -/
def itemHint : TypeTree :=
  .marked (.union (.followed (.name (word ['I', 't', 'e', 'm'] (by decide +kernel))))
    (.name (word ['n', 'u', 'l', 'l'] (by decide +kernel))))

theorem item_type_keeps_meaning :
    paddedInterface.kind ≠ .isTrait ∧ itemHint.text = "?Item |null" ∧
    qualifyType paddedInterface itemHint.text = "?\\Lib\\Item |null" ∧
    read (qualifyType paddedInterface itemHint.text) foreignContext = .ofClass ⟨"Lib", "Item"⟩ ∧
    (∀ n ∈ itemHint.names, n.lower = "parent" → paddedInterface.parent ≠ none) ∧
    ((∀ target : NameContext, target.staticClass = some ⟨"Other", "T"⟩ →
        read (qualifyType paddedInterface itemHint.text) target =
          read itemHint.text { paddedInterface.context with staticClass := some ⟨"Other", "T"⟩ }) ↔
      ∀ m, itemHint.subject? = some m →
        m.isMarked = false ∧ ∀ c, denoted? paddedInterface m.name = some c → c.IsLegible) := by
  have hkind : paddedInterface.kind ≠ .isTrait := by decide
  have hparent : ∀ n ∈ itemHint.names, n.lower = "parent" → paddedInterface.parent ≠ none := by
    have hnames : (itemHint.names.all fun n => n.lower ≠ "parent") = true := by decide +kernel
    intro n hn hlower
    exact absurd hlower (of_decide_eq_true (List.all_eq_true.mp hnames n hn))
  exact ⟨hkind, by decide +kernel, by decide +kernel, by decide +kernel, hparent,
    qualified_type_keeps_meaning_iff paddedInterface hkind itemHint hparent (some ⟨"Other", "T"⟩)⟩

-- A mark within a union is left where it is, and a reader takes it for a part of the name.
example : read (qualifyType paddedInterface "null|?Item") foreignContext =
      .ofClass ⟨"Other\\?\\Lib", "Item"⟩ ∧
    read "null|?Item" paddedInterface.context = .ofClass ⟨"App", "?Item"⟩ := by
  decide +kernel

def selfHint : TypeTree := .name (word ['s', 'e', 'l', 'f'] (by decide +kernel))

/-- The name of the class is written out as it is, but what is read has lost its last character. -/
theorem self_of_padded_name_loses_meaning :
    (FileModel.ofText "I.php" paddedText).toOption.map FileModel.classes = some [paddedInterface] ∧
    paddedInterface.kind ≠ .isTrait ∧ selfHint.text = "self" ∧
    qualifyType paddedInterface selfHint.text = "\\App\\I\u00a0" ∧
    read (qualifyType paddedInterface selfHint.text) foreignContext = .ofClass ⟨"App", "I"⟩ ∧
    read selfHint.text { paddedInterface.context with staticClass := foreignContext.staticClass } =
      .ofClass ⟨"App", "I\u00a0"⟩ := by
  decide +kernel

end Generation

end CodeInsight
