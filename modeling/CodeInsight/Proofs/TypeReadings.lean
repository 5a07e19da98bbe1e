import CodeInsight.TypeHint
import CodeInsight.Proofs.AutoloadRoundTrip
import CodeInsight.Proofs.TrimmedTexts

/-!
# What a written type stands for

A type is written with names, `|`, `&`, `?`, parentheses and spaces. The grammar of such types is a
tree whose names may be written in any way; a reader finds the one name that the type is about,
whatever stands around it.

## Main Results

- `read_eq`: a hint stands for what its name stands for
- `TypeTree.outcome_render`: the reader finds the sole member of a union
- `TypeTree.outcome_withoutMark`: blanks and a mark in front do not matter
- `read_render`: a type is read by what it is about
-/

namespace CodeInsight.TypeHint

open Autoload.Table (AreWords)

variable {c : Char} {p : Char → Prop}

/-! ## Section 1: The grammar of types -/

/-- A name in a type: words between separators, with or without a separator in front. -/
structure TypeName where
  isRooted : Bool
  words : List Text
  areWords : AreWords words

namespace TypeName

def text (n : TypeName) : Text :=
  let name := List.intercalate [separator] n.words
  if n.isRooted then separator :: name else name

/-- The name as it is compared with words of the language. -/
def lower (n : TypeName) : String := (String.ofList n.text).toLower

def isNull (n : TypeName) : Bool := n.lower = "null"

end TypeName

/-- A type as it is written. -/
inductive TypeTree where
  | name (n : TypeName)
  | union (a b : TypeTree)
  | intersection (a b : TypeTree)
  | group (t : TypeTree)
  /-- The mark `?` stands before the type. -/
  | marked (t : TypeTree)
  /-- A space stands before the type. -/
  | spaced (t : TypeTree)
  /-- A space stands behind the type. -/
  | followed (t : TypeTree)

/-- What may stand before a name. -/
inductive Sign where
  | mark
  | space
  deriving DecidableEq

def Sign.char : Sign → Char
  | mark => '?'
  | space => ' '

/-- A name with what stands around it. -/
structure Member where
  lead : List Sign
  name : TypeName
  /-- Number of spaces behind the name. -/
  trail : Nat

namespace Member

/-- The text of a member whose name is written in a given way. -/
def text (write : TypeName → Text) (m : Member) : Text :=
  m.lead.map Sign.char ++ (write m.name ++ List.replicate m.trail ' ')

def isMarked (m : Member) : Bool := m.lead.contains .mark

/-- The member is passed over by a reader. -/
def isNull (m : Member) : Bool := !m.isMarked && m.name.isNull

end Member

namespace TypeTree

/-- The text of a type whose names are written in a given way. -/
def render (write : TypeName → Text) : TypeTree → Text
  | name n => write n
  | union a b => a.render write ++ '|' :: b.render write
  | intersection a b => a.render write ++ '&' :: b.render write
  | group t => '(' :: (t.render write ++ [')'])
  | marked t => '?' :: t.render write
  | spaced t => ' ' :: t.render write
  | followed t => t.render write ++ [' ']

/-- The type as it stands in a program. -/
def text (t : TypeTree) : String := String.ofList (t.render TypeName.text)

/-- The names of a type, from left to right. -/
def names : TypeTree → List TypeName
  | name n => [n]
  | union a b | intersection a b => a.names ++ b.names
  | group t | marked t | spaced t | followed t => t.names

/-- The type is a union of names, or one name. -/
def isUnion : TypeTree → Bool
  | name _ => true
  | union a b => a.isUnion && b.isUnion
  | intersection _ _ | group _ => false
  | marked t | spaced t | followed t => t.isUnion

/-- The members of a union that stands between signs and spaces. -/
def membersIn : List Sign → Nat → TypeTree → List Member
  | lead, trail, name n => [⟨lead, n, trail⟩]
  | lead, trail, union a b | lead, trail, intersection a b =>
    a.membersIn lead 0 ++ b.membersIn [] trail
  | lead, trail, group t => t.membersIn lead trail
  | lead, trail, marked t => t.membersIn (lead ++ [.mark]) trail
  | lead, trail, spaced t => t.membersIn (lead ++ [.space]) trail
  | lead, trail, followed t => t.membersIn lead (trail + 1)

/-- The type without the mark in front of it. -/
def unmarked : TypeTree → TypeTree
  | name n => name n
  | union a b => union a.unmarked b
  | intersection a b => intersection a.unmarked b
  | group t => group t
  | marked t => t
  | spaced t => spaced t.unmarked
  | followed t => followed t.unmarked

/-- The one member other than `null` in a union. -/
def sole? (t : TypeTree) : Option Member :=
  if t.isUnion then
    match (t.membersIn [] 0).filter fun m => !m.isNull with
    | [m] => some m
    | _ => none
  else none

/-- What a type is about: its one member other than `null`, once the mark in front is gone. -/
def subject? (t : TypeTree) : Option Member := t.unmarked.sole?

end TypeTree

/-! ## Section 2: The outcome of reading -/

/-- The marks of types that are no unions. -/
def otherMarks : List Char := ['&', '(']

/-- The one member of a union other than `null`, where the text has no mark of another kind of
type. -/
def outcome (text : Text) : Option String :=
  if text.contains '&' || text.contains '(' then none
  else match unionMembers text with
    | [m] => some m
    | _ => none

theorem forall_otherMarks : (∀ c ∈ otherMarks, p c) ↔ p '&' ∧ p '(' := by
  simp [otherMarks]

theorem outcome_eq_some_iff {text : Text} {s : String} :
    outcome text = some s ↔ (∀ c ∈ otherMarks, c ∉ text) ∧ unionMembers text = [s] := by
  unfold outcome
  rw [forall_otherMarks]
  split
  next hmark =>
    rw [Bool.or_eq_true, List.contains_iff_mem, List.contains_iff_mem] at hmark
    refine ⟨fun h => absurd h.symm (Option.some_ne_none s), ?_⟩
    rintro ⟨hnone, _⟩
    exact absurd hmark (not_or.mpr hnone)
  next hmark =>
    rw [Bool.or_eq_true, List.contains_iff_mem, List.contains_iff_mem, not_or] at hmark
    rw [and_iff_right hmark]
    cases unionMembers text with
    | nil => simp
    | cons m rest => cases rest <;> simp

theorem outcome_of_mark {text : Text} (hc : c ∈ otherMarks) (h : c ∈ text) :
    outcome text = none := by
  apply Option.eq_none_iff_forall_ne_some.mpr
  intro s hs
  exact (outcome_eq_some_iff.mp hs).1 c hc h

/-- The name that a hint is about, if there is one. -/
def soleName? (hint : String) : Option String :=
  if withoutMark hint.toList = [] then none else outcome (withoutMark hint.toList)

/-- **A hint stands for what its name stands for.** -/
theorem read_eq (hint : String) (context : NameContext) :
    read hint context = (soleName? hint).elim .unknown (single · context) := by
  unfold read soleName? outcome
  by_cases hempty : withoutMark hint.toList = []
  · simp [hempty]
  · simp only [hempty, decide_false, Bool.false_or, if_false]
    split
    · rfl
    · cases hmembers : unionMembers (withoutMark hint.toList) with
      | nil => rfl
      | cons m rest => cases rest <;> rfl

/-- The outcome depends on the members and on marks of other kinds of types. -/
theorem outcome_congr {a b : Text} (hmembers : unionMembers a = unionMembers b)
    (hmarks : ∀ c ∈ otherMarks, c ∈ a ↔ c ∈ b) : outcome a = outcome b := by
  apply Option.ext
  intro s
  rw [outcome_eq_some_iff, outcome_eq_some_iff, hmembers]
  exact and_congr_left' (forall₂_congr fun c hc => not_congr (hmarks c hc))

theorem unionMembers_congr {a b : Text} (h : Text.pieces '|' a = Text.pieces '|' b) :
    unionMembers a = unionMembers b :=
  congrArg (fun pieces => (pieces.map String.ofList).filter fun m => m.toLower ≠ "null") h

theorem outcome_trimEnd (text : Text) : outcome (Text.trimEnd text) = outcome text := by
  apply outcome_congr (unionMembers_congr (Text.pieces_trimEnd (by decide) text))
  rw [forall_otherMarks]
  exact ⟨Text.mem_trimEnd (by decide), Text.mem_trimEnd (by decide)⟩

theorem outcome_trim (text : Text) : outcome (Text.trim text) = outcome text := by
  apply outcome_congr (unionMembers_congr (Text.pieces_trim (by decide) text))
  rw [forall_otherMarks]
  exact ⟨Text.mem_trim (by decide), Text.mem_trim (by decide)⟩

theorem outcome_of_length_ne {text : Text} (h : (unionMembers text).length ≠ 1) :
    outcome text = none := by
  apply Option.eq_none_iff_forall_ne_some.mpr
  intro s hs
  rw [(outcome_eq_some_iff.mp hs).2] at h
  exact h rfl

/-! ## Section 3: Texts that begin with no word -/

/-- Characters that no word of the language begins with. -/
def foreignStarts : List Char := [separator, '?']

theorem forall_foreignStarts : (∀ c ∈ foreignStarts, p c) ↔ p separator ∧ p '?' := by
  simp [foreignStarts]

section

variable (hc : c ∈ foreignStarts)
include hc

theorem toLower_of_foreign : c.toLower = c := by
  revert c
  rw [forall_foreignStarts]
  exact ⟨by decide, by decide⟩

theorem toLower_ne_of_foreign (rest : Text) {word : String}
    (hword : word ∈ "$this" :: builtinTypes) :
    (String.ofList (c :: rest)).toLower ≠ word := by
  have hwords : (("$this" :: builtinTypes).all fun word =>
      foreignStarts.all fun d => word.toList.head? ≠ some d) = true := by decide +kernel
  have hhead := List.all_eq_true.mp (List.all_eq_true.mp hwords word hword) c hc
  rintro rfl
  apply of_decide_eq_true hhead
  rw [Text.toList_toLower, String.toList_ofList, List.map_cons, toLower_of_foreign hc,
    List.head?_cons]

/-- What begins with no word names a class, in every context. -/
theorem single_of_foreign (rest : Text) (context : NameContext) :
    single (String.ofList (c :: rest)) context =
      .ofClass (resolveName (String.ofList (c :: rest)) context.imports context.ns) := by
  have hword : ∀ {word : String}, word ∈ "$this" :: builtinTypes →
      (String.ofList (c :: rest)).toLower ≠ word := fun h => toLower_ne_of_foreign hc rest h
  have hlower : (String.ofList (c :: rest)).toLower =
      String.ofList (c :: rest.map Char.toLower) := by
    rw [← String.toList_inj, Text.toList_toLower, String.toList_ofList,
      String.toList_ofList, List.map_cons, toLower_of_foreign hc]
  have hbuiltin : isBuiltinType (String.ofList (c :: rest)).toLower = false := by
    rw [isBuiltinType, ← Bool.not_eq_true, List.contains_iff_mem, hlower]
    intro hmem
    exact toLower_ne_of_foreign hc _ (List.mem_cons_of_mem _ hmem) rfl
  simp only [single, hbuiltin, hword (show "self" ∈ _ by decide),
    hword (show "static" ∈ _ by decide), hword (show "$this" ∈ _ by decide),
    hword (show "parent" ∈ _ by decide), hword (show "mixed" ∈ _ by decide), decide_false,
    Bool.or_self, Bool.false_eq_true, if_false]

/-- The first member of what begins with no word goes up to a bar. -/
theorem unionMembers_of_foreign (rest : Text) :
    ∃ others, unionMembers (c :: rest) =
      String.ofList (c :: Text.trimEnd (rest.takeWhile (· ≠ '|'))) :: others := by
  have hplain : ∀ c ∈ foreignStarts, c ≠ '|' ∧ Text.isBlank c = false :=
    forall_foreignStarts.mpr ⟨by decide, by decide⟩
  obtain ⟨hbar, hblank⟩ := hplain c hc
  obtain ⟨others, hpieces⟩ := Text.pieces_eq_cons '|' (c :: rest)
  rw [List.takeWhile_cons_of_pos (by simpa using hbar),
    Text.trim_cons_of_not_blank hblank] at hpieces
  refine ⟨(others.map String.ofList).filter fun m => m.toLower ≠ "null", ?_⟩
  show ((Text.pieces '|' (c :: rest)).map String.ofList).filter _ = _
  rw [hpieces, List.map_cons]
  exact List.filter_cons_of_pos (decide_eq_true (toLower_ne_of_foreign hc _ (by decide)))

end

/-! ## Section 4: Names -/

namespace TypeName

variable {n : TypeName}

theorem mem_text (h : c ∈ n.text) : Text.isIdentifierPart c = true ∨ c = separator := by
  have hname : c ∈ List.intercalate [separator] n.words →
      Text.isIdentifierPart c = true ∨ c = separator := by
    intro hc
    by_contra hneither
    rw [not_or, Bool.not_eq_true] at hneither
    exact Text.notMem_intercalate hneither.2 (n.areWords.notMem hneither.1) hc
  unfold text at h
  split at h
  · rcases List.mem_cons.mp h with hroot | hc
    · exact .inr hroot
    · exact hname hc
  · exact hname h

theorem isBlank_of_mem_text (h : c ∈ n.text) : Text.isBlank c = false := by
  rcases mem_text h with hpart | rfl
  · exact Text.isBlank_eq_false_of_isIdentifierPart hpart
  · decide

theorem notMem_text (hpart : Text.isIdentifierPart c = false) (hsep : c ≠ separator) :
    c ∉ n.text := by
  intro h
  rcases mem_text h with hmem | heq
  · rw [hpart] at hmem
    cases hmem
  · exact hsep heq

theorem otherMark_notMem_text : ∀ c ∈ otherMarks, c ∉ n.text := by
  rw [forall_otherMarks]
  exact ⟨notMem_text (by decide) (by decide), notMem_text (by decide) (by decide)⟩

theorem text_ne_nil (n : TypeName) : n.text ≠ [] := by
  unfold text
  split
  · exact List.cons_ne_nil _ _
  · exact n.areWords.intercalate_ne_nil separator

theorem trim_text (n : TypeName) : Text.trim n.text = n.text := by
  obtain ⟨c, rest, hcons⟩ := List.exists_cons_of_ne_nil n.text_ne_nil
  have hend : Text.trimEnd n.text = n.text := by
    apply Text.trimEnd_eq_self_iff.mpr
    cases hlast : n.text.getLast? with
    | none => rfl
    | some d => exact isBlank_of_mem_text (List.mem_of_getLast? hlast)
  have hc : Text.isBlank c = false := by
    apply isBlank_of_mem_text (n := n)
    rw [hcons]
    exact List.mem_cons_self
  rw [Text.trim, hcons, Text.trimStart_cons_of_not_blank hc, ← hcons, hend]

theorem unionMembers_text (n : TypeName) :
    unionMembers n.text = if n.isNull then [] else [String.ofList n.text] := by
  show ((Text.pieces '|' n.text).map String.ofList).filter _ = _
  rw [Text.pieces_of_notMem (notMem_text (by decide) (by decide)), n.trim_text, List.map_singleton]
  by_cases hnull : n.lower = "null"
  · rw [isNull, decide_eq_true hnull, if_pos rfl]
    have hword : (String.ofList n.text).toLower = "null" := hnull
    exact List.filter_cons_of_neg (by simpa using hword)
  · rw [isNull, decide_eq_false hnull, if_neg Bool.false_ne_true]
    exact List.filter_cons_of_pos (decide_eq_true hnull)

theorem outcome_text (h : n.isNull = false) : outcome n.text = some (String.ofList n.text) := by
  apply outcome_eq_some_iff.mpr
  refine ⟨otherMark_notMem_text, ?_⟩
  rw [unionMembers_text, h]
  rfl

end TypeName

/-! ## Section 5: Members -/

/-- Names are written so that a reader passes over `null` and finds something in every other. -/
structure Telling (write : TypeName → Text) : Prop where
  begun : ∀ n : TypeName, ∃ c rest, write n = c :: rest ∧ Text.isBlank c = false ∧ c ≠ '?'
  null : ∀ n : TypeName, n.isNull = true → write n = n.text
  other : ∀ n : TypeName, n.isNull = false → unionMembers (write n) ≠ []

theorem telling_text : Telling TypeName.text where
  begun n := by
    obtain ⟨c, rest, hcons⟩ := List.exists_cons_of_ne_nil n.text_ne_nil
    have hmem : c ∈ n.text := by
      rw [hcons]
      exact List.mem_cons_self
    refine ⟨c, rest, hcons, TypeName.isBlank_of_mem_text hmem, ?_⟩
    rintro rfl
    exact TypeName.notMem_text (by decide) (by decide) hmem
  null _ _ := rfl
  other n h := by
    rw [n.unionMembers_text, h]
    exact List.cons_ne_nil _ _

variable {write : TypeName → Text}

namespace Member

section

variable {m : Member}

theorem mem_text_iff (hc : c ∈ '|' :: otherMarks) (m : Member) :
    c ∈ m.text write ↔ c ∈ write m.name := by
  have hlead : c ∉ m.lead.map Sign.char := by
    intro hmem
    obtain ⟨sign, _, rfl⟩ := List.mem_map.mp hmem
    cases sign <;> exact absurd hc (by decide)
  have htrail : c ∉ List.replicate m.trail ' ' := by
    intro hmem
    obtain rfl := List.eq_of_mem_replicate hmem
    exact absurd hc (by decide)
  rw [text, List.mem_append, List.mem_append, or_iff_right hlead, or_iff_left htrail]

/-- Spaces around a name do not matter. -/
theorem pieces_text (h : m.isMarked = false) :
    Text.pieces '|' (m.text write) = Text.pieces '|' (write m.name) := by
  have hlead : ∀ c ∈ m.lead.map Sign.char, Text.isBlank c = true ∧ c ≠ '|' := by
    intro c hc
    obtain ⟨sign, hsign, rfl⟩ := List.mem_map.mp hc
    cases sign with
    | mark => simp [isMarked, hsign] at h
    | space => decide
  rw [text, Text.pieces_append_blanks hlead, Text.pieces_append_replicate (by decide) (by decide)]

theorem outcome_text (h : m.isMarked = false) : outcome (m.text write) = outcome (write m.name) :=
  outcome_congr (unionMembers_congr (pieces_text h)) fun _ hc =>
    m.mem_text_iff (List.mem_cons_of_mem _ hc)

theorem unionMembers_of_isNull (hw : Telling write) (h : m.isNull = true) :
    unionMembers (m.text write) = [] := by
  rw [isNull, Bool.and_eq_true, Bool.not_eq_true'] at h
  rw [unionMembers_congr (pieces_text h.1), hw.null _ h.2, TypeName.unionMembers_text, if_pos h.2]

/-- The mark of a member stands behind spaces. -/
theorem exists_text_of_marked (h : m.isMarked = true) (write : TypeName → Text) :
    ∃ spaces rest, m.text write = List.replicate spaces ' ' ++ '?' :: rest := by
  have hlead : ∀ {lead : List Sign}, .mark ∈ lead → ∀ tail : Text, ∃ spaces rest,
      lead.map Sign.char ++ tail = List.replicate spaces ' ' ++ '?' :: rest := by
    intro lead hmark tail
    induction lead with
    | nil => cases hmark
    | cons sign lead ih =>
      cases sign with
      | mark => exact ⟨0, lead.map Sign.char ++ tail, rfl⟩
      | space =>
        obtain ⟨spaces, rest, hrest⟩ := ih (by simpa using hmark)
        exact ⟨spaces + 1, rest, congrArg (' ' :: ·) hrest⟩
  exact hlead (by simpa [isMarked] using h) _

/-- What is found first in a marked member begins with the mark. -/
theorem unionMembers_of_marked (h : m.isMarked = true) (write : TypeName → Text) :
    ∃ rest others, unionMembers (m.text write) = String.ofList ('?' :: rest) :: others := by
  obtain ⟨spaces, rest, htext⟩ := exists_text_of_marked h write
  obtain ⟨others, hmembers⟩ := unionMembers_of_foreign (c := '?') (by decide) rest
  refine ⟨_, others, Eq.trans ?_ hmembers⟩
  rw [htext]
  apply unionMembers_congr
  apply Text.pieces_append_blanks
  intro c hc
  obtain rfl := List.eq_of_mem_replicate hc
  decide

theorem unionMembers_of_not_isNull (hw : Telling write) (h : m.isNull = false) :
    unionMembers (m.text write) ≠ [] := by
  cases hmarked : m.isMarked with
  | false =>
    rw [isNull, hmarked, Bool.not_false, Bool.true_and] at h
    rw [unionMembers_congr (pieces_text hmarked)]
    exact hw.other m.name h
  | true =>
    obtain ⟨rest, others, hmembers⟩ := unionMembers_of_marked hmarked write
    rw [hmembers]
    exact List.cons_ne_nil _ _

/-- A mark that stands within a type is read as part of a name. -/
theorem outcome_of_marked (h : m.isMarked = true) (write : TypeName → Text) :
    outcome (m.text write) = none ∨ ∃ rest, outcome (m.text write) =
      some (String.ofList ('?' :: rest)) := by
  obtain ⟨rest, others, hmembers⟩ := unionMembers_of_marked h write
  cases houtcome : outcome (m.text write) with
  | none => exact .inl rfl
  | some s =>
    have hsole := hmembers.symm.trans (outcome_eq_some_iff.mp houtcome).2
    exact .inr ⟨rest, congrArg some (List.cons.inj hsole).1.symm⟩

theorem outcome_text_ne_none (h : m.isMarked = true) : outcome (m.text TypeName.text) ≠ none := by
  obtain ⟨rest, others, hmembers⟩ := unionMembers_of_marked h TypeName.text
  have hnone : ∀ c ∈ '|' :: otherMarks, c ∉ m.text TypeName.text := by
    intro c hc hmem
    rw [m.mem_text_iff hc] at hmem
    rcases List.mem_cons.mp hc with rfl | hother
    · exact TypeName.notMem_text (by decide) (by decide) hmem
    · exact TypeName.otherMark_notMem_text c hother hmem
  -- there is one piece, so nothing else is found
  have hone : (unionMembers (m.text TypeName.text)).length ≤ 1 := by
    show (((Text.pieces '|' (m.text TypeName.text)).map String.ofList).filter _).length ≤ 1
    rw [Text.pieces_of_notMem (hnone '|' List.mem_cons_self)]
    exact List.length_filter_le _ _
  have hothers : others = [] := by
    rw [hmembers, List.length_cons] at hone
    exact List.length_eq_zero_iff.mp (by omega)
  rw [outcome_eq_some_iff.mpr ⟨fun c hc => hnone c (List.mem_cons_of_mem _ hc), hothers ▸ hmembers⟩]
  exact Option.some_ne_none _

end

end Member

/-! ## Section 6: The reader finds what the tree is about -/

variable {m : Member}

namespace TypeTree

section

variable {t : TypeTree}

/-- An intersection and a group show by their marks. -/
theorem exists_mark (write : TypeName → Text) (h : t.isUnion = false) :
    ∃ c ∈ otherMarks, c ∈ t.render write := by
  induction t with
  | name n => cases h
  | union a b iha ihb =>
    rcases Bool.and_eq_false_iff.mp h with ha | hb
    · obtain ⟨c, hc, hmem⟩ := iha ha
      exact ⟨c, hc, List.mem_append_left _ hmem⟩
    · obtain ⟨c, hc, hmem⟩ := ihb hb
      exact ⟨c, hc, List.mem_append_right _ (List.mem_cons_of_mem _ hmem)⟩
  | intersection a b => exact ⟨'&', by decide, List.mem_append_right _ List.mem_cons_self⟩
  | group t => exact ⟨'(', by decide, List.mem_cons_self⟩
  | marked t ih | spaced t ih =>
    obtain ⟨c, hc, hmem⟩ := ih h
    exact ⟨c, hc, List.mem_cons_of_mem _ hmem⟩
  | followed t ih =>
    obtain ⟨c, hc, hmem⟩ := ih h
    exact ⟨c, hc, List.mem_append_left _ hmem⟩

/-- In a union, marks of other kinds of types come from its names only. -/
theorem mem_render_iff (h : t.isUnion = true) (hc : c ∈ otherMarks) (lead : List Sign)
    (trail : Nat) :
    c ∈ t.render write ↔ ∃ m ∈ t.membersIn lead trail, c ∈ write m.name := by
  -- signs and spaces are none of the marks in question
  have hne : ∀ d ∈ ['|', '?', ' '], c ≠ d := by
    rintro d hd rfl
    rcases List.mem_pair.mp hc with rfl | rfl
    · exact absurd hd (by decide)
    · exact absurd hd (by decide)
  induction t generalizing lead trail with
  | name n => simp [render, membersIn]
  | union a b iha ihb =>
    obtain ⟨ha, hb⟩ := Bool.and_eq_true_iff.mp h
    simp only [render, membersIn, List.mem_append, List.mem_cons, hne '|' (by decide), false_or,
      iha ha lead 0, ihb hb [] trail, or_and_right, exists_or]
  | intersection a b => cases h
  | group t => cases h
  | marked t ih =>
    rw [render, membersIn, List.mem_cons, or_iff_right (hne '?' (by decide))]
    exact ih h _ trail
  | spaced t ih =>
    rw [render, membersIn, List.mem_cons, or_iff_right (hne ' ' (by decide))]
    exact ih h _ trail
  | followed t ih =>
    rw [render, membersIn, List.mem_append, List.mem_singleton, or_iff_left (hne ' ' (by decide))]
    exact ih h lead _

/-- The pieces of a union between signs and spaces are those of its members. -/
theorem pieces_render (write : TypeName → Text) (h : t.isUnion = true) (lead : List Sign)
    (trail : Nat) :
    Text.pieces '|' (lead.map Sign.char ++ (t.render write ++ List.replicate trail ' ')) =
      (t.membersIn lead trail).flatMap fun m => Text.pieces '|' (m.text write) := by
  induction t generalizing lead trail with
  | name n => rw [membersIn, List.flatMap_singleton, render, Member.text]
  | union a b iha ihb =>
    obtain ⟨ha, hb⟩ := Bool.and_eq_true_iff.mp h
    -- the bar parts what belongs to the first type from what belongs to the second
    have hfirst := iha ha lead 0
    have hsecond := ihb hb [] trail
    rw [List.replicate_zero, List.append_nil] at hfirst
    rw [List.map_nil, List.nil_append] at hsecond
    rw [membersIn, List.flatMap_append, ← hfirst, ← hsecond, ← Text.pieces_append_mark, render]
    simp only [List.append_assoc, List.cons_append]
  | intersection a b => cases h
  | group t => cases h
  | marked t ih | spaced t ih =>
    rw [membersIn, ← ih h, render, List.map_append, List.append_assoc]
    rfl
  | followed t ih =>
    rw [membersIn, ← ih h, render, List.append_assoc, List.singleton_append, ← List.replicate_succ]

theorem unionMembers_render (write : TypeName → Text) (h : t.isUnion = true) :
    unionMembers (t.render write) =
      (t.membersIn [] 0).flatMap fun m => unionMembers (m.text write) := by
  have hpieces := pieces_render write h [] 0
  rw [List.map_nil, List.nil_append, List.replicate_zero, List.append_nil] at hpieces
  show ((Text.pieces '|' (t.render write)).map String.ofList).filter _ = _
  rw [hpieces, List.map_flatMap, List.filter_flatMap]
  rfl

section

variable (hw : Telling write)
include hw

/-- Only members other than `null` are found. -/
theorem flatMap_unionMembers (members : List Member) :
    (members.flatMap fun m => unionMembers (m.text write)) =
      (members.filter fun m => !m.isNull).flatMap fun m => unionMembers (m.text write) := by
  induction members with
  | nil => rfl
  | cons m members ih =>
    rw [List.flatMap_cons, ih]
    cases hnull : m.isNull with
    | true =>
      rw [Member.unionMembers_of_isNull hw hnull, List.filter_cons_of_neg (by simp [hnull]),
        List.nil_append]
    | false => rw [List.filter_cons_of_pos (by simp [hnull]), List.flatMap_cons]

/-- Only members other than `null` have marks of other kinds of types. -/
theorem exists_mem_filter (hc : c ∈ otherMarks) (members : List Member) :
    (∃ m ∈ members, c ∈ write m.name) ↔
      ∃ m ∈ members.filter (fun m => !m.isNull), c ∈ write m.name := by
  constructor
  · rintro ⟨m, hm, hmem⟩
    refine ⟨m, List.mem_filter.mpr ⟨hm, ?_⟩, hmem⟩
    rw [Bool.not_eq_true', Bool.eq_false_iff]
    intro hnull
    rw [hw.null m.name (Bool.and_eq_true_iff.mp hnull).2] at hmem
    exact TypeName.otherMark_notMem_text c hc hmem
  · rintro ⟨m, hm, hmem⟩
    exact ⟨m, List.mem_of_mem_filter hm, hmem⟩

/-- Every member other than `null` is found. -/
theorem length_le_unionMembers {members : List Member} (h : ∀ m ∈ members, m.isNull = false) :
    members.length ≤ (members.flatMap fun m => unionMembers (m.text write)).length := by
  induction members with
  | nil => exact Nat.le_refl 0
  | cons m members ih =>
    have hfirst :=
      List.length_pos_of_ne_nil (m.unionMembers_of_not_isNull hw (h m List.mem_cons_self))
    have hrest := ih fun k hk => h k (List.mem_cons_of_mem m hk)
    rw [List.flatMap_cons, List.length_append, List.length_cons]
    omega

/-- **The reader finds** the sole member of a union. -/
theorem outcome_render (t : TypeTree) :
    outcome (t.render write) = t.sole?.bind fun m => outcome (m.text write) := by
  unfold sole?
  cases hunion : t.isUnion with
  | false =>
    obtain ⟨c, hc, hmem⟩ := exists_mark write hunion
    rw [outcome_of_mark hc hmem]
    rfl
  | true =>
    have hmembers := (unionMembers_render write hunion).trans (flatMap_unionMembers hw _)
    have hmarks : ∀ c ∈ otherMarks, c ∈ t.render write ↔
        ∃ m ∈ (t.membersIn [] 0).filter (fun m => !m.isNull), c ∈ write m.name := by
      intro c hc
      rw [mem_render_iff hunion hc [] 0]
      exact exists_mem_filter hw hc _
    have hcount : ∀ m ∈ (t.membersIn [] 0).filter (fun m => !m.isNull), m.isNull = false := by
      intro m hm
      simpa using (List.mem_filter.mp hm).2
    rw [if_pos rfl]
    -- what is found depends on how many members other than `null` there are
    cases hothers : (t.membersIn [] 0).filter fun m => !m.isNull with
    | nil =>
      rw [hothers] at hmembers
      exact outcome_of_length_ne (by rw [hmembers]; exact Nat.zero_ne_one)
    | cons m rest =>
      rw [hothers] at hmembers hmarks hcount
      cases rest with
      | nil =>
        rw [List.flatMap_singleton] at hmembers
        apply outcome_congr hmembers
        intro c hc
        rw [hmarks c hc, m.mem_text_iff (List.mem_cons_of_mem _ hc)]
        simp only [List.mem_singleton, exists_eq_left]
      | cons m' rest =>
        have hfound := length_le_unionMembers hw hcount
        rw [← hmembers, List.length_cons, List.length_cons] at hfound
        exact outcome_of_length_ne (by omega)

end

/-- Members have names of the type. -/
theorem name_mem_names {lead : List Sign} {trail : Nat} (h : m ∈ t.membersIn lead trail) :
    m.name ∈ t.names := by
  induction t generalizing lead trail with
  | name n =>
    obtain rfl := List.mem_singleton.mp h
    exact List.mem_singleton_self n
  | union a b iha ihb | intersection a b iha ihb =>
    exact (List.mem_append.mp h).elim (fun ha => List.mem_append_left _ (iha ha))
      fun hb => List.mem_append_right _ (ihb hb)
  | group t ih => exact ih h
  | marked t ih => exact ih h
  | spaced t ih => exact ih h
  | followed t ih => exact ih h

theorem names_unmarked (t : TypeTree) : t.unmarked.names = t.names := by
  induction t with
  | name n => rfl
  | union a b iha | intersection a b iha => rw [unmarked, names, iha, names]
  | group t => rfl
  | marked t => rfl
  | spaced t ih => exact ih
  | followed t ih => exact ih

theorem mem_of_sole? (h : t.sole? = some m) : m ∈ t.membersIn [] 0 ∧ m.isNull = false := by
  unfold sole? at h
  split at h
  · split at h
    next k hothers =>
      obtain rfl := Option.some.inj h
      have hmem : k ∈ (t.membersIn [] 0).filter fun m => !m.isNull := by
        rw [hothers]
        exact List.mem_singleton_self k
      obtain ⟨hmembers, hnull⟩ := List.mem_filter.mp hmem
      exact ⟨hmembers, by simpa using hnull⟩
    next => cases h
  · cases h

end

/-! ## Section 7: What stands in front -/

/-- A type either begins with a mark, behind spaces, or with something else that is not blank. -/
inductive Fronted (write : TypeName → Text) (t : TypeTree) : Prop where
  | mark (spaces : Nat) (rest : Text)
      (hrender : t.render write = List.replicate spaces ' ' ++ '?' :: rest)
      (hunmarked : t.unmarked.render write = List.replicate spaces ' ' ++ rest)
  | other (spaces : Nat) (c : Char) (rest : Text)
      (hrender : t.render write = List.replicate spaces ' ' ++ c :: rest)
      (hblank : Text.isBlank c = false) (hmark : c ≠ '?') (hunmarked : t.unmarked = t)

theorem Fronted.append {a b : TypeTree} {tail : Text} (h : Fronted write a)
    (hrender : b.render write = a.render write ++ tail)
    (hunmarked : b.unmarked.render write = a.unmarked.render write ++ tail)
    (hsame : a.unmarked = a → b.unmarked = b) : Fronted write b := by
  cases h with
  | mark spaces rest ha ha' =>
    apply Fronted.mark spaces (rest ++ tail)
    · rw [hrender, ha, List.append_assoc, List.cons_append]
    · rw [hunmarked, ha', List.append_assoc]
  | other spaces c rest ha hblank hmark ha' =>
    apply Fronted.other spaces c (rest ++ tail) _ hblank hmark (hsame ha')
    rw [hrender, ha, List.append_assoc, List.cons_append]

theorem fronted (hw : Telling write) (t : TypeTree) : Fronted write t := by
  induction t with
  | name n =>
    obtain ⟨c, rest, hcons, hblank, hmark⟩ := hw.begun n
    exact .other 0 c rest hcons hblank hmark rfl
  | union a b iha => exact iha.append rfl rfl fun h => congrArg (union · b) h
  | intersection a b iha => exact iha.append rfl rfl fun h => congrArg (intersection · b) h
  | group t => exact .other 0 '(' _ rfl (by decide) (by decide) rfl
  | marked t => exact .mark 0 (t.render write) rfl rfl
  | spaced t ih =>
    cases ih with
    | mark spaces rest hrender hunmarked =>
      apply Fronted.mark (spaces + 1) rest
      · rw [render, hrender, List.replicate_succ, List.cons_append]
      · rw [unmarked, render, hunmarked, List.replicate_succ, List.cons_append]
    | other spaces c rest hrender hblank hmark hunmarked =>
      have hspaced : (spaced t).unmarked = spaced t := congrArg spaced hunmarked
      apply Fronted.other (spaces + 1) c rest _ hblank hmark hspaced
      rw [render, hrender, List.replicate_succ, List.cons_append]
  | followed t ih => exact ih.append rfl rfl fun h => congrArg followed h

/-- Every type has a character that is not blank, besides a mark in front. -/
theorem exists_not_blank (hw : Telling write) (t : TypeTree) :
    ∃ c ∈ t.render write, Text.isBlank c = false := by
  cases fronted hw t with
  | mark spaces rest hrender =>
    exact ⟨'?', by rw [hrender]; exact List.mem_append_right _ List.mem_cons_self, by decide⟩
  | other spaces c rest hrender hblank =>
    exact ⟨c, by rw [hrender]; exact List.mem_append_right _ List.mem_cons_self, hblank⟩

theorem trim_spaces (spaces : Nat) (text : Text) :
    Text.trim (List.replicate spaces ' ' ++ text) = Text.trim text := by
  induction spaces with
  | zero => rfl
  | succ spaces ih =>
    rw [List.replicate_succ, List.cons_append, Text.trim_cons_blank (by decide), ih]

/-- Without blanks around it and the mark in front, a type is read as the one without that mark. -/
theorem outcome_withoutMark (hw : Telling write) (t : TypeTree) :
    withoutMark (t.render write) ≠ [] ∧
      outcome (withoutMark (t.render write)) = outcome (t.unmarked.render write) := by
  obtain ⟨d, hd, hdblank⟩ := exists_not_blank hw t.unmarked
  cases fronted hw t with
  | mark spaces rest hrender hunmarked =>
    have hwithout : withoutMark (t.render write) = Text.trimEnd rest := by
      unfold withoutMark
      rw [hrender, trim_spaces, Text.trim_cons_of_not_blank (by decide)]
      rfl
    rw [hwithout, outcome_trimEnd, hunmarked, ← outcome_trim (_ ++ rest), trim_spaces, outcome_trim]
    refine ⟨?_, rfl⟩
    -- what is not blank stands behind the mark and is not taken off
    rw [hunmarked, List.mem_append] at hd
    have hrest : d ∈ rest := hd.resolve_left fun hspace => by
      rw [List.eq_of_mem_replicate hspace] at hdblank
      exact absurd hdblank (by decide)
    exact List.ne_nil_of_mem ((Text.mem_trimEnd hdblank).mpr hrest)
  | other spaces c rest hrender hblank hmark hunmarked =>
    have htrim : Text.trim (t.render write) = c :: Text.trimEnd rest := by
      rw [hrender, trim_spaces, Text.trim_cons_of_not_blank hblank]
    have hwithout : withoutMark (t.render write) = Text.trim (t.render write) := by
      unfold withoutMark
      split
      next rest' hrest' => exact absurd (List.cons.inj (htrim.symm.trans hrest')).1 hmark
      next => rfl
    rw [hwithout, outcome_trim, hunmarked, htrim]
    exact ⟨List.cons_ne_nil _ _, rfl⟩

end TypeTree

/-- A type whose names are written in a given way is read by what it is about. -/
theorem read_render (hw : Telling write) (t : TypeTree) (context : NameContext) :
    read (String.ofList (t.render write)) context =
      (t.subject?.bind fun m => outcome (m.text write)).elim .unknown (single · context) := by
  obtain ⟨hne, houtcome⟩ := t.outcome_withoutMark hw
  rw [read_eq, soleName?, String.toList_ofList, if_neg hne, houtcome, TypeTree.outcome_render hw,
    TypeTree.subject?]

end CodeInsight.TypeHint
