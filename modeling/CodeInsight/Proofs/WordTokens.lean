import Mathlib.Data.List.TakeWhile
import CodeInsight.Proofs.TokenBorders

/-!
# Tokens that are words

Every round of the lexer takes a character, and the tokens that are words (keywords, identifiers and
qualified names) are exactly the longest names in code.

## Main Results

- `Grammar.step_proper`: a token has a character at least
- `Grammar.step_word`: a word stands in code, and it is the longest name that stands there
- `Grammar.IsName.codeStep`: a name is one token
-/

namespace CodeInsight.Grammar

open Lexeme Template Lexer

variable {mode : Mode} {l : Lexeme} {m n : Nat}

/-! ## Section 1: What the recognisers answer with -/

section

variable {cs : Text}

/-- Keywords, identifiers and names with backslashes. -/
def TokenKind.isWord : TokenKind → Bool
  | .identifier | .qualified | .fullyQualified | .keyword _ => true
  | _ => false

/-- Symbols and closing tags. -/
def TokenKind.isMark : TokenKind → Bool
  | .symbol _ | .closeTag => true
  | _ => false

/-- A lexeme that is taken has a character at least. -/
def Lexeme.Proper (l : Lexeme) : Prop := l.kind = .invalid ∨ 0 < l.length

/-- A lexeme with a character at least, and neither a word nor a mark. -/
def Lexeme.Other (l : Lexeme) : Prop := l.Proper ∧ l.kind.isWord = false ∧ l.kind.isMark = false

theorem plainString_other (m : Nat) (quote : Char) (cs : Text) :
    (plainString m quote cs).Other := by
  unfold plainString
  split
  · exact ⟨.inr (by dsimp only; omega), rfl, rfl⟩
  · exact ⟨.inr (by dsimp only; omega), rfl, rfl⟩

theorem quoted?_other (h : quoted? m cs = some l) : l.Other := by
  unfold quoted? at h
  split at h
  · cases h
    exact plainString_other _ _ _
  · cases h
    split
    · exact ⟨.inr (Nat.succ_pos _), rfl, rfl⟩
    · exact plainString_other _ _ _
  · split at h <;> cases h
    exact ⟨.inr Nat.one_pos, rfl, rfl⟩
  · cases h

theorem string?_other (h : string? cs = some l) : l.Other := by
  unfold string? at h
  split at h <;> exact quoted?_other h

theorem dollarName?_other (h : dollarName? cs = some l) : l.Other := by
  unfold dollarName? at h
  split at h
  · split at h <;> cases h
    exact ⟨.inr (Nat.succ_pos _), rfl, rfl⟩
  · cases h

theorem digitsLength_le (p : Char → Bool) : ∀ cs : Text, digitsLength p cs ≤ cs.length
  | [] => Nat.le_refl _
  | [c] => by
    by_cases hc : c = '_' <;> simp only [digitsLength]
    all_goals split <;> simp
  | c :: d :: cs => by
    have hone := digitsLength_le p (d :: cs)
    have htwo := digitsLength_le p cs
    by_cases hc : c = '_'
    · subst hc
      simp only [digitsLength, List.length_cons]
      split <;> omega
    · rw [digitsLength_cons hc]
      simp only [List.length_cons] at hone ⊢
      split <;> omega

theorem digitsLength_pos {p : Char → Bool} {c : Char} (hc : p c = true) (hc' : c ≠ '_')
    (cs : Text) :
    0 < digitsLength p (c :: cs) := by
  rw [digitsLength_cons hc', if_pos hc]
  exact Nat.succ_pos _

theorem wholeNumber_other {digits : Text} (h : digits ≠ []) : (wholeNumber digits).Other := by
  have hpos := List.length_pos_iff.mpr h
  unfold wholeNumber
  split
  · dsimp only
    split
    · exact ⟨.inr hpos, rfl, rfl⟩
    · exact ⟨.inl rfl, rfl, rfl⟩
  · exact ⟨.inr hpos, rfl, rfl⟩

theorem decimal_other (h : 0 < digitsLength Char.isDigit cs ∨ 0 < fractionLength cs) :
    (decimal cs).Other := by
  unfold decimal
  dsimp only
  split
  next hwhole =>
    refine wholeNumber_other ?_
    have hle := digitsLength_le Char.isDigit cs
    obtain hdigits | hfraction := h
    · intro hnil
      have hlength := congrArg List.length hnil
      simp only [List.length_take, List.length_nil] at hlength
      omega
    · by_cases hzero : digitsLength Char.isDigit cs = 0
      · simp only [hzero, List.drop_zero] at hwhole
        omega
      · intro hnil
        have hlength := congrArg List.length hnil
        simp only [List.length_take, List.length_nil] at hlength
        omega
  next hwhole => exact ⟨.inr (by simp only; omega), rfl, rfl⟩

theorem number?_other (h : number? cs = some l) : l.Other := by
  unfold number? at h
  split at h
  · split at h <;> cases h
    exact decimal_other (.inr (Nat.succ_pos _))
  next d rest _ =>
    split at h
    next hdigit =>
      rw [Option.orElse_eq_orElse] at h
      -- digits in another base, if a letter says so
      cases hradix : radixNumber? (d :: rest) with
      | some l' =>
        rw [hradix] at h
        cases h
        unfold radixNumber? at hradix
        split at hradix
        · obtain ⟨p, -, hdigits⟩ := Option.bind_eq_some_iff.mp hradix
          obtain ⟨-, -, hl⟩ := Option.bind_eq_some_iff.mp hdigits
          cases hl
          exact ⟨.inr (Nat.succ_pos _), rfl, rfl⟩
        · cases hradix
      | none =>
        rw [hradix] at h
        cases h
        have hne : d ≠ '_' := by
          rintro rfl
          exact absurd hdigit (by decide)
        exact decimal_other (.inl (digitsLength_pos hdigit hne rest))
    next => cases h
  · cases h

theorem spacedLength_pos {w : Char} {ws : Text} (h : spacedLength (w :: ws) cs = some n) :
    0 < n := by
  cases cs with
  | nil => cases h
  | cons c rest =>
    unfold spacedLength at h
    split at h
    · obtain ⟨m, -, rfl, rfl⟩ := Option.map_eq_some_iff.mp h
      exact Nat.succ_pos m
    · split at h
      · obtain ⟨m, -, rfl, rfl⟩ := Option.map_eq_some_iff.mp h
        exact Nat.succ_pos m
      · cases h

theorem cast?_other (h : cast? cs = some l) : l.Other := by
  unfold cast? at h
  split at h
  · obtain ⟨n, hn, rfl, rfl⟩ := Option.map_eq_some_iff.mp h
    obtain ⟨name, -, hname⟩ := List.exists_of_findSome?_eq_some hn
    exact ⟨.inr (spacedLength_pos hname), rfl, rfl⟩
  · cases h

theorem symbol?_proper (h : symbol? cs = some l) : l.Proper ∧ l.kind.isWord = false := by
  have hshort : (Symbol.spellings.all fun s => decide (0 < s.1.length)) = true := by decide +kernel
  unfold symbol? at h
  split at h
  · cases h
    exact ⟨.inr (by decide), rfl⟩
  · obtain ⟨s, hs, rfl⟩ := Option.map_eq_some_iff.mp h
    have hpos := List.all_eq_true.mp hshort s (List.mem_of_find?_eq_some hs)
    exact ⟨.inr (of_decide_eq_true hpos), rfl⟩

end

/-! ## Section 2: Names -/

section

variable {cs s x : Text} {c : Char}

/-- Words joined by single backslashes. -/
structure IsName (x : Text) : Prop where
  starts : startsWord x = true
  whole : nameLength x = x.length

theorem IsName.ne_nil (h : IsName x) : x ≠ [] := by
  rintro rfl
  cases h.starts

theorem nameLength_part (h : Text.isWordPart c = true) (cs : Text) :
    nameLength (c :: cs) = nameLength cs + 1 := by
  simp [nameLength, h]

theorem nameLength_backslash (h : startsWord cs = true) :
    nameLength ('\\' :: cs) = nameLength cs + 1 := by
  simp [nameLength, h]

/-- A name goes on with a character exactly if that is part of a word, or a backslash before one. -/
theorem nameLength_cons_pos (h : 0 < nameLength (c :: cs)) :
    (Text.isWordPart c = true ∨ c = '\\' ∧ startsWord cs = true) ∧
      nameLength (c :: cs) = nameLength cs + 1 := by
  have heq : nameLength (c :: cs) = if Text.isWordPart c then nameLength cs + 1
      else if c == '\\' && startsWord cs then nameLength cs + 1 else 0 := rfl
  rw [heq] at h ⊢
  split_ifs at h ⊢ with hc hslash
  · exact ⟨.inl hc, rfl⟩
  · simp only [Bool.and_eq_true, beq_iff_eq] at hslash
    exact ⟨.inr hslash, rfl⟩
  · cases h

theorem startsWord_append (h : startsWord x = true) (s : Text) : startsWord (x ++ s) = true := by
  cases x with
  | nil => cases h
  | cons c rest => exact h

theorem isWordPart_of_isWordStart (h : Text.isWordStart c = true) : Text.isWordPart c = true := by
  simp [Text.isWordPart, h]

theorem nameLength_pos (h : startsWord cs = true) : 0 < nameLength cs := by
  cases cs with
  | nil => cases h
  | cons c rest =>
    rw [nameLength_part (isWordPart_of_isWordStart h)]
    exact Nat.succ_pos _

/-- A text that is a name throughout is passed over. -/
theorem nameLength_append (h : nameLength x = x.length) (s : Text) :
    nameLength (x ++ s) = x.length + nameLength s := by
  induction x with
  | nil => simp
  | cons c rest ih =>
    obtain ⟨hc, hstep⟩ := nameLength_cons_pos (by rw [h]; exact Nat.succ_pos _)
    rw [hstep, List.length_cons] at h
    have hrest := ih (Nat.succ.inj h)
    have hgo : nameLength (c :: (rest ++ s)) = nameLength (rest ++ s) + 1 := by
      obtain hc | ⟨rfl, hc⟩ := hc
      · exact nameLength_part hc _
      · exact nameLength_backslash (startsWord_append hc s)
    rw [List.cons_append, hgo, hrest, List.length_cons]
    omega

/-- What is taken as a name is one, and no name goes on behind it. -/
theorem nameLength_split (cs : Text) :
    nameLength (cs.take (nameLength cs)) = nameLength cs ∧
      nameLength (cs.drop (nameLength cs)) = 0 := by
  induction cs with
  | nil => exact ⟨rfl, rfl⟩
  | cons c rest ih =>
    by_cases hpos : 0 < nameLength (c :: rest)
    · obtain ⟨hc, hstep⟩ := nameLength_cons_pos hpos
      rw [hstep, List.take_succ_cons, List.drop_succ_cons]
      refine ⟨?_, ih.2⟩
      obtain hc | ⟨rfl, hc⟩ := hc
      · rw [nameLength_part hc, ih.1]
      · have hstarts : startsWord (rest.take (nameLength rest)) = true := by
          have hrest := nameLength_pos hc
          cases rest with
          | nil => cases hc
          | cons d rest =>
            obtain ⟨n, hn⟩ := Nat.exists_eq_succ_of_ne_zero (Nat.ne_of_gt hrest)
            rw [hn]
            exact hc
        rw [nameLength_backslash hstarts, ih.1]
    · have hzero : nameLength (c :: rest) = 0 := by omega
      rw [hzero]
      exact ⟨rfl, hzero⟩

theorem IsName.isNamePart (h : IsName x) : ∀ c ∈ x, Text.isNamePart c = true := by
  have hall : ∀ x : Text, nameLength x = x.length → ∀ c ∈ x, Text.isNamePart c = true := by
    intro x hx
    induction x with
    | nil => exact List.forall_mem_nil _
    | cons d rest ih =>
      obtain ⟨hd, hstep⟩ := nameLength_cons_pos (by rw [hx]; exact Nat.succ_pos _)
      rw [hstep, List.length_cons] at hx
      intro c hc
      obtain rfl | hc := List.mem_cons.mp hc
      · obtain hd | ⟨rfl, -⟩ := hd
        · simp [Text.isNamePart, hd]
        · decide
      · exact ih (Nat.succ.inj hx) c hc
  exact hall x h.whole

theorem IsName.nameLength_append (h : IsName x) (hs : nameLength s = 0) :
    nameLength (x ++ s) = x.length := by
  rw [CodeInsight.Grammar.nameLength_append h.whole, hs, Nat.add_zero]

theorem ne_of_isWordStart {d : Char} (h : Text.isWordStart c = true)
    (hd : Text.isWordStart d = false) :
    c ≠ d := by
  rintro rfl
  rw [h] at hd
  cases hd

/-- Strings and openings of documents do not begin with a name, unless it is the letter that marks a
string as one of bytes. -/
def Unmarked (x s : Text) : Prop :=
  x = ['b'] ∨ x = ['B'] → ∀ c ∈ s.head?, c ≠ '\'' ∧ c ≠ '"' ∧ c ≠ '<'

theorem quoted?_none (h : ∀ c ∈ cs.head?, c ≠ '\'' ∧ c ≠ '"')
    (h' : m = 0 → ∀ c ∈ cs.head?, c ≠ '\x60') : quoted? m cs = none := by
  cases cs with
  | nil => rfl
  | cons c rest =>
    obtain ⟨h₁, h₂⟩ := h c rfl
    by_cases h₃ : c = '\x60'
    · have hm : m ≠ 0 := fun hm => h' hm c rfl h₃
      simp [h₃, quoted?, hm]
    · exact quoted?_cons h₁ h₂ h₃ rest

theorem IsName.string?_append (h : IsName x) (hs : Unmarked x s) : string? (x ++ s) = none := by
  obtain ⟨c, rest, rfl⟩ := List.exists_cons_of_ne_nil h.ne_nil
  -- a name of this one letter would mark a quote that follows it
  have hmarked : (c = 'b' ∨ c = 'B') → quoted? 1 (rest ++ s) = none := by
    intro hc
    refine quoted?_none (fun d hd => ?_) (fun hm => absurd hm (by decide))
    cases rest with
    | nil =>
      obtain ⟨h₁, h₂, -⟩ := hs (hc.imp (by rintro rfl; rfl) (by rintro rfl; rfl)) d hd
      exact ⟨h₁, h₂⟩
    | cons d rest =>
      cases hd
      have he := h.isNamePart d (by simp)
      exact ⟨ne_of_isNamePart he (by decide), ne_of_isNamePart he (by decide)⟩
  by_cases hb : c = 'b'
  · subst hb
    exact hmarked (.inl rfl)
  by_cases hB : c = 'B'
  · subst hB
    exact hmarked (.inr rfl)
  · have hstart : Text.isWordStart c = true := h.starts
    rw [List.cons_append]
    unfold string?
    split
    next heq => exact absurd (List.cons.inj heq).1 hb
    next heq => exact absurd (List.cons.inj heq).1 hB
    next =>
      exact quoted?_cons (ne_of_isWordStart hstart (by decide))
        (ne_of_isWordStart hstart (by decide)) (ne_of_isWordStart hstart (by decide)) _

theorem IsName.document?_append (h : IsName x) (hs : Unmarked x s) : document? (x ++ s) = none := by
  have hnone : ∀ cs : Text, (∀ c ∈ cs.head?, c ≠ '<') →
      Text.dropLeading? cs ['<', '<', '<'] = none := by
    intro cs hcs
    cases cs with
    | nil => rfl
    | cons c rest => simp [Text.dropLeading?, hcs c rfl]
  obtain ⟨c, rest, rfl⟩ := List.exists_cons_of_ne_nil h.ne_nil
  have hmarked : (c = 'b' ∨ c = 'B') → Text.dropLeading? (rest ++ s) ['<', '<', '<'] = none := by
    intro hc
    refine hnone _ fun d hd => ?_
    cases rest with
    | nil => exact (hs (hc.imp (by rintro rfl; rfl) (by rintro rfl; rfl)) d hd).2.2
    | cons d rest =>
      cases hd
      exact ne_of_isNamePart (h.isNamePart d (by simp)) (by decide)
  have hafter : Text.dropLeading? (afterMark (c :: (rest ++ s))) ['<', '<', '<'] = none := by
    unfold afterMark
    split
    next heq => exact (List.cons.inj heq).2 ▸ hmarked (.inl (List.cons.inj heq).1)
    next heq => exact (List.cons.inj heq).2 ▸ hmarked (.inr (List.cons.inj heq).1)
    next =>
      refine hnone _ fun d hd => ?_
      cases hd
      exact ne_of_isWordStart h.starts (by decide)
  rw [List.cons_append]
  simp [document?, hafter]

/-- A name that does not go on is one token. -/
theorem IsName.codeStep (h : IsName x) (hs : nameLength s = 0) (hu : Unmarked x s)
    (parts : List Part) :
    codeStep parts (x ++ s) = ⟨wordLexeme x s, modeAfter (wordLexeme x s).kind, parts⟩ := by
  have hname : name? (x ++ s) = some (wordLexeme x s) := by
    obtain ⟨c, rest, rfl⟩ := List.exists_cons_of_ne_nil h.ne_nil
    have hc : c ≠ '\\' := ne_of_isWordStart h.starts (by decide)
    have hlength := h.nameLength_append hs
    have hstarts := startsWord_append h.starts s
    rw [List.cons_append] at hlength hstarts ⊢
    rw [name?_cons hc, if_pos hstarts, hlength]
    have htake : (c :: (rest ++ s)).take (c :: rest).length = c :: rest := by simp
    have hdrop : (c :: (rest ++ s)).drop (c :: rest).length = s := by simp
    rw [htake, hdrop]
  simp [Lexer.codeStep, h.document?_append hu, ofCode, h.string?_append hu, hname]

end

/-! ## Section 3: The next token -/

section

variable {cs rest : Text} {closing : Closing} {parts : List Part}

theorem name?_proper (h : name? cs = some l) : l.Proper := by
  unfold name? at h
  split at h
  · split at h <;> cases h
    exact .inr (Nat.succ_pos _)
  next =>
    split at h
    next hstarts =>
      cases h
      refine .inr (Nat.lt_of_lt_of_le ?_ (le_wordLexeme _ _))
      rw [List.length_take, Nat.min_eq_left (nameLength_le cs)]
      exact nameLength_pos hstarts
    next => cases h

/-- A word in code is the longest name that stands there, or it begins with a backslash. -/
theorem name?_word (h : name? cs = some l) :
    (l.kind = .fullyQualified ∧ 0 < l.length ∧ cs.head? = some '\\') ∨
      ∃ x s, cs = x ++ s ∧ IsName x ∧ nameLength s = 0 ∧ l = wordLexeme x s := by
  unfold name? at h
  split at h
  · split at h <;> cases h
    exact .inl ⟨rfl, Nat.succ_pos _, rfl⟩
  next =>
    right
    split at h
    next hstarts =>
      cases h
      obtain ⟨hwhole, hrest⟩ := nameLength_split cs
      refine ⟨_, _, (List.take_append_drop (nameLength cs) cs).symm, ⟨?_, ?_⟩, hrest, rfl⟩
      · have hpos := nameLength_pos hstarts
        cases cs with
        | nil => cases hstarts
        | cons c rest =>
          obtain ⟨n, hn⟩ := Nat.exists_eq_succ_of_ne_zero (Nat.ne_of_gt hpos)
          rw [hn]
          exact hstarts
      · rw [hwhole, List.length_take, Nat.min_eq_left (nameLength_le cs)]
    next => cases h

/-- A token of code is a name, a mark or something else. -/
theorem ofCode_cases (cs : Text) :
    (∃ l, ofCode cs = l ∧ l.Other) ∨ (string? cs = none ∧ ∃ l, name? cs = some l ∧ ofCode cs = l) ∨
      ∃ l, symbol? cs = some l ∧ ofCode cs = l := by
  unfold ofCode
  simp only [Option.orElse_eq_orElse]
  -- the readers are tried one after the other
  cases hstring : string? cs with
  | some l => exact .inl ⟨l, rfl, string?_other hstring⟩
  | none =>
    simp only [Option.orElse_none]
    cases hname : name? cs with
    | some l => exact .inr (.inl ⟨trivial, l, rfl, rfl⟩)
    | none =>
      simp only [Option.orElse_none]
      cases hdollar : dollarName? cs with
      | some l => exact .inl ⟨l, rfl, dollarName?_other hdollar⟩
      | none =>
        simp only [Option.orElse_none]
        cases hnumber : number? cs with
        | some l => exact .inl ⟨l, rfl, number?_other hnumber⟩
        | none =>
          simp only [Option.orElse_none]
          cases hcast : cast? cs with
          | some l => exact .inl ⟨l, rfl, cast?_other hcast⟩
          | none =>
            simp only [Option.orElse_none]
            cases hsymbol : symbol? cs with
            | some l => exact .inr (.inr ⟨l, rfl, rfl⟩)
            | none => exact .inl ⟨_, rfl, .inl rfl, rfl, rfl⟩

theorem ofCode_proper (cs : Text) : (ofCode cs).Proper := by
  obtain ⟨l, hl, hother⟩ | ⟨-, l, hname, hl⟩ | ⟨l, hsymbol, hl⟩ := ofCode_cases cs <;> rw [hl]
  · exact hother.1
  · exact name?_proper hname
  · exact (symbol?_proper hsymbol).1

theorem dropLeading?_length {p : Text} (h : Text.dropLeading? cs p = some rest) :
    rest.length + p.length = cs.length := by
  induction p generalizing cs with
  | nil =>
    have hrest : rest = cs := by cases cs <;> exact (Option.some.inj h).symm
    rw [hrest]
    rfl
  | cons q p ih =>
    cases cs with
    | nil => cases h
    | cons c cs =>
      simp only [Text.dropLeading?] at h
      split at h
      · have hrest := ih h
        simp only [List.length_cons]
        omega
      · cases h

theorem afterBreak?_length (h : afterBreak? cs = some rest) : rest.length ≤ cs.length := by
  unfold afterBreak? at h
  split at h
  · cases h
    simp
    omega
  · cases h
    simp
  · cases h

/-- The label of a document is a word, and the opening ends behind it. -/
theorem label?_spec {close word : Text} (h : label? close cs = some (word, rest)) :
    (word ≠ [] ∧ ∀ c ∈ word, Text.isWordPart c = true) ∧ rest.length ≤ cs.length := by
  cases hplain : startsPlainWord cs with
  | false =>
    rw [label?_eq_none hplain] at h
    cases h
  | true =>
    rw [label?_of_startsPlainWord hplain] at h
    obtain ⟨rest₁, hclose, hafter⟩ := Option.bind_eq_some_iff.mp h
    obtain ⟨rest₂, hbreak, hresult⟩ := Option.bind_eq_some_iff.mp hafter
    cases hresult
    have hlength := dropLeading?_length hclose
    have hbreak' := afterBreak?_length hbreak
    have hdrop : (cs.dropWhile Text.isWordPart).length ≤ cs.length :=
      (List.dropWhile_suffix _).length_le
    refine ⟨⟨?_, fun c hc => (List.mem_takeWhile_imp hc)⟩, by omega⟩
    cases cs with
    | nil => cases hplain
    | cons c cs =>
      have hc : Text.isWordPart c = true := by
        simp only [startsPlainWord, isPlainStart, Bool.or_eq_true] at hplain
        obtain hplain | hplain := hplain <;> simp [Text.isWordPart, Text.isWordStart, hplain]
      simp [hc]

theorem opening?_spec (h : opening? cs = some (closing, rest)) :
    closing.Plain ∧ rest.length ≤ cs.length := by
  unfold opening? at h
  split at h
  all_goals
    obtain ⟨⟨word, rest'⟩, hlabel, heq⟩ := Option.map_eq_some_iff.mp h
    cases heq
    obtain ⟨hword, hlength⟩ := label?_spec hlabel
    exact ⟨hword, by first | exact hlength | exact Nat.le_succ_of_le hlength⟩

/-- The opening of a document has characters, and what ends the document is a word. -/
theorem document?_spec (h : document? cs = some (n, closing)) : 0 < n ∧ closing.Plain := by
  unfold document? at h
  simp only [Option.pure_def, Option.bind_eq_bind, Option.bind_eq_some_iff] at h
  obtain ⟨rest, hdrop, ⟨closing', rest'⟩, hopening, hresult⟩ := h
  cases hresult
  obtain ⟨hplain, hlength⟩ := opening?_spec hopening
  have hdrop' := dropLeading?_length hdrop
  have hblank : (rest.dropWhile Text.isSpace).length ≤ rest.length :=
    (List.dropWhile_suffix _).length_le
  have hmark : (afterMark cs).length ≤ cs.length := by
    unfold afterMark
    split <;> simp
  simp only [List.length_cons, List.length_nil] at hdrop'
  exact ⟨by simp only; omega, hplain⟩

/-- The mode in which the next token is read has a label that is a word. -/
def Mode.Plain : Mode → Prop
  | .template closing => closing.Plain
  | _ => True

theorem modeAfter_plain (k : TokenKind) : (modeAfter k).Plain := by
  unfold modeAfter
  split <;> trivial

/-- What one token of code is: it has a character, and its parts are those before. -/
theorem codeStep_spec (parts : List Part) (cs : Text) :
    (codeStep parts cs).lexeme.Proper ∧ (codeStep parts cs).mode.Plain ∧
      (codeStep parts cs).parts = parts := by
  unfold Lexer.codeStep
  split
  next n closing hdocument =>
    obtain ⟨hpos, hplain⟩ := document?_spec hdocument
    exact ⟨.inr hpos, hplain, rfl⟩
  next => exact ⟨ofCode_proper cs, modeAfter_plain _, rfl⟩

theorem codeStep_word (h : (codeStep parts cs).lexeme.kind.isWord = true) :
    ((codeStep parts cs).lexeme.kind = .fullyQualified ∧ 0 < (codeStep parts cs).lexeme.length ∧
        cs.head? = some '\\') ∨
      ∃ x s, cs = x ++ s ∧ IsName x ∧ nameLength s = 0 ∧
        codeStep parts cs = ⟨wordLexeme x s, modeAfter (wordLexeme x s).kind, parts⟩ := by
  unfold Lexer.codeStep at h ⊢
  split at h
  next => cases h
  next hnone =>
    simp only at h
    obtain ⟨l, hl, hother⟩ | ⟨-, l, hname, hl⟩ | ⟨l, hsymbol, hl⟩ := ofCode_cases cs
    · rw [hl, hother.2.1] at h
      cases h
    rotate_left
    · rw [hl, (symbol?_proper hsymbol).2] at h
      cases h
    · obtain hfull | ⟨x, s, hcs, hx, hs, rfl⟩ := name?_word hname
      · exact .inl (hl ▸ hfull)
      · exact .inr ⟨x, s, hcs, hx, hs, by rw [hl]⟩

theorem quotedText_zero {quote : Char} (hcs : cs ≠ []) (hquote : cs.head? ≠ some quote)
    (h : quotedText quote cs = 0) : opensPart cs = true := by
  obtain ⟨c, rest, rfl⟩ := List.exists_cons_of_ne_nil hcs
  have hc : (c == quote) = false := beq_eq_false_iff_ne.mpr fun heq => hquote (by simp [heq])
  by_cases hslash : c = '\\'
  · subst hslash
    cases rest with
    | nil => simpa [quotedText, hc] using h
    | cons d rest => simp [quotedText] at h
  · rw [quotedText_cons hslash, hc, Bool.false_or] at h
    split at h
    next hpart => exact hpart
    next => cases h

theorem documentPiece_spec {label : Text} (hlabel : label ≠ []) (raw : Bool) (cs : Text) :
    ∀ leading shielded : Bool,
      ((documentPiece label raw leading shielded cs).closes = true →
        0 < (documentPiece label raw leading shielded cs).length) ∧
      (documentPiece label raw leading shielded cs = ⟨0, false⟩ → cs = [] ∨
        opensPart cs = true) := by
  intro leading shielded
  cases cs with
  | nil => exact ⟨fun h => by simp [documentPiece] at h, fun _ => .inl rfl⟩
  | cons c rest =>
    by_cases h₁ : c = '\n'
    · subst h₁
      exact ⟨fun _ => Nat.one_pos, fun h => by simp [documentPiece] at h⟩
    by_cases h₂ : c = '\r'
    · subst h₂
      cases rest with
      | nil => exact ⟨fun _ => Nat.one_pos, fun h => by simp [documentPiece] at h⟩
      | cons d rest =>
        rw [documentPiece_return]
        split
        · exact ⟨fun _ => Nat.two_pos, fun h => by simp at h⟩
        · exact ⟨fun _ => Nat.one_pos, fun h => by simp at h⟩
    -- a character that is passed over makes the piece longer
    have hafter : ∀ p : Piece, ((p.after 1).closes = true → 0 < (p.after 1).length) ∧
        p.after 1 ≠ ⟨0, false⟩ := fun p =>
      ⟨fun _ => Nat.succ_pos _, fun h => by simp [Piece.after] at h⟩
    rw [documentPiece_cons h₁ h₂]
    split_ifs with h₃ h₄ h₅ h₆
    · exact ⟨(hafter _).1, fun h => absurd h (hafter _).2⟩
    · simp only [Bool.and_eq_true] at h₄
      exact ⟨fun h => by simp at h, fun _ => .inr h₄.2⟩
    · exact ⟨(hafter _).1, fun h => absurd h (hafter _).2⟩
    · exact ⟨fun _ => List.length_pos_iff.mpr hlabel, fun h => by simp at h⟩
    · exact ⟨(hafter _).1, fun h => absurd h (hafter _).2⟩

/-- The closing mark has characters, and where no piece of text stands a part opens. -/
theorem piece_spec (h : closing.Plain) (hcs : cs ≠ []) :
    ((piece closing cs).closes = true → 0 < (piece closing cs).length) ∧
      (piece closing cs = ⟨0, false⟩ → opensPart cs = true) := by
  have hdocument : ∀ {label : Text}, label ≠ [] → ∀ raw,
      ((documentPiece label raw true false cs).closes = true →
        0 < (documentPiece label raw true false cs).length) ∧
      (documentPiece label raw true false cs = ⟨0, false⟩ → opensPart cs = true) := by
    intro label hlabel raw
    obtain ⟨hcloses, hopens⟩ := documentPiece_spec hlabel raw cs true false
    exact ⟨hcloses, fun h => (hopens h).resolve_left hcs⟩
  cases closing with
  | quote q =>
    unfold piece
    dsimp only
    split
    · exact ⟨fun _ => Nat.one_pos, fun h => by simp at h⟩
    next hquote =>
      refine ⟨fun h => by simp at h, fun h => ?_⟩
      simp only [Piece.mk.injEq, and_true] at h
      exact quotedText_zero hcs hquote h
  | line label => exact hdocument h.1 false
  | rawLine label => exact hdocument h.1 true

theorem mark_other (closing : Closing) : closing.mark.isWord = false ∧
    closing.mark.isMark = false := by
  cases closing <;> exact ⟨rfl, rfl⟩

/-- No name begins where a part opens. -/
theorem isWord_of_opensPart (h : opensPart cs = true) :
    (codeStep parts cs).lexeme.kind.isWord = false := by
  rw [Bool.eq_false_iff]
  intro hword
  obtain ⟨-, -, hhead⟩ | ⟨x, s, rfl, hx, -, -⟩ := codeStep_word hword
  · obtain ⟨rest, rfl⟩ := List.head?_eq_some_iff.mp hhead
    rw [opensPart_cons_plain (by decide) (by decide)] at h
    cases h
  · obtain ⟨c, rest, rfl⟩ := List.exists_cons_of_ne_nil hx.ne_nil
    rw [List.cons_append, opensPart_cons_plain (ne_of_isWordStart hx.starts (by decide))
      (ne_of_isWordStart hx.starts (by decide))] at h
    cases h

/-- The parts that a token within a string stands in. -/
def partsAt (closing : Closing) (parts : List Part) (offset : Nat) (cs : Text) : List Part :=
  ⟨offset, offset + Text.size (cs.take (partLength cs)), closing⟩ :: parts

theorem templateStep_cases (h : closing.Plain) (parts : List Part) (offset : Nat) (hcs : cs ≠ []) :
    (∃ n, 0 < n ∧ piece closing cs = ⟨n, true⟩ ∧
      templateStep closing parts offset cs = ⟨⟨closing.mark, n⟩, .code, parts⟩) ∨
    (∃ n, 0 < n ∧ piece closing cs = ⟨n, false⟩ ∧
      templateStep closing parts offset cs = ⟨⟨.templateText, n⟩, .template closing, parts⟩) ∨
    (piece closing cs = ⟨0, false⟩ ∧ opensPart cs = true ∧
      templateStep closing parts offset cs = codeStep (partsAt closing parts offset cs) cs) := by
  obtain ⟨hcloses, hopens⟩ := piece_spec h hcs
  unfold templateStep
  match hpiece : piece closing cs with
  | ⟨n, true⟩ => exact .inl ⟨n, by simpa [hpiece] using hcloses, rfl, rfl⟩
  | ⟨0, false⟩ => exact .inr (.inr ⟨rfl, hopens hpiece, rfl⟩)
  | ⟨n + 1, false⟩ => exact .inr (.inl ⟨n + 1, Nat.succ_pos n, rfl, rfl⟩)

/-- What one token is in any mode: it has a character, and it stands in the parts before or in one
that it opens. -/
theorem step_spec (h : mode.Plain) (parts : List Part) (offset : Nat) (hcs : cs ≠ []) :
    (step mode parts offset cs).lexeme.Proper ∧ (step mode parts offset cs).mode.Plain ∧
      ((step mode parts offset cs).parts = parts ∨
        ∃ closing, mode = .template closing ∧
          (step mode parts offset cs).parts = partsAt closing parts offset cs) := by
  cases mode with
  | markup =>
    simp only [step]
    unfold markupStep
    split
    · exact ⟨.inr (Nat.succ_pos _), trivial, .inl rfl⟩
    · refine ⟨.inr ?_, trivial, .inl rfl⟩
      dsimp only
      split <;> decide
    -- text up to the next tag; its first character begins none
    next hecho htag =>
      refine ⟨.inr ?_, trivial, .inl rfl⟩
      obtain ⟨c, rest, rfl⟩ := List.exists_cons_of_ne_nil hcs
      dsimp only
      rw [markupLength]
      · exact Nat.succ_pos _
      · rintro more rfl rfl
        exact htag more rfl
  | code =>
    obtain ⟨hproper, hplain, hparts⟩ := codeStep_spec parts cs
    exact ⟨hproper, hplain, .inl hparts⟩
  | template closing =>
    simp only [step]
    -- the closing mark, a piece of text or the first token of a part
    obtain ⟨n, hn, -, heq⟩ | ⟨n, hn, -, heq⟩ | ⟨-, -, heq⟩ := templateStep_cases h parts offset hcs
    · rw [heq]
      exact ⟨.inr hn, trivial, .inl rfl⟩
    · rw [heq]
      exact ⟨.inr hn, h, .inl rfl⟩
    · rw [heq]
      obtain ⟨hproper, hplain, hparts⟩ := codeStep_spec (partsAt closing parts offset cs) cs
      exact ⟨hproper, hplain, .inr ⟨closing, rfl, hparts⟩⟩
  | ending n =>
    refine ⟨?_, ?_, .inl rfl⟩
    · simp only [step]
      unfold endingLexeme
      split
      all_goals first | exact .inl rfl | exact .inr (by decide)
    · simp only [step]
      split <;> trivial
  | data => exact ⟨.inr (List.length_pos_iff.mpr hcs), trivial, .inl rfl⟩

/-- Words stand in code only. -/
theorem step_word (h : mode.Plain) {offset : Nat} (hcs : cs ≠ [])
    (hword : (step mode parts offset cs).lexeme.kind.isWord = true) : mode = .code := by
  cases mode with
  | code => rfl
  | markup =>
    simp only [step] at hword
    unfold markupStep at hword
    split at hword <;> cases hword
  | template closing =>
    simp only [step] at hword
    obtain ⟨n, -, -, heq⟩ | ⟨n, -, -, heq⟩ | ⟨-, hopens, heq⟩ :=
      templateStep_cases h parts offset hcs
    · rw [heq, (mark_other closing).1] at hword
      cases hword
    · rw [heq] at hword
      cases hword
    · rw [heq, isWord_of_opensPart hopens] at hword
      cases hword
  | ending n =>
    simp only [step] at hword
    unfold endingLexeme at hword
    split at hword <;> cases hword
  | data => cases hword

end

end CodeInsight.Grammar
