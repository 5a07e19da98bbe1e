import CodeInsight.Proofs.LexemeBorders

/-!
# Tokens before a border

What the lexer does in one round, in any mode, is told by the characters before a keyword that
declares something, if the round ends there.
-/

namespace CodeInsight.Grammar

open Lexeme Template Lexer

variable {a rest cs : Text} {n : Nat} {g : Nat → Text → Nat} {parts : List Part} {label r : Text}
  {n' : Nat}

/-! ## Section 1: Whitespace and comments -/

section

variable {word : Text} {mark : Char} {t t' : Text}
variable {c d : Char}

/-- A comment that runs to the end of its line ends before this character. -/
def EndsLine (c : Char) (rest : Text) : Prop :=
  c = '\n' ∨ c = '\r' ∨ c = '?' ∧ rest.head? = some '>'

theorem EndsLine.congr {rest' : Text} (h : EndsLine c rest) (hhead : rest.head? = rest'.head?) :
    EndsLine c rest' := by
  rw [EndsLine, hhead] at h
  exact h

theorem lineComment_of_ends (h : EndsLine c rest) : lineComment (c :: rest) = 0 := by
  obtain rfl | rfl | ⟨rfl, hhead⟩ := h
  · rfl
  · rfl
  · obtain ⟨more, rfl⟩ := List.head?_eq_some_iff.mp hhead
    rfl

theorem lineComment_of_goes (h : ¬ EndsLine c rest) :
    lineComment (c :: rest) = lineComment rest + 1 := by
  simp only [EndsLine, not_or] at h
  obtain ⟨hbreak, hreturn, htag⟩ := h
  rw [lineComment]
  · exact fun more hc hrest => htag ⟨hc, by rw [hrest]; rfl⟩
  · exact hbreak
  · exact hreturn

/-- A comment that ends before a word is the same whatever follows the word. -/
theorem Head.lineComment_append (h : Head word) (r r' a : Text)
    (hle : lineComment (a ++ (word ++ r)) ≤ a.length) :
    lineComment (a ++ (word ++ r')) = lineComment (a ++ (word ++ r)) := by
  induction a with
  | nil =>
    obtain ⟨c, rest, rfl, hc⟩ := h.cons
    have hgoes : ¬ EndsLine c (rest ++ r) := by
      rintro (rfl | rfl | ⟨rfl, -⟩) <;> exact absurd hc (by decide)
    rw [List.nil_append, List.cons_append, lineComment_of_goes hgoes] at hle
    cases hle
  | cons c rest ih =>
    have hhead := h.head?_append rest r r'
    simp only [List.cons_append, List.length_cons] at hle ⊢
    by_cases hend : EndsLine c (rest ++ (word ++ r))
    · rw [lineComment_of_ends hend, lineComment_of_ends (hend.congr hhead)]
    · rw [lineComment_of_goes hend] at hle ⊢
      rw [lineComment_of_goes fun hend' => hend (hend'.congr hhead.symm),
        ih (Nat.le_of_succ_le_succ hle)]

theorem blockComment_cons (h : c = '*' → rest.head? ≠ some '/') :
    blockComment (c :: rest) = (blockComment rest).map (· + 1) := by
  by_cases hc : c = '*'
  · cases rest with
    | nil => simp [blockComment]
    | cons d rest =>
      have hd : d ≠ '/' := fun hd => h hc (by rw [hd]; rfl)
      simp [blockComment, hd]
  · cases rest <;> simp [blockComment, hc]

/-- A block comment is at its end or goes on. -/
theorem blockComment_cases (h : blockComment (c :: rest) = some n) :
    (∃ more, c = '*' ∧ rest = '/' :: more ∧ n = 2) ∨
      ∃ m, (c = '*' → rest.head? ≠ some '/') ∧ blockComment rest = some m ∧ n = m + 1 := by
  by_cases hend : c = '*' ∧ rest.head? = some '/'
  · obtain ⟨rfl, hslash⟩ := hend
    obtain ⟨more, rfl⟩ := List.head?_eq_some_iff.mp hslash
    cases h
    exact .inl ⟨more, rfl, rfl, rfl⟩
  · rw [blockComment_cons (not_and.mp hend)] at h
    obtain ⟨m, hm, rfl⟩ := Option.map_eq_some_iff.mp h
    exact .inr ⟨m, not_and.mp hend, hm, rfl⟩

theorem blockComment_two (h : blockComment cs = some n) : 2 ≤ n := by
  induction cs generalizing n with
  | nil => cases h
  | cons c rest ih =>
    obtain ⟨_, _, _, rfl⟩ | ⟨m, _, hm, rfl⟩ := blockComment_cases h
    · exact Nat.le_refl _
    · exact Nat.le_succ_of_le (ih hm)

/-- A block comment that ends before some text ends there before any other text. -/
theorem blockComment_append (r r' : Text) (h : blockComment (a ++ r) = some n)
    (hle : n ≤ a.length) :
    blockComment (a ++ r') = some n := by
  have htwo := blockComment_two h
  induction a generalizing n with
  | nil => exact absurd (Nat.le_trans htwo hle) (by simp)
  | cons c rest ih =>
    obtain ⟨d, more, rfl⟩ : ∃ d more, rest = d :: more := by
      refine List.exists_cons_of_ne_nil ?_
      rintro rfl
      exact absurd (Nat.le_trans htwo hle) (by simp)
    obtain ⟨_, rfl, hd, rfl⟩ | ⟨m, hgoes, hm, rfl⟩ := blockComment_cases h
    · obtain ⟨rfl, -⟩ := List.cons.inj hd
      rfl
    · have hrest := ih hm (Nat.le_of_succ_le_succ hle) (blockComment_two hm)
      rw [List.cons_append, @blockComment_cons (d :: more ++ r') c hgoes, hrest]
      rfl

theorem gap_block (h : cs ≠ []) : gap ('/' :: '*' :: cs) = (blockComment cs).map (· + 2) := by
  obtain ⟨c, rest, rfl⟩ := List.exists_cons_of_ne_nil h
  rfl

theorem gap_hash (h : d ≠ '[') (cs : Text) :
    gap ('#' :: d :: cs) = some (lineComment (d :: cs) + 1) := by
  simp [gap, h]

theorem gap_blanks (h₁ : c ≠ '#') (h₂ : c = '/' → d ≠ '*' ∧ d ≠ '/') (cs : Text) :
    gap (c :: d :: cs) = some ((c :: d :: cs).takeWhile isBlank).length := by
  by_cases hc : c = '/'
  · obtain ⟨h₃, h₄⟩ := h₂ hc
    subst hc
    simp [gap, h₃, h₄]
  · simp [gap, h₁, hc]

section

variable (h : Head word)
include h

theorem Head.takeWhile_isBlank (a r r' : Text) :
    (a ++ (word ++ r)).takeWhile isBlank = (a ++ (word ++ r')).takeWhile isBlank := by
  obtain ⟨c, rest, rfl, hc⟩ := h.cons
  exact takeWhile_append_stop (isBlank_of_isAlpha hc) a (rest ++ r) (rest ++ r')

/-- A character that is no letter stands before the word. -/
theorem Head.second {more : Text} (hcons : ∀ r, a ++ (word ++ r) = d :: (more ++ r))
    (hd : d.isAlpha = false) : ∃ a', a = d :: a' := by
  obtain ⟨e, ws, hword, he⟩ := h.cons
  cases a with
  | nil =>
    have heq := hcons []
    rw [hword] at heq
    rw [(List.cons.inj heq).1] at he
    exact absurd hd (by simp [he])
  | cons d' a' => exact ⟨a', by rw [(List.cons.inj (hcons [])).1]⟩

/-- Whitespace or a comment that ends before a word ends there whatever follows the word. -/
theorem Head.gap_append (ha : a ≠ []) (hgap : gap (a ++ (word ++ r)) = some n) (hn : n ≤ a.length)
    (r' : Text) : gap (a ++ (word ++ r')) = some n := by
  obtain ⟨c, rest, rfl⟩ := List.exists_cons_of_ne_nil ha
  obtain ⟨d, more, hcons⟩ := h.cons_append rest
  -- what begins no comment is a run of blanks
  have hblanks : ∀ h₁ : c ≠ '#', ∀ h₂ : c = '/' → d ≠ '*' ∧ d ≠ '/', ∀ r,
      gap (c :: rest ++ (word ++ r)) =
        some ((c :: rest ++ (word ++ r)).takeWhile isBlank).length := fun h₁ h₂ r => by
    rw [List.cons_append, hcons]
    exact gap_blanks h₁ h₂ _
  have hsecond := h.second hcons
  by_cases hslash : c = '/'
  · subst hslash
    -- a block comment, one up to the end of a line, or none
    by_cases hstar : d = '*'
    · subst hstar
      obtain ⟨rest', rfl⟩ := hsecond (by decide)
      have hne : ∀ r, rest' ++ (word ++ r) ≠ [] := fun r => by
        obtain ⟨e, ws, rfl, -⟩ := h.cons
        simp
      simp only [List.cons_append, gap_block (hne _), Option.map_eq_some_iff, List.length_cons]
        at hgap hn ⊢
      obtain ⟨m, hm, rfl⟩ := hgap
      exact ⟨m, blockComment_append _ _ hm (by omega), rfl⟩
    by_cases hline : d = '/'
    · subst hline
      obtain ⟨rest', rfl⟩ := hsecond (by decide)
      simp only [List.cons_append, gap, Option.some.injEq, List.length_cons] at hgap hn ⊢
      rw [h.lineComment_append r r' rest' (by omega), hgap]
    · rw [hblanks (by decide) fun _ => ⟨hstar, hline⟩, h.takeWhile_isBlank _ r' r]
      rwa [hblanks (by decide) fun _ => ⟨hstar, hline⟩] at hgap
  by_cases hhash : c = '#'
  · subst hhash
    have hline := h.lineComment_append r r' rest
    simp only [List.cons_append, List.length_cons, hcons] at hgap hn hline ⊢
    -- an attribute is no comment
    by_cases hattribute : d = '['
    · subst hattribute
      exact hgap
    · rw [gap_hash hattribute, Option.some.injEq] at hgap ⊢
      rw [hline (by omega), hgap]
  · rw [hblanks hhash fun hc => absurd hc hslash, h.takeWhile_isBlank _ r' r]
    rwa [hblanks hhash fun hc => absurd hc hslash] at hgap

/-! ## Section 2: Openings of here-documents -/

/-- What `g` cuts off from the front of `a` is told by `a`, if a word follows. -/
def Trims (word : Text) (g : Text → Option Text) (a : Text) : Prop :=
  (∀ r, g (a ++ (word ++ r)) = none) ∨
    ∃ b : Text, b.length ≤ a.length ∧ ∀ r, g (a ++ (word ++ r)) = some (b ++ (word ++ r))

theorem Head.trims_dropLeading? {p : Text} (hp : ∀ c ∈ p, c.isAlpha = false) (a : Text) :
    Trims word (Text.dropLeading? · p) a := by
  induction p generalizing a with
  | nil => exact .inr ⟨a, Nat.le_refl _, fun r => by cases a ++ (word ++ r) <;> rfl⟩
  | cons q p ih =>
    cases a with
    | nil =>
      obtain ⟨c, rest, rfl, hc⟩ := h.cons
      have hne : c ≠ q := ne_of_isAlpha hc (hp q List.mem_cons_self)
      exact .inl fun r => by simp [Text.dropLeading?, hne]
    | cons c rest =>
      by_cases hq : c = q
      · obtain hnone | ⟨b, hb, hsome⟩ := ih (fun d hd => hp d (List.mem_cons_of_mem q hd)) rest
        · exact .inl fun r => by simpa [Text.dropLeading?, hq] using hnone r
        · refine .inr ⟨b, Nat.le_succ_of_le hb, fun r => ?_⟩
          simpa [Text.dropLeading?, hq] using hsome r
      · exact .inl fun r => by simp [Text.dropLeading?, hq]

theorem Head.trims_afterBreak? (a : Text) : Trims word afterBreak? a := by
  obtain ⟨e, ws, rfl, he⟩ := h.cons
  have hn : e ≠ '\n' := ne_of_isAlpha he (by decide)
  have hr : e ≠ '\r' := ne_of_isAlpha he (by decide)
  match a with
  | [] => exact .inl fun r => by simp [afterBreak?, hn, hr]
  | c :: rest =>
    by_cases hc : c = '\n'
    · exact .inr ⟨rest, Nat.le_succ _, fun r => by simp [afterBreak?, hc]⟩
    by_cases hc' : c = '\r'
    · match rest with
      | [] => exact .inl fun r => by simp [afterBreak?, hc', hn]
      | d :: rest =>
        by_cases hd : d = '\n'
        · exact .inr ⟨rest, by simp; omega, fun r => by simp [afterBreak?, hc', hd]⟩
        · exact .inl fun r => by simp [afterBreak?, hc', hd]
    · exact .inl fun r => by simp [afterBreak?, hc, hc']

theorem Head.startsPlainWord_append (a r r' : Text) :
    startsPlainWord (a ++ (word ++ r)) = startsPlainWord (a ++ (word ++ r')) := by
  obtain ⟨c, rest, hcons⟩ := h.cons_append a
  rw [hcons, hcons]
  rfl

theorem Head.dropWhile_isSpace (a r : Text) :
    (a ++ (word ++ r)).dropWhile Text.isSpace = a.dropWhile Text.isSpace ++ (word ++ r) := by
  obtain ⟨c, rest, rfl, hc⟩ := h.cons
  induction a with
  | nil => simp [isSpace_of_isAlpha hc]
  | cons d more ih =>
    by_cases hd : Text.isSpace d = true <;> simp_all

end

/-- The opening of a document is the same before both texts, or it goes on beyond the border. -/
def SameOpening {α : Type} (word : Text) (mark : Char) (t t' : Text) (g : Text → Option (α × Text))
    (a : Text) : Prop :=
  (g (a ++ (word ++ mark :: t)) = none ∧ g (a ++ (word ++ mark :: t')) = none) ∨
  (∃ x, ∃ b : Text, b.length ≤ a.length ∧
    g (a ++ (word ++ mark :: t)) = some (x, b ++ (word ++ mark :: t)) ∧
    g (a ++ (word ++ mark :: t')) = some (x, b ++ (word ++ mark :: t'))) ∨
  ∃ x rest, g (a ++ (word ++ mark :: t)) = some (x, rest) ∧ rest.length ≤ t.length

theorem Border.afterBreak? (hb : Border word mark t t') :
    (afterBreak? (mark :: t) = none ∧ afterBreak? (mark :: t') = none) ∨
      ∃ rest, afterBreak? (mark :: t) = some rest ∧ rest.length ≤ t.length := by
  by_cases hn : mark = '\n'
  · exact .inr ⟨t, by simp [Template.afterBreak?, hn], Nat.le_refl _⟩
  by_cases hr : mark = '\r'
  · subst hr
    cases t with
    | nil =>
      have hbreak := hb.lineBreak
      cases t' with
      | nil => exact .inl ⟨rfl, rfl⟩
      | cons d rest =>
        have hd : d ≠ '\n' := fun hd => by simp [hd] at hbreak
        exact .inl ⟨rfl, by simp [Template.afterBreak?, hd]⟩
    | cons c rest =>
      by_cases hc : c = '\n'
      · exact .inr ⟨rest, by simp [Template.afterBreak?, hc], Nat.le_succ _⟩
      · have hbreak := hb.lineBreak
        refine .inl ⟨by simp [Template.afterBreak?, hc], ?_⟩
        cases t' with
        | nil => rfl
        | cons d rest' =>
          have hd : d ≠ '\n' := fun hd => by simp [hd, hc] at hbreak
          simp [Template.afterBreak?, hd]
  · exact .inl ⟨by simp [Template.afterBreak?, hn, hr], by simp [Template.afterBreak?, hn, hr]⟩

/-- The word at the front either ends before the border or at it. -/
theorem Border.word_cases (hb : Border word mark t t') (a : Text) :
    (∀ t, (a ++ (word ++ mark :: t)).dropWhile Text.isWordPart = mark :: t) ∨
      ∃ b : Text, b.length ≤ a.length ∧ ∃ w, ∀ r,
        (a ++ (word ++ r)).dropWhile Text.isWordPart = b ++ (word ++ r) ∧
          (a ++ (word ++ r)).takeWhile Text.isWordPart = w := by
  induction a with
  | nil =>
    refine .inl fun t => ?_
    have hletters : ∀ c ∈ word, Text.isWordPart c = true := fun c hc =>
      isWordPart_of_isAlpha (hb.head.letters c hc)
    rw [List.nil_append, List.dropWhile_append_of_pos hletters, List.dropWhile_cons_of_neg]
    simp [isWordPart_of_startsGap hb.mark]
  | cons c rest ih =>
    by_cases hc : Text.isWordPart c = true
    · obtain hall | ⟨b, hle, w, hsome⟩ := ih
      · exact .inl fun t => by simpa [hc] using hall t
      · refine .inr ⟨b, Nat.le_succ_of_le hle, c :: w, fun r => ?_⟩
        simpa [hc] using hsome r
    · exact .inr ⟨c :: rest, Nat.le_refl _, [], fun r => by simp [hc]⟩

theorem label?_of_startsPlainWord (h : startsPlainWord cs = true) (close : Text) :
    Template.label? close cs =
      (Text.dropLeading? (cs.dropWhile Text.isWordPart) close).bind fun rest =>
        (afterBreak? rest).bind fun rest => some (cs.takeWhile Text.isWordPart, rest) := by
  unfold Template.label?
  rw [h]
  rfl

theorem label?_eq_none (h : startsPlainWord cs = false) (close : Text) :
    Template.label? close cs = none := by
  unfold Template.label?
  rw [h]
  rfl

theorem Border.label? (hb : Border word mark t t') (close : Text)
    (hclose : ∀ c ∈ close, c.isAlpha = false ∧ startsGap c = false) (a : Text) :
    SameOpening word mark t t' (label? close) a := by
  have hstart := hb.head.startsPlainWord_append a
  unfold SameOpening
  cases hplain : startsPlainWord (a ++ (word ++ mark :: t')) with
  | false =>
    exact .inl ⟨label?_eq_none ((hstart _ _).trans hplain) close, label?_eq_none hplain close⟩
  | true =>
    rw [label?_of_startsPlainWord ((hstart _ _).trans hplain), label?_of_startsPlainWord hplain]
    obtain hall | ⟨b, hle, w, hword⟩ := hb.word_cases a
    · -- the label ends at the border
      have htake := hb.takeWhile_isWordPart a
      simp only [hall, htake]
      cases close with
      | nil =>
        simp only [Text.dropLeading?, Option.bind_some]
        obtain ⟨hnone, hnone'⟩ | ⟨rest, hrest, hshort⟩ := hb.afterBreak?
        · exact .inl (by simp [hnone, hnone'])
        · exact .inr (.inr ⟨_, rest, by rw [hrest]; rfl, hshort⟩)
      | cons q close =>
        have hne : mark ≠ q := ne_of_startsGap hb.mark (hclose q List.mem_cons_self).2
        exact .inl (by simp [Text.dropLeading?, hne])
    · simp only [(hword _).1, (hword _).2]
      obtain hnone | ⟨b', hle', hclosed⟩ :=
        hb.head.trims_dropLeading? (fun c hc => (hclose c hc).1) b
      · exact .inl (by simp [hnone])
      · obtain hnone | ⟨b'', hle'', hbreak⟩ := hb.head.trims_afterBreak? b'
        · exact .inl (by simp [hclosed, hnone])
        · exact .inr (.inl ⟨w, b'', by omega, by simp [hclosed, hbreak], by simp [hclosed, hbreak]⟩)

theorem SameOpening.map {α β : Type} {g : Text → Option (α × Text)} {g' : Text → Option (β × Text)}
    {a' : Text} (f : α → β) (h : SameOpening word mark t t' g a) (hle : a.length ≤ a'.length)
    (hg : ∀ r, g' (a' ++ (word ++ r)) = (g (a ++ (word ++ r))).map fun (x, rest) => (f x, rest)) :
    SameOpening word mark t t' g' a' := by
  unfold SameOpening
  simp only [hg]
  obtain ⟨hnone, hnone'⟩ | ⟨x, b, hb, hsome, hsome'⟩ | ⟨x, rest, hsome, hshort⟩ := h
  · exact .inl (by simp [hnone, hnone'])
  · exact .inr (.inl ⟨f x, b, by omega, by simp [hsome], by simp [hsome']⟩)
  · exact .inr (.inr ⟨f x, rest, by simp [hsome], hshort⟩)

theorem opening?_cons (h₁ : c ≠ '\'') (h₂ : c ≠ '"') (cs : Text) :
    opening? (c :: cs) = (label? [] (c :: cs)).map fun (word, rest) => (.line word, rest) := by
  unfold opening?
  split
  next heq => exact absurd (List.cons.inj heq).1 h₁
  next heq => exact absurd (List.cons.inj heq).1 h₂
  next => rfl

theorem Border.opening? (hb : Border word mark t t') (a : Text) :
    SameOpening word mark t t' opening? a := by
  cases a with
  | nil =>
    obtain ⟨c, rest, hword, hc⟩ := hb.head.cons
    refine (hb.label? [] (by simp) []).map Closing.line (Nat.le_refl _) fun r => ?_
    rw [List.nil_append, hword]
    exact opening?_cons (ne_of_isAlpha hc (by decide)) (ne_of_isAlpha hc (by decide)) _
  | cons c rest =>
    by_cases h₁ : c = '\''
    · subst h₁
      exact (hb.label? ['\''] (by simp; decide) rest).map Closing.rawLine
        (Nat.le_succ _) fun r => rfl
    by_cases h₂ : c = '"'
    · subst h₂
      exact (hb.label? ['"'] (by simp; decide) rest).map Closing.line (Nat.le_succ _) fun r => rfl
    · exact (hb.label? [] (by simp) (c :: rest)).map Closing.line (Nat.le_refl _) fun r =>
        opening?_cons h₁ h₂ _

/-- The opening of a document that ends before the border is the same before other texts. -/
theorem Border.document? (hb : Border word mark t t') (ha : a ≠ [])
    (h : ∀ n closing, document? (a ++ (word ++ mark :: t)) = some (n, closing) → n ≤ a.length) :
    document? (a ++ (word ++ mark :: t')) = document? (a ++ (word ++ mark :: t)) := by
  obtain ⟨b, hle, hafter⟩ : ∃ b : Text, b.length ≤ a.length ∧
      ∀ r, afterMark (a ++ (word ++ r)) = b ++ (word ++ r) := by
    obtain ⟨c, rest, rfl⟩ := List.exists_cons_of_ne_nil ha
    by_cases h₁ : c = 'b'
    · exact ⟨rest, Nat.le_succ _, fun r => by simp [afterMark, h₁]⟩
    by_cases h₂ : c = 'B'
    · exact ⟨rest, Nat.le_succ _, fun r => by simp [afterMark, h₂]⟩
    · exact ⟨c :: rest, Nat.le_refl _, fun r => by simp [afterMark, h₁, h₂]⟩
  unfold Template.document? at h ⊢
  simp only [hafter] at h ⊢
  obtain hnone | ⟨b', hle', hdrop⟩ :=
    hb.head.trims_dropLeading? (p := ['<', '<', '<']) (by simp) b
  · simp only [hnone, Option.bind_eq_bind, Option.bind_none]
  simp only [hdrop, Option.bind_eq_bind, Option.bind_some, hb.head.dropWhile_isSpace] at h ⊢
  have hblanks : (b'.dropWhile Text.isSpace).length ≤ b'.length :=
    (List.dropWhile_suffix _).length_le
  obtain ⟨hnone, hnone'⟩ | ⟨closing, b'', hb'', hsome, hsome'⟩ | ⟨closing, rest, hsome, hshort⟩ :=
    hb.opening? (b'.dropWhile Text.isSpace)
  · simp only [hnone, hnone', Option.bind_none]
  · simp only [hsome, hsome', Option.bind_some, Option.pure_def, Option.some.injEq, Prod.mk.injEq,
      List.length_append, and_true]
    omega
  · have hlong := h _ closing (by rw [hsome]; rfl)
    simp only [List.length_append, List.length_cons] at hlong
    omega

/-! ## Section 3: Text outside of the tags -/

theorem markupLength_cons (h : c = '<' → d ≠ '?') (cs : Text) :
    markupLength (c :: d :: cs) = markupLength (d :: cs) + 1 := by
  rw [markupLength]
  rintro _ rfl hcs
  exact h rfl (List.cons.inj hcs).1

theorem Head.markupLength_append (h : Head word) (r r' : Text) : ∀ a : Text,
    markupLength (a ++ (word ++ r)) ≤ a.length →
      markupLength (a ++ (word ++ r')) = markupLength (a ++ (word ++ r))
  | [], hle => by
    obtain ⟨c, rest, rfl, hc⟩ := h.cons
    have hne : c ≠ '<' := ne_of_isAlpha hc (by decide)
    simp [markupLength, hne] at hle
  | c :: rest, hle => by
    have ih := h.markupLength_append r r' rest
    obtain ⟨d, more, hcons⟩ := h.cons_append rest
    simp only [List.cons_append, List.length_cons, hcons] at hle ih ⊢
    by_cases htag : c = '<' ∧ d = '?'
    · obtain ⟨rfl, rfl⟩ := htag
      rfl
    · have hstep := fun cs => @markupLength_cons c d (fun hc hd => htag ⟨hc, hd⟩) cs
      rw [hstep] at hle ⊢
      rw [hstep, ih (by omega)]

theorem markupStep_text (h : c = '<' → d ≠ '?') (parts : List Part) (cs : Text) :
    markupStep parts (c :: d :: cs) = ⟨⟨.markup, markupLength (c :: d :: cs)⟩, .markup, parts⟩ := by
  unfold markupStep
  split
  next heq =>
    simp only [List.cons.injEq] at heq
    exact absurd heq.2.1 (h heq.1)
  next heq =>
    simp only [List.cons.injEq] at heq
    exact absurd heq.2.1 (h heq.1)
  next => rfl

theorem markupStep_tag (h : c ≠ '=') (parts : List Part) (cs : Text) :
    markupStep parts ('<' :: '?' :: c :: cs) =
      ⟨⟨.openTag, if startsWith "php" (c :: cs) then 5 else 2⟩, .code, parts⟩ := by
  simp [markupStep, h]

theorem Head.markupStep_append (h : Head word) (ha : a ≠ [])
    (hle : (markupStep parts (a ++ (word ++ r))).lexeme.length ≤ a.length) (r' : Text) :
    markupStep parts (a ++ (word ++ r')) = markupStep parts (a ++ (word ++ r)) := by
  obtain ⟨c, rest, rfl⟩ := List.exists_cons_of_ne_nil ha
  obtain ⟨d, more, hcons⟩ := h.cons_append rest
  by_cases htag : c = '<' ∧ d = '?'
  · obtain ⟨rfl, rfl⟩ := htag
    obtain ⟨rest', rfl⟩ := h.second hcons (by decide)
    obtain ⟨e, more', hcons'⟩ := h.cons_append rest'
    have hphp := h.startsWith_append (w := "php") (by decide) rest' r' r
    simp only [List.cons_append, hcons'] at hphp ⊢
    by_cases he : e = '='
    · subst he
      rfl
    · rw [markupStep_tag he, markupStep_tag he, hphp]
  · have hstep := fun cs => @markupStep_text c d (fun hc hd => htag ⟨hc, hd⟩) parts cs
    have hlength := h.markupLength_append r r' (c :: rest)
    simp only [List.cons_append, hcons, hstep] at hle hlength ⊢
    rw [hlength hle]

/-! ## Section 4: Pieces of strings -/

/-- Two characters tell whether a part opens. -/
theorem opensPart_cons_cons (c d : Char) (cs cs' : Text) :
    opensPart (c :: d :: cs) = opensPart (c :: d :: cs') := by
  by_cases hc : c = '$'
  · by_cases hd : d = '\x7b' <;> simp [opensPart, startsWord, hc, hd]
  · by_cases hc' : c = '\x7b'
    · by_cases hd : d = '$' <;> simp [opensPart, hc', hd]
    · simp [opensPart, hc, hc']

theorem opensPart_cons_plain (h : c ≠ '$') (h' : c ≠ '\x7b') (cs : Text) :
    opensPart (c :: cs) = false := by
  simp [opensPart, h, h']

theorem opensPart_of_isAlpha (h : c.isAlpha = true) (cs : Text) : opensPart (c :: cs) = false :=
  opensPart_cons_plain (ne_of_isAlpha h (by decide)) (ne_of_isAlpha h (by decide)) cs

theorem quotedText_cons {quote : Char} (hc : c ≠ '\\') (cs : Text) :
    quotedText quote (c :: cs) =
      if c == quote || opensPart (c :: cs) then 0 else quotedText quote cs + 1 := by
  cases cs <;> simp [quotedText, hc]

theorem Head.quotedText_append (h : Head word) (quote : Char) (r r' : Text) : ∀ a : Text,
    quotedText quote (a ++ (word ++ r)) ≤ a.length →
      quotedText quote (a ++ (word ++ r')) = quotedText quote (a ++ (word ++ r))
  | [], hle => by
    obtain ⟨c, rest, rfl, hc⟩ := h.cons
    have hcons := fun cs => @quotedText_cons c quote (ne_of_isAlpha hc (by decide)) cs
    simp only [List.nil_append, List.cons_append, hcons, opensPart_of_isAlpha hc] at hle ⊢
    split
    next => rfl
    next hquote =>
      rw [if_neg hquote] at hle
      simp at hle
  | c :: rest, hle => by
    have ih := h.quotedText_append quote r r' rest
    obtain ⟨d, more, hcons⟩ := h.cons_append rest
    by_cases hc : c = '\\'
    · -- the character behind a backslash may be the first one of the word
      subst hc
      cases rest with
      | nil =>
        obtain ⟨e, ws, hword, -⟩ := h.cons
        rw [hword] at hle
        simp [quotedText] at hle
      | cons e rest =>
        have ih' := h.quotedText_append quote r r' rest
        simp only [List.cons_append, quotedText, List.length_cons] at hle ⊢
        rw [ih' (by omega)]
    · have hpart : opensPart (c :: (rest ++ (word ++ r'))) =
          opensPart (c :: (rest ++ (word ++ r))) := by
        rw [hcons, hcons]
        exact opensPart_cons_cons c d _ _
      simp only [List.cons_append, List.length_cons, quotedText_cons hc, hpart] at hle ⊢
      split
      next => rfl
      next hstop =>
        rw [if_neg hstop] at hle
        rw [ih (by omega)]

/-- A label does not extend over the border. -/
theorem Border.labelled (hb : Border word mark t t')
    (hlabel : ∀ c ∈ label, Text.isWordPart c = true) (b : Text) :
    labelled label (b ++ mark :: t') = labelled label (b ++ mark :: t) := by
  have hmark := isWordPart_of_startsGap hb.mark
  have hdrop : ∀ b : Text, (∀ t, Text.dropLeading? (b ++ mark :: t) label = none) ∨
      ∃ b', ∀ t, Text.dropLeading? (b ++ mark :: t) label = some (b' ++ mark :: t) := by
    induction label with
    | nil => exact fun b => .inr ⟨b, fun t => by cases b <;> rfl⟩
    | cons q label ih =>
      intro b
      cases b with
      | nil =>
        have hne : mark ≠ q := by
          rintro rfl
          rw [hlabel mark List.mem_cons_self] at hmark
          cases hmark
        exact .inl fun t => by simp [Text.dropLeading?, hne]
      | cons c rest =>
        by_cases hc : c = q
        · obtain hnone | ⟨b', hsome⟩ := ih (fun d hd => hlabel d (List.mem_cons_of_mem q hd)) rest
          · exact .inl fun t => by simpa [Text.dropLeading?, hc] using hnone t
          · exact .inr ⟨b', fun t => by simpa [Text.dropLeading?, hc] using hsome t⟩
        · exact .inl fun t => by simp [Text.dropLeading?, hc]
  obtain hnone | ⟨b', hsome⟩ := hdrop b
  · simp only [Template.labelled, hnone]
  · simp only [Template.labelled, hsome]
    cases b' <;> rfl

theorem documentPiece_cons (h₁ : c ≠ '\n') (h₂ : c ≠ '\r') (label : Text)
    (raw leading shielded : Bool) (cs : Text) :
    documentPiece label raw leading shielded (c :: cs) =
      if Text.isSpace c then (documentPiece label raw leading shielded cs).after 1
      else if !raw && !shielded && opensPart (c :: cs) then ⟨0, false⟩
      else if !raw && c == '\\' then (documentPiece label raw false (!shielded) cs).after 1
      else if leading && labelled label (c :: cs) then ⟨label.length, true⟩
      else (documentPiece label raw false false cs).after 1 := by
  rw [documentPiece]
  · exact fun _ hc => absurd hc h₂
  · exact h₁
  · exact h₂

theorem documentPiece_return (label : Text) (raw leading shielded : Bool) (d : Char) (cs : Text) :
    documentPiece label raw leading shielded ('\r' :: d :: cs) =
      if d = '\n' then ⟨2, false⟩ else ⟨1, false⟩ := by
  by_cases hd : d = '\n' <;> simp [documentPiece, hd]

theorem Border.documentPiece (hb : Border word mark t t')
    (hlabel : ∀ c ∈ label, Text.isWordPart c = true) (raw : Bool) (a : Text) :
    ∀ leading shielded : Bool,
      (documentPiece label raw leading shielded (a ++ (word ++ mark :: t))).length ≤ a.length →
      documentPiece label raw leading shielded (a ++ (word ++ mark :: t')) =
        documentPiece label raw leading shielded (a ++ (word ++ mark :: t)) := by
  induction a with
  | nil =>
    intro leading shielded hle
    -- the word may be the closing label, and else the text goes on behind it
    have hlabelled := hb.labelled hlabel word
    obtain ⟨c, rest, hword, hc⟩ := hb.head.cons
    rw [hword] at hle hlabelled ⊢
    have hslash : (c == '\\') = false := beq_eq_false_iff_ne.mpr (ne_of_isAlpha hc (by decide))
    simp only [List.nil_append, List.cons_append] at hle hlabelled ⊢
    rw [documentPiece_cons (ne_of_isAlpha hc (by decide)) (ne_of_isAlpha hc (by decide))] at hle ⊢
    rw [documentPiece_cons (ne_of_isAlpha hc (by decide)) (ne_of_isAlpha hc (by decide))]
    simp only [isSpace_of_isAlpha hc, opensPart_of_isAlpha hc, hslash, Bool.and_false,
      Bool.false_eq_true, if_false, hlabelled] at hle ⊢
    split
    next => rfl
    next hplain =>
      rw [if_neg hplain] at hle
      simp [Piece.after] at hle
  | cons c rest ih =>
    intro leading shielded hle
    obtain ⟨d, more, hcons⟩ := hb.head.cons_append rest
    -- a line break ends the piece
    by_cases h₁ : c = '\n'
    · subst h₁
      rfl
    by_cases h₂ : c = '\r'
    · subst h₂
      simp only [List.cons_append, hcons, documentPiece_return]
    have hpart : opensPart (c :: (rest ++ (word ++ mark :: t'))) =
        opensPart (c :: (rest ++ (word ++ mark :: t))) := by
      rw [hcons, hcons]
      exact opensPart_cons_cons c d _ _
    have hlabelled := hb.labelled hlabel (c :: rest ++ word)
    have hstep : ∀ leading shielded, ((Template.documentPiece label raw leading shielded
          (rest ++ (word ++ mark :: t))).after 1).length ≤ rest.length + 1 →
        Template.documentPiece label raw leading shielded (rest ++ (word ++ mark :: t')) =
          Template.documentPiece label raw leading shielded (rest ++ (word ++ mark :: t)) :=
      fun leading shielded h => ih leading shielded (Nat.le_of_succ_le_succ h)
    simp only [List.cons_append, List.append_assoc, List.length_cons] at hle hlabelled ⊢
    rw [documentPiece_cons h₁ h₂] at hle ⊢
    rw [documentPiece_cons h₁ h₂, hpart, hlabelled]
    -- the conditions are the same before both texts, and only what is passed over is left
    split_ifs at hle ⊢ with h₃ h₄ h₅ h₆
    · rw [hstep _ _ hle]
    · rfl
    · rw [hstep _ _ hle]
    · rfl
    · rw [hstep _ _ hle]

/-- The label of a document is a word. -/
def Closing.Plain : Closing → Prop
  | .quote _ => True
  | .line label | .rawLine label => label ≠ [] ∧ ∀ c ∈ label, Text.isWordPart c = true

theorem Border.piece (hb : Border word mark t t') {closing : Closing} (hclosing : closing.Plain)
    (h : (piece closing (a ++ (word ++ mark :: t))).length ≤ a.length) :
    piece closing (a ++ (word ++ mark :: t')) = piece closing (a ++ (word ++ mark :: t)) := by
  cases closing with
  | quote q =>
    have hhead := hb.head.head?_append a (mark :: t') (mark :: t)
    simp only [Template.piece, hhead] at h ⊢
    split
    next => rfl
    next hstop =>
      rw [if_neg hstop] at h
      rw [hb.head.quotedText_append q _ _ a h]
  | line label => exact hb.documentPiece hclosing.2 false a true false h
  | rawLine label => exact hb.documentPiece hclosing.2 true a true false h

/-! ## Section 5: Code -/

theorem Border.codeStep (hb : Border word mark t t') (ha : a ≠ [])
    (h : (codeStep parts (a ++ (word ++ mark :: t))).lexeme.length ≤ a.length)
    (parts' : List Part) :
    codeStep parts' (a ++ (word ++ mark :: t')) =
      { codeStep parts (a ++ (word ++ mark :: t)) with parts := parts' } := by
  unfold Lexer.codeStep at h ⊢
  cases hd : Template.document? (a ++ (word ++ mark :: t)) with
  | some opened =>
    obtain ⟨n, closing⟩ := opened
    rw [hd] at h
    have hsame := hb.document? ha fun n' closing' heq => by
      rw [hd, Option.some.injEq, Prod.mk.injEq] at heq
      rw [← heq.1]
      exact h
    rw [hsame, hd]
  | none =>
    rw [hd] at h
    have hsame := hb.document? ha fun n' closing' heq => absurd heq (by simp [hd])
    rw [hsame, hd]
    simp only at h ⊢
    rw [hb.ofCode ha h]

/-! ## Section 6: Extents of parts -/

section

variable {x y : Text}

/-- A measure of text that goes on behind a character, or stops at it. -/
def Scans (g : Nat → Text → Nat) : Prop :=
  (∀ d, g d [] = 0) ∧ ∀ d c, (∃ n ≤ 1, ∀ r, g d (c :: r) = n) ∨ ∃ d', ∀ r, g d (c :: r) = g d' r + 1

/-- A measure passes over the characters of a text. -/
def Passes (g : Nat → Text → Nat) (x : Text) : Prop := ∀ d r, g d (x ++ r) = g d r + x.length

theorem Scans.append (h : Scans g) (c : Text) : ∀ d,
    (∃ n ≤ c.length, ∀ r, g d (c ++ r) = n) ∨ ∃ d', ∀ r, g d (c ++ r) = g d' r + c.length := by
  induction c with
  | nil => exact fun d => .inr ⟨d, fun r => rfl⟩
  | cons e rest ih =>
    intro d
    obtain ⟨n, hn, hstop⟩ | ⟨d', hgo⟩ := h.2 d e
    · exact .inl ⟨n, by simp; omega, fun r => hstop (rest ++ r)⟩
    · obtain ⟨n, hn, hstop⟩ | ⟨d'', hgo'⟩ := ih d'
      · exact .inl ⟨n + 1, by simp; omega, fun r => by rw [List.cons_append, hgo, hstop]⟩
      · refine .inr ⟨d'', fun r => ?_⟩
        rw [List.cons_append, hgo, hgo', List.length_cons, Nat.add_assoc]

/-- Two lengths of a text in which `x` was exchanged for `y` behind `c`: the end is before the
exchange, or behind it. -/
def Exchanged (c x y : Text) (n n' : Nat) : Prop :=
  (n ≤ c.length ∧ n' = n) ∨ ∃ m, n = c.length + x.length + m ∧ n' = c.length + y.length + m

theorem Exchanged.cons {c : Text} (h : Exchanged c x y n n') (e : Char) :
    Exchanged (e :: c) x y (n + 1) (n' + 1) := by
  obtain ⟨hn, rfl⟩ | ⟨m, rfl, rfl⟩ := h
  · exact .inl ⟨by simp; omega, rfl⟩
  · exact .inr ⟨m, by simp; omega, by simp; omega⟩

theorem Exchanged.prepend {c : Text} (h : Exchanged c x y n n') (b : Text) :
    Exchanged (b ++ c) x y (b.length + n) (b.length + n') := by
  obtain ⟨hn, rfl⟩ | ⟨m, rfl, rfl⟩ := h
  · exact .inl ⟨by simp; omega, rfl⟩
  · exact .inr ⟨m, by simp; omega, by simp; omega⟩

theorem Scans.exchanged (h : Scans g) (hx : Passes g x) (hy : Passes g y) (c s : Text) (d : Nat) :
    Exchanged c x y (g d (c ++ (x ++ s))) (g d (c ++ (y ++ s))) := by
  obtain ⟨n, hn, hstop⟩ | ⟨d', hgo⟩ := h.append c d
  · exact .inl ⟨by rw [hstop]; exact hn, by rw [hstop, hstop]⟩
  · exact .inr ⟨g d' s, by rw [hgo, hx]; omega, by rw [hgo, hy]; omega⟩

theorem scans_bracedLength : Scans bracedLength := by
  refine ⟨fun d => rfl, fun d c => ?_⟩
  by_cases hopen : c = '\x7b'
  · exact .inr ⟨d + 1, fun r => by simp [bracedLength, hopen]⟩
  by_cases hclose : c = '\x7d'
  · cases d with
    | zero => exact .inl ⟨1, Nat.le_refl _, fun r => by simp [bracedLength, hclose]⟩
    | succ d => exact .inr ⟨d, fun r => by simp [bracedLength, hclose]⟩
  · exact .inr ⟨d, fun r => by simp [bracedLength, hopen, hclose]⟩

theorem scans_indexLength : Scans indexLength := by
  refine ⟨fun d => rfl, fun d c => ?_⟩
  by_cases hspace : Text.isSpace c = true
  · exact .inl ⟨0, Nat.zero_le _, fun r => by simp [indexLength, hspace]⟩
  by_cases hopen : c = '['
  · exact .inr ⟨d + 1, fun r => by simp [indexLength, hopen, Text.isSpace]⟩
  by_cases hclose : c = ']'
  · cases d with
    | zero => exact .inl ⟨1, Nat.le_refl _, fun r => by simp [indexLength, hclose, Text.isSpace]⟩
    | succ d => exact .inr ⟨d, fun r => by simp [indexLength, hclose, Text.isSpace]⟩
  · exact .inr ⟨d, fun r => by simp [indexLength, hspace, hopen, hclose]⟩

/-- Characters of names neither open nor close anything. -/
theorem ne_of_isNamePart (h : Text.isNamePart c = true) (hd : Text.isNamePart d = false) :
    c ≠ d := by
  rintro rfl
  rw [h] at hd
  cases hd

theorem passes_bracedLength (h : ∀ c ∈ x, Text.isNamePart c = true) : Passes bracedLength x := by
  intro d r
  induction x with
  | nil => rfl
  | cons c rest ih =>
    have hc := h c List.mem_cons_self
    have hopen : c ≠ '\x7b' := ne_of_isNamePart hc (by decide)
    have hclose : c ≠ '\x7d' := ne_of_isNamePart hc (by decide)
    have hrest := ih fun e he => h e (List.mem_cons_of_mem c he)
    simp [bracedLength, hopen, hclose, hrest, Nat.add_assoc]

theorem isSpace_of_isNamePart (h : Text.isNamePart c = true) : Text.isSpace c = false := by
  rw [Bool.eq_false_iff]
  intro hspace
  simp only [Text.isSpace, Bool.or_eq_true, beq_iff_eq] at hspace
  rcases hspace with (((rfl | rfl) | rfl) | rfl) | rfl <;> revert h <;> decide

theorem passes_indexLength (h : ∀ c ∈ x, Text.isNamePart c = true) : Passes indexLength x := by
  intro d r
  induction x with
  | nil => rfl
  | cons c rest ih =>
    have hc := h c List.mem_cons_self
    have hopen : c ≠ '[' := ne_of_isNamePart hc (by decide)
    have hclose : c ≠ ']' := ne_of_isNamePart hc (by decide)
    have hrest := ih fun e he => h e (List.mem_cons_of_mem c he)
    simp [indexLength, isSpace_of_isNamePart hc, hopen, hclose, hrest, Nat.add_assoc]

theorem wordLength_append_stop (h : startsGap c = true) (b t : Text) :
    wordLength (b ++ c :: t) = (b.takeWhile Text.isWordPart).length := by
  rw [wordLength, takeWhile_append_stop (isWordPart_of_startsGap h) b t []]
  induction b with
  | nil => simp [isWordPart_of_startsGap h]
  | cons d rest ih =>
    by_cases hd : Text.isWordPart d = true
    · simpa [hd] using ih
    · simp [hd]

/-- The name of a property ends before the border. -/
theorem accessLength_arrow (h : startsGap c = true) (b t : Text) :
    accessLength ('-' :: '>' :: (b ++ c :: t)) = accessLength ('-' :: '>' :: (b ++ [c])) ∧
      accessLength ('-' :: '>' :: (b ++ c :: t)) ≤ b.length + 2 := by
  cases b with
  | nil =>
    have hplain : isPlainStart c = false := by
      simpa using of_startsGap h (fun c => !isPlainStart c) (by decide)
    simp [accessLength, hplain]
  | cons d rest =>
    have hle : (rest.takeWhile Text.isWordPart).length ≤ rest.length :=
      (List.takeWhile_prefix _).length_le
    simp only [List.cons_append, accessLength, wordLength_append_stop h, List.length_cons]
    refine ⟨trivial, ?_⟩
    split <;> omega

theorem accessLength_exchanged (h : startsGap c = true) (hx : ∀ e ∈ x, Text.isNamePart e = true)
    (hy : ∀ e ∈ y, Text.isNamePart e = true) (b g s : Text) :
    Exchanged (b ++ c :: g) x y (accessLength (b ++ c :: (g ++ (x ++ s))))
      (accessLength (b ++ c :: (g ++ (y ++ s)))) := by
  have hindex : c ≠ '[' := ne_of_startsGap h (by decide)
  have hminus : c ≠ '-' := ne_of_startsGap h (by decide)
  have hmore : c ≠ '>' := ne_of_startsGap h (by decide)
  have hquestion : c ≠ '?' := ne_of_startsGap h (by decide)
  -- without an index the extent does not depend on what follows the border
  have hconst : ∀ n ≤ b.length, (∀ t, accessLength (b ++ c :: t) = n) →
      Exchanged (b ++ c :: g) x y (accessLength (b ++ c :: (g ++ (x ++ s))))
        (accessLength (b ++ c :: (g ++ (y ++ s)))) := fun n hn hall =>
    .inl ⟨by rw [hall]; simp; omega, by rw [hall, hall]⟩
  match b with
  | [] => exact hconst 0 (Nat.zero_le _) fun t => by simp [accessLength, hindex, hminus, hquestion]
  | d :: rest =>
    by_cases hd : d = '['
    · subst hd
      have hscan := scans_indexLength.exchanged (passes_indexLength hx) (passes_indexLength hy)
        (rest ++ c :: g) s 0
      simpa [accessLength] using hscan.cons '['
    by_cases hd' : d = '-'
    · subst hd'
      match rest with
      | [] => exact hconst 0 (Nat.zero_le _) fun t => by simp [accessLength, hmore]
      | e :: rest =>
        by_cases he : e = '>'
        · subst he
          obtain ⟨-, hle⟩ := accessLength_arrow h rest []
          exact hconst _ (by simpa using hle) fun t => (accessLength_arrow h rest t).1
        · exact hconst 0 (Nat.zero_le _) fun t => by simp [accessLength, he]
    by_cases hd'' : d = '?'
    · subst hd''
      match rest with
      | [] => exact hconst 0 (Nat.zero_le _) fun t => by simp [accessLength, hminus]
      | [e] => exact hconst 0 (Nat.zero_le _) fun t => by simp [accessLength, hmore]
      | e :: e' :: rest =>
        by_cases he : e = '-' ∧ e' = '>'
        · obtain ⟨rfl, rfl⟩ := he
          -- one character more than without the question mark
          have harrow : ∀ t, accessLength ('?' :: '-' :: '>' :: (rest ++ c :: t)) =
              if accessLength ('-' :: '>' :: (rest ++ c :: t)) = 0 then 0
              else accessLength ('-' :: '>' :: (rest ++ c :: t)) + 1 := fun t => by
            obtain ⟨e, more, hmore⟩ : ∃ e more, rest ++ c :: t = e :: more :=
              List.exists_cons_of_ne_nil (by simp)
            simp only [hmore, accessLength]
            split <;> simp
          obtain ⟨-, hle⟩ := accessLength_arrow h rest []
          refine hconst (if accessLength ('-' :: '>' :: (rest ++ [c])) = 0 then 0
            else accessLength ('-' :: '>' :: (rest ++ [c])) + 1) ?_ fun t => ?_
          · simp only [List.length_cons]
            split <;> omega
          · rw [← (accessLength_arrow h rest t).1]
            exact harrow t
        · refine hconst 0 (Nat.zero_le _) fun t => ?_
          by_cases he' : e = '-'
          · have he'' : e' ≠ '>' := fun h' => he ⟨he', h'⟩
            simp [accessLength, he', he'']
          · simp [accessLength, he']
    · exact hconst 0 (Nat.zero_le _) fun t => by simp [accessLength, hd, hd', hd'']

theorem partLength_dollar (h : d ≠ '\x7b') (cs : Text) :
    partLength ('$' :: d :: cs) =
      wordLength (d :: cs) + accessLength ((d :: cs).drop (wordLength (d :: cs))) + 1 := by
  simp [partLength, h]

/-- The part that begins before the border ends there or behind the exchange. -/
theorem Head.partLength_exchanged (h : Head word) (hmark : startsGap mark = true)
    (hx : ∀ e ∈ x, Text.isNamePart e = true) (hy : ∀ e ∈ y, Text.isNamePart e = true) (ha : a ≠ [])
    (g s : Text) :
    Exchanged (a ++ (word ++ mark :: g)) x y
      (partLength (a ++ (word ++ mark :: (g ++ (x ++ s)))))
      (partLength (a ++ (word ++ mark :: (g ++ (y ++ s))))) := by
  obtain ⟨c, rest, rfl⟩ := List.exists_cons_of_ne_nil ha
  obtain ⟨d, more, hcons⟩ := h.cons_append rest
  simp only [List.cons_append, hcons]
  -- a part in braces goes on to the brace that closes it
  have hbraced := (scans_bracedLength.exchanged (passes_bracedLength hx) (passes_bracedLength hy)
    (more ++ mark :: g) s 0)
  simp only [List.append_assoc, List.cons_append] at hbraced
  by_cases hc : c = '$'
  · subst hc
    by_cases hd : d = '\x7b'
    · subst hd
      exact (hbraced.cons '\x7b').cons '$'
    -- a variable without braces ends at the mark, unless an access follows it
    · have hpart : ∀ t, partLength ('$' :: d :: (more ++ mark :: t)) =
          ((d :: more).takeWhile Text.isWordPart).length +
            accessLength ((d :: more).dropWhile Text.isWordPart ++ mark :: t) + 1 := fun t => by
        have hword := wordLength_append_stop hmark (d :: more) t
        have hdrop :
          (d :: (more ++ mark :: t)).drop ((d :: more).takeWhile Text.isWordPart).length =
            (d :: more).dropWhile Text.isWordPart ++ mark :: t := by
          have hsplit := List.takeWhile_append_dropWhile (p := Text.isWordPart) (l := d :: more)
          calc (d :: (more ++ mark :: t)).drop ((d :: more).takeWhile Text.isWordPart).length
              = ((d :: more).takeWhile Text.isWordPart ++
                  ((d :: more).dropWhile Text.isWordPart ++ mark :: t)).drop
                  ((d :: more).takeWhile Text.isWordPart).length := by
                rw [← List.append_assoc, hsplit, List.cons_append]
            _ = _ := List.drop_left
        simp only [List.cons_append] at hword
        rw [partLength_dollar hd, hword, hdrop]
      have haccess := accessLength_exchanged hmark hx hy ((d :: more).dropWhile Text.isWordPart) g s
      have hprepend := haccess.prepend ((d :: more).takeWhile Text.isWordPart)
      rw [← List.append_assoc, List.takeWhile_append_dropWhile] at hprepend
      rw [hpart, hpart]
      exact hprepend.cons '$'
  by_cases hc' : c = '\x7b' ∧ d = '$'
  · obtain ⟨rfl, rfl⟩ := hc'
    exact (hbraced.cons '$').cons '\x7b'
  -- nothing else opens a part
  · have hnone : ∀ cs, partLength (c :: d :: cs) = 0 := fun cs => by
      unfold partLength
      split
      next heq => exact absurd (List.cons.inj heq).1 hc
      next heq =>
        simp only [List.cons.injEq] at heq
        exact absurd ⟨heq.1, heq.2.1⟩ hc'
      next heq => exact absurd (List.cons.inj heq).1 hc
      next => rfl
    rw [hnone, hnone]
    exact .inl ⟨Nat.zero_le _, rfl⟩

end

end

end CodeInsight.Grammar
