import CodeInsight.Proofs.RenamedTokens

/-!
# The order of tokens

The tokens of a text come in the order of the text: each one ends before the next begins. A part of
a string that cannot be read leaves a token behind that stands where the part began; the tokens read
since then are lost with it, so that the order is kept. Whether a word is a keyword or a name is
told by its spelling.

## Main Results

- `Grammar.run_inOrder`: tokens that are read from some place on
- `Grammar.tokenize_ordered`: the tokens of a source text
- `Grammar.tokenize_within`: no token goes beyond the end of the text
-/

namespace CodeInsight.Grammar

open Lexeme Lexer

variable {mode : Mode} {cs : Text}

/-! ## Section 1: Spellings -/

/-- A word with a spelling that is free for names is of the kind that this name has. -/
def Token.Spelled (t : Token) : Prop :=
  t.kind.isWord = true → FreeName t.text.toList → t.kind = nameKind t.text.toList

theorem wordLexeme_spelled {x s : Text} (hx : IsName x)
    (h : FreeName ((x ++ s).take (wordLexeme x s).length)) :
    (wordLexeme x s).kind = nameKind ((x ++ s).take (wordLexeme x s).length) := by
  unfold wordLexeme at h ⊢
  by_cases hslash : x.contains '\\' = true
  · simp only [hslash, if_true, List.take_left, nameKind]
  rw [if_neg hslash] at h ⊢
  cases hword : Keyword.ofWord? (String.ofList x) with
  | none => simp only [List.take_left, nameKind, if_neg hslash, hword]
  | some k =>
    rw [hword] at h
    dsimp only at h ⊢
    unfold keywordLexeme at h ⊢
    cases hwriting : k.restrictedToWriting? with
    | none => simp only [List.take_left, nameKind, if_neg hslash, hword]
    | some restricted =>
      rw [hwriting] at h
      dsimp only at h ⊢
      split
      next hset =>
        -- the parenthesis in `(set)` is no part of a name
        rw [if_pos hset] at h
        exfalso
        have hwhole := h.whole
        rw [List.take_length_add_append, nameLength_append hx.whole, List.length_append] at hwhole
        cases s with
        | nil => simp [startsWith] at hset
        | cons c rest =>
          have hc : c = '(' := by
            apply Text.eq_of_toLower (by decide)
            exact Option.some.inj (congrArg List.head? (eq_of_beq hset))
          subst hc
          have hpart : Text.isWordPart '(' = false := by decide
          simp [nameLength, hpart] at hwhole
      next => simp only [List.take_left, nameKind, if_neg hslash, hword]

theorem step_spelled (hmode : mode.Plain) (parts : List Part) (offset : Nat) (hcs : cs ≠ [])
    (span : Span) :
    Token.Spelled ⟨(step mode parts offset cs).lexeme.kind,
      String.ofList (cs.take (step mode parts offset cs).lexeme.length), span⟩ := by
  intro hword hfree
  dsimp only at hword hfree ⊢
  rw [String.toList_ofList] at hfree ⊢
  obtain rfl := step_word hmode hcs hword
  obtain ⟨-, hpos, hhead⟩ | ⟨x, s, rfl, hx, -, hstep⟩ :=
    codeStep_word (show (codeStep parts cs).lexeme.kind.isWord = true from hword)
  · obtain ⟨rest, rfl⟩ := List.head?_eq_some_iff.mp hhead
    obtain ⟨n, hn⟩ := Nat.exists_eq_succ_of_ne_zero (Nat.ne_of_gt hpos)
    have hstarts := hfree.starts
    rw [show (step .code parts offset ('\\' :: rest)).lexeme.length = _ from hn,
      List.take_succ_cons] at hstarts
    exact absurd hstarts (by simp [startsWord]; decide)
  · have hlexeme : (step .code parts offset (x ++ s)).lexeme = wordLexeme x s := by
      rw [show step .code parts offset (x ++ s) = _ from hstep]
    rw [hlexeme] at hfree ⊢
    exact wordLexeme_spelled hx hfree

/-! ## Section 2: The order -/

/-- Every token ends before the next one begins, and its kind agrees with its spelling. -/
structure Ordered (ts : List Token) : Prop where
  upright : ∀ t ∈ ts, t.span.start ≤ t.span.stop
  apart : ts.Pairwise fun a b => a.span.stop ≤ b.span.start
  spelled : ∀ t ∈ ts, t.Spelled

/-- The tokens that are read from an offset to the end of the text, within some parts. They stand
behind the offset, or behind the place from which tokens are lost. -/
structure Reading.InOrder (r : Reading) (parts : List Part) (offset stop : Nat) : Prop where
  ordered : Ordered r.tokens
  lost : ∀ place ∈ r.lostFrom, offset ≤ place ∨ ∃ part ∈ parts, part.start = place
  low : ∀ t ∈ r.tokens, offset ≤ t.span.start ∨ ∃ place ∈ r.lostFrom, place ≤ t.span.start
  within : ∀ t ∈ r.tokens, t.span.stop ≤ stop

section

variable {parts parts' : List Part} {offset offset' stop : Nat} {r : Reading}

theorem inOrder_nil (parts : List Part) (offset stop : Nat) :
    Reading.InOrder ⟨[], none⟩ parts offset stop where
  ordered := ⟨List.forall_mem_nil _, .nil, List.forall_mem_nil _⟩
  lost := fun place hplace => (Option.not_mem_none place hplace).elim
  low := List.forall_mem_nil _
  within := List.forall_mem_nil _

/-- What is read later, possibly within parts that begin only now. -/
theorem Reading.InOrder.earlier (h : r.InOrder parts' offset' stop) (hle : offset ≤ offset')
    (hparts : ∀ part ∈ parts', part ∈ parts ∨ offset ≤ part.start) :
    r.InOrder parts offset stop where
  ordered := h.ordered
  lost := by
    intro place hplace
    rcases h.lost place hplace with hlater | ⟨part, hpart, rfl⟩
    · exact .inl (Nat.le_trans hle hlater)
    · exact (hparts part hpart).elim (fun hmem => .inr ⟨part, hmem, rfl⟩) .inl
  low := fun t ht => (h.low t ht).imp_left (Nat.le_trans hle)
  within := h.within

/-- Without parts nothing is lost that was read before. -/
theorem Reading.InOrder.behind (h : r.InOrder [] offset stop) :
    ∀ t ∈ r.tokens, offset ≤ t.span.start := by
  intro t ht
  rcases h.low t ht with hlow | ⟨place, hplace, hle⟩
  · exact hlow
  · rcases h.lost place hplace with hlater | ⟨part, hpart, -⟩
    · exact Nat.le_trans hlater hle
    · exact (List.not_mem_nil hpart).elim

/-- One more token in front. -/
theorem Reading.InOrder.before {t : Token} (h : r.InOrder parts t.span.stop stop)
    (hparts : ∀ part ∈ parts, part.start ≤ t.span.start) (ht : t.span.start ≤ t.span.stop)
    (hstop : t.span.stop ≤ stop) (hspelled : t.Spelled) :
    (r.before t).InOrder parts t.span.start stop := by
  unfold Reading.before
  split
  · exact h.earlier ht fun part hpart => .inl hpart
  next hkept =>
    -- what is lost is lost from behind the token on
    have hlost : ∀ place ∈ r.lostFrom, t.span.stop ≤ place := by
      intro place hplace
      rcases h.lost place hplace with hlater | ⟨part, hpart, rfl⟩
      · exact hlater
      · rw [Option.mem_def.mp hplace] at hkept
        exact absurd (decide_eq_true (hparts part hpart)) hkept
    have hbehind : ∀ b ∈ r.tokens, t.span.stop ≤ b.span.start := by
      intro b hb
      rcases h.low b hb with hlow | ⟨place, hplace, hle⟩
      · exact hlow
      · exact Nat.le_trans (hlost place hplace) hle
    refine ⟨⟨?_, ?_, ?_⟩, ?_, ?_, List.forall_mem_cons.mpr ⟨hstop, h.within⟩⟩
    · exact List.forall_mem_cons.mpr ⟨ht, h.ordered.upright⟩
    · exact .cons hbehind h.ordered.apart
    · exact List.forall_mem_cons.mpr ⟨hspelled, h.ordered.spelled⟩
    · exact fun place hplace => .inl (Nat.le_trans ht (hlost place hplace))
    · exact List.forall_mem_cons.mpr
        ⟨.inl (Nat.le_refl _), fun b hb => .inl (Nat.le_trans ht (hbehind b hb))⟩

/-- Where no token goes on, the tokens of the outermost part are lost. -/
theorem Reading.InOrder.failure {place : Nat} (h : r.InOrder [] offset' stop) (hle : offset ≤ place)
    (hle' : offset ≤ offset') (hstop : place ≤ stop)
    (hparts : ∀ part ∈ parts, part.start ≤ offset) :
    (Lexer.failure parts place r).InOrder parts offset stop := by
  unfold Lexer.failure
  split
  next part hlast =>
    have hpart := List.mem_of_getLast? hlast
    have hbehind : ∀ b ∈ r.tokens, part.start ≤ b.span.start := fun b hb =>
      Nat.le_trans (Nat.le_trans (hparts part hpart) hle') (h.behind b hb)
    have hstart : part.start ≤ stop := Nat.le_trans (hparts part hpart) (Nat.le_trans hle hstop)
    refine ⟨⟨?_, .cons hbehind h.ordered.apart, ?_⟩, ?_, ?_,
      List.forall_mem_cons.mpr ⟨hstart, h.within⟩⟩
    · exact List.forall_mem_cons.mpr ⟨Nat.le_refl _, h.ordered.upright⟩
    · exact List.forall_mem_cons.mpr ⟨fun hword => (nomatch hword), h.ordered.spelled⟩
    · rintro _ ⟨⟩
      exact .inr ⟨part, hpart, rfl⟩
    · exact List.forall_mem_cons.mpr
        ⟨.inr ⟨_, rfl, Nat.le_refl _⟩, fun b hb => .inr ⟨_, rfl, hbehind b hb⟩⟩
  · refine ⟨⟨?_, List.pairwise_singleton _ _, ?_⟩, ?_, ?_, List.forall_mem_singleton.mpr hstop⟩
    · exact List.forall_mem_singleton.mpr (Nat.le_refl _)
    · exact List.forall_mem_singleton.mpr fun hword => nomatch hword
    · exact fun place hplace => (Option.not_mem_none place hplace).elim
    · exact List.forall_mem_singleton.mpr (.inl hle)

end

/-- A token may open a part, which begins with it. -/
theorem step_parts {parts : List Part} {offset : Nat} (hmode : mode.Plain) (hcs : cs ≠ [])
    (hparts : ∀ part ∈ parts, part.closing.Plain) (hstarts : ∀ part ∈ parts, part.start ≤ offset) :
    ∀ part ∈ (step mode parts offset cs).parts, part.closing.Plain ∧ part.start ≤ offset ∧
      (part ∈ parts ∨ offset ≤ part.start) := by
  intro part hpart
  obtain ⟨-, -, heq | ⟨closing, rfl, heq⟩⟩ := step_spec hmode parts offset hcs
  · rw [heq] at hpart
    exact ⟨hparts part hpart, hstarts part hpart, .inl hpart⟩
  · rw [heq] at hpart
    rcases List.mem_cons.mp hpart with rfl | hold
    · exact ⟨hmode, Nat.le_refl _, .inr (Nat.le_refl _)⟩
    · exact ⟨hparts part hold, hstarts part hold, .inl hold⟩

/-- **Tokens that are read from some place on** are in order and end with the text. -/
theorem run_inOrder : ∀ (fuel : Nat) (mode : Mode) (parts : List Part) (offset : Nat) (cs : Text),
    mode.Plain → (∀ part ∈ parts, part.closing.Plain) → (∀ part ∈ parts, part.start ≤ offset) →
    (run fuel mode parts offset cs).InOrder parts offset (offset + Text.size cs)
  | 0, _, _, _, _, _, _, _ => inOrder_nil _ _ _
  | fuel + 1, mode, parts, offset, cs, hmode, hparts, hstarts => by
    have hsize : ∀ n, Text.size (cs.take n) + Text.size (cs.drop n) = Text.size cs := fun n => by
      rw [← Text.size_append, List.take_append_drop]
    have htake : ∀ n, offset + Text.size (cs.take n) ≤ offset + Text.size cs := fun n => by
      have := hsize n
      omega
    -- reading on after a round
    have hafter : ∀ {mode : Mode} {parts : List Part} (n : Nat), mode.Plain →
        (∀ part ∈ parts, part.closing.Plain) → (∀ part ∈ parts, part.start ≤ offset) →
        (runAfter fuel mode parts offset cs n).InOrder parts (offset + Text.size (cs.take n))
          (offset + Text.size cs) := by
      intro mode parts n hmode hparts hstarts
      obtain ⟨hmode', hparts'⟩ := settle_spec hmode hparts ⟨offset, offset + Text.size (cs.take n)⟩
      have hrun := run_inOrder fuel _ _ (offset + Text.size (cs.take n)) (cs.drop n) hmode'
        (fun part hpart => hparts part (hparts' part hpart))
        (fun part hpart => Nat.le_trans (hstarts part (hparts' part hpart)) (Nat.le_add_right _ _))
      rw [Nat.add_assoc, hsize] at hrun
      exact hrun.earlier (Nat.le_refl _) fun part hpart => .inl (hparts' part hpart)
    by_cases hcs : cs = []
    · subst hcs
      simp only [run]
      split
      · exact inOrder_nil _ _ _
      · exact (inOrder_nil [] offset _).failure (Nat.le_refl _) (Nat.le_refl _)
          (Nat.le_add_right _ _) hstarts
    obtain hgap | ⟨n, hgap⟩ | hgap := gapIn_cases mode cs
    · rw [run_unclosed hcs hgap]
      exact (inOrder_nil [] offset _).failure (Nat.le_add_right _ _) (Nat.le_refl _)
        (Nat.le_refl _) hstarts
    · rw [run_gap hcs hgap]
      exact (hafter (n + 1) hmode hparts hstarts).earlier (Nat.le_add_right _ _)
        fun part hpart => .inl hpart
    · have hmode' := (step_spec hmode parts offset hcs).2.1
      have hparts' := step_parts hmode hcs hparts hstarts
      by_cases hkind : (step mode parts offset cs).lexeme.kind = .invalid
      · rw [run_invalid hcs hgap hkind]
        have hmore := run_inOrder fuel .code [] (offset +
          Text.size (cs.take ((step mode parts offset cs).lexeme.length + 1)))
          (cs.drop ((step mode parts offset cs).lexeme.length + 1)) trivial (List.forall_mem_nil _)
          (List.forall_mem_nil _)
        rw [Nat.add_assoc, hsize] at hmore
        exact (hmore.failure (Nat.le_add_right _ _) (Nat.le_add_right _ _) (htake _)
          fun part hpart => (hparts' part hpart).2.1).earlier (Nat.le_refl _)
            fun part hpart => (hparts' part hpart).2.2
      · rw [run_token hcs hgap hkind]
        have hmore := hafter (step mode parts offset cs).lexeme.length hmode'
          (fun part hpart => (hparts' part hpart).1) (fun part hpart => (hparts' part hpart).2.1)
        exact (Reading.InOrder.before hmore (fun part hpart => (hparts' part hpart).2.1)
          (Nat.le_add_right _ _) (htake _) (step_spelled hmode parts offset hcs _)).earlier
            (Nat.le_refl _) fun part hpart => (hparts' part hpart).2.2

/-- The tokens behind a first line that names an interpreter, or of the whole text. -/
theorem inOrder_behind (line rest : Text) :
    (run (rest.length + 1) .markup [] (Text.size line) rest).InOrder [] (Text.size line)
      (Text.size (line ++ rest)) := by
  rw [Text.size_append]
  exact run_inOrder _ _ _ _ _ trivial (List.forall_mem_nil _) (List.forall_mem_nil _)

/-- **The tokens of a source text** are in order. -/
theorem tokenize_ordered (text : Text) : Ordered (tokenize text) := by
  obtain ⟨line, rest, hsplit, -⟩ := exists_firstLine text
  have hrun := inOrder_behind line rest
  rw [tokenize_of_splitAt hsplit, lineTokens]
  split
  · exact hrun.ordered
  · exact ⟨List.forall_mem_cons.mpr ⟨Nat.zero_le _, hrun.ordered.upright⟩,
      .cons hrun.behind hrun.ordered.apart,
      List.forall_mem_cons.mpr ⟨fun hword => (nomatch hword), hrun.ordered.spelled⟩⟩

/-- **No token goes beyond the end** of a source text. -/
theorem tokenize_within (text : Text) : ∀ t ∈ tokenize text, t.span.stop ≤ Text.size text := by
  obtain ⟨line, rest, hsplit, htext⟩ := exists_firstLine text
  have hrun := inOrder_behind line rest
  rw [tokenize_of_splitAt hsplit, lineTokens, htext]
  split
  · exact hrun.within
  · exact List.forall_mem_cons.mpr
      ⟨by rw [Text.size_append]; exact Nat.le_add_right _ _, hrun.within⟩

end CodeInsight.Grammar
