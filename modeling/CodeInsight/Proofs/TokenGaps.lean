import CodeInsight.Proofs.DeclaredNames

/-!
# What stands between tokens

A token stands in the text where its span says, and it is spelled there as its kind tells. Between
two tokens of code there is nothing but whitespace and comments.

## Main Results

- `Grammar.IsComment`, `Grammar.Trivia`: comments, and texts of whitespace and comments
- `Grammar.ReadAt`: a token that is read at a place
- `Grammar.ReadAt.mark`, `Grammar.ReadAt.namespace_spelling`: how some tokens are spelled
- `Grammar.tokenize_found`: where a token stands in a source text
- `Grammar.tokenize_adjacent`: two tokens and what is between them
-/

namespace CodeInsight.Grammar

open Lexeme Template Lexer

variable {cs : Text} {n place : Nat} {parts : List Part} {more : Reading} {text s : Text}
  {l : Lexeme} {t : Token}

/-! ## Section 1: Whitespace and comments -/

/-- A piece of a line that does not hold a closing tag. -/
structure IsLine (body : Text) : Prop where
  unbroken : ∀ c ∈ body, c ≠ '\n' ∧ c ≠ '\r'
  untagged : ¬ ['?', '>'] <:+: body

/-- A comment between its marks, or to the end of its line. -/
inductive IsComment : Text → Prop
  | block {body : Text} (hbody : ¬ ['*', '/'] <:+: body) :
      IsComment ('/' :: '*' :: (body ++ ['*', '/']))
  | slashes {body : Text} (hbody : IsLine body) : IsComment ('/' :: '/' :: body)
  | hash {body : Text} (hbody : IsLine body) (hattribute : body.head? ≠ some '[') :
      IsComment ('#' :: body)

/-- Whitespace and comments. -/
inductive Trivia : Text → Prop
  | nil : Trivia []
  | blank {c : Char} {g : Text} (hc : isBlank c = true) (hg : Trivia g) : Trivia (c :: g)
  | comment {c g : Text} (hc : IsComment c) (hg : Trivia g) : Trivia (c ++ g)

theorem Trivia.append {g g' : Text} (h : Trivia g) (h' : Trivia g') : Trivia (g ++ g') := by
  induction h with
  | nil => exact h'
  | blank hc _ ih => exact .blank hc ih
  | comment hc _ ih =>
    rw [List.append_assoc]
    exact .comment hc ih

theorem trivia_of_isBlank {g : Text} (h : ∀ c ∈ g, isBlank c = true) : Trivia g := by
  induction g with
  | nil => exact .nil
  | cons c rest ih =>
    obtain ⟨hc, hrest⟩ := List.forall_mem_cons.mp h
    exact .blank hc (ih hrest)

theorem take_takeWhile (P : Char → Bool) (cs : Text) :
    cs.take (cs.takeWhile P).length = cs.takeWhile P := by
  have hsplit : cs.takeWhile P ++ cs.dropWhile P = cs := List.takeWhile_append_dropWhile
  calc cs.take (cs.takeWhile P).length
      = (cs.takeWhile P ++ cs.dropWhile P).take (cs.takeWhile P).length := by rw [hsplit]
    _ = cs.takeWhile P := List.take_left

theorem head?_of_take {tail : Text} {c : Char} (h : cs.take n = c :: tail) : cs.head? = some c := by
  rw [← List.take_append_drop n cs, h]
  rfl

theorem blockComment_body (h : blockComment cs = some n) :
    ∃ body, cs.take n = body ++ ['*', '/'] ∧ ¬ ['*', '/'] <:+: body := by
  induction cs generalizing n with
  | nil => cases h
  | cons c rest ih =>
    obtain ⟨more, rfl, rfl, rfl⟩ | ⟨m, hgoes, hm, rfl⟩ := blockComment_cases h
    · exact ⟨[], rfl, by simp⟩
    · obtain ⟨body, hbody, hnone⟩ := ih hm
      refine ⟨c :: body, by rw [List.take_succ_cons, hbody]; rfl, fun hinfix => ?_⟩
      rcases List.infix_cons_iff.mp hinfix with hstart | hinfix
      · obtain ⟨tail, htail⟩ := hstart
        obtain ⟨hc, rfl⟩ := List.cons.inj htail
        exact hgoes hc.symm (head?_of_take hbody)
      · exact hnone hinfix

theorem lineComment_isLine : ∀ cs : Text, IsLine (cs.take (lineComment cs))
  | [] => ⟨by simp [lineComment], by simp [lineComment]⟩
  | c :: rest => by
    by_cases hend : EndsLine c rest
    · rw [lineComment_of_ends hend]
      exact ⟨by simp, by simp⟩
    · obtain ⟨hunbroken, huntagged⟩ := lineComment_isLine rest
      rw [lineComment_of_goes hend, List.take_succ_cons]
      simp only [EndsLine, not_or] at hend
      obtain ⟨hbreak, hreturn, htag⟩ := hend
      refine ⟨List.forall_mem_cons.mpr ⟨⟨hbreak, hreturn⟩, hunbroken⟩, fun hinfix => ?_⟩
      rcases List.infix_cons_iff.mp hinfix with hstart | hinfix
      · obtain ⟨tail, htail⟩ := hstart
        obtain ⟨hc, hrest⟩ := List.cons.inj htail
        exact htag ⟨hc.symm, head?_of_take hrest.symm⟩
      · exact huntagged hinfix

theorem Trivia.of_comment {c : Text} (h : IsComment c) : Trivia c := by
  rw [← List.append_nil c]
  exact .comment h .nil

theorem trivia_blanks (cs : Text) : Trivia (cs.take (cs.takeWhile isBlank).length) := by
  rw [take_takeWhile]
  exact trivia_of_isBlank fun c hc => List.mem_takeWhile_imp hc

/-- **What is skipped** before a token is whitespace or a comment. -/
theorem trivia_gap (h : gap cs = some (n + 1)) : Trivia (cs.take (n + 1)) := by
  obtain ⟨r, rfl, -, m, hm, hn⟩ | ⟨r, rfl, hn⟩ | ⟨r, rfl, hattribute, hn⟩ | ⟨c, r, -, -, hn⟩ :=
    gap_cases h
  · obtain ⟨body, hbody, hnone⟩ := blockComment_body hm
    rw [hn, List.take_succ_cons, List.take_succ_cons, hbody]
    exact .of_comment (.block hnone)
  · rw [hn, List.take_succ_cons, List.take_succ_cons]
    exact .of_comment (.slashes (lineComment_isLine r))
  · rw [hn, List.take_succ_cons]
    refine .of_comment (.hash (lineComment_isLine r) fun hhead => hattribute ?_)
    obtain ⟨tail, htail⟩ := List.head?_eq_some_iff.mp hhead
    exact head?_of_take htail
  · rw [hn]
    exact trivia_blanks cs

theorem trivia_gapIn {mode : Mode} (h : gapIn mode cs = some (n + 1)) :
    Trivia (cs.take (n + 1)) := by
  unfold gapIn at h
  split at h
  · exact trivia_gap h
  · rw [← Option.some.inj h]
    exact trivia_blanks cs
  · cases h

/-! ## Section 2: Tokens at places -/

/-- The kinds of tokens that stand for source text within the tags. -/
def TokenKind.inCode : TokenKind → Bool
  | .markup | .lapse | .invalid => false
  | _ => true

/-- A token that is read at a place where the rest of the text is `s`. -/
structure ReadAt (t : Token) (place : Nat) (s : Text) : Prop where
  ne_nil : s ≠ []
  step : ∃ mode parts, mode.Plain ∧ (Lexer.step mode parts place s).lexeme.kind ≠ .invalid ∧
    t = ⟨(Lexer.step mode parts place s).lexeme.kind,
      String.ofList (s.take (Lexer.step mode parts place s).lexeme.length),
      ⟨place, place + Text.size (s.take (Lexer.step mode parts place s).lexeme.length)⟩⟩

theorem ReadAt.text_ne_nil (h : ReadAt t place s) : t.text.toList ≠ [] := by
  obtain ⟨mode, parts, hmode, hkind, rfl⟩ := h.step
  have hpos := (step_spec hmode parts place h.ne_nil).1.resolve_left hkind
  rw [String.toList_ofList]
  simpa using ⟨Nat.ne_of_gt hpos, h.ne_nil⟩

theorem ReadAt.span (h : ReadAt t place s) : t.span = ⟨place, place + Text.size t.text.toList⟩ := by
  obtain ⟨mode, parts, hmode, hkind, rfl⟩ := h.step
  rw [String.toList_ofList]

/-- Tokens are not empty. -/
theorem ReadAt.solid (h : ReadAt t place s) : t.span.start < t.span.stop := by
  have hpos := size_pos h.text_ne_nil
  rw [h.span]
  show place < place + _
  omega

/-! ## Section 3: Spellings -/

theorem name?_isMark (h : name? cs = some l) : l.kind.isMark = false := by
  obtain ⟨hkind, -, -⟩ | ⟨x, s, -, -, -, rfl⟩ := name?_word h
  · rw [hkind]
    rfl
  · unfold wordLexeme
    split
    · rfl
    · split
      · unfold keywordLexeme
        split
        · split <;> rfl
        · rfl
      · rfl

/-- Symbols and closing tags are read by one of the recognisers of code. -/
theorem symbol?_of_isMark (h : (ofCode cs).kind.isMark = true) : symbol? cs = some (ofCode cs) := by
  obtain ⟨l, hl, hother⟩ | ⟨-, l, hname, hl⟩ | ⟨l, hsymbol, hl⟩ := ofCode_cases cs
  · rw [hl, hother.2.2] at h
    cases h
  · rw [hl, name?_isMark hname] at h
    cases h
  · rwa [hl]

theorem mark_of_symbol? (h : symbol? cs = some l) :
    (l.kind = .closeTag ∧ String.ofList (cs.take l.length) = "?>") ∨
      ∃ x, l.kind = .symbol x ∧ (String.ofList (cs.take l.length), x) ∈ Symbol.spellings := by
  unfold symbol? at h
  split at h
  · cases h
    exact .inl ⟨rfl, rfl⟩
  · obtain ⟨row, hrow, rfl⟩ := Option.map_eq_some_iff.mp h
    have hbegins := List.find?_some hrow
    obtain ⟨rest, hrest⟩ : row.1.toList <+: cs := List.isPrefixOf_iff_prefix.mp hbegins
    have htake : cs.take row.1.length = row.1.toList := by
      rw [← hrest, ← String.length_toList, List.take_left]
    have hspelling : String.ofList (cs.take row.1.length) = row.1 := by
      rw [htake, String.ofList_toList]
    refine .inr ⟨row.2, rfl, ?_⟩
    rw [hspelling]
    exact List.mem_of_find?_eq_some hrow

theorem mark_of_codeStep (h : (codeStep parts cs).lexeme.kind.isMark = true) :
    symbol? cs = some (codeStep parts cs).lexeme := by
  unfold Lexer.codeStep at h ⊢
  split at h
  next => cases h
  next => exact symbol?_of_isMark h

/-- **Symbols and closing tags** are spelled as the table says. -/
theorem ReadAt.mark (h : ReadAt t place s) (hmark : t.kind.isMark = true) :
    (t.kind = .closeTag ∧ t.text = "?>") ∨ ∃ x, t.kind = .symbol x ∧
    (t.text, x) ∈ Symbol.spellings := by
  obtain ⟨mode, parts, hmode, -, rfl⟩ := h.step
  cases mode with
  | code => exact mark_of_symbol? (mark_of_codeStep hmark)
  | markup =>
    simp only [Lexer.step] at hmark
    unfold markupStep at hmark
    split at hmark <;> cases hmark
  | template closing =>
    simp only [Lexer.step] at hmark ⊢
    -- the mark that closes a template and its text are no symbols
    obtain ⟨n, -, -, heq⟩ | ⟨n, -, -, heq⟩ | ⟨-, -, heq⟩ :=
      templateStep_cases hmode parts place h.ne_nil
    · rw [heq, (mark_other closing).2] at hmark
      cases hmark
    · rw [heq] at hmark
      cases hmark
    · rw [heq] at hmark ⊢
      exact mark_of_symbol? (mark_of_codeStep hmark)
  | ending n =>
    simp only [Lexer.step] at hmark ⊢
    unfold endingLexeme at hmark ⊢
    -- behind `__halt_compiler` these are the only symbols
    have htable : ("(", Symbol.leftParen) ∈ Symbol.spellings ∧ (")", Symbol.rightParen) ∈
      Symbol.spellings ∧
        (";", Symbol.semicolon) ∈ Symbol.spellings := by decide +kernel
    split at hmark
    · exact .inr ⟨_, rfl, htable.1⟩
    · exact .inr ⟨_, rfl, htable.2.1⟩
    · exact .inr ⟨_, rfl, htable.2.2⟩
    · exact .inl ⟨rfl, rfl⟩
    · cases hmark
  | data => cases hmark

/-- The keyword of a namespace is spelled in any mixture of cases. -/
theorem ReadAt.namespace_spelling (h : ReadAt t place s) (ht : t.kind = .keyword .namespaceKw) :
    t.text.toList.map Char.toLower = "namespace".toList := by
  have htable :
    (Keyword.spellings.all fun row => decide (row.2 = .namespaceKw → row.1 = "namespace")) =
      true := by decide +kernel
  obtain ⟨mode, parts, hmode, -, rfl⟩ := h.step
  have hword : (Lexer.step mode parts place s).lexeme.kind.isWord = true := by
    rw [show (Lexer.step mode parts place s).lexeme.kind = _ from ht]
    rfl
  obtain rfl := step_word hmode h.ne_nil hword
  obtain ⟨hfull, -, -⟩ | ⟨w, r, rfl, -, -, hstep⟩ := codeStep_word hword
  · rw [show (codeStep parts s).lexeme.kind = _ from ht] at hfull
    cases hfull
  · have hkind : (wordLexeme w r).kind = .keyword .namespaceKw := by
      rw [show Lexer.step .code parts place (w ++ r) = _ from hstep] at ht
      exact ht
    obtain ⟨hkeyword, hlexeme⟩ := ofWord?_of_declares hkind rfl
    obtain ⟨spelling, hmem, hlower⟩ := mem_spellings_of_ofWord? hkeyword
    have hspelling : spelling = "namespace" :=
      of_decide_eq_true (List.all_eq_true.mp htable _ hmem) rfl
    rw [show Lexer.step .code parts place (w ++ r) = _ from hstep, hlexeme, String.toList_ofList,
      List.take_left, ← hlower, hspelling]

/-! ## Section 4: Tokens of a text -/

section

variable {A B : List Token}

/-- Where a token stands in a text, and how the lexer goes on behind it. Before the first token
there are whitespace and comments. -/
def Found (first : Prop) (t : Token) (B : List Token) (offset : Nat) (cs : Text) : Prop :=
  ∃ u s fuel mode parts, cs = u ++ (t.text.toList ++ s) ∧ (first → Trivia u) ∧
    ReadAt t (offset + Text.size u) (t.text.toList ++ s) ∧ mode.Plain ∧
    (∀ part ∈ parts, part.closing.Plain) ∧ B = (run fuel mode parts t.span.stop s).tokens

theorem Found.later {first first' : Prop} {offset : Nat} {u : Text}
    (h : Found first t B (offset + Text.size u) cs) (hfirst : first' → first ∧ Trivia u) :
    Found first' t B offset (u ++ cs) := by
  obtain ⟨v, s, fuel, mode, parts, rfl, htrivia, hread, hmode, hparts, hB⟩ := h
  rw [Nat.add_assoc, ← Text.size_append] at hread
  refine ⟨u ++ v, s, fuel, mode, parts, (List.append_assoc _ _ _).symm, fun h => ?_, hread,
    hmode, hparts, hB⟩
  exact (hfirst h).2.append (htrivia (hfirst h).1)

/-- A failure leaves no token of code behind, but the tokens that follow may be such. -/
theorem failure_split (h : (failure parts place more).tokens = A ++ t :: B)
    (ht : t.kind.inCode = true) : ∃ A', more.tokens = A' ++ t :: B := by
  unfold Lexer.failure at h
  split at h
  · cases A with
    | nil =>
      obtain ⟨rfl, -⟩ := List.cons.inj h
      cases ht
    | cons a A => exact ⟨A, (List.cons.inj h).2⟩
  · cases A with
    | nil =>
      obtain ⟨rfl, -⟩ := List.cons.inj h
      cases ht
    | cons a A => exact absurd (List.cons.inj h).2 (by simp)

theorem before_split {a : Token} (h : (more.before a).tokens = A ++ t :: B) :
    (t = a ∧ B = more.tokens) ∨ ∃ A', more.tokens = A' ++ t :: B := by
  unfold Reading.before at h
  split at h
  · exact .inr ⟨A, h⟩
  · cases A with
    | nil =>
      obtain ⟨rfl, rfl⟩ := List.cons.inj h
      exact .inl ⟨rfl, rfl⟩
    | cons a' A => exact .inr ⟨A, (List.cons.inj h).2⟩

/-- **Where a token stands** in a text. -/
theorem run_found : ∀ (fuel : Nat) (mode : Mode) (parts : List Part) (offset : Nat) (cs : Text)
    {A B : List Token} {t : Token}, mode.Plain → (∀ part ∈ parts, part.closing.Plain) →
    (run fuel mode parts offset cs).tokens = A ++ t :: B → t.kind.inCode = true →
    Found (A = []) t B offset cs
  | 0, _, _, _, _, _, _, _, _, _, h, _ => absurd h (by simp [run])
  | fuel + 1, mode, parts, offset, cs, A, B, t, hmode, hparts, h, ht => by
    have hnone : ¬ ∃ A', (⟨[], none⟩ : Reading).tokens = A' ++ t :: B := by simp
    -- reading on after a round
    have hafter : ∀ {mode : Mode} {parts : List Part} {A' : List Token} (n : Nat), mode.Plain →
        (∀ part ∈ parts, part.closing.Plain) →
        (runAfter fuel mode parts offset cs n).tokens = A' ++ t :: B →
        (A = [] → A' = [] ∧ Trivia (cs.take n)) → Found (A = []) t B offset cs := by
      intro mode parts A' n hmode hparts h hfirst
      obtain ⟨hmode', hparts'⟩ := settle_spec hmode hparts ⟨offset, offset + Text.size (cs.take n)⟩
      have hfound := run_found fuel _ _ (offset + Text.size (cs.take n)) (cs.drop n) hmode'
        (fun part hpart => hparts part (hparts' part hpart)) h ht
      rw [← List.take_append_drop n cs]
      exact hfound.later hfirst
    by_cases hcs : cs = []
    · subst hcs
      simp only [run] at h
      split at h
      · exact absurd ⟨A, h⟩ hnone
      · exact absurd (failure_split h ht) hnone
    obtain hgap | ⟨n, hgap⟩ | hgap := gapIn_cases mode cs
    · rw [run_unclosed hcs hgap] at h
      exact absurd (failure_split h ht) hnone
    · rw [run_gap hcs hgap] at h
      exact hafter (n + 1) hmode hparts h fun hA => ⟨hA, trivia_gapIn hgap⟩
    · obtain ⟨hproper, hmode', -⟩ := step_spec hmode parts offset hcs
      have hparts' := step_plain offset hmode hcs hparts
      by_cases hkind : (step mode parts offset cs).lexeme.kind = .invalid
      · rw [run_invalid hcs hgap hkind] at h
        have hA : A ≠ [] := by
          rintro rfl
          rcases failure_head h with hk | hk <;> rw [hk] at ht <;> cases ht
        obtain ⟨A', h⟩ := failure_split h ht
        rw [← List.take_append_drop ((step mode parts offset cs).lexeme.length + 1) cs]
        exact (run_found fuel .code [] _ _ trivial (List.forall_mem_nil _) h ht).later
          fun hnil => absurd hnil hA
      · rw [run_token hcs hgap hkind] at h
        have hhead :
          A = [] → (runAfter fuel (step mode parts offset cs).mode (step mode parts offset cs).parts
            offset cs (step mode parts offset cs).lexeme.length).tokens = B := by
          rintro rfl
          exact (before_head hcs (hproper.resolve_left hkind) rfl h fun hlapse => by
            rw [hlapse] at ht; cases ht).2.1
        obtain ⟨rfl, hB⟩ | ⟨A', h⟩ := before_split h
        · obtain ⟨hplain, hsettled⟩ := settle_spec hmode' hparts'
            ⟨offset, offset + Text.size (cs.take (step mode parts offset cs).lexeme.length)⟩
          refine ⟨[], cs.drop (step mode parts offset cs).lexeme.length, fuel, _, _, ?_,
            fun _ => .nil, ?_, hplain, fun part hpart => hparts' part (hsettled part hpart), hB⟩
          · rw [String.toList_ofList, List.take_append_drop]
            rfl
          · rw [String.toList_ofList, List.take_append_drop]
            exact ⟨hcs, mode, parts, hmode, hkind, rfl⟩
        · refine hafter _ hmode' hparts' h fun hA => ?_
          -- a token that is read first is not lost
          rw [hhead hA] at h
          exact absurd (congrArg List.length h) (by simp; omega)

/-- **Where a token stands** in a source text. -/
theorem tokenize_found (h : tokenize text = A ++ t :: B) (ht : t.kind.inCode = true) :
    Found False t B 0 text := by
  obtain ⟨line, rest, hsplit, htext⟩ := exists_firstLine text
  rw [tokenize_of_splitAt hsplit] at h
  obtain ⟨A', -, hmore⟩ := lineTokens_split h fun hmarkup => by
    rw [hmarkup] at ht
    cases ht
  have hfound := run_found _ .markup []
    (Text.size line) rest trivial (List.forall_mem_nil _) hmore ht
  rw [← Nat.zero_add (Text.size line)] at hfound
  rw [htext]
  exact hfound.later False.elim

/-- **Two tokens** with what is between them. -/
theorem tokenize_adjacent {a b : Token} (h : tokenize text = A ++ a :: b :: B)
    (ha : a.kind.inCode = true) (hb : b.kind.inCode = true) :
    ∃ u g s, text = u ++ (a.text.toList ++ (g ++ (b.text.toList ++ s))) ∧
      ReadAt a (Text.size u) (a.text.toList ++ (g ++ (b.text.toList ++ s))) ∧ Trivia g ∧
      ReadAt b (a.span.stop + Text.size g) (b.text.toList ++ s) := by
  obtain ⟨u, s, fuel, mode, parts, htext, -, hread, hmode, hparts, hrest⟩ := tokenize_found h ha
  rw [Nat.zero_add] at hread
  have hfirst : (run fuel mode parts a.span.stop s).tokens = [] ++ b :: B := hrest.symm
  obtain ⟨g, s, _, _, _, rfl, hg, hreadb, -⟩ := run_found fuel mode parts a.span.stop s hmode
    hparts hfirst hb
  exact ⟨u, g, s, htext, hread, hg rfl, hreadb⟩

end

end CodeInsight.Grammar
