import CodeInsight.Proofs.ShiftedTokens

/-!
# Names that are exchanged for others

A name that is read next stands behind whitespace and comments. When another name takes its place,
the text in front is read as before, and the tokens behind it are the same at other offsets.

## Main Results

- `Grammar.gap_exchange`: whitespace and comments before a name
- `Grammar.interpolated_exchange`: strings that the name stands in
- `Grammar.run_name`: a name that is read first may be exchanged
-/

namespace CodeInsight.Grammar

open Lexeme Template Lexer

variable {parts : List Part} {c : Char} {mode : Mode} {cs x : Text} {fuel : Nat} {P : Char → Bool}
  {more : Reading} {B : List Token} {s g R r a : Text} {offset n : Nat}

/-! ## Section 1: Gaps before a name -/

theorem blockComment_last (r : Text) (h : blockComment (a ++ r) = some a.length) :
    ∀ c ∈ a.getLast?, c = '/' := by
  induction a with
  | nil => simp
  | cons c rest ih =>
    have htwo := blockComment_two h
    obtain ⟨d, more, rfl⟩ : ∃ d more, rest = d :: more := by
      refine List.exists_cons_of_ne_nil ?_
      rintro rfl
      simp at htwo
    obtain ⟨_, -, hd, hlength⟩ | ⟨m, -, hm, hlength⟩ := blockComment_cases h
    · obtain ⟨rfl, -⟩ := List.cons.inj hd
      obtain rfl : more = [] := by simpa using hlength
      simp
    · rw [List.getLast?_cons_cons]
      exact ih (hm.trans (congrArg some (Nat.succ.inj hlength).symm))

/-- A line comment ends before a line break, or before a closing tag. -/
theorem lineComment_stop (h : lineComment (a ++ r) = a.length) (hr : r ≠ [])
    (hq : r.head? ≠ some '?') :
    (r.head? = some '\n' ∨ r.head? = some '\r') ∧
      ∀ r', r'.head? = r.head? → lineComment (a ++ r') = a.length := by
  induction a with
  | nil =>
    obtain ⟨c, rest, rfl⟩ := List.exists_cons_of_ne_nil hr
    have hend : EndsLine c rest := by
      by_contra hgoes
      rw [List.nil_append, lineComment_of_goes hgoes] at h
      cases h
    have hbreak : c = '\n' ∨ c = '\r' :=
      hend.imp_right fun hrest => hrest.resolve_right fun htag => hq (congrArg some htag.1)
    refine ⟨hbreak.imp (congrArg some) (congrArg some), fun r' hr' => ?_⟩
    obtain ⟨rest', rfl⟩ := List.head?_eq_some_iff.mp hr'
    exact lineComment_of_ends (hbreak.imp_right .inl)
  | cons c a ih =>
    have hgoes : ¬ EndsLine c (a ++ r) := fun hend => by
      rw [List.cons_append, lineComment_of_ends hend] at h
      cases h
    -- the character at the front goes on, whatever follows the next one
    have hgo : ∀ r', r'.head? = r.head? →
        lineComment (c :: (a ++ r')) = lineComment (a ++ r') + 1 := fun r' hr' =>
      lineComment_of_goes fun hend => hgoes (hend.congr (by cases a <;> simp [hr']))
    rw [List.cons_append, hgo r rfl, List.length_cons] at h
    obtain ⟨hbreak, hsame⟩ := ih (Nat.succ.inj h)
    refine ⟨hbreak, fun r' hr' => ?_⟩
    rw [List.cons_append, hgo r' hr', hsame r' hr', List.length_cons]

theorem gap_of_isBlank (h : isBlank c = true) (cs : Text) :
    gap (c :: cs) = some ((c :: cs).takeWhile isBlank).length := by
  have h₁ : c ≠ '/' := by
    rintro rfl
    exact absurd h (by decide)
  have h₂ : c ≠ '#' := by
    rintro rfl
    exact absurd h (by decide)
  simp [gap, h₁, h₂]

theorem gap_hash_of_head (h : r.head? ≠ some '[') : gap ('#' :: r) = some (lineComment r + 1) := by
  cases r with
  | nil => rfl
  | cons d r => exact gap_hash (fun hd => h (by simp [hd])) r

/-- Whitespace or comments of a given length: a block comment, a line comment or blanks. -/
theorem gap_cases (h : gap cs = some (n + 1)) :
    (∃ r, cs = '/' :: '*' :: r ∧ r ≠ [] ∧ ∃ m, blockComment r = some m ∧ n + 1 = m + 2) ∨
    (∃ r, cs = '/' :: '/' :: r ∧ n + 1 = lineComment r + 2) ∨
    (∃ r, cs = '#' :: r ∧ r.head? ≠ some '[' ∧ n + 1 = lineComment r + 1) ∨
    (∃ c r, cs = c :: r ∧ isBlank c = true ∧ n + 1 = (cs.takeWhile isBlank).length) := by
  unfold gap at h
  split at h
  · cases h
  next r hr =>
    obtain ⟨m, hm, hn⟩ := Option.map_eq_some_iff.mp h
    exact .inl ⟨r, rfl, fun hnil => hr hnil, m, hm, hn.symm⟩
  next r => exact .inr (.inl ⟨r, rfl, (Option.some.inj h).symm⟩)
  · cases h
  next r hr =>
    refine .inr (.inr (.inl ⟨r, rfl, fun hhead => ?_, (Option.some.inj h).symm⟩))
    obtain ⟨r', rfl⟩ := List.head?_eq_some_iff.mp hhead
    exact hr r' rfl
  next =>
    refine .inr (.inr (.inr ?_))
    have hn := Option.some.inj h
    cases cs with
    | nil => cases hn
    | cons c r =>
      refine ⟨c, r, rfl, ?_, hn.symm⟩
      rw [List.takeWhile_cons] at hn
      split at hn
      next hc => exact hc
      next => cases hn

/-- A text that is longer than a beginning of it begins with that. -/
theorem cons_of_append (h : g ++ R = c :: r) (hg : 0 < g.length) :
    ∃ g', g = c :: g' ∧ g' ++ R = r := by
  cases g with
  | nil => cases hg
  | cons d g' => exact ⟨g', by rw [(List.cons.inj h).1], (List.cons.inj h).2⟩

theorem isBlank_of_startsWord (h : startsWord R = true) : ∀ c ∈ R.head?, isBlank c = false := by
  intro c hc
  obtain ⟨rest, rfl⟩ := List.head?_eq_some_iff.mp hc
  have hc : Text.isWordStart c = true := h
  have hnone : ([' ', '\t', '\n', '\r', '\x0c', '\x0b'].all fun c => !Text.isWordStart c) =
      true := by
    decide
  rw [Bool.eq_false_iff]
  intro hblank
  simp only [isBlank, Text.isSpace, Bool.or_eq_true, beq_iff_eq] at hblank
  have hmem : c ∈ [' ', '\t', '\n', '\r', '\x0c', '\x0b'] := by
    simp only [List.mem_cons, List.not_mem_nil, or_false]
    tauto
  have := List.all_eq_true.mp hnone c hmem
  rw [hc] at this
  cases this

theorem takeWhile_eq_of_length (h : ((g ++ R).takeWhile P).length = g.length) :
    (∀ c ∈ g, P c = true) ∧ ∀ c ∈ R.head?, P c = false := by
  induction g with
  | nil =>
    refine ⟨List.forall_mem_nil _, fun c hc => ?_⟩
    obtain ⟨rest, rfl⟩ := List.head?_eq_some_iff.mp hc
    by_contra hp
    simp [Bool.not_eq_false] at hp
    simp [hp] at h
  | cons d g ih =>
    rw [List.cons_append, List.takeWhile_cons] at h
    split at h
    next hd =>
      obtain ⟨hall, hstop⟩ := ih (Nat.succ.inj h)
      exact ⟨List.forall_mem_cons.mpr ⟨hd, hall⟩, hstop⟩
    next => cases h

theorem length_takeWhile_append (hg : ∀ c ∈ g, P c = true) (hR : ∀ c ∈ R.head?, P c = false) :
    ((g ++ R).takeWhile P).length = g.length := by
  rw [List.takeWhile_append_of_pos hg]
  cases R with
  | nil => simp
  | cons c R => simp [hR c rfl]

/-- Whitespace or a comment keeps its length when what follows it begins alike, or with a name. -/
theorem gap_exchange (hgap : gap (g ++ R) = some g.length) (hg : g ≠ []) (hR : R ≠ [])
    (hq : R.head? ≠ some '?') :
    (∀ c ∈ g.head?, startsGap c = true) ∧
    (startsWord R = true → ∀ c ∈ g.getLast?, isBlank c = true ∨ c = '/') ∧
    ∀ R', R'.head? = R.head? ∨ startsWord R = true ∧ startsWord R' = true →
      gap (g ++ R') = some g.length := by
  obtain ⟨n, hn⟩ := Nat.exists_eq_succ_of_ne_zero (Nat.ne_of_gt (List.length_pos_iff.mpr hg))
  -- behind a line comment stands a line break, so no name
  have hline : ∀ {g' : Text}, lineComment (g' ++ R) = g'.length → startsWord R = false ∧
      ∀ R', R'.head? = R.head? ∨ startsWord R = true ∧ startsWord R' = true →
        R'.head? = R.head? ∧ R.head? ≠ some '[' ∧ lineComment (g' ++ R') = g'.length := by
    intro g' h
    obtain ⟨hbreak, hsame⟩ := lineComment_stop h hR hq
    have hstarts : startsWord R = false ∧ R.head? ≠ some '[' := by
      obtain hbreak | hbreak := hbreak <;>
        obtain ⟨rest, rfl⟩ := List.head?_eq_some_iff.mp hbreak <;> exact ⟨rfl, by simp⟩
    refine ⟨hstarts.1, fun R' hR' => ?_⟩
    obtain hhead | ⟨hword, -⟩ := hR'
    · exact ⟨hhead, hstarts.2, hsame R' hhead⟩
    · rw [hstarts.1] at hword
      cases hword
  rw [hn] at hgap
  obtain ⟨r, hcs, -, m, hm, hlength⟩ | ⟨r, hcs, hlength⟩ | ⟨r, hcs, hhead, hlength⟩ |
    ⟨c, r, hcs, hc, hlength⟩ := gap_cases hgap
  · -- a block comment
    obtain ⟨g₁, rfl, hcs'⟩ := cons_of_append hcs (by omega)
    obtain ⟨g₂, rfl, rfl⟩ := cons_of_append hcs' (by
      have := blockComment_two hm
      simp only [List.length_cons] at hn
      omega)
    have hm' : m = g₂.length := by
      simp only [List.length_cons] at hn
      omega
    subst hm'
    have hne : ∀ R', g₂ ++ R' ≠ [] := fun R' hnil => by
      have := blockComment_two hm
      rw [(List.append_eq_nil_iff.mp hnil).1] at this
      simp at this
    refine ⟨by simp; decide, fun _ c hc => .inr ?_, fun R' _ => ?_⟩
    · have hlast := blockComment_last R hm
      cases g₂ with
      | nil =>
        have := blockComment_two hm
        simp at this
      | cons d g₂ =>
        rw [List.getLast?_cons_cons, List.getLast?_cons_cons] at hc
        exact hlast c hc
    · simp only [List.cons_append, gap_block (hne R'),
        blockComment_append R R' hm (Nat.le_refl _), Option.map_some, List.length_cons]
  · -- a line comment
    obtain ⟨g₁, rfl, hcs'⟩ := cons_of_append hcs (by omega)
    obtain ⟨g₂, rfl, rfl⟩ := cons_of_append hcs' (by
      simp only [List.length_cons] at hn
      omega)
    have hlength' : lineComment (g₂ ++ R) = g₂.length := by
      simp only [List.length_cons] at hn
      omega
    obtain ⟨hword, hsame⟩ := hline hlength'
    refine ⟨by simp; decide, fun h => absurd h (by simp [hword]), fun R' hR' => ?_⟩
    simp only [List.cons_append, gap, (hsame R' hR').2.2, List.length_cons]
  · obtain ⟨g₁, rfl, rfl⟩ := cons_of_append hcs (by omega)
    have hlength' : lineComment (g₁ ++ R) = g₁.length := by
      simp only [List.length_cons] at hn
      omega
    obtain ⟨hword, hsame⟩ := hline hlength'
    refine ⟨by simp; decide, fun h => absurd h (by simp [hword]), fun R' hR' => ?_⟩
    obtain ⟨hhead', hbracket, hsame'⟩ := hsame R' hR'
    have hnext : (g₁ ++ R').head? ≠ some '[' := by
      cases g₁ with
      | nil => rwa [List.nil_append, hhead']
      | cons d g₁ => exact hhead
    rw [List.cons_append, gap_hash_of_head hnext, hsame', List.length_cons]
  · -- blanks
    obtain ⟨hall, hstop⟩ := takeWhile_eq_of_length (P := isBlank) (g := g) (R := R) (by omega)
    obtain ⟨g₁, rfl, -⟩ := cons_of_append hcs (List.length_pos_iff.mpr hg)
    refine ⟨by simp [startsGap, hc], fun _ d hd => .inl (hall d (List.mem_of_getLast? hd)), ?_⟩
    intro R' hR'
    have hstop' : ∀ c ∈ R'.head?, isBlank c = false := by
      obtain hhead | ⟨-, hword⟩ := hR'
      · rwa [hhead]
      · exact isBlank_of_startsWord hword
    have hlength' := length_takeWhile_append hall hstop'
    rw [List.cons_append] at hlength' ⊢
    rw [gap_of_isBlank hc, hlength']

/-! ## Section 2: Strings around a name -/

theorem interpolated_of_isWordPart (h : Text.isWordPart c = true) (cs : Text) :
    interpolated (c :: cs) = interpolated cs := by
  have hne : ∀ d : Char, Text.isWordPart d = false → c ≠ d := by
    rintro d hd rfl
    rw [h] at hd
    cases hd
  exact interpolated_cons_plain (hne _ (by decide)) (hne _ (by decide)) (hne _ (by decide))
    (hne _ (by decide)) cs

/-- A name does not tell whether a string has parts. -/
theorem interpolated_name (s : Text) : ∀ {x : Text}, nameLength x = x.length →
    interpolated (x ++ s) = interpolated s
  | [], _ => rfl
  | [c], h => by
    obtain ⟨hc | ⟨rfl, hc⟩, -⟩ := nameLength_cons_pos (by rw [h]; exact Nat.succ_pos _)
    · exact interpolated_of_isWordPart hc s
    · cases hc
  | c :: d :: rest, h => by
    obtain ⟨hc, hstep⟩ := nameLength_cons_pos (by rw [h]; exact Nat.succ_pos _)
    rw [hstep, List.length_cons] at h
    have hrest : nameLength (d :: rest) = (d :: rest).length := Nat.succ.inj h
    obtain hc | ⟨rfl, hd⟩ := hc
    · rw [List.cons_append, interpolated_of_isWordPart hc, interpolated_name s hrest]
    · -- a backslash takes the first character of the next word with it
      rw [nameLength_part (isWordPart_of_isWordStart hd), List.length_cons] at hrest
      simp only [List.cons_append, interpolated]
      exact interpolated_name s (Nat.succ.inj hrest)

theorem interpolated_exchange {y : Text} (hx : IsName x) (hy : IsName y) (s : Text) :
    ∀ {b : Text}, (∀ c ∈ b.getLast?, isBlank c = true ∨ c = '/') →
      interpolated (b ++ (x ++ s)) = interpolated (b ++ (y ++ s))
  | [], _ => by
    simp only [List.nil_append, interpolated_name s hx.whole, interpolated_name s hy.whole]
  | [c], h => by
    have hc := h c rfl
    have hgap : startsGap c = true := by
      simp only [startsGap, Bool.or_eq_true, beq_iff_eq]
      exact .inl hc
    have hplain := fun cs => @interpolated_cons_plain c (ne_of_startsGap hgap (by decide))
      (ne_of_startsGap hgap (by decide)) (ne_of_startsGap hgap (by decide))
      (ne_of_startsGap hgap (by decide)) cs
    simp only [List.cons_append, List.nil_append, hplain, interpolated_name s hx.whole,
      interpolated_name s hy.whole]
  | c :: d :: rest, h => by
    rw [List.getLast?_cons_cons] at h
    have hone := interpolated_exchange hx hy s h
    simp only [List.cons_append] at hone ⊢
    by_cases hc : c = '\\'
    · have hrest : ∀ c ∈ rest.getLast?, isBlank c = true ∨ c = '/' := by
        cases rest with
        | nil => simp
        | cons e rest => rwa [List.getLast?_cons_cons] at h
      simp only [hc, interpolated, interpolated_exchange hx hy s hrest]
    · simp only [interpolated_cons hc, hone, startsPart_cons_cons c d (rest ++ (x ++ s))
        (rest ++ (y ++ s))]

/-- What stands between a keyword and the name behind it: whitespace and comments. -/
structure Between (g : Text) : Prop where
  ne_nil : g ≠ []
  head : ∀ c ∈ g.head?, startsGap c = true
  last : ∀ c ∈ g.getLast?, isBlank c = true ∨ c = '/'

/-- Behind a keyword and a gap one name may stand for another. -/
theorem Between.border {word y : Text} (hword : Head word) (hg : Between g) (hx : IsName x)
    (hy : IsName y) : ∃ mark rest, g = mark :: rest ∧
      Border word mark (rest ++ (x ++ s)) (rest ++ (y ++ s)) := by
  obtain ⟨mark, rest, rfl⟩ := List.exists_cons_of_ne_nil hg.ne_nil
  refine ⟨mark, rest, rfl, hword, hg.head mark rfl, fun hbreak => ?_, ?_⟩
  · cases rest with
    | nil =>
      have hstart := isBlank_of_startsWord (startsWord_append hy.starts s) _ hbreak
      exact absurd hstart (by decide)
    | cons c rest => exact hbreak
  · refine interpolated_exchange hx hy s fun c hc => hg.last c ?_
    cases rest with
    | nil => cases hc
    | cons d rest => rwa [List.getLast?_cons_cons]

/-! ## Section 3: What follows a name -/

/-- What may follow the name in a declaration. -/
def TokenKind.follows : TokenKind → Bool
  | .keyword _ | .symbol .semicolon | .symbol .leftBrace | .closeTag => true
  | _ => false

theorem failure_head {z : Token} {zs : List Token}
    (h : (Lexer.failure parts offset more).tokens = z :: zs) :
    z.kind = .lapse ∨ z.kind = .invalid := by
  unfold Lexer.failure at h
  split at h
  · cases h
    exact .inl rfl
  · cases h
    exact .inr rfl

theorem follows_eq_false {k : TokenKind} (h : k.isWord = false ∧ k.isMark = false) :
    k.follows = false := by
  cases k <;> first | rfl | exact absurd h (by simp [TokenKind.isWord, TokenKind.isMark])

theorem symbol?_follows {rest : Text} {l : Lexeme} (h : symbol? ('<' :: rest) = some l) :
    l.kind.follows = false := by
  have htable : (Symbol.spellings.all fun s => match s.1.toList with
      | [] => false
      | c :: _ => c != '<' || !(TokenKind.symbol s.2).follows) = true := by decide +kernel
  have hfind : symbol? ('<' :: rest) =
      (Symbol.spellings.find? fun s => s.1.toList.isPrefixOf ('<' :: rest)).map
        fun s => ⟨.symbol s.2, s.1.length⟩ := rfl
  rw [hfind] at h
  obtain ⟨s, hs, rfl⟩ := Option.map_eq_some_iff.mp h
  have hbegins := List.find?_some hs
  have hrow := List.all_eq_true.mp htable s (List.mem_of_find?_eq_some hs)
  cases hspelling : s.1.toList with
  | nil =>
    rw [hspelling] at hrow
    cases hrow
  | cons c more =>
    rw [hspelling] at hrow hbegins
    simp only [List.isPrefixOf, Bool.and_eq_true, beq_iff_eq] at hbegins
    simpa [hbegins.1] using hrow

/-- No string and no document begins where a declaration goes on. -/
theorem follows_code {rest : Text} (h : (codeStep parts (c :: rest)).lexeme.kind.follows = true) :
    c ≠ '\'' ∧ c ≠ '"' ∧ c ≠ '<' := by
  -- the opening of a document is no such token
  have hcode : (ofCode (c :: rest)).kind.follows = true := by
    unfold Lexer.codeStep at h
    split at h
    next => cases h
    next => exact h
  have hquoted : ∀ l, string? (c :: rest) = quoted? 0 (c :: rest) →
      quoted? 0 (c :: rest) = some l → False := by
    intro l hstring hl
    have hfollows := follows_eq_false (quoted?_other hl).2
    simp only [ofCode, hstring, hl, Option.orElse_eq_orElse, Option.orElse_some,
      Option.getD_some] at hcode
    rw [hfollows] at hcode
    cases hcode
  refine ⟨?_, ?_, ?_⟩
  · rintro rfl
    exact hquoted _ rfl rfl
  · rintro rfl
    exact hquoted _ rfl rfl
  · rintro rfl
    have hsymbol : ofCode ('<' :: rest) = (symbol? ('<' :: rest)).getD ⟨.invalid, 0⟩ := by
      have hname : name? ('<' :: rest) = none := rfl
      have hnumber : number? ('<' :: rest) = none := by
        cases rest <;> rfl
      have hcast : cast? ('<' :: rest) = none := rfl
      have hstring : string? ('<' :: rest) = none := rfl
      have hdollar : dollarName? ('<' :: rest) = none := rfl
      simp only [ofCode, hstring, hname, hdollar, hnumber, hcast, Option.orElse_eq_orElse,
        Option.orElse_none]
    rw [hsymbol] at hcode
    cases hl : symbol? ('<' :: rest) with
    | none =>
      rw [hl] at hcode
      cases hcode
    | some l =>
      rw [hl, Option.getD_some, symbol?_follows hl] at hcode
      cases hcode

/-- What follows a name in a declaration does not begin with a quote, and not with `<`. -/
theorem follows_head {b : Token} (hmode : mode.Plain)
    (hcode : mode = .code ∨ ∃ closing, mode = .template closing)
    (h : (run fuel mode parts offset s).tokens = b :: B) (hb : b.kind.follows = true) :
    ∀ c ∈ s.head?, c ≠ '\'' ∧ c ≠ '"' ∧ c ≠ '<' := by
  intro c hc
  obtain ⟨rest, rfl⟩ := List.head?_eq_some_iff.mp hc
  by_contra hmarked
  have hnot : c = '\'' ∨ c = '"' ∨ c = '<' := by
    by_contra hnone
    simp only [not_or] at hnone
    exact hmarked hnone
  -- none of the three begins a gap, so the token begins with it
  have hgap : gapIn mode (c :: rest) = some 0 := by
    obtain rfl | ⟨closing, rfl⟩ := hcode
    · obtain rfl | rfl | rfl := hnot <;> rfl
    · rfl
  cases fuel with
  | zero => cases h
  | succ fuel =>
    have hne : c :: rest ≠ [] := by simp
    by_cases hkind : (step mode parts offset (c :: rest)).lexeme.kind = .invalid
    · rw [run_invalid hne hgap hkind] at h
      obtain hk | hk := failure_head h <;> rw [hk] at hb <;> cases hb
    · rw [run_token hne hgap hkind] at h
      obtain ⟨hproper, -, -⟩ := step_spec hmode parts offset hne
      obtain ⟨rfl, -, -⟩ := before_head hne (hproper.resolve_left hkind) rfl h
        (fun hlapse => by rw [hlapse] at hb; cases hb)
      obtain rfl | ⟨closing, rfl⟩ := hcode
      · exact hmarked (follows_code hb)
      · simp only [step] at hb
        -- in a template it is a closing mark or text, and neither follows a name
        obtain ⟨n, -, -, heq⟩ | ⟨n, -, -, heq⟩ | ⟨-, hopens, -⟩ :=
          templateStep_cases hmode parts offset hne
        · rw [heq, follows_eq_false (mark_other closing)] at hb
          cases hb
        · rw [heq] at hb
          cases hb
        · obtain rfl | rfl | rfl := hnot <;> exact absurd hopens (by simp [opensPart])

/-! ## Section 4: A name behind a gap -/

/-- Keywords that are not reserved: classes and namespaces may be called like this. -/
def Keyword.isFree : Keyword → Bool
  | .enumKw | .fromKw => true
  | _ => false

/-- The kinds of tokens that may be names. -/
def TokenKind.isName : TokenKind → Bool
  | .identifier | .qualified => true
  | .keyword k => k.isFree
  | _ => false

/-- The kind of token that a name is. -/
def nameKind (x : Text) : TokenKind :=
  if x.contains '\\' then .qualified
  else match Keyword.ofWord? (String.ofList x) with
    | some k => .keyword k
    | none => .identifier

/-- A name that is no reserved word. -/
structure FreeName (x : Text) : Prop extends IsName x where
  free : x.contains '\\' = true ∨ (Keyword.ofWord? (String.ofList x)).all Keyword.isFree = true

theorem freeName_iff :
    FreeName x ↔ startsWord x = true ∧ nameLength x = x.length ∧
      (x.contains '\\' = true ∨ (Keyword.ofWord? (String.ofList x)).all Keyword.isFree = true) :=
  ⟨fun h => ⟨h.starts, h.whole, h.free⟩, fun ⟨hstarts, hwhole, hfree⟩ => ⟨⟨hstarts, hwhole⟩, hfree⟩⟩

instance (x : Text) : Decidable (FreeName x) := decidable_of_iff _ freeName_iff.symm

/-- A keyword that is free stands for itself, whatever follows it. -/
theorem keywordLexeme_of_isFree {k : Keyword} (h : k.isFree = true) (n : Nat) (s : Text) :
    keywordLexeme k n s = ⟨.keyword k, n⟩ := by
  cases k with
  | enumKw | fromKw => rfl
  | _ => cases h

theorem FreeName.wordLexeme (h : FreeName x) (s : Text) :
    wordLexeme x s = ⟨nameKind x, x.length⟩ := by
  unfold Lexeme.wordLexeme nameKind
  by_cases hslash : x.contains '\\' = true
  · rw [if_pos hslash, if_pos hslash]
  · rw [if_neg hslash, if_neg hslash]
    have hfree := h.free.resolve_left hslash
    cases hword : Keyword.ofWord? (String.ofList x) with
    | none => rfl
    | some k =>
      rw [hword] at hfree
      exact keywordLexeme_of_isFree hfree _ _

theorem FreeName.isName (h : FreeName x) : (nameKind x).isName = true := by
  unfold nameKind
  split
  next => rfl
  next hslash =>
    have hfree := h.free.resolve_left hslash
    split
    next k hword =>
      rw [hword] at hfree
      exact hfree
    next => rfl

/-- A token that is a name is no reserved word. -/
theorem wordLexeme_name (h : (wordLexeme x s).kind.isName = true) :
    x.contains '\\' = true ∨ (Keyword.ofWord? (String.ofList x)).all Keyword.isFree = true := by
  unfold wordLexeme at h
  split at h
  next hslash => exact .inl hslash
  next =>
    split at h
    next k hword =>
      rw [hword]
      refine .inr ?_
      unfold keywordLexeme at h
      split at h
      next restricted hwriting =>
        -- only visibilities are longer with `(set)`
        split at h
        · cases k <;> cases hwriting <;> cases h
        · exact h
      next => exact h
    next hnone =>
      rw [hnone]
      exact .inr rfl

theorem TokenKind.isWord_of_isName {kind : TokenKind} (h : kind.isName = true) :
    kind.isWord = true := by
  cases kind with
  | identifier | qualified | keyword _ => rfl
  | _ => cases h

theorem modeAfter_of_isName {kind : TokenKind} (h : kind.isName = true) :
    modeAfter kind = .code := by
  unfold modeAfter
  split
  · cases h
  · cases h
  · cases h
  · rfl

theorem gap_of_startsWord (h : startsWord cs = true) : gap cs = some 0 := by
  obtain ⟨c, rest, rfl⟩ : ∃ c rest, cs = c :: rest := by
    cases cs with
    | nil => cases h
    | cons c rest => exact ⟨c, rest, rfl⟩
  have h₁ : c ≠ '/' := ne_of_isWordStart h (by decide)
  have h₂ : c ≠ '#' := ne_of_isWordStart h (by decide)
  simp [gap, h₁, h₂, isBlank_of_startsWord h c rfl]

theorem settle_mode {piece : Span} :
    (settle mode parts piece).1 = mode ∨ ∃ closing, (settle mode parts piece).1 =
      .template closing := by
  cases parts with
  | nil => exact .inl rfl
  | cons part outer =>
    simp only [settle]
    split
    · exact .inr ⟨_, rfl⟩
    · exact .inl rfl

/-- A reading `r` with a name between the tokens `front` and `rest`, which stands between the texts
`u` and `s`: if another name takes its place, reading the text `again` gives the same tokens around
that name. -/
def Renames (again : Nat → List Part → Text → Reading) (parts : List Part) (offset : Nat)
    (r : Reading) (front rest : List Token) (u x s : Text) : Prop :=
  ∀ y, FreeName y → ∀ f p q q', Shift f p q q' → p = offset + Text.size u → q = p + Text.size x →
    q' = p + Text.size y → Settled p q parts → ∀ fuel', (u ++ (y ++ s)).length < fuel' →
    again fuel' (move f parts) (u ++ (y ++ s)) =
        ⟨move f front ++ ⟨nameKind y, String.ofList y, ⟨p, q'⟩⟩ :: move f rest, move f r.lostFrom⟩ ∧
      ∀ place ∈ r.lostFrom, Outside p q place

section

variable {u : Text} {front rest : List Token}

/-- Reading on after some characters gives what the rest of the text gives. -/
theorem Renames.behind (hn : (cs.take n).length = n) (hpos : 0 < n) (hmode : mode.Plain)
    (h : Renames (run · (settle mode parts ⟨offset, offset + Text.size (cs.take n)⟩).1 ·
        (offset + Text.size (cs.take n)) ·)
      (settle mode parts ⟨offset, offset + Text.size (cs.take n)⟩).2
      (offset + Text.size (cs.take n))
      (runAfter fuel mode parts offset cs n) front rest u x s) :
    Renames (fun m parts cs => runAfter (m - 1) mode parts offset cs n) parts offset
      (runAfter fuel mode parts offset cs n) front rest (cs.take n ++ u) x s := by
  intro y hy f p q q' hf hp hq hq' hsettled fuel' hfuel'
  dsimp only at h ⊢
  rw [Text.size_append] at hp
  have hstart : offset ≤ p := by omega
  have hstop : offset + Text.size (cs.take n) ≤ p := by omega
  have hsettle := settle_move hf (fun part hpart => (hsettled part hpart).2) mode
    ⟨offset, offset + Text.size (cs.take n)⟩ (.inl hstart) (.inl hstop)
  rw [move_span, hf.low _ hstart, hf.low _ hstop] at hsettle
  obtain ⟨-, hsettled'⟩ := hsettled.settle hmode ⟨offset, offset + Text.size (cs.take n)⟩
  have htake : (cs.take n ++ u ++ (y ++ s)).take n = cs.take n := by
    rw [List.append_assoc, List.take_append_of_le_length (by omega), List.take_take, Nat.min_self]
  have hdrop : (cs.take n ++ u ++ (y ++ s)).drop n = u ++ (y ++ s) := by
    rw [List.append_assoc, List.drop_append, hn, Nat.sub_self, List.drop_zero,
      List.drop_eq_nil_of_le (by omega), List.nil_append]
  have hlengths : (u ++ (y ++ s)).length < fuel' - 1 := by
    simp only [List.length_append] at hfuel' ⊢
    omega
  have hresult := h y hy f p q q' hf (by omega) hq hq' hsettled' (fuel' - 1) hlengths
  simp only [runAfter, htake, hdrop, hsettle]
  exact hresult

/-- A gap that is the same before another name. -/
theorem Renames.gap (hcs : cs ≠ []) (hgap : gapIn mode cs = some (n + 1))
    (hsame : ∀ y, FreeName y → gapIn mode (u ++ (y ++ s)) = some (n + 1))
    (h : Renames (fun m parts cs => runAfter (m - 1) mode parts offset cs (n + 1)) parts offset
      (runAfter fuel mode parts offset cs (n + 1)) front rest u x s) :
    Renames (run · mode · offset ·) parts offset
      (run (fuel + 1) mode parts offset cs) front rest u x s := by
  intro y hy f p q q' hf hp hq hq' hsettled fuel' hfuel'
  dsimp only
  obtain ⟨fuel', rfl⟩ := Nat.exists_eq_succ_of_ne_zero (Nat.ne_zero_of_lt hfuel')
  rw [run_gap (by simp [hy.ne_nil]) (hsame y hy), run_gap hcs hgap]
  exact h y hy f p q q' hf hp hq hq' hsettled (fuel' + 1) hfuel'

/-- A token that is the same before another name, kept or lost. -/
theorem Renames.token {st : Step} (hst : step mode parts offset cs = st) (hcs : cs ≠ [])
    (hgap : gapIn mode cs = some 0) (hkind : st.lexeme.kind ≠ .invalid)
    (htake : ∀ r, (u ++ r).take st.lexeme.length = cs.take st.lexeme.length)
    (hsame : ∀ y, FreeName y → ∀ f p q q', Shift f p q q' → p = offset + Text.size u →
      q = p + Text.size x → q' = p + Text.size y → Settled p q parts →
      gapIn mode (u ++ (y ++ s)) = some 0 ∧
        step mode (move f parts) offset (u ++ (y ++ s)) = { st with parts := move f st.parts } ∧
        Settled p q st.parts)
    (h : Renames (fun m parts' cs' => runAfter (m - 1) st.mode parts' offset cs' st.lexeme.length)
      st.parts offset (runAfter fuel st.mode st.parts offset cs st.lexeme.length) front rest u x s)
    {front' : List Token}
    (hfront : front' =
      if (runAfter fuel st.mode st.parts offset cs st.lexeme.length).lostFrom.any fun place =>
        place ≤ offset
      then front
      else ⟨st.lexeme.kind, String.ofList (cs.take st.lexeme.length),
        ⟨offset, offset + Text.size (cs.take st.lexeme.length)⟩⟩ :: front) :
    Renames (run · mode · offset ·) parts offset
      (run (fuel + 1) mode parts offset cs) front' rest u x s := by
  intro y hy f p q q' hf hp hq hq' hsettled fuel' hfuel'
  dsimp only
  obtain ⟨fuel', rfl⟩ := Nat.exists_eq_succ_of_ne_zero (Nat.ne_zero_of_lt hfuel')
  obtain ⟨hgap', hstep, hsettled'⟩ := hsame y hy f p q q' hf hp hq hq' hsettled
  obtain ⟨hresult, hlost⟩ := h y hy f p q q' hf hp hq hq' hsettled' (fuel' + 1) hfuel'
  rw [run_token (by simp [hy.ne_nil]) hgap' (by rw [hstep]; exact hkind),
    run_token hcs hgap (by rw [hst]; exact hkind), hstep, hst]
  simp only [Nat.add_sub_cancel] at hresult
  simp only [htake, hresult]
  generalize runAfter fuel st.mode st.parts offset cs st.lexeme.length = more at *
  have hstart : offset ≤ p := by omega
  -- the token ends before the name, so it stays where it is
  have hstop : offset + Text.size (cs.take st.lexeme.length) ≤ p := by
    have hsize := congrArg Text.size (List.take_append_drop st.lexeme.length u)
    have hwhole := htake []
    rw [List.append_nil] at hwhole
    rw [hwhole, Text.size_append] at hsize
    omega
  have hany := lost_move hf hlost (.inl hstart)
  rw [hf.low _ hstart] at hany
  refine ⟨?_, before_lost hlost _⟩
  unfold Reading.before
  simp only [hany, hfront]
  split
  · rfl
  · simp only [move_cons, List.cons_append, Reading.mk.injEq, List.cons.injEq, and_true]
    simp only [Placed.move, hf.low _ hstart, hf.low _ hstop]

end

/-- The name is the first token. -/
theorem run_name_here {t b : Token} (hcs : cs ≠ []) (hfuel : cs.length < fuel + 1)
    (hmode : mode.Plain) (hgap : gapIn mode cs = some 0)
    (hkind : (step mode parts offset cs).lexeme.kind ≠ .invalid)
    (h : (run (fuel + 1) mode parts offset cs).tokens = t :: b :: B)
    (ht : t.kind.isName = true) (hb : b.kind.follows = true) :
    mode = .code ∧ ∃ x s, cs = x ++ s ∧ FreeName x ∧ nameLength s = 0 ∧
      t = ⟨nameKind x, String.ofList x, ⟨offset, offset + Text.size x⟩⟩ ∧
      Renames (run · mode · offset ·) parts offset
        (run (fuel + 1) mode parts offset cs) [] (b :: B) [] x s := by
  obtain ⟨hproper, -, -⟩ := step_spec hmode parts offset hcs
  have hrun := run_token hcs hgap hkind fuel
  rw [hrun] at h ⊢
  obtain ⟨htoken, hrest, hany⟩ := before_head hcs (hproper.resolve_left hkind) rfl h
    (fun hlapse => by rw [hlapse] at ht; cases ht)
  have hword : (step mode parts offset cs).lexeme.kind.isWord = true := by
    rw [htoken] at ht
    exact TokenKind.isWord_of_isName ht
  obtain rfl := step_word hmode hcs hword
  obtain ⟨x, s, rfl, hx, hs, hstep⟩ :=
    (codeStep_word (show (codeStep parts cs).lexeme.kind.isWord = true from hword)).resolve_left
      fun hfull => by
        rw [htoken, show (step .code parts offset cs).lexeme.kind = _ from hfull.1] at ht
        cases ht
  have hstep' : step .code parts offset (x ++ s) =
      ⟨wordLexeme x s, modeAfter (wordLexeme x s).kind, parts⟩ := hstep
  rw [hstep'] at htoken hrest hany hkind ⊢
  have hfree : FreeName x := ⟨hx, wordLexeme_name (s := s) (by rw [htoken] at ht; exact ht)⟩
  have hafter : modeAfter (nameKind x) = .code := modeAfter_of_isName hfree.isName
  simp only [hfree.wordLexeme, hafter, List.take_left] at htoken hrest hany ⊢
  refine ⟨trivial, x, s, rfl, hfree, hs, htoken, ?_⟩
  intro y hy f p q q' hf hp hq hq' hparts fuel' hfuel'
  dsimp only
  simp only [Text.size_nil, Nat.add_zero] at hp
  subst hp hq hq'
  obtain ⟨fuel', rfl⟩ := Nat.exists_eq_succ_of_ne_zero (Nat.ne_zero_of_lt hfuel')
  have hlow : f p = p := hf.low p (Nat.le_refl p)
  have hhigh : f (p + Text.size x) = p + Text.size y := hf.high 0
  obtain ⟨hmode', hparts'⟩ := hparts.settle hmode ⟨p, p + Text.size x⟩
  -- behind the name the text is the same, at other offsets
  have hdrop : (x ++ s).drop x.length = s := List.drop_left
  have hdrop' : (y ++ s).drop y.length = s := List.drop_left
  have hlengths : s.length < fuel ∧ s.length < fuel' := by
    have hx' := List.length_pos_iff.mpr hx.ne_nil
    have hy' := List.length_pos_iff.mpr hy.ne_nil
    simp only [List.nil_append, List.length_append] at hfuel hfuel'
    omega
  obtain ⟨hshift, hlost⟩ := run_shift hf fuel fuel' _ _ (p + Text.size x) s hlengths.1 hlengths.2
    hmode' hparts' (Nat.le_refl _)
  have hsettle := settle_move hf (fun part hpart => (hparts part hpart).2) .code
    ⟨p, p + Text.size x⟩ (.inl (Nat.le_refl p)) (.inr (Nat.le_refl _))
  rw [move_span, hlow, hhigh] at hsettle
  have hmore : runAfter fuel' .code (move f parts) p (y ++ s) y.length =
      move f (runAfter fuel .code parts p (x ++ s) x.length) := by
    simp only [runAfter, List.take_left, hdrop, hdrop', hsettle]
    rw [← hshift, hhigh]
  have hlost' : ∀ place ∈ (runAfter fuel .code parts p (x ++ s) x.length).lostFrom,
      Outside p (p + Text.size x) place := by
    simpa only [runAfter, List.take_left, hdrop] using hlost
  have hunmarked : Unmarked y s := fun _ => by
    simp only [runAfter, List.take_left, hdrop] at hrest
    exact follows_head hmode' settle_mode hrest hb
  have hstep'' : step .code (move f parts) p (y ++ s) =
      ⟨⟨nameKind y, y.length⟩, .code, move f parts⟩ := by
    have hcode := hy.toIsName.codeStep hs hunmarked (move f parts)
    rw [hy.wordLexeme, modeAfter_of_isName hy.isName] at hcode
    exact hcode
  have hvalid : nameKind y ≠ .invalid := by
    intro hinvalid
    have hname := hy.isName
    rw [hinvalid] at hname
    cases hname
  have hgap' : gapIn .code (y ++ s) = some 0 := gap_of_startsWord (startsWord_append hy.starts s)
  rw [List.nil_append, run_token (by simp [hy.ne_nil]) hgap' (by rw [hstep'']; exact hvalid),
    hstep'']
  simp only [List.take_left, hmore]
  refine ⟨?_, before_lost hlost' _⟩
  -- neither of the names is lost
  have hany' := lost_move hf hlost' (.inl (Nat.le_refl p))
  rw [hlow] at hany'
  rw [before_kept (by rw [lostFrom_move_reading, hany']; exact hany), before_kept hany,
    tokens_move_reading, hrest]
  rfl

/-- The text behind a gap begins with a gap or with the name. -/
theorem head_behind_gap (hg : g = [] ∨ Between g) (hx : IsName x) (s : Text) :
    g ++ (x ++ s) ≠ [] ∧ (g ++ (x ++ s)).head? ≠ some '?' := by
  refine ⟨by simp [hx.ne_nil], fun hhead => ?_⟩
  obtain rfl | hg := hg
  · obtain ⟨c, rest, rfl⟩ := List.exists_cons_of_ne_nil hx.ne_nil
    simp only [List.nil_append, List.cons_append, List.head?_cons, Option.some.injEq] at hhead
    exact absurd hhead (ne_of_isWordStart hx.starts (by decide))
  · obtain ⟨c, rest, rfl⟩ := List.exists_cons_of_ne_nil hg.ne_nil
    simp only [List.cons_append, List.head?_cons, Option.some.injEq] at hhead
    exact absurd hhead (ne_of_startsGap (hg.head c rfl) (by decide))

/-- The name stands behind one more gap. -/
theorem run_name_behind {rest : List Token} (hcs : cs ≠ []) (hgap : gap cs = some (n + 1))
    (hdrop : cs.drop (n + 1) = g ++ (x ++ s)) (hg : g = [] ∨ Between g) (hx : IsName x)
    (hmode : (settle .code parts ⟨offset, offset + Text.size (cs.take (n + 1))⟩).1 = .code)
    (hrenames : Renames (run · .code · (offset + Text.size (cs.take (n + 1))) ·)
      (settle .code parts ⟨offset, offset + Text.size (cs.take (n + 1))⟩).2
      (offset + Text.size (cs.take (n + 1))) (runAfter fuel .code parts offset cs (n + 1))
      [] rest g x s) :
    Between (cs.take (n + 1) ++ g) ∧
      Renames (run · .code · offset ·) parts offset
        (run (fuel + 1) .code parts offset cs) [] rest (cs.take (n + 1) ++ g) x s := by
  obtain ⟨hne, hquestion⟩ := head_behind_gap hg hx s
  have hsplit : cs.take (n + 1) ++ (g ++ (x ++ s)) = cs := by
    rw [← hdrop]
    exact List.take_append_drop _ _
  have hlength : (cs.take (n + 1)).length = n + 1 := by
    rw [List.length_take]
    by_contra hlong
    rw [List.drop_of_length_le (by omega)] at hdrop
    exact hne hdrop.symm
  generalize hg₁ : cs.take (n + 1) = g₁ at *
  have hg₁ne : g₁ ≠ [] := fun hnil => by simp [hnil] at hlength
  rw [← hsplit, ← hlength] at hgap
  obtain ⟨hhead, hlast, hexchange⟩ := gap_exchange hgap hg₁ne hne hquestion
  refine ⟨⟨by simp [hg₁ne], ?_, ?_⟩, ?_⟩
  · obtain ⟨c, g₂, rfl⟩ := List.exists_cons_of_ne_nil hg₁ne
    exact hhead
  · obtain rfl | hg := hg
    · rw [List.append_nil]
      exact hlast (startsWord_append hx.starts s)
    · rw [List.getLast?_append_of_ne_nil _ hg.ne_nil]
      exact hg.last
  · refine Renames.gap hcs (by rw [← hsplit]; exact hgap.trans (by rw [hlength]))
      (fun y hy => ?_) ?_
    · -- the gap is as long before the other name
      rw [← hlength, List.append_assoc]
      refine hexchange _ ?_
      obtain rfl | hg := hg
      · exact .inr ⟨startsWord_append hx.starts s, startsWord_append hy.starts s⟩
      · obtain ⟨c, g₂, rfl⟩ := List.exists_cons_of_ne_nil hg.ne_nil
        exact .inl rfl
    · rw [← hg₁]
      refine Renames.behind (by rw [hg₁, hlength]) (Nat.succ_pos n) trivial ?_
      rw [hg₁, hmode]
      exact hrenames

theorem no_name_in_failure {t : Token} {ts : List Token}
    (h : (Lexer.failure parts offset more).tokens = t :: ts) :
    ¬ t.kind.isName = true := by
  obtain hk | hk := failure_head h <;> rw [hk] <;> exact Bool.false_ne_true

/-- **A name that is read first** stands behind whitespace and comments, and another name may take
its place. -/
theorem run_name : ∀ (fuel : Nat) (mode : Mode) (parts : List Part) (offset : Nat) (cs : Text)
    {t b : Token} {B : List Token}, cs.length < fuel → mode.Plain →
    (∀ part ∈ parts, part.closing.Plain) → (run fuel mode parts offset cs).tokens = t :: b :: B →
    t.kind.isName = true → b.kind.follows = true →
    mode = .code ∧ ∃ g x s, cs = g ++ (x ++ s) ∧ (g = [] ∨ Between g) ∧ FreeName x ∧
      nameLength s = 0 ∧
      t = ⟨nameKind x, String.ofList x,
        ⟨offset + Text.size g, offset + Text.size g + Text.size x⟩⟩ ∧
      Renames (run · mode · offset ·) parts offset (run fuel mode parts offset cs) [] (b :: B) g x s
  | 0, _, _, _, _, _, _, _, hfuel, _, _, _, _, _ => absurd hfuel (Nat.not_lt_zero _)
  | fuel + 1, mode, parts, offset, cs, t, b, B, hfuel, hmode, hparts, h, ht, hb => by
    by_cases hcs : cs = []
    · subst hcs
      simp only [run] at h
      split at h
      · cases h
      · exact absurd ht (no_name_in_failure h)
    obtain hgap | ⟨n, hgap⟩ | hgap := gapIn_cases mode cs
    · rw [run_unclosed hcs hgap] at h
      exact absurd ht (no_name_in_failure h)
    · rw [run_gap hcs hgap] at h
      obtain ⟨hmode', hparts'⟩ :=
        settle_spec hmode hparts ⟨offset, offset + Text.size (cs.take (n + 1))⟩
      have hlength : (cs.drop (n + 1)).length < fuel := by
        have := List.length_pos_iff.mpr hcs
        simp only [List.length_drop]
        omega
      obtain ⟨hcode, g, x, s, hdrop, hg, hx, hs, htoken, hrenames⟩ :=
        run_name fuel _ _ _ _ hlength hmode'
          (fun part hpart => hparts part (hparts' part hpart)) h ht hb
      -- the part is not left here, so the gap stands in code
      obtain rfl : mode = .code := by
        obtain heq | ⟨closing, heq⟩ :=
          @settle_mode parts mode ⟨offset, offset + Text.size (cs.take (n + 1))⟩
        · rw [← heq]
          exact hcode
        · rw [heq] at hcode
          cases hcode
      rw [hcode] at hrenames
      have hafter :
        run fuel .code (settle .code parts ⟨offset, offset + Text.size (cs.take (n + 1))⟩).2
          (offset + Text.size (cs.take (n + 1))) (cs.drop (n + 1)) =
          runAfter fuel .code parts offset cs (n + 1) := by
        simp only [runAfter, hcode]
      rw [hafter] at hrenames
      obtain ⟨hbetween, hresult⟩ := run_name_behind hcs hgap hdrop hg hx.toIsName hcode hrenames
      refine ⟨rfl, cs.take (n + 1) ++ g, x, s, ?_, .inr hbetween, hx, hs, ?_, hresult⟩
      · rw [List.append_assoc, ← hdrop, List.take_append_drop]
      · rw [htoken, Text.size_append, Nat.add_assoc]
    · by_cases hkind : (step mode parts offset cs).lexeme.kind = .invalid
      · rw [run_invalid hcs hgap hkind] at h
        exact absurd ht (no_name_in_failure h)
      · obtain ⟨hcode, x, s, hxs, hx, hs, htoken, hrenames⟩ :=
          run_name_here hcs hfuel hmode hgap hkind h ht hb
        exact ⟨hcode, [], x, s, hxs, .inl rfl, hx, hs, by simpa using htoken, hrenames⟩

end CodeInsight.Grammar
