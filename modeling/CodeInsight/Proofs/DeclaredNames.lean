import CodeInsight.Proofs.RenamedTokens

/-!
# Names that declarations give

The name that a declaration gives stands directly behind its keyword. When another name is put in
its place, the tokens of the text stay the same, except that the one token is another name and that
offsets behind it are moved.

## Main Results

- `Grammar.run_renamed`: exchanging a declared name, from any place before it
- `Grammar.tokenize_renamed`: exchanging a declared name in a source text
-/

namespace CodeInsight.Grammar

open Lexeme Template Lexer

variable {keyword : Keyword} {B : List Token} {cs text : Text} {offset n : Nat} {t : Token}
  {m : Nat}

/-! ## Section 1: Rounds before the keyword -/

/-- The end of a part before the exchange is where it was, and one behind it is moved. -/
theorem Exchanged.limit {c x y : Text} {n' : Nat} (h : Exchanged c x y n n') {f : Nat → Nat}
    {p q q' : Nat} (hf : Shift f p q q') (hp : p = offset + Text.size c) (hq : q = p + Text.size x)
    (hq' : q' = p + Text.size y) (s : Text) :
    Outside p q (offset + Text.size ((c ++ (x ++ s)).take n)) ∧
      f (offset + Text.size ((c ++ (x ++ s)).take n)) =
        offset + Text.size ((c ++ (y ++ s)).take n') := by
  obtain ⟨hn, rfl⟩ | ⟨m, rfl, rfl⟩ := h
  · have htake : ∀ r, (c ++ r).take n' = c.take n' := fun r => List.take_append_of_le_length hn
    have hsize : Text.size (c.take n') ≤ Text.size c := by
      have hsplit := congrArg Text.size (List.take_append_drop n' c)
      rw [Text.size_append] at hsplit
      omega
    rw [htake, htake]
    exact ⟨.inl (by omega), hf.low _ (by omega)⟩
  · have htake : ∀ z : Text, (c ++ (z ++ s)).take (c.length + z.length + m) = c ++
        (z ++ s.take m) := by
      intro z
      rw [Nat.add_assoc, List.take_length_add_append, List.take_length_add_append]
    rw [htake, htake]
    simp only [Text.size_append]
    refine ⟨.inr (by omega), ?_⟩
    have hhigh := hf.high (Text.size (s.take m))
    rw [show offset + (Text.size c + (Text.size x + Text.size (s.take m))) =
      q + Text.size (s.take m) by omega, hhigh]
    omega

theorem markupStep_parts (parts parts' : List Part) (cs : Text) :
    markupStep parts' cs = { markupStep parts cs with parts := parts' } := by
  unfold markupStep
  split <;> rfl

theorem endingLexeme_cons_cons (n : Nat) (c d : Char) (cs cs' : Text) :
    endingLexeme n (c :: d :: cs) = endingLexeme n (c :: d :: cs') := by
  by_cases hc : c = '?' ∧ d = '>'
  · obtain ⟨rfl, rfl⟩ := hc
    unfold endingLexeme
    split <;> simp_all
  · unfold endingLexeme
    split <;> split <;> simp_all

section

variable {word g x y s a : Text} {mode : Mode} {parts : List Part}

theorem gapIn_renamed (hword : Head word) (ha : a ≠ []) {r : Text}
    (h : gapIn mode (a ++ (word ++ r)) = some n) (hn : n ≤ a.length) (r' : Text) :
    gapIn mode (a ++ (word ++ r')) = some n := by
  cases mode with
  | code => exact hword.gap_append ha h hn r'
  | ending k =>
    simp only [gapIn] at h ⊢
    rw [hword.takeWhile_isBlank a r' r]
    exact h
  | markup => exact h
  | template closing => exact h
  | data => exact h

/-- **A token that ends before the keyword** is the same before another name. -/
theorem step_renamed (hword : Head word) (hg : Between g) (hx : IsName x) (hy : IsName y)
    (ha : a ≠ []) (hmode : mode.Plain)
    (hle : (step mode parts offset (a ++ (word ++ (g ++ (x ++ s))))).lexeme.length ≤ a.length)
    {f : Nat → Nat} {p q q' : Nat} (hf : Shift f p q q')
    (hp : p = offset + Text.size (a ++ (word ++ g))) (hq : q = p + Text.size x)
    (hq' : q' = p + Text.size y) (hparts : Settled p q parts) :
    step mode (move f parts) offset (a ++ (word ++ (g ++ (y ++ s)))) =
        { step mode parts offset (a ++ (word ++ (g ++ (x ++ s)))) with
          parts := move f (step mode parts offset (a ++ (word ++ (g ++ (x ++ s))))).parts } ∧
      Settled p q (step mode parts offset (a ++ (word ++ (g ++ (x ++ s))))).parts := by
  obtain ⟨mark, rest, rfl, hb⟩ := hg.border (s := s) hword hx hy
  simp only [List.cons_append] at hle ⊢
  have hne : a ++ (word ++ mark :: (rest ++ (x ++ s))) ≠ [] := by simp
  cases mode with
  | markup =>
    simp only [step] at hle ⊢
    have hsame := hword.markupStep_append ha hle (mark :: (rest ++ (y ++ s)))
    rw [markupStep_parts parts (move f parts), hsame]
    have hkept : (markupStep parts (a ++ (word ++ mark :: (rest ++ (x ++ s))))).parts = parts := by
      unfold markupStep
      split <;> rfl
    rw [hkept]
    exact ⟨rfl, hparts⟩
  | code =>
    simp only [step] at hle ⊢
    rw [hb.codeStep ha hle (move f parts), (codeStep_spec parts _).2.2]
    exact ⟨rfl, hparts⟩
  | template closing =>
    simp only [step] at hle ⊢
    have hpiece : (piece closing (a ++ (word ++ mark :: (rest ++ (x ++ s))))).length ≤ a.length →
        piece closing (a ++ (word ++ mark :: (rest ++ (y ++ s)))) =
          piece closing (a ++ (word ++ mark :: (rest ++ (x ++ s)))) := hb.piece hmode
    obtain ⟨n, -, hp', heq⟩ | ⟨n, hn, hp', heq⟩ | ⟨hp', -, heq⟩ :=
      templateStep_cases hmode parts offset hne
    · rw [heq] at hle ⊢
      rw [hp'] at hpiece
      refine ⟨?_, hparts⟩
      simp only [templateStep, hpiece hle]
    · rw [heq] at hle ⊢
      rw [hp'] at hpiece
      refine ⟨?_, hparts⟩
      obtain ⟨n, rfl⟩ := Nat.exists_eq_succ_of_ne_zero (Nat.ne_of_gt hn)
      simp only [templateStep, hpiece hle]
    · -- the part may end behind the name
      rw [heq] at hle ⊢
      rw [hp'] at hpiece
      have hexchanged := hword.partLength_exchanged hb.mark hx.isNamePart hy.isNamePart ha rest s
      obtain ⟨hout, hlimit⟩ := hexchanged.limit hf hp hq hq' s
      simp only [List.append_assoc, List.cons_append] at hout hlimit
      have hmoved : partsAt closing (move f parts) offset
          (a ++ (word ++ mark :: (rest ++ (y ++ s)))) =
          move f (partsAt closing parts offset (a ++ (word ++ mark :: (rest ++ (x ++ s))))) := by
        simp only [partsAt, move_cons]
        rw [← hlimit]
        have hlow := hf.low offset (by omega)
        congr 1
        simp only [Placed.move, hlow]
      have hcode := hb.codeStep ha hle (partsAt closing (move f parts) offset
        (a ++ (word ++ mark :: (rest ++ (y ++ s)))))
      rw [(codeStep_spec _ _).2.2]
      refine ⟨?_, hparts.partsAt hmode (.inl (by omega)) hout⟩
      rw [← hmoved, ← hcode]
      unfold templateStep
      rw [hpiece (Nat.zero_le _)]
      rfl
  | ending n =>
    obtain ⟨c, more, rfl⟩ := List.exists_cons_of_ne_nil ha
    obtain ⟨d, more', hcons⟩ := hword.cons_append more
    refine ⟨?_, hparts⟩
    simp only [step, List.cons_append, hcons,
      endingLexeme_cons_cons n c d (more' ++ mark :: (rest ++ (y ++ s)))
        (more' ++ mark :: (rest ++ (x ++ s)))]
  | data =>
    simp only [step, List.length_append, List.length_cons] at hle
    omega

end

/-! ## Section 2: The keyword -/

section

variable {k : Keyword} {r w : Text}

/-- Keywords of declarations whose names can be exchanged. -/
def Keyword.declares : Keyword → Bool
  | .classKw | .interfaceKw | .traitKw | .namespaceKw => true
  | _ => false

theorem keywordLexeme_declares {k' : Keyword} (h : (keywordLexeme k' n r).kind = .keyword k)
    (hk : k.declares = true) : k' = k ∧ k.restrictedToWriting? = none := by
  unfold keywordLexeme at h
  cases hr : k'.restrictedToWriting? with
  | none =>
    rw [hr] at h
    simp only [TokenKind.keyword.injEq] at h
    exact ⟨h, h ▸ hr⟩
  | some restricted =>
    exfalso
    rw [hr] at h
    have hplain : k'.declares = false ∧ restricted.declares = false := by
      cases k' <;> cases hr <;> exact ⟨rfl, rfl⟩
    simp only at h
    split at h
    · simp only [TokenKind.keyword.injEq] at h
      rw [h, hk] at hplain
      cases hplain.2
    · simp only [TokenKind.keyword.injEq] at h
      rw [h, hk] at hplain
      cases hplain.1

theorem mem_spellings_of_ofWord? (h : Keyword.ofWord? (String.ofList w) = some k) :
    ∃ spelling, (spelling, k) ∈ Keyword.spellings ∧ spelling.toList = w.map Char.toLower := by
  obtain ⟨before, behind, hsplit, -⟩ := List.lookup_eq_some_iff.mp h
  refine ⟨(String.ofList w).toLower, by rw [hsplit]; simp, ?_⟩
  have hmap : (String.ofList w).toLower = (String.ofList w).map Char.toLower := rfl
  rw [hmap, String.toList_map, String.toList_ofList]

theorem declaring_spellings (h : Keyword.ofWord? (String.ofList w) = some k)
    (hk : k.declares = true) :
    w.map Char.toLower ∈ declaringWords := by
  have htable :
    (Keyword.spellings.all fun s => !s.2.declares || decide (s.1.toList ∈ declaringWords))
      = true := by decide +kernel
  obtain ⟨spelling, hmem, hlower⟩ := mem_spellings_of_ofWord? h
  have hrow := List.all_eq_true.mp htable _ hmem
  simpa [hk, hlower] using hrow

/-- A word that declares something is the whole lexeme. -/
theorem ofWord?_of_declares (h : (wordLexeme w r).kind = .keyword k) (hk : k.declares = true) :
    Keyword.ofWord? (String.ofList w) = some k ∧ ∀ r', wordLexeme w r' =
      ⟨.keyword k, w.length⟩ := by
  unfold wordLexeme at h
  by_cases hslash : w.contains '\\' = true
  · rw [if_pos hslash] at h
    cases h
  rw [if_neg hslash] at h
  cases hword : Keyword.ofWord? (String.ofList w) with
  | none =>
    rw [hword] at h
    cases h
  | some k' =>
    rw [hword] at h
    obtain ⟨rfl, hplain⟩ := keywordLexeme_declares h hk
    refine ⟨rfl, fun r' => ?_⟩
    unfold wordLexeme
    rw [if_neg hslash, hword]
    simp only [keywordLexeme, hplain]

/-- A token that declares something is spelled by a word that no lexeme before it can pass. -/
theorem wordLexeme_declares (h : (wordLexeme w r).kind = .keyword k) (hk : k.declares = true) :
    Head w ∧ ∀ r', wordLexeme w r' = ⟨.keyword k, w.length⟩ := by
  obtain ⟨hword, hlexeme⟩ := ofWord?_of_declares h hk
  exact ⟨Head.of_spelling (declaring_spellings hword hk), hlexeme⟩

theorem nameLength_between {g : Text} (hg : Between g) (r : Text) : nameLength (g ++ r) = 0 := by
  obtain ⟨c, rest, rfl⟩ := List.exists_cons_of_ne_nil hg.ne_nil
  have hc := hg.head c rfl
  have hslash : (c == '\\') = false := beq_eq_false_iff_ne.mpr (ne_of_startsGap hc (by decide))
  simp [nameLength, isWordPart_of_startsGap hc, hslash]

/-- Where a declared name stands in a text: behind its keyword and a gap. The first `n` characters
are before the keyword. -/
structure Declared (offset n : Nat) (cs : Text) (t : Token) (a word g x s : Text) : Prop where
  text : cs = a ++ (word ++ (g ++ (x ++ s)))
  bound : n ≤ a.length
  head : Head word
  between : Between g
  name : FreeName x
  token : t = ⟨nameKind x, String.ofList x, ⟨offset + Text.size (a ++ (word ++ g)),
    offset + Text.size (a ++ (word ++ g)) + Text.size x⟩⟩

/-- The keyword is the first token. -/
theorem run_keyword {fuel : Nat} {mode : Mode} {parts : List Part} {k b : Token} (hcs : cs ≠ [])
    (hfuel : cs.length < fuel + 1) (hmode : mode.Plain)
    (hparts : ∀ part ∈ parts, part.closing.Plain) (hgap : gapIn mode cs = some 0)
    (hkind : (step mode parts offset cs).lexeme.kind ≠ .invalid)
    (h : (run (fuel + 1) mode parts offset cs).tokens = k :: t :: b :: B)
    (hk : k.kind = .keyword keyword) (hdeclares : keyword.declares = true)
    (ht : t.kind.isName = true) (hb : b.kind.follows = true) :
    ∃ word g x s, Declared offset 0 cs t [] word g x s ∧ k.span.stop < t.span.start ∧
      Renames (run · mode · offset ·) parts offset
        (run (fuel + 1) mode parts offset cs) [k] (b :: B) (word ++ g) x s := by
  obtain ⟨hproper, -, -⟩ := step_spec hmode parts offset hcs
  have hrun := run_token hcs hgap hkind fuel
  rw [hrun] at h
  obtain ⟨htoken, hrest, hany⟩ := before_head hcs (hproper.resolve_left hkind) rfl h
    (fun hlapse => by rw [hk] at hlapse; cases hlapse)
  have hkind' : (step mode parts offset cs).lexeme.kind = .keyword keyword := by
    rw [htoken] at hk
    exact hk
  have hword : (step mode parts offset cs).lexeme.kind.isWord = true := by
    rw [hkind']
    rfl
  obtain rfl := step_word hmode hcs hword
  obtain ⟨w, r, rfl, hw, hr, hstep⟩ :=
    (codeStep_word (show (codeStep parts cs).lexeme.kind.isWord = true from hword)).resolve_left
      fun hfull => by
        rw [show (step .code parts offset cs).lexeme.kind = _ from hfull.1] at hkind'
        cases hkind'
  have hstep' : step .code parts offset (w ++ r) =
      ⟨wordLexeme w r, modeAfter (wordLexeme w r).kind, parts⟩ := hstep
  rw [hstep'] at htoken hrest hany hkind'
  obtain ⟨hhead, hlexeme⟩ := wordLexeme_declares hkind' hdeclares
  have hafter : modeAfter (.keyword keyword) = .code := by
    cases keyword <;> first | rfl | cases hdeclares
  simp only [hlexeme, hafter, List.take_left] at htoken hrest hany
  -- the name is read behind the keyword
  have hdrop : (w ++ r).drop w.length = r := List.drop_left
  have hlong := hhead.long
  have hlength : r.length < fuel := by
    rw [List.length_append] at hfuel
    omega
  obtain ⟨hmode', hparts'⟩ := settle_spec (show Mode.code.Plain from trivial) hparts
    ⟨offset, offset + Text.size w⟩
  have hname : (run fuel (settle .code parts ⟨offset, offset + Text.size w⟩).1
      (settle .code parts ⟨offset, offset + Text.size w⟩).2 (offset + Text.size w) r).tokens =
      t :: b :: B := by
    simpa only [runAfter, List.take_left, hdrop] using hrest
  obtain ⟨hcode, g, x, s, rfl, hg, hx, hs, ht', hrenames⟩ := run_name fuel _ _ _ _ hlength hmode'
    (fun part hpart => hparts part (hparts' part hpart)) hname ht hb
  have hbetween : Between g := by
    obtain rfl | hg := hg
    · rw [List.nil_append] at hr
      have hpos := nameLength_pos (startsWord_append hx.starts s)
      omega
    · exact hg
  refine ⟨w, g, x, s, ⟨rfl, Nat.le_refl 0, hhead, hbetween, hx, ?_⟩, ?_, ?_⟩
  · rw [ht', List.nil_append, Text.size_append, Nat.add_assoc]
  · rw [ht', htoken]
    exact Nat.lt_add_of_pos_right (size_pos hbetween.ne_nil)
  have hstep'' : step .code parts offset (w ++ (g ++ (x ++ s))) =
      ⟨⟨.keyword keyword, w.length⟩, .code, parts⟩ := by
    rw [hstep', hlexeme, hafter]
  have htake : (w ++ (g ++ (x ++ s))).take w.length = w := List.take_left
  have hbehind := @Renames.behind parts .code (w ++ (g ++ (x ++ s))) x fuel s offset w.length g []
    (b :: B) (by rw [htake]) (by omega) trivial
    (by simpa only [htake, hdrop, runAfter] using hrenames)
  rw [htake] at hbehind
  refine Renames.token hstep'' hcs hgap (by simp) (fun r => ?_) ?_ hbehind ?_
  · simp only [List.append_assoc, List.take_left]
  · intro y hy f p q q' hf hp hq hq' hsettled
    have hunmarked : Unmarked w (g ++ (y ++ s)) := by
      rintro (rfl | rfl) <;> simp at hlong
    have hcodeStep := hw.codeStep (nameLength_between hbetween _) hunmarked (move f parts)
    rw [hlexeme, hafter] at hcodeStep
    rw [List.append_assoc]
    exact ⟨gap_of_startsWord (startsWord_append hw.starts _), hcodeStep, hsettled⟩
  · rw [if_neg hany, htoken, htake]

end

/-! ## Section 3: The whole text -/

theorem Declared.text_ne_nil {a word g x s : Text} (h : Declared offset n cs t a word g x s) :
    cs ≠ [] := by
  rw [h.text]
  simp [h.between.ne_nil]

/-- The first characters of a text stand before the keyword in the rest of it. -/
theorem Declared.behind {a word g x s : Text}
    (h : Declared (offset + Text.size (cs.take n)) 0 (cs.drop n) t a word g x s) :
    (cs.take n).length = n ∧ Declared offset n cs t (cs.take n ++ a) word g x s := by
  have hlength : (cs.take n).length = n := by
    rw [List.length_take]
    by_contra hlong
    exact h.text_ne_nil (List.drop_of_length_le (by omega))
  refine ⟨hlength, ?_, ?_, h.head, h.between, h.name, ?_⟩
  · rw [List.append_assoc, ← h.text, List.take_append_drop]
  · rw [List.length_append, hlength]
    omega
  · rw [h.token, List.append_assoc, Text.size_append (cs.take n), ← Nat.add_assoc]

section

variable {fuel : Nat} {mode : Mode} {parts : List Part} {a word g x s : Text} {A rest : List Token}

section

variable (h : Declared offset n cs t a word g x s)
include h

theorem Declared.take_eq (r : Text) : (a ++ (word ++ g) ++ r).take n = cs.take n := by
  rw [h.text, List.append_assoc, List.take_append_of_le_length h.bound,
    List.take_append_of_le_length h.bound]

theorem Declared.ne_nil (hn : 0 < n) : a ≠ [] := by
  rintro rfl
  exact absurd h.bound (Nat.not_le_of_lt hn)

theorem Declared.gapIn (ha : a ≠ []) (hgap : gapIn mode cs = some m)
    (hm : m ≤ a.length) (r : Text) :
    gapIn mode (a ++ (word ++ g) ++ r) = some m := by
  rw [h.text] at hgap
  simpa only [List.append_assoc] using gapIn_renamed h.head ha hgap hm (g ++ r)

end

/-- What the round does in which a token before the keyword is read, with another name behind. -/
theorem step_declared (hdeclared : Declared offset n cs t a word g x s) (ha : a ≠ [])
    (hgap : gapIn mode cs = some 0) (hn : (step mode parts offset cs).lexeme.length ≤ n)
    (hmode : mode.Plain) {y : Text} (hy : FreeName y) {f : Nat → Nat} {p q q' : Nat}
    (hf : Shift f p q q') (hp : p = offset + Text.size (a ++ (word ++ g)))
    (hq : q = p + Text.size x)
    (hq' : q' = p + Text.size y) (hsettled : Settled p q parts) :
    gapIn mode (a ++ (word ++ g) ++ (y ++ s)) = some 0 ∧
      step mode (move f parts) offset (a ++ (word ++ g) ++ (y ++ s)) =
        { step mode parts offset cs with parts := move f (step mode parts offset cs).parts } ∧
      Settled p q (step mode parts offset cs).parts := by
  have hgap' := hdeclared.gapIn ha hgap (Nat.zero_le _) (y ++ s)
  have htext := hdeclared.text
  subst htext
  obtain ⟨hstep, hsettled'⟩ := step_renamed hdeclared.head hdeclared.between hdeclared.name.toIsName
    hy.toIsName ha hmode (Nat.le_trans hn hdeclared.bound) hf hp hq hq' hsettled
  rw [show a ++ (word ++ g) ++ (y ++ s) = a ++ (word ++ (g ++ (y ++ s))) by simp] at hgap' ⊢
  exact ⟨hgap', hstep, hsettled'⟩

theorem Renames.invalid {part : Part} (hmode : mode.Plain)
    (hm : m = (step mode parts offset cs).lexeme.length + 1)
    (hdeclared : Declared offset m cs t (cs.take m ++ a) word g x s)
    (hlength : (cs.take m).length = m) (hgap : gapIn mode cs = some 0)
    (hkind : (step mode parts offset cs).lexeme.kind = .invalid)
    (hpart : (step mode parts offset cs).parts.getLast? = some part)
    (h : Renames (run · .code · (offset + Text.size (cs.take m)) ·) []
      (offset + Text.size (cs.take m))
      (run fuel .code [] (offset + Text.size (cs.take m)) (cs.drop m))
      A rest (a ++ (word ++ g)) x s) :
    Renames (run · mode · offset ·) parts offset
      (run (fuel + 1) mode parts offset cs) (⟨.lapse, "", ⟨part.start, part.start⟩⟩ :: A) rest
      (cs.take m ++ a ++ (word ++ g)) x s := by
  have hcs := hdeclared.text_ne_nil
  have ha : cs.take m ++ a ≠ [] := fun hnil => by
    rw [(List.append_eq_nil_iff.mp hnil).1] at hlength
    simp at hlength
    omega
  intro y hy f p q q' hf hp hq hq' hsettled fuel' hfuel'
  dsimp only at h ⊢
  obtain ⟨fuel', rfl⟩ := Nat.exists_eq_succ_of_ne_zero (Nat.ne_zero_of_lt hfuel')
  obtain ⟨hgap', hstep, hsettled'⟩ := step_declared hdeclared ha hgap (by omega) hmode hy hf hp hq
    hq' hsettled
  have htake := hdeclared.take_eq (y ++ s)
  -- behind the token that is none, both texts are read on from the same place
  have hdrop : (cs.take m ++ a ++ (word ++ g) ++ (y ++ s)).drop m = a ++
      (word ++ g) ++ (y ++ s) := by
    simp only [List.append_assoc]
    rw [List.drop_append, hlength, Nat.sub_self, List.drop_zero,
      List.drop_eq_nil_of_le (by omega), List.nil_append]
  have hp' : p = offset + Text.size (cs.take m) + Text.size (a ++ (word ++ g)) := by
    rw [hp, List.append_assoc, Text.size_append (cs.take m), Nat.add_assoc]
  have hlengths : (a ++ (word ++ g) ++ (y ++ s)).length < fuel' := by
    simp only [List.length_append] at hfuel' hlength ⊢
    omega
  obtain ⟨hresult, -⟩ := h y hy f p q q' hf hp' hq hq' (List.forall_mem_nil _)
    fuel' hlengths
  have hcs' : cs.take m ++ a ++ (word ++ g) ++ (y ++ s) ≠ [] := by
    rw [List.append_assoc]
    exact List.append_ne_nil_of_left_ne_nil ha _
  rw [run_invalid hcs' hgap' (by rw [hstep]; exact hkind), run_invalid hcs hgap hkind, hstep]
  simp only [move_nil] at hresult
  simp only [← hm, htake, hdrop, hresult]
  -- the lapse is put where the part begins, and that is before the name
  have hlast : (move f (step mode parts offset cs).parts).getLast? = some (move f part) := by
    rw [show (move f (step mode parts offset cs).parts).getLast? =
      ((step mode parts offset cs).parts.getLast?).map (move f) from List.getLast?_map, hpart]
    rfl
  refine ⟨?_, failure_lost hsettled'⟩
  simp only [Lexer.failure, hlast, hpart]
  rfl

end

/-- **A declared name may be exchanged**: with another name in its place the same tokens are read
around it. -/
theorem run_renamed {k b : Token} (hk : k.kind = .keyword keyword)
    (hdeclares : keyword.declares = true) (ht : t.kind.isName = true)
    (hb : b.kind.follows = true) :
    ∀ (fuel : Nat) (mode : Mode) (parts : List Part) (offset : Nat) (cs : Text) {A : List Token},
    cs.length < fuel → mode.Plain → (∀ part ∈ parts, part.closing.Plain) →
    (run fuel mode parts offset cs).tokens = A ++ k :: t :: b :: B →
    ∃ a word g x s, Declared offset 0 cs t a word g x s ∧ k.span.stop < t.span.start ∧
      Renames (run · mode · offset ·) parts offset
        (run fuel mode parts offset cs) (A ++ [k]) (b :: B) (a ++ (word ++ g)) x s
  | 0, _, _, _, _, _, hfuel, _, _, _ => absurd hfuel (Nat.not_lt_zero _)
  | fuel + 1, mode, parts, offset, cs, A, hfuel, hmode, hparts, h => by
    -- reading on after a round
    have hafter : ∀ {mode : Mode} {parts : List Part} {n : Nat} {A : List Token}, cs ≠ [] → 0 < n →
        mode.Plain → (∀ part ∈ parts, part.closing.Plain) →
        (runAfter fuel mode parts offset cs n).tokens = A ++ k :: t :: b :: B →
        ∃ a word g x s, Declared offset n cs t a word g x s ∧ k.span.stop < t.span.start ∧
          Renames (fun m parts cs => runAfter (m - 1) mode parts offset cs n) parts offset
            (runAfter fuel mode parts offset cs n) (A ++ [k]) (b :: B) (a ++ (word ++ g)) x s := by
      intro mode parts n A hcs hn hmode hparts h
      have hlength : (cs.drop n).length < fuel := by
        have := List.length_pos_iff.mpr hcs
        simp only [List.length_drop]
        omega
      obtain ⟨hmode', hparts'⟩ := settle_spec hmode hparts ⟨offset, offset + Text.size (cs.take n)⟩
      obtain ⟨a, word, g, x, s, hdeclared, hapart, hrenames⟩ :=
        run_renamed hk hdeclares ht hb fuel _ _ _ _
        hlength hmode' (fun part hpart => hparts part (hparts' part hpart)) h
      obtain ⟨htake, hdeclared'⟩ := hdeclared.behind
      refine ⟨cs.take n ++ a, word, g, x, s, hdeclared', hapart, ?_⟩
      rw [List.append_assoc]
      exact Renames.behind htake hn hmode hrenames
    have hfailure : ∀ place, (Lexer.failure parts place ⟨[], none⟩).tokens ≠ A ++
        k :: t :: b :: B := by
      intro place heq
      have hlength := congrArg List.length heq
      unfold Lexer.failure at hlength
      split at hlength <;> simp at hlength <;> omega
    by_cases hcs : cs = []
    · subst hcs
      simp only [run] at h
      split at h
      · simp at h
      · exact absurd h (hfailure _)
    obtain hgap | ⟨n, hgap⟩ | hgap := gapIn_cases mode cs
    · rw [run_unclosed hcs hgap] at h
      exact absurd h (hfailure _)
    · rw [run_gap hcs hgap] at h
      obtain ⟨a, word, g, x, s, hdeclared, hapart, hrenames⟩ :=
        hafter hcs (Nat.succ_pos n) hmode hparts h
      exact ⟨a, word, g, x, s, { hdeclared with bound := Nat.zero_le _ }, hapart,
        Renames.gap hcs hgap
          (fun y _ => hdeclared.gapIn (hdeclared.ne_nil (Nat.succ_pos n)) hgap hdeclared.bound _)
          hrenames⟩
    · obtain ⟨hproper, hmode', -⟩ := step_spec hmode parts offset hcs
      have hplain := step_plain offset hmode hcs hparts
      by_cases hkind : (step mode parts offset cs).lexeme.kind = .invalid
      · rw [run_invalid hcs hgap hkind] at h
        cases hpart : (step mode parts offset cs).parts.getLast? with
        | none =>
          have hlength := congrArg List.length h
          simp [Lexer.failure, hpart] at hlength
          omega
        | some part =>
          simp only [Lexer.failure, hpart] at h
          cases A with
          | nil =>
            rw [List.nil_append] at h
            rw [← (List.cons.inj h).1] at hk
            cases hk
          | cons first A =>
            rw [List.cons_append] at h
            obtain ⟨rfl, hmore⟩ := List.cons.inj h
            generalize hm : (step mode parts offset cs).lexeme.length + 1 = m at hmore
            have hlength : (cs.drop m).length < fuel := by
              have := List.length_pos_iff.mpr hcs
              simp only [List.length_drop]
              omega
            obtain ⟨a, word, g, x, s, hdeclared, hapart, hrenames⟩ :=
              run_renamed hk hdeclares ht hb fuel .code []
              (offset + Text.size (cs.take m)) (cs.drop m) hlength trivial
              (List.forall_mem_nil _) hmore
            obtain ⟨htake, hdeclared'⟩ := hdeclared.behind
            exact ⟨cs.take m ++ a, word, g, x, s, { hdeclared' with bound := Nat.zero_le _ },
              hapart, Renames.invalid hmode hm.symm hdeclared' htake hgap hkind hpart hrenames⟩
      · have hpos := hproper.resolve_left hkind
        have hsame :=
            fun {a word g x s} (hdeclared : Declared offset _ cs t a word g x s) y hy f p q q' hf =>
          @step_declared cs offset _ t mode parts a word g x s hdeclared
            (hdeclared.ne_nil hpos) hgap (Nat.le_refl _) hmode y hy f p q q' hf
        have htokens := h
        rw [run_token hcs hgap hkind] at htokens
        unfold Reading.before at htokens
        split at htokens
        next hlost =>
          obtain ⟨a, word, g, x, s, hdeclared, hapart, hrenames⟩ :=
            hafter hcs hpos hmode' hplain htokens
          exact ⟨a, word, g, x, s, { hdeclared with bound := Nat.zero_le _ }, hapart,
            Renames.token rfl hcs hgap hkind hdeclared.take_eq (hsame hdeclared) hrenames
              (if_pos hlost).symm⟩
        next hkept =>
          cases A with
          | nil =>
            obtain ⟨word, g, x, s, hdeclared, hapart, hrenames⟩ :=
              run_keyword hcs hfuel hmode hparts hgap hkind h hk hdeclares ht hb
            exact ⟨[], word, g, x, s, hdeclared, hapart, hrenames⟩
          | cons first A =>
            rw [List.cons_append] at htokens
            obtain ⟨rfl, hmore⟩ := List.cons.inj htokens
            obtain ⟨a, word, g, x, s, hdeclared, hapart, hrenames⟩ :=
              hafter hcs hpos hmode' hplain hmore
            exact ⟨a, word, g, x, s, { hdeclared with bound := Nat.zero_le _ }, hapart,
              Renames.token rfl hcs hgap hkind hdeclared.take_eq (hsame hdeclared) hrenames
                (if_neg hkept).symm⟩

/-- A first line that names an interpreter is told by its own characters. -/
theorem interpreterLine_append (hline : 0 < interpreterLine text)
    (hrest : text.drop (interpreterLine text) ≠ []) (r : Text) :
    interpreterLine (text.take (interpreterLine text) ++ r) = interpreterLine text ∧
      (text.take (interpreterLine text)).length = interpreterLine text := by
  have hlength : (text.take (interpreterLine text)).length = interpreterLine text := by
    rw [List.length_take]
    by_contra hlong
    exact hrest (List.drop_of_length_le (by omega))
  refine ⟨?_, hlength⟩
  unfold interpreterLine at hline
  split at hline
  next cs =>
    have hcs : interpreterLine ('#' :: '!' :: cs) = (cs.takeWhile (· != '\n')).length + 3 := rfl
    -- the line break at its end is the first one
    obtain ⟨more, hbreak⟩ : ∃ more, cs = cs.takeWhile (· != '\n') ++ '\n' :: more := by
      have hsplit := List.takeWhile_append_dropWhile (p := (· != '\n')) (l := cs)
      cases hdrop : cs.dropWhile (· != '\n') with
      | nil =>
        rw [hdrop, List.append_nil] at hsplit
        rw [hcs, hsplit] at hrest
        simp at hrest
      | cons c more =>
        have hc := List.head?_dropWhile_not (· != '\n') cs
        rw [hdrop] at hc
        refine ⟨more, ?_⟩
        rw [hdrop] at hsplit
        simp only [List.head?_cons, bne_eq_false_iff_eq] at hc
        rw [hc] at hsplit
        exact hsplit.symm
    have hw : ∀ c ∈ cs.takeWhile (· != '\n'), (c != '\n') = true := fun c hc =>
      List.mem_takeWhile_imp (p := (· != '\n')) hc
    generalize cs.takeWhile (· != '\n') = w at hcs hbreak hw
    have htake : ('#' :: '!' :: cs).take (w.length + 3) = '#' :: '!' :: (w ++ ['\n']) := by
      rw [hbreak]
      simp [List.take_append, List.take_of_length_le]
    rw [hcs, htake]
    have hline : interpreterLine ('#' :: '!' :: (w ++ ['\n']) ++ r) =
        ((w ++ '\n' :: r).takeWhile (· != '\n')).length + 3 := by
      simp [interpreterLine]
    rw [hline, length_takeWhile_append hw (by simp)]
  next => cases hline

/-- The first line stays what it is when something behind a word is exchanged. -/
theorem splitAt_exchange {line a word r : Text} (hword : Head word)
    (h : text.splitAt (interpreterLine text) = (line, a ++ (word ++ r))) (r' : Text) :
    (line ++ (a ++ (word ++ r'))).splitAt (interpreterLine (line ++ (a ++ (word ++ r')))) =
      (line, a ++ (word ++ r')) := by
  obtain ⟨c, d, rest, hcons⟩ := hword.cons_cons_append a
  rw [List.splitAt_eq, hcons] at h
  obtain ⟨htake, hdrop⟩ := Prod.mk.inj h
  rw [hcons]
  rcases Nat.eq_zero_or_pos (interpreterLine text) with hline | hline
  · -- no line is set apart, which two characters tell
    rw [hline, List.take_zero] at htake
    rw [hline, List.drop_zero] at hdrop
    subst htake
    have hzero : interpreterLine (c :: d :: (rest ++ r')) = 0 := by
      unfold interpreterLine
      split
      next heq =>
        obtain ⟨rfl, htail⟩ := List.cons.inj heq
        obtain ⟨rfl, -⟩ := List.cons.inj htail
        rw [hdrop] at hline
        cases hline
      next => rfl
    rw [List.nil_append, hzero]
    rfl
  · obtain ⟨hsame, hlength⟩ := interpreterLine_append hline (by rw [hdrop]; simp)
      (c :: d :: (rest ++ r'))
    rw [htake] at hsame hlength
    rw [hsame, ← hlength, List.splitAt_eq, List.take_left, List.drop_left]

theorem move_lineTokens {f : Nat → Nat} {line : Text} (hf : ∀ n ≤ Text.size line, f n = n) :
    move f (lineTokens line) = lineTokens line := by
  unfold lineTokens
  split
  · rfl
  · rw [move_cons, move_nil]
    simp only [Placed.move, hf _ (Nat.zero_le _), hf _ (Nat.le_refl _)]

/-- **Exchanging a declared name in a source text** exchanges one token and moves those behind
it. -/
theorem tokenize_renamed {A : List Token} {k b : Token} (h : tokenize text = A ++ k :: t :: b :: B)
    (hk : k.kind = .keyword keyword) (hdeclares : keyword.declares = true)
    (ht : t.kind.isName = true) (hb : b.kind.follows = true) :
    ∃ u x s, text = u ++ (x ++ s) ∧ FreeName x ∧ k.span.stop < t.span.start ∧
      t = ⟨nameKind x, String.ofList x, ⟨Text.size u, Text.size u + Text.size x⟩⟩ ∧
      ∀ y, FreeName y → ∀ f, Shift f (Text.size u) (Text.size u + Text.size x)
          (Text.size u + Text.size y) →
        tokenize (u ++ (y ++ s)) = move f (A ++ [k]) ++
          ⟨nameKind y, String.ofList y, ⟨Text.size u, Text.size u + Text.size y⟩⟩ ::
            move f (b :: B) := by
  obtain ⟨line, rest, hsplit, htext⟩ := exists_firstLine text
  rw [tokenize_of_splitAt hsplit] at h
  obtain ⟨A, rfl, hmore⟩ := lineTokens_split h fun hmarkup => by
    rw [hmarkup] at hk
    cases hk
  obtain ⟨a, word, g, x, s, hdeclared, hapart, hrenames⟩ :=
    run_renamed hk hdeclares ht hb _ .markup [] _ _
    (Nat.lt_succ_self _) trivial (List.forall_mem_nil _) hmore
  have hrest := hdeclared.text
  subst hrest
  refine ⟨line ++ (a ++ (word ++ g)), x, s, by simpa only [List.append_assoc] using htext,
    hdeclared.name, hapart, by rw [hdeclared.token, Text.size_append line], fun y hy f hf => ?_⟩
  obtain ⟨hresult, -⟩ := hrenames y hy f _ _ _ hf (Text.size_append line _) rfl rfl
    (List.forall_mem_nil _) _ (Nat.lt_succ_self _)
  have hsplit' := splitAt_exchange hdeclared.head hsplit (g ++ (y ++ s))
  have hlow : ∀ n ≤ Text.size line, f n = n := fun n hn => hf.low n (by
    rw [Text.size_append]
    omega)
  simp only [List.append_assoc, move_nil] at hresult hsplit' ⊢
  rw [tokenize_of_splitAt hsplit', hresult, move_append f (lineTokens line), move_lineTokens hlow,
    List.append_assoc]

end CodeInsight.Grammar
