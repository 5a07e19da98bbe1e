import Mathlib.Data.List.Infix
import Mathlib.Data.List.Find
import CodeInsight.Grammar.Lexer
import CodeInsight.Proofs.TextLaws

/-!
# Lexemes before a border

A recogniser looks beyond the characters it takes. Before a keyword that declares something it never
looks past the character that ends the keyword, so what follows may be exchanged. Only the opening
of a string is told by all characters up to its end.

## Main Results

- `Grammar.Head`: what is used about the keyword
- `Grammar.Border.ofCode`: a lexeme that ends before the keyword is the same before other texts
-/

namespace CodeInsight.Grammar

open Lexeme

variable {a : Text} {c quote : Char} {d : Char} {w : Text} {n m : Nat}

/-! ## Section 1: The keyword and the character that ends it -/

/-- The keywords that declare a class or a namespace, in lower case. -/
def declaringWords : List Text :=
  ["class".toList, "interface".toList, "trait".toList, "namespace".toList]

/-- Characters that whitespace or a comment begins with. -/
def startsGap (c : Char) : Bool := isBlank c || c == '/' || c == '#'

/-- The suffixes of a type name in parentheses. -/
def castSuffixes : List Text :=
  castNames.flatMap fun name => ('(' :: name.toList ++ [')']).tails

/-- A word that no lexeme before it can pass. -/
structure Head (word : Text) : Prop where
  letters : ∀ c ∈ word, c.isAlpha = true
  long : 5 ≤ word.length
  noCast : ∀ w ∈ castSuffixes, ¬ word.map Char.toLower <+: w

theorem Head.of_spelling {word : Text} (h : word.map Char.toLower ∈ declaringWords) :
    Head word := by
  have hfacts : (declaringWords.all fun w => w.all Char.isLower && decide (5 ≤ w.length) &&
      castSuffixes.all fun s => !w.isPrefixOf s) = true := by decide +kernel
  have hword := List.all_eq_true.mp hfacts _ h
  simp only [Bool.and_eq_true, decide_eq_true_eq] at hword
  obtain ⟨⟨hlower, hlong⟩, hcast⟩ := hword
  refine ⟨fun c hc => ?_, by simpa using hlong, fun w hw hprefix => ?_⟩
  · exact Text.isAlpha_of_toLower (List.all_eq_true.mp hlower _ (List.mem_map_of_mem hc))
  · have hnone := List.all_eq_true.mp hcast w hw
    rw [List.isPrefixOf_iff_prefix.mpr hprefix] at hnone
    cases hnone

/-- Two texts that continue another one, and that no lexeme before them can tell apart. -/
structure Border (word : Text) (mark : Char) (t t' : Text) : Prop where
  head : Head word
  mark : startsGap mark = true
  lineBreak : t'.head? = some '\n' → t.head? = some '\n'
  interpolated : interpolated t = interpolated t'

/-! ## Section 2: Characters of both -/

section

variable {word : Text} {mark : Char} {t t' : Text}

theorem Head.cons (h : Head word) : ∃ c rest, word = c :: rest ∧ c.isAlpha = true := by
  have hlong := h.long
  cases word with
  | nil => simp at hlong
  | cons c rest => exact ⟨c, rest, rfl, h.letters c List.mem_cons_self⟩

section

variable (h : c.isAlpha = true)
include h

theorem isWordStart_of_isAlpha : Text.isWordStart c = true := by
  simp [Text.isWordStart, h]

theorem isWordPart_of_isAlpha : Text.isWordPart c = true := by
  simp [Text.isWordPart, isWordStart_of_isAlpha h]

theorem isBlank_of_isAlpha : isBlank c = false := by
  rw [Bool.eq_false_iff]
  intro hblank
  simp only [isBlank, Text.isSpace, Bool.or_eq_true, beq_iff_eq] at hblank
  rcases hblank with ((((rfl | rfl) | rfl) | rfl) | rfl) | rfl <;> revert h <;> decide

theorem isSpace_of_isAlpha : Text.isSpace c = false := by
  have hblank := isBlank_of_isAlpha h
  simp only [isBlank, Bool.or_eq_false_iff] at hblank
  exact hblank.1

end

/-- What holds for eight characters holds for the one that ends a keyword. -/
theorem of_startsGap (h : startsGap c = true) (p : Char → Bool)
    (hp : [' ', '\t', '\n', '\r', '\x0c', '\x0b', '/', '#'].all p = true) : p c = true := by
  apply List.all_eq_true.mp hp
  simp only [startsGap, isBlank, Text.isSpace, Bool.or_eq_true, beq_iff_eq] at h
  simp only [List.mem_cons, List.not_mem_nil, or_false]
  tauto

theorem isWordPart_of_startsGap (h : startsGap c = true) : Text.isWordPart c = false := by
  simpa using of_startsGap h (fun c => !Text.isWordPart c) (by decide)

theorem ne_of_startsGap (h : startsGap c = true) (hd : startsGap d = false) : c ≠ d := by
  rintro rfl
  rw [h] at hd
  cases hd

theorem ne_of_isAlpha (h : c.isAlpha = true) (hd : d.isAlpha = false) : c ≠ d := by
  rintro rfl
  rw [h] at hd
  cases hd

end

/-! ## Section 3: Names and variables -/

section

variable {word : Text} {mark : Char} {t t' : Text}

theorem Head.startsWord_append (h : Head word) (a r : Text) :
    startsWord (a ++ (word ++ r)) = startsWord (a ++ word) := by
  obtain ⟨c, rest, rfl, hc⟩ := h.cons
  cases a <;> rfl

theorem Border.nameLength (hb : Border word mark t t') (a : Text) :
    nameLength (a ++ (word ++ mark :: t)) = nameLength (a ++ (word ++ mark :: t')) := by
  have hmark : ∀ t, Lexeme.nameLength (mark :: t) = 0 := fun t => by
    simp [Lexeme.nameLength, isWordPart_of_startsGap hb.mark,
      beq_eq_false_iff_ne.mpr (ne_of_startsGap hb.mark (d := '\\') (by decide))]
  have hword : ∀ w : Text, (∀ c ∈ w, c.isAlpha = true) → ∀ t,
      Lexeme.nameLength (w ++ mark :: t) = w.length := by
    intro w hw t
    induction w with
    | nil => exact hmark t
    | cons c rest ih =>
      have hc := isWordPart_of_isAlpha (hw c List.mem_cons_self)
      simp [Lexeme.nameLength, hc, ih fun d hd => hw d (List.mem_cons_of_mem c hd)]
  induction a with
  | nil => rw [List.nil_append, List.nil_append, hword _ hb.head.letters, hword _ hb.head.letters]
  | cons c rest ih =>
    simp only [List.cons_append, Lexeme.nameLength, ih, hb.head.startsWord_append]

/-- What a condition holds for at the front ends before a character that it does not hold for. -/
theorem takeWhile_append_stop {p : Char → Bool} (hc : p c = false) (a t t' : Text) :
    (a ++ c :: t).takeWhile p = (a ++ c :: t').takeWhile p := by
  induction a with
  | nil => simp [hc]
  | cons d rest ih => simp only [List.cons_append, List.takeWhile_cons, ih]

theorem Border.takeWhile_isWordPart (hb : Border word mark t t') (a : Text) :
    (a ++ (word ++ mark :: t)).takeWhile Text.isWordPart =
      (a ++ (word ++ mark :: t')).takeWhile Text.isWordPart := by
  simp only [← List.append_assoc]
  exact takeWhile_append_stop (isWordPart_of_startsGap hb.mark) _ _ _

theorem take_append_of_le (h : n ≤ a.length) (t t' : Text) :
    (a ++ t).take n = (a ++ t').take n := by
  rw [List.take_append_of_le_length h, List.take_append_of_le_length h]

/-- A word of five characters or less that stands here is told by what precedes the border. -/
theorem Head.startsWith_append (h : Head word) {w : String} (hw : w.length ≤ 5) (a r r' : Text) :
    startsWith w (a ++ (word ++ r)) = startsWith w (a ++ (word ++ r')) := by
  have hle : w.length ≤ (a ++ word).length := by
    have := h.long
    simp only [List.length_append]
    omega
  simp only [startsWith, ← List.append_assoc]
  rw [take_append_of_le hle r r']

theorem name?_cons (hc : c ≠ '\\') (cs : Text) :
    name? (c :: cs) = if startsWord (c :: cs) then
      some (wordLexeme ((c :: cs).take (nameLength (c :: cs)))
        ((c :: cs).drop (nameLength (c :: cs))))
    else none := by
  unfold Lexeme.name?
  split
  next heq => exact absurd (List.cons.inj heq).1 hc
  next => rfl

theorem nameLength_le (cs : Text) : nameLength cs ≤ cs.length := by
  induction cs with
  | nil => exact Nat.le_refl 0
  | cons c rest ih =>
    unfold nameLength
    split
    · simpa using ih
    · split
      · simpa using ih
      · exact Nat.zero_le _

/-- A lexeme is at least as long as its word. -/
theorem le_wordLexeme (word rest : Text) : word.length ≤ (wordLexeme word rest).length := by
  unfold wordLexeme
  split
  · exact Nat.le_refl _
  · split
    next k _ =>
      unfold keywordLexeme
      split
      · split <;> simp
      · exact Nat.le_refl _
    · exact Nat.le_refl _

theorem Head.wordLexeme_append (h : Head word) (w a r r' : Text) :
    wordLexeme w (a ++ (word ++ r)) = wordLexeme w (a ++ (word ++ r')) := by
  simp only [wordLexeme, keywordLexeme,
    h.startsWith_append (show "(set)".length ≤ 5 by decide) a r r']

theorem Border.name? (hb : Border word mark t t') (ha : a ≠ [])
    (h : ∀ l, name? (a ++ (word ++ mark :: t)) = some l → l.length ≤ a.length) :
    name? (a ++ (word ++ mark :: t')) = name? (a ++ (word ++ mark :: t)) := by
  obtain ⟨c, rest, rfl⟩ := List.exists_cons_of_ne_nil ha
  simp only [List.cons_append] at h ⊢
  by_cases hc : c = '\\'
  · subst hc
    simp only [Lexeme.name?, hb.head.startsWord_append, hb.nameLength]
  · have hlength := hb.nameLength (c :: rest)
    have hstarts : startsWord (c :: (rest ++ (word ++ mark :: t'))) =
        startsWord (c :: (rest ++ (word ++ mark :: t))) := rfl
    simp only [List.cons_append] at hlength
    rw [name?_cons hc] at h ⊢
    rw [name?_cons hc, hstarts, ← hlength]
    split
    next hword =>
      rw [if_pos hword] at h
      -- the word ends before the border, so it stands before the same five characters
      have hle : Lexeme.nameLength (c :: (rest ++ (word ++ mark :: t))) ≤ (c :: rest).length := by
        have hlong := Nat.le_trans (le_wordLexeme _ _) (h _ rfl)
        rwa [List.length_take, Nat.min_eq_left (nameLength_le _)] at hlong
      generalize Lexeme.nameLength (c :: (rest ++ (word ++ mark :: t))) = n at hle ⊢
      have htake : (c :: (rest ++ (word ++ mark :: t'))).take n =
          (c :: (rest ++ (word ++ mark :: t))).take n := take_append_of_le hle _ _
      have hdrop : ∀ r, (c :: (rest ++ r)).drop n = (c :: rest).drop n ++ r := fun r =>
        List.drop_append_of_le_length hle
      rw [htake, hdrop, hdrop, hb.head.wordLexeme_append _ _ (mark :: t') (mark :: t)]
    next => rfl

theorem Border.dollarName? (hb : Border word mark t t') (ha : a ≠ []) :
    dollarName? (a ++ (word ++ mark :: t')) = dollarName? (a ++ (word ++ mark :: t)) := by
  obtain ⟨c, rest, rfl⟩ := List.exists_cons_of_ne_nil ha
  by_cases hc : c = '$'
  · subst hc
    simp only [List.cons_append, Lexeme.dollarName?, hb.head.startsWord_append,
      hb.takeWhile_isWordPart rest]
  · have hnone : ∀ cs, Lexeme.dollarName? (c :: cs) = none := fun cs => by
      unfold Lexeme.dollarName?
      split
      next heq => exact absurd (List.cons.inj heq).1 hc
      next => rfl
    rw [List.cons_append, List.cons_append, hnone, hnone]

/-! ## Section 4: Numbers -/

section

variable {p : Char → Bool}

theorem digitsLength_cons {x : Char} (hx : x ≠ '_') (cs : Text) :
    digitsLength p (x :: cs) = if p x then digitsLength p cs + 1 else 0 := by
  cases cs <;> simp [digitsLength, hx]

/-- A run of digits ends before a character that is no digit and no underscore. -/
theorem digitsLength_append_stop (hc : p c = false) (hc' : c ≠ '_') (t t' : Text) :
    ∀ a, digitsLength p (a ++ c :: t) = digitsLength p (a ++ c :: t') ∧
      digitsLength p (a ++ c :: t) ≤ a.length
  | [] => by simp [digitsLength_cons hc', hc]
  | [x] => by
    by_cases hx : x = '_'
    · simp [digitsLength, hx, hc]
    · simp only [List.cons_append, List.nil_append, digitsLength_cons hx, digitsLength_cons hc', hc]
      split <;> simp
  | x :: y :: rest => by
    obtain ⟨hone, hone'⟩ := digitsLength_append_stop hc hc' t t' (y :: rest)
    obtain ⟨htwo, htwo'⟩ := digitsLength_append_stop hc hc' t t' rest
    simp only [List.cons_append, List.length_cons] at hone hone' ⊢
    by_cases hx : x = '_'
    · simp only [hx, digitsLength, htwo]
      refine ⟨trivial, ?_⟩
      split <;> omega
    · simp only [digitsLength_cons hx, hone]
      refine ⟨trivial, ?_⟩
      split <;> omega

/-- Characters that no number goes on with. -/
theorem stops_of_startsGap (h : startsGap c = true) :
    c.isDigit = false ∧ c ≠ '_' ∧ c ≠ '.' ∧ startsSign [c] = false ∧
      (c == 'e' || c == 'E') = false := by
  have hall := of_startsGap h
    (fun c => !c.isDigit && c != '_' && c != '.' && !startsSign [c] && !(c == 'e' || c == 'E'))
    (by decide)
  simpa [and_assoc] using hall

theorem radixDigit?_of_startsGap {letter : Char} (h : startsGap c = true)
    (hp : radixDigit? letter = some p) :
    p c = false := by
  have hall := of_startsGap h (fun c => !(c.isDigit || ('a' ≤ c.toLower && c.toLower ≤ 'f')) &&
    !('0' ≤ c && c ≤ '7') && !(c == '0' || c == '1')) (by decide)
  simp only [Bool.and_eq_true, Bool.not_eq_true'] at hall
  obtain ⟨⟨hhex, hoctal⟩, hbinary⟩ := hall
  unfold radixDigit? at hp
  split at hp <;> cases hp
  · exact hhex
  · exact hoctal
  · exact hbinary

section

variable (hc : startsGap c = true)
include hc

theorem exponentLength_append_stop (whole : Bool) (a t t' : Text) :
    exponentLength whole (a ++ c :: t) = exponentLength whole (a ++ c :: t') := by
  obtain ⟨hdigit, hunderscore, -, hsign, he⟩ := stops_of_startsGap hc
  have hdigits := digitsLength_append_stop hdigit hunderscore t t'
  cases a with
  | nil => simp [exponentLength, he]
  | cons e rest =>
    cases rest with
    | nil =>
      have hsign : ∀ t, startsSign (c :: t) = false := fun _ => hsign
      have hnone := (hdigits []).1
      simp only [List.nil_append] at hnone
      simp [exponentLength, hsign, hnone]
    | cons s rest =>
      have hsame : startsSign (s :: (rest ++ c :: t)) = startsSign (s :: (rest ++ c :: t')) := rfl
      have hhead : ∀ t, (rest ++ c :: t).head? = (rest ++ [c]).head? := fun t => by
        cases rest <;> rfl
      have hone := (hdigits (s :: rest)).1
      simp only [List.cons_append] at hone
      simp only [List.cons_append, exponentLength, hsame]
      split
      · simp only [List.drop_succ_cons, List.drop_zero, (hdigits rest).1, hhead]
      · simp only [List.drop_zero, hone, List.head?_cons]

theorem fractionLength_append_stop (a t t' : Text) :
    fractionLength (a ++ c :: t) = fractionLength (a ++ c :: t') ∧
      fractionLength (a ++ c :: t) ≤ a.length := by
  obtain ⟨hdigit, hunderscore, hpoint, -, -⟩ := stops_of_startsGap hc
  cases a with
  | nil => simp [fractionLength, hpoint]
  | cons d rest =>
    by_cases hd : d = '.'
    · subst hd
      obtain ⟨hsame, hle⟩ := digitsLength_append_stop hdigit hunderscore t t' rest
      simp only [List.cons_append, fractionLength, List.length_cons]
      omega
    · simp [fractionLength, hd]

/-- A number that goes no further than the border is the same before other texts. -/
theorem decimal_append_stop (a t t' : Text) : decimal (a ++ c :: t) = decimal (a ++ c :: t') := by
  obtain ⟨hdigit, hunderscore, -, -, -⟩ := stops_of_startsGap hc
  obtain ⟨hwhole, hle⟩ := digitsLength_append_stop hdigit hunderscore t t' a
  simp only [decimal, ← hwhole]
  generalize digitsLength Char.isDigit (a ++ c :: t) = n at hle ⊢
  have hdrop : ∀ t, (a ++ c :: t).drop n = a.drop n ++ c :: t := fun t =>
    List.drop_append_of_le_length hle
  obtain ⟨hfraction, hfle⟩ := fractionLength_append_stop hc (a.drop n) t t'
  simp only [hdrop, ← hfraction]
  generalize fractionLength (a.drop n ++ c :: t) = m at hfle ⊢
  have hdrop' : ∀ t, (a ++ c :: t).drop (n + m) = (a.drop n).drop m ++ c :: t := fun t => by
    rw [← List.drop_drop, hdrop, List.drop_append_of_le_length hfle]
  simp only [hdrop', exponentLength_append_stop hc _ ((a.drop n).drop m) t t',
    take_append_of_le hle (c :: t) (c :: t')]

theorem radixNumber?_append_stop (ha : 3 ≤ a.length) (t t' : Text) :
    radixNumber? (a ++ c :: t) = radixNumber? (a ++ c :: t') := by
  obtain ⟨-, hunderscore, -, -, -⟩ := stops_of_startsGap hc
  match a, ha with
  | x :: letter :: d :: rest, _ =>
    by_cases hx : x = '0'
    · subst hx
      have hread : ∀ t, radixNumber? ('0' :: letter :: d :: rest ++ c :: t) =
          (radixDigit? letter).bind fun isDigit => Option.bind (guard (isDigit d)) fun _ =>
            some ⟨.integer, digitsLength isDigit (d :: rest ++ c :: t) + 2⟩ := fun _ => rfl
      rw [hread, hread]
      cases hp : radixDigit? letter with
      | none => rfl
      | some p =>
        obtain ⟨hsame, -⟩ :=
          digitsLength_append_stop (radixDigit?_of_startsGap hc hp) hunderscore t t' (d :: rest)
        rw [Option.bind_some, Option.bind_some, hsame]
    · have hnone : ∀ cs, radixNumber? (x :: cs) = none := fun cs => by
        unfold radixNumber?
        split
        next heq => exact absurd (List.cons.inj heq).1 hx
        next => rfl
      simp only [List.cons_append, hnone]

end

theorem Border.number? (hb : Border word mark t t') (ha : a ≠ []) :
    number? (a ++ (word ++ mark :: t')) = number? (a ++ (word ++ mark :: t)) := by
  have hlong : 3 ≤ (a ++ word).length := by
    have := hb.head.long
    simp only [List.length_append]
    omega
  have hdecimal := decimal_append_stop hb.mark (a ++ word) t t'
  have hradix := radixNumber?_append_stop hb.mark hlong t t'
  obtain ⟨c, rest, rfl⟩ := List.exists_cons_of_ne_nil ha
  obtain ⟨d, more, hmore⟩ : ∃ d more, rest ++ word = d :: more :=
    List.exists_cons_of_ne_nil (by obtain ⟨_, _, rfl, -⟩ := hb.head.cons; simp)
  have htext : ∀ r, c :: rest ++ (word ++ r) = c :: d :: (more ++ r) := fun r => by
    rw [List.cons_append, ← List.append_assoc, hmore]
    rfl
  simp only [List.append_assoc, htext] at hdecimal hradix ⊢
  by_cases hc : c = '.'
  · subst hc
    simp only [Lexeme.number?, hdecimal]
  · have hcons : ∀ cs, Lexeme.number? (c :: cs) =
        if c.isDigit then radixNumber? (c :: cs) <|> some (decimal (c :: cs)) else none := by
      intro cs
      unfold Lexeme.number?
      split
      next heq => exact absurd (List.cons.inj heq).1 hc
      next heq => rw [(List.cons.inj heq).1]
      next heq => cases heq
    simp only [hcons, hdecimal, hradix]

end

/-! ## Section 5: Strings -/

theorem quotedLength_cons (hc : c ≠ '\\') (cs : Text) :
    quotedLength quote (c :: cs) =
      if c == quote then some 1 else (quotedLength quote cs).map (· + 1) := by
  cases cs <;> simp [quotedLength, hc]

theorem quotedLength_pos {cs : Text} (h : quotedLength quote cs = some n) : 0 < n := by
  fun_cases quotedLength quote cs with
  | case1 => simp [quotedLength] at h
  | case2 c rest =>
    simp only [quotedLength, Option.map_eq_some_iff] at h
    obtain ⟨m, -, rfl⟩ := h
    exact Nat.succ_pos _
  | case3 c rest hc hquote | case4 c rest hc hquote =>
    simp_all [quotedLength]
    omega

/-- A string that ends before some text ends there before any other text. -/
theorem quotedLength_append (hq : quote ≠ '\\') (r r' : Text) :
    ∀ {a : Text} {n : Nat}, quotedLength quote (a ++ r) = some n → n ≤ a.length →
      quotedLength quote (a ++ r') = some n
  | [], n, h, hn => absurd (quotedLength_pos h) (by simpa using hn)
  | c :: rest, n, h, hn => by
    by_cases hc : c = '\\'
    · subst hc
      cases rest with
      | nil =>
        cases r with
        | nil => simp [quotedLength, hq.symm] at h
        | cons d more =>
          simp only [List.cons_append, List.nil_append, quotedLength, Option.map_eq_some_iff] at h
          obtain ⟨m, hm, rfl⟩ := h
          simp at hn
      | cons d rest =>
        simp only [List.cons_append, quotedLength, Option.map_eq_some_iff,
          List.length_cons] at h hn ⊢
        obtain ⟨m, hm, rfl⟩ := h
        exact ⟨m, quotedLength_append hq r r' hm (by omega), rfl⟩
    · simp only [List.cons_append, quotedLength_cons hc, List.length_cons] at h hn ⊢
      split
      next hquote => rwa [if_pos hquote] at h
      next hquote =>
        rw [if_neg hquote] at h
        obtain ⟨m, hm, rfl⟩ := Option.map_eq_some_iff.mp h
        rw [quotedLength_append hq r r' hm (by omega)]
        rfl

theorem interpolated_cons (hc : c ≠ '\\') (cs : Text) :
    interpolated (c :: cs) = (c != '"' && (startsPart (c :: cs) || interpolated cs)) := by
  cases cs <;> simp [interpolated, hc]

/-- A character that neither ends a string nor begins a part of it. -/
theorem interpolated_cons_plain (hc : c ≠ '\\') (hquote : c ≠ '"') (hdollar : c ≠ '$')
    (hbrace : c ≠ '\x7b') (cs : Text) : interpolated (c :: cs) = interpolated cs := by
  have hpart : startsPart (c :: cs) = false := by
    unfold startsPart
    split
    next heq => exact absurd (List.cons.inj heq).1 hdollar
    next heq => exact absurd (List.cons.inj heq).1 hdollar
    next heq => exact absurd (List.cons.inj heq).1 hbrace
    next => rfl
  simp [interpolated_cons hc, hpart, hquote]

theorem interpolated_letters (h : ∀ c ∈ w, c.isAlpha = true) (cs : Text) :
    interpolated (w ++ cs) = interpolated cs := by
  induction w with
  | nil => rfl
  | cons c rest ih =>
    have hc := h c List.mem_cons_self
    rw [List.cons_append, interpolated_cons_plain (ne_of_isAlpha hc (by decide))
      (ne_of_isAlpha hc (by decide)) (ne_of_isAlpha hc (by decide)) (ne_of_isAlpha hc (by decide))]
    exact ih fun d hd => h d (List.mem_cons_of_mem c hd)

/-- Two characters tell whether a part begins. -/
theorem startsPart_cons_cons (c d : Char) (cs cs' : Text) :
    startsPart (c :: d :: cs) = startsPart (c :: d :: cs') := by
  by_cases hc : c = '$'
  · by_cases hd : d = '\x7b' <;> simp [startsPart, startsPlainWord, hc, hd]
  · by_cases hc' : c = '\x7b'
    · by_cases hd : d = '$' <;> simp [startsPart, hc', hd]
    · simp [startsPart, hc, hc']

theorem Head.cons_append (h : Head word) (a : Text) :
    ∃ c rest, ∀ r, a ++ (word ++ r) = c :: (rest ++ r) := by
  obtain ⟨d, ws, rfl, -⟩ := h.cons
  cases a with
  | nil => exact ⟨d, ws, fun r => rfl⟩
  | cons c rest => exact ⟨c, rest ++ d :: ws, fun r => by simp⟩

/-- The first two characters do not depend on what follows the word. -/
theorem Head.cons_cons_append (h : Head word) (a : Text) :
    ∃ c d rest, ∀ r, a ++ (word ++ r) = c :: d :: (rest ++ r) := by
  obtain ⟨c, rest, hc⟩ := h.cons_append a
  cases rest with
  | nil =>
    have hlong := h.long
    have hlength := congrArg List.length (hc [])
    simp at hlength
    omega
  | cons d rest => exact ⟨c, d, rest, hc⟩

/-- Whether a string has parts is told by all its characters, but not by those of a word. -/
theorem Border.interpolated_append (hb : Border word mark t t') : ∀ a : Text,
    Lexeme.interpolated (a ++ (word ++ mark :: t)) = Lexeme.interpolated (a ++ (word ++ mark :: t'))
  | [] => by
    have hmark : ∀ t, Lexeme.interpolated (mark :: t) = Lexeme.interpolated t :=
      interpolated_cons_plain (ne_of_startsGap hb.mark (by decide))
        (ne_of_startsGap hb.mark (by decide)) (ne_of_startsGap hb.mark (by decide))
        (ne_of_startsGap hb.mark (by decide))
    simp only [List.nil_append, interpolated_letters hb.head.letters, hmark, hb.interpolated]
  | [c] => by
    have hnone := hb.interpolated_append []
    obtain ⟨d, ws, hword, hd⟩ := hb.head.cons
    by_cases hc : c = '\\'
    · -- a backslash takes the first letter of the word with it
      have hskip : ∀ t, Lexeme.interpolated (ws ++ mark :: t) =
          Lexeme.interpolated (word ++ mark :: t) := fun t => by
        have hletters := hb.head.letters
        rw [interpolated_letters hletters, interpolated_letters]
        intro e he
        exact hletters e (by rw [hword]; exact List.mem_cons_of_mem d he)
      simp only [List.nil_append] at hnone
      rw [hc, hword]
      simp only [List.cons_append, List.nil_append, Lexeme.interpolated, hskip, hnone]
    · have hpart : startsPart (c :: (word ++ mark :: t)) =
          startsPart (c :: (word ++ mark :: t')) := by
        rw [hword]
        exact startsPart_cons_cons _ _ _ _
      simp only [List.nil_append] at hnone
      simp only [List.cons_append, List.nil_append, interpolated_cons hc, hnone, hpart]
  | c :: d :: rest => by
    have hone := hb.interpolated_append (d :: rest)
    have htwo := hb.interpolated_append rest
    simp only [List.cons_append] at hone ⊢
    by_cases hc : c = '\\'
    · simp only [hc, Lexeme.interpolated, htwo]
    · simp only [interpolated_cons hc, hone,
        startsPart_cons_cons c d (rest ++ (word ++ mark :: t)) (rest ++ (word ++ mark :: t'))]

/-- The end of a string is told by the characters up to it. -/
theorem plainString_append (hq : quote ≠ '\\') {r : Text} (hr : r ≠ [])
    (h : (plainString m quote (a ++ r)).length ≤ m + 1 + a.length) (r' : Text) :
    plainString m quote (a ++ r') = plainString m quote (a ++ r) := by
  unfold plainString at h ⊢
  cases hlength : quotedLength quote (a ++ r) with
  | none =>
    have hpos := List.length_pos_iff.mpr hr
    simp only [hlength, List.length_append] at h
    omega
  | some n =>
    simp only [hlength] at h
    rw [quotedLength_append hq r r' hlength (by omega)]

theorem quoted?_cons (h₁ : c ≠ '\'') (h₂ : c ≠ '"') (h₃ : c ≠ '\x60') (cs : Text) :
    quoted? m (c :: cs) = none := by
  unfold quoted?
  split
  next heq => exact absurd (List.cons.inj heq).1 h₁
  next heq => exact absurd (List.cons.inj heq).1 h₂
  next heq => exact absurd (List.cons.inj heq).1 h₃
  next => rfl

theorem Border.quoted? (hb : Border word mark t t') (m : Nat) (a : Text)
    (h : ∀ l, quoted? m (a ++ (word ++ mark :: t)) = some l → l.length ≤ m + a.length) :
    quoted? m (a ++ (word ++ mark :: t')) = quoted? m (a ++ (word ++ mark :: t)) := by
  have hne : word ++ mark :: t ≠ [] := by simp
  cases a with
  | nil =>
    obtain ⟨c, rest, rfl, hc⟩ := hb.head.cons
    have hnone := @quoted?_cons c m (ne_of_isAlpha hc (by decide)) (ne_of_isAlpha hc (by decide))
      (ne_of_isAlpha hc (by decide))
    simp only [List.nil_append, List.cons_append, hnone]
  | cons c rest =>
    simp only [List.cons_append, List.length_cons] at h ⊢
    by_cases h₁ : c = '\''
    · subst h₁
      have hle := h _ rfl
      simp only [Lexeme.quoted?]
      rw [plainString_append (by decide) hne (by omega)]
    by_cases h₂ : c = '"'
    · subst h₂
      simp only [Lexeme.quoted?, hb.interpolated_append rest] at h ⊢
      split
      next => rfl
      next hplain =>
        have hle := h _ rfl
        rw [if_neg hplain] at hle
        rw [plainString_append (by decide) hne (by omega)]
    by_cases h₃ : c = '\x60'
    · simp only [h₃, Lexeme.quoted?]
    · simp only [quoted?_cons h₁ h₂ h₃]

theorem Border.string? (hb : Border word mark t t') (ha : a ≠ [])
    (h : ∀ l, string? (a ++ (word ++ mark :: t)) = some l → l.length ≤ a.length) :
    string? (a ++ (word ++ mark :: t')) = string? (a ++ (word ++ mark :: t)) := by
  obtain ⟨c, rest, rfl⟩ := List.exists_cons_of_ne_nil ha
  simp only [List.cons_append] at h ⊢
  by_cases h₁ : c = 'b'
  · subst h₁
    exact hb.quoted? 1 rest fun l hl => by simpa [Nat.add_comm] using h l hl
  by_cases h₂ : c = 'B'
  · subst h₂
    exact hb.quoted? 1 rest fun l hl => by simpa [Nat.add_comm] using h l hl
  · have hplain : ∀ cs, Lexeme.string? (c :: cs) = Lexeme.quoted? 0 (c :: cs) := fun cs => by
      unfold Lexeme.string?
      split
      next heq => exact absurd (List.cons.inj heq).1 h₁
      next heq => exact absurd (List.cons.inj heq).1 h₂
      next => rfl
    simp only [hplain] at h ⊢
    exact hb.quoted? 0 (c :: rest) fun l hl => by simpa using h l hl

/-! ## Section 6: Casts and symbols -/

/-- A word that is not the beginning of `w` is where the two differ. -/
theorem spacedLength_letters {v : Text} (hv : ∀ c ∈ v, c.isAlpha = true) (r r' : Text) :
    ∀ {w : Text}, ¬ v.map Char.toLower <+: w → spacedLength w (v ++ r) =
      spacedLength w (v ++ r') := by
  induction v with
  | nil => exact fun h => absurd List.nil_prefix h
  | cons c rest ih =>
    intro w h
    cases w with
    | nil => rfl
    | cons d w =>
      have hspace := isSpace_of_isAlpha (hv c List.mem_cons_self)
      simp only [List.cons_append, spacedLength, hspace, Bool.false_eq_true, if_false]
      split
      next heq =>
        rw [ih (fun e he => hv e (List.mem_cons_of_mem c he)) fun hrest => h ?_]
        rw [List.map_cons, beq_iff_eq.mp heq]
        exact (List.prefix_cons_inj d).mpr hrest
      next => rfl

/-- The suffixes of a type name in parentheses are suffixes of its suffixes. -/
theorem castSuffixes_tail (h : d :: w ∈ castSuffixes) : w ∈ castSuffixes := by
  simp only [castSuffixes, List.mem_flatMap, List.mem_tails] at h ⊢
  obtain ⟨name, hname, hsuffix⟩ := h
  exact ⟨name, hname, (List.suffix_cons d w).trans hsuffix⟩

theorem Head.spacedLength_append (h : Head word) (r r' a : Text) :
    ∀ {w : Text}, w ∈ castSuffixes →
      spacedLength w (a ++ (word ++ r)) = spacedLength w (a ++ (word ++ r')) := by
  induction a with
  | nil => exact fun hw => spacedLength_letters h.letters r r' (h.noCast _ hw)
  | cons c rest ih =>
    intro w hw
    cases w with
    | nil => rfl
    | cons d w => simp only [List.cons_append, spacedLength, ih hw, ih (castSuffixes_tail hw)]

theorem Head.head?_append (h : Head word) (a r r' : Text) :
    (a ++ (word ++ r)).head? = (a ++ (word ++ r')).head? := by
  obtain ⟨c, rest, hcons⟩ := h.cons_append a
  rw [hcons, hcons, List.head?_cons, List.head?_cons]

theorem Head.cast?_append (h : Head word) (a r r' : Text) :
    cast? (a ++ (word ++ r)) = cast? (a ++ (word ++ r')) := by
  have hlengths : ∀ names : List String, (∀ name ∈ names, name ∈ castNames) →
      names.findSome? (fun name => spacedLength ('(' :: name.toList ++ [')']) (a ++ (word ++ r))) =
        names.findSome? fun name => spacedLength ('(' :: name.toList ++ [')'])
            (a ++ (word ++ r')) := by
    intro names hnames
    induction names with
    | nil => rfl
    | cons name rest ih =>
      have hname : '(' :: name.toList ++ [')'] ∈ castSuffixes := by
        simp only [castSuffixes, List.mem_flatMap, List.mem_tails]
        exact ⟨name, hnames name List.mem_cons_self, List.suffix_rfl⟩
      rw [List.findSome?_cons, List.findSome?_cons, h.spacedLength_append r r' a hname,
        ih fun n hn => hnames n (List.mem_cons_of_mem name hn)]
  simp only [cast?, h.head?_append a r r', hlengths castNames fun _ h => h]

theorem isPrefixOf_append_of_le {b : Text} (h : w.length ≤ b.length) (r r' : Text) :
    w.isPrefixOf (b ++ r) = w.isPrefixOf (b ++ r') := by
  induction w generalizing b with
  | nil => rfl
  | cons c w ih =>
    cases b with
    | nil => simp at h
    | cons d b =>
      simp only [List.cons_append, List.isPrefixOf, ih (Nat.le_of_succ_le_succ h)]

/-- A symbol has three characters at most. -/
theorem Head.symbol?_append (h : Head word) (a r r' : Text) :
    symbol? (a ++ (word ++ r)) = symbol? (a ++ (word ++ r')) := by
  have hlong := h.long
  have hshort : (Symbol.spellings.all fun s => decide (s.1.toList.length ≤ 3)) = true := by
    decide +kernel
  have hfind : (Symbol.spellings.find? fun s => s.1.toList.isPrefixOf (a ++ (word ++ r))) =
      Symbol.spellings.find? fun s => s.1.toList.isPrefixOf (a ++ (word ++ r')) := by
    refine List.find?_congr fun s hs => ?_
    have hle := of_decide_eq_true (List.all_eq_true.mp hshort s hs)
    simp only [← List.append_assoc]
    exact isPrefixOf_append_of_le (by rw [List.length_append]; omega) r r'
  obtain ⟨c, d, rest, hcons⟩ := h.cons_cons_append a
  simp only [hcons] at hfind ⊢
  by_cases htag : c = '?' ∧ d = '>'
  · obtain ⟨rfl, rfl⟩ := htag
    rfl
  · have hsymbol : ∀ cs, symbol? (c :: d :: cs) =
        (Symbol.spellings.find? fun s => s.1.toList.isPrefixOf (c :: d :: cs)).map
          fun s => ⟨.symbol s.2, s.1.length⟩ := fun cs => by
      unfold symbol?
      split
      next heq =>
        simp only [List.cons.injEq] at heq
        exact absurd ⟨heq.1, heq.2.1⟩ htag
      next => rfl
    rw [hsymbol, hsymbol, hfind]

/-! ## Section 7: One token of code -/

/-- A lexeme that ends before the border is the same before other texts. -/
theorem Border.ofCode (hb : Border word mark t t') (ha : a ≠ [])
    (h : (ofCode (a ++ (word ++ mark :: t))).length ≤ a.length) :
    ofCode (a ++ (word ++ mark :: t')) = ofCode (a ++ (word ++ mark :: t)) := by
  have hdollar := hb.dollarName? ha
  have hnumber := hb.number? ha
  have hcast := hb.head.cast?_append a (mark :: t') (mark :: t)
  have hsymbol := hb.head.symbol?_append a (mark :: t') (mark :: t)
  simp only [Lexeme.ofCode, hdollar, hnumber, hcast, hsymbol] at h ⊢
  cases hs : Lexeme.string? (a ++ (word ++ mark :: t)) with
  | some l =>
    rw [hs] at h
    have hstring := hb.string? ha fun l' hl' => by
      rw [hs, Option.some.injEq] at hl'
      subst hl'
      simpa using h
    simp only [hstring, hs, Option.orElse_eq_orElse, Option.orElse_some]
  | none =>
    have hstring := hb.string? ha fun l' hl' => absurd hl' (by simp [hs])
    rw [hs] at h
    simp only [hstring, hs, Option.orElse_eq_orElse, Option.orElse_none] at h ⊢
    have hname := hb.name? ha fun l' hl' => by
      rw [hl'] at h
      simpa using h
    rw [hname]

end

end CodeInsight.Grammar
