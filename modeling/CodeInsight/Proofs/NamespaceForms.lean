import CodeInsight.Proofs.DeclarationTokens

/-!
# How namespaces are told apart

A namespace has its statements in braces, or it ends its head with a semicolon or a closing tag and
goes on from there. The model of a file does not take the form from the parse tree but looks at the
text: the first character behind the name that is not blank. That tells the form if nothing but
blanks stands before a brace or a semicolon. A comment there, or a closing tag in the place of the
semicolon, makes any namespace a braced one.

## Main Results

- `Extract.HeadOf`: the head of a namespace in the text
- `Extract.exists_headOf`: every namespace of a parsed program has one
- `Extract.namespaceModel_scan`: what the first character that is not blank tells
- `Extract.unbraced_iff_blank_gap`: when a namespace is taken for an unbraced one
-/

namespace CodeInsight.Extract

open Grammar Grammar.Parser

variable {program : List Stmt} {name : Option Name} {c : Char} {span : Span} {tail : Text}
  {m : NamespaceModel}

/-! ## Section 1: Heads in the text -/

/-- How the head of a namespace ends. -/
inductive HeadEnd where
  | brace
  | semicolon
  | closeTag
  deriving DecidableEq, Repr

def HeadEnd.text : HeadEnd → Text
  | brace => ['\x7b']
  | semicolon => [';']
  | closeTag => ['?', '>']

/-- The head of a namespace: the text up to its name, or up to its keyword if it has none, then
whitespace and comments, then the end of the head. -/
structure HeadOf (text : Text) (span : Span) (name : Option Name) (front gap : Text)
    (ending : HeadEnd) :
    Prop where
  split : ∃ rest, text = front ++ (gap ++ (ending.text ++ rest))
  trivia : Trivia gap
  named : ∀ n ∈ name, n.text ≠ "" ∧ ∃ u, front = u ++ n.text.toList ∧
    n.span = ⟨Text.size u, Text.size front⟩
  nameless : name = none → ∃ u word, front = u ++ word ∧ span.start = Text.size u ∧
    word.map Char.toLower = "namespace".toList

theorem size_of_namespace {word : Text} (h : word.map Char.toLower = "namespace".toList) :
    Text.size word = namespaceKeywordLength := by
  have hlower : ("namespace".toList.all Char.isLower) = true := by decide
  have hletters : ∀ c ∈ word, c.isAlpha = true := fun c hc =>
    Text.isAlpha_of_toLower (List.all_eq_true.mp hlower _ (h ▸ List.mem_map_of_mem hc))
  rw [Text.size_of_letters hletters, ← List.length_map Char.toLower, h]
  rfl

variable {ending : HeadEnd}

/-- The search for the end of the head begins behind the name, or behind the keyword. -/
theorem HeadOf.scanFrom {text : Text} {front gap : Text}
    (h : HeadOf text span name front gap ending) :
    (name.map fun n => n.span.stop).getD (span.start + namespaceKeywordLength) =
      Text.size front := by
  cases name with
  | none =>
    obtain ⟨u, word, rfl, hstart, hword⟩ := h.nameless rfl
    show span.start + namespaceKeywordLength = _
    rw [Text.size_append, size_of_namespace hword, hstart]
  | some n =>
    obtain ⟨-, u, -, hspan⟩ := h.named n rfl
    show n.span.stop = _
    rw [hspan]

theorem inCode_of_isPath {t : Token} (h : isPath t = true) : t.kind.inCode = true := by
  obtain ⟨kind, text, span⟩ := t
  cases kind <;> first | rfl | exact absurd h (by simp [isPath, Token.isWord])

section

variable {g : Recursion} {body : List Stmt} {rest : List Token} {braced : Bool} {b : Token}
    {B : List Token}

/-- The token that ends the head is spelled as the form of the namespace says. -/
theorem ending_of_bodyRead {place : Nat} {s : Text} (h : BodyRead g body rest braced b B)
    (hread : ReadAt b place s) :
    ∃ ending : HeadEnd, b.text.toList = ending.text ∧ (braced = true ↔ ending = .brace) := by
  have htable : (Symbol.spellings.all fun row =>
      decide ((row.2 = .leftBrace → row.1.toList = HeadEnd.brace.text) ∧
        (row.2 = .semicolon → row.1.toList = HeadEnd.semicolon.text))) = true := by decide +kernel
  have hspelled : ∀ {x : Symbol}, b.kind = .symbol x → (b.text, x) ∈ Symbol.spellings := by
    intro x hx
    rcases hread.mark (by rw [hx]; rfl) with ⟨hkind, -⟩ | ⟨y, hkind, hmem⟩
    · rw [hx] at hkind
      cases hkind
    · rw [hx] at hkind
      cases hkind
      exact hmem
  have hrow : ∀ {x : Symbol}, b.kind = .symbol x → _ := fun hx =>
    of_decide_eq_true (List.all_eq_true.mp htable _ (hspelled hx))
  rcases h.kind with ⟨rfl, hkind⟩ | ⟨rfl, hkind | hkind⟩
  · exact ⟨.brace, (hrow hkind).1 rfl, by decide⟩
  · exact ⟨.semicolon, (hrow hkind).2 rfl, by decide⟩
  · rcases hread.mark (by rw [hkind]; rfl) with ⟨-, htext⟩ | ⟨y, hsymbol, -⟩
    · exact ⟨.closeTag, by rw [htext]; rfl, by decide⟩
    · rw [hkind] at hsymbol
      cases hsymbol

end

/-- **Every namespace of a parsed program** has a head in the text. -/
theorem exists_headOf {text : Text} (h : parse text = .ok program) {braced : Bool}
    {body : List Stmt} (hs : OnSurface program (.namespaceDecl span name braced body)) :
    ∃ front gap ending, HeadOf text span name front gap ending ∧
      (braced = true ↔ ending = .brace) := by
  obtain ⟨A, ts, d, rest, hsplit, hread⟩ := exists_reading h hs
  have hspace := namespaceDecl_of_stmt (nested_recursion id (Nat.le_refl d)) hread
  obtain ⟨k, named, b, B, rfl, hkeyword, hstart, hname, hbody, -⟩ := namespaceDecl_tokens hspace
  have hkind : k.kind = .keyword .namespaceKw := by simpa [Token.isKeyword] using hkeyword
  have hb := hbody.inCode
  -- the head ends with the keyword or with the name behind it
  rcases hname with ⟨rfl, rfl⟩ | ⟨t, rfl, hpath, rfl⟩
  · obtain ⟨u, gap, s, htext, hk, hgap, hend⟩ := tokenize_adjacent hsplit (by rw [hkind]; rfl) hb
    obtain ⟨ending, hending, hform⟩ := ending_of_bodyRead hbody hend
    refine ⟨u ++ k.text.toList, gap, ending, ⟨⟨s, ?_⟩, hgap, fun n hn => ?_, fun _ => ?_⟩, hform⟩
    · rw [htext, hending, List.append_assoc]
    · cases hn
    · exact ⟨u, k.text.toList, rfl, by rw [hstart, hk.span], hk.namespace_spelling hkind⟩
  · have hsplit' : tokenize text = (A ++ [k]) ++ t :: b :: B := by simp [hsplit]
    obtain ⟨u, gap, s, htext, ht, hgap, hend⟩ :=
      tokenize_adjacent hsplit' (inCode_of_isPath hpath) hb
    obtain ⟨ending, hending, hform⟩ := ending_of_bodyRead hbody hend
    refine ⟨u ++ t.text.toList, gap, ending,
      ⟨⟨s, ?_⟩, hgap, fun n hn => ?_, fun hnone => ?_⟩, hform⟩
    · rw [htext, hending, List.append_assoc]
    · obtain rfl := Option.some.inj hn
      refine ⟨fun hempty => ht.text_ne_nil ?_, u, rfl, ?_⟩
      · exact String.toList_eq_nil_iff.mpr hempty
      · rw [Text.size_append]
        exact ht.span
    · cases hnone

/-! ## Section 2: The first character that is not blank -/

/-- **What the model tells** by the first character behind the name that is not blank. -/
theorem namespaceModel_scan {text : Text} {front gap : Text}
    (h : HeadOf text span name front gap ending) (body : List Stmt) {blanks : Text}
    (htext : text = front ++ (blanks ++ c :: tail)) (hblanks : ∀ d ∈ blanks, Text.isBlank d = true)
    (hc : Text.isBlank c = false) :
    (namespaceModel text span name body).braced = decide (c ≠ ';') ∧
      (namespaceModel text span name body).statement =
        ⟨span.start, Text.size front + Text.size blanks + if c = ';' then 1 else 0⟩ := by
  have hname : (name.filter fun n => n.text ≠ "") = name := by
    cases name with
    | none => rfl
    | some n => simp [Option.filter, (h.named n rfl).1]
  have hafter : Text.after text (Text.size front) = blanks ++ c :: tail :=
    by rw [htext, Text.after_size]
  have htake : (blanks ++ c :: tail).takeWhile Text.isBlank = blanks := by
    rw [List.takeWhile_append_of_pos hblanks, List.takeWhile_cons_of_neg (by simp [hc]),
      List.append_nil]
  have hdrop : (blanks ++ c :: tail).dropWhile Text.isBlank = c :: tail := by
    rw [List.dropWhile_append_of_pos hblanks, List.dropWhile_cons_of_neg (by simp [hc])]
  unfold namespaceModel
  simp only [hname, h.scanFrom, hafter, htake, hdrop]
  by_cases hsemicolon : c = ';'
  · subst hsemicolon
    exact ⟨rfl, rfl⟩
  · simp [hsemicolon]

theorem isBlank_of_lexeme (h : Lexeme.isBlank c = true) : Text.isBlank c = true := by
  simp only [Lexeme.isBlank, Text.isSpace, Bool.or_eq_true, beq_iff_eq] at h
  rcases h with ((((rfl | rfl) | rfl) | rfl) | rfl) | rfl <;> decide

/-- Whitespace and comments are blank, or the first character that is not begins a comment. -/
theorem first_visible {g : Text} (h : Trivia g) :
    (∀ c ∈ g, Text.isBlank c = true) ∨
      ∃ c tail, g.dropWhile Text.isBlank = c :: tail ∧ (c = '/' ∨ c = '#') := by
  induction h with
  | nil => exact .inl (List.forall_mem_nil _)
  | blank hc _ ih =>
    have hblank := isBlank_of_lexeme hc
    rcases ih with hall | ⟨d, tail, hdrop, hd⟩
    · exact .inl (List.forall_mem_cons.mpr ⟨hblank, hall⟩)
    · exact .inr ⟨d, tail, by rw [List.dropWhile_cons_of_pos hblank, hdrop], hd⟩
  | comment hc _ ih =>
    have hslash : Text.isBlank '/' = false := by decide
    have hhash : Text.isBlank '#' = false := by decide
    cases hc with
    | block hbody | slashes hbody =>
      exact .inr ⟨'/', _, List.dropWhile_cons_of_neg (by simp [hslash]), .inl rfl⟩
    | hash hbody hattribute =>
      exact .inr ⟨'#', _, List.dropWhile_cons_of_neg (by simp [hhash]), .inr rfl⟩

theorem HeadEnd.first (ending : HeadEnd) :
    ∃ e tail, ending.text = e :: tail ∧ Text.isBlank e = false ∧
      (e = ';' ↔ ending = .semicolon) := by
  cases ending
  · exact ⟨_, _, rfl, by decide, by decide⟩
  · exact ⟨_, _, rfl, by decide, by decide⟩
  · exact ⟨_, _, rfl, by decide, by decide⟩

section

variable {text : Text} {front gap : Text}

/-- Behind blanks the model sees how the head ends. -/
theorem namespaceModel_blank (h : HeadOf text span name front gap ending) (body : List Stmt)
    (hblank : ∀ c ∈ gap, Text.isBlank c = true) :
    (namespaceModel text span name body).braced = decide (ending ≠ .semicolon) ∧
      (namespaceModel text span name body).statement =
        ⟨span.start, Text.size front + Text.size gap + if ending = .semicolon then 1 else 0⟩ := by
  obtain ⟨rest, htext⟩ := h.split
  obtain ⟨e, tail, hending, hvisible, hsemicolon⟩ := ending.first
  rw [hending, List.cons_append] at htext
  have hscan := namespaceModel_scan h body htext hblank hvisible
  simpa only [ne_eq, hsemicolon] using hscan

/-- A comment in the gap is taken for the beginning of a body. -/
theorem namespaceModel_comment (h : HeadOf text span name front gap ending) (body : List Stmt)
    (hdrop : gap.dropWhile Text.isBlank = c :: tail) (hc : c = '/' ∨ c = '#') :
    (namespaceModel text span name body).braced = true ∧
      (namespaceModel text span name body).statement =
        ⟨span.start, Text.size front + Text.size (gap.takeWhile Text.isBlank)⟩ := by
  obtain ⟨rest, htext⟩ := h.split
  rw [← List.takeWhile_append_dropWhile (p := Text.isBlank) (l := gap), hdrop, List.append_assoc,
    List.cons_append] at htext
  have hvisible : Text.isBlank c = false := by rcases hc with rfl | rfl <;> decide
  have hsemicolon : c ≠ ';' := by rcases hc with rfl | rfl <;> decide
  have hscan := namespaceModel_scan h body htext (fun _ hd => List.mem_takeWhile_imp hd) hvisible
  simpa [hsemicolon] using hscan

theorem not_blank_of_dropWhile (hdrop : gap.dropWhile Text.isBlank = c :: tail) :
    ¬ ∀ d ∈ gap, Text.isBlank d = true := by
  intro hall
  rw [List.dropWhile_eq_nil_iff.mpr hall] at hdrop
  cases hdrop

/-- The model is unbraced just when the head ends in a semicolon with only blanks before it. -/
theorem namespaceModel_braced_iff (h : HeadOf text span name front gap ending) (body : List Stmt) :
    (namespaceModel text span name body).braced = false ↔
      ending = .semicolon ∧ ∀ c ∈ gap, Text.isBlank c = true := by
  rcases first_visible h.trivia with hblank | ⟨c, tail, hdrop, hc⟩
  · rw [(namespaceModel_blank h body hblank).1, decide_eq_false_iff_not, not_not,
      and_iff_left hblank]
  · rw [(namespaceModel_comment h body hdrop hc).1]
    exact iff_of_false Bool.noConfusion fun hboth => not_blank_of_dropWhile hdrop hboth.2

end

/-! ## Section 3: Namespaces of programs -/

theorem mem_namespacesIn_iff {text : Text} :
    m ∈ namespacesIn text program ↔ ∃ s ∈ program, m ∈ namespaces text s := by
  induction program with
  | nil => simp [namespacesIn]
  | cons s rest ih => simp [namespacesIn, ih]

/-- Every namespace on the surface of a program is modelled. -/
theorem OnSurface.mem_namespacesIn {s : Stmt} (hs : OnSurface program s) (text : Text)
    (hm : m ∈ namespaces text s) : m ∈ namespacesIn text program := by
  induction hs generalizing m with
  | top hs => exact mem_namespacesIn_iff.mpr ⟨_, hs, hm⟩
  | inside _ hs ih => exact ih (List.mem_cons_of_mem _ (mem_namespacesIn_iff.mpr ⟨_, hs, hm⟩))

/-- **When a namespace is taken for an unbraced one.** It has to end its head with a semicolon, and
nothing but blanks may stand before that; then its statement ends just past the semicolon. In all
other cases it is taken for a braced one, and its statement ends at the first character that is not
blank. -/
theorem unbraced_iff_blank_gap {text : Text} {program : List Stmt} (h : parse text = .ok program)
    (path : String) {span : Span} {name : Option Name} {braced : Bool} {body : List Stmt}
    (hs : OnSurface program (.namespaceDecl span name braced body)) :
    namespaceModel text span name body ∈ (FileModel.ofProgram path text program).namespaces ∧
      ∃ front gap ending, HeadOf text span name front gap ending ∧
        (braced = true ↔ ending = .brace) ∧ ((namespaceModel text span name body).braced = false ↔
          ending = .semicolon ∧ ∀ c ∈ gap, Text.isBlank c = true) ∧
        ((namespaceModel text span name body).braced = false →
          (namespaceModel text span name body).statement =
            ⟨span.start, Text.size front + Text.size gap + 1⟩) ∧
        ((namespaceModel text span name body).braced = true →
          (namespaceModel text span name body).statement =
            ⟨span.start, Text.size front + Text.size (gap.takeWhile Text.isBlank)⟩) := by
  refine ⟨hs.mem_namespacesIn text List.mem_cons_self, ?_⟩
  obtain ⟨front, gap, ending, hhead, hform⟩ := exists_headOf h hs
  refine ⟨front, gap, ending, hhead, hform, namespaceModel_braced_iff hhead body, ?_, ?_⟩
  · intro hunbraced
    obtain ⟨hsemicolon, hblank⟩ := (namespaceModel_braced_iff hhead body).mp hunbraced
    rw [(namespaceModel_blank hhead body hblank).2, if_pos hsemicolon]
  · intro hbraced
    rcases first_visible hhead.trivia with hblank | ⟨c, tail, hdrop, hc⟩
    · have hform := namespaceModel_blank hhead body hblank
      have hsemicolon : ending ≠ .semicolon := of_decide_eq_true (hform.1 ▸ hbraced)
      rw [hform.2, if_neg hsemicolon, List.takeWhile_eq_self_iff.mpr hblank, Nat.add_zero]
    · exact (namespaceModel_comment hhead body hdrop hc).2

/-- The statement is a namespace, in the tree and in the model of some kind. -/
def declaresNamespace (text : Text) (test : Bool → NamespaceModel → Bool) : Stmt → Bool
  | .namespaceDecl span name braced body => test braced (namespaceModel text span name body)
  | _ => false

theorem exists_namespace_of_any {text : Text} {test : Bool → NamespaceModel → Bool}
    (h : program.any (declaresNamespace text test) = true) :
    ∃ span name braced body, OnSurface program (.namespaceDecl span name braced body) ∧
      test braced (namespaceModel text span name body) = true := by
  obtain ⟨s, hs, htest⟩ := List.any_eq_true.mp h
  cases s with
  | namespaceDecl span name braced body => exact ⟨span, name, braced, body, .top hs, htest⟩
  | _ => cases htest

/-- A line break stands between the name and the semicolon. -/
def blankGapText : Text := "<?php\nnamespace A \n;\nclass C \x7b\x7d".toList

def blankGapProgram : List Stmt := (parse blankGapText).toOption.getD []

theorem semicolon_behind_blanks :
    parse blankGapText = .ok blankGapProgram ∧ ∃ span name body,
      OnSurface blankGapProgram (.namespaceDecl span name false body) ∧
      (namespaceModel blankGapText span name body).braced = false ∧
      ∃ front gap, HeadOf blankGapText span name front gap .semicolon ∧
        Text.size front + Text.size gap = 19 := by
  obtain ⟨hsome, hany⟩ : (parse blankGapText).toOption.isSome = true ∧
      blankGapProgram.any (declaresNamespace blankGapText fun braced m =>
        decide (braced = false ∧ m.braced = false ∧ m.statement = ⟨6, 20⟩)) = true := by
    decide +kernel
  have hparse : parse blankGapText = .ok blankGapProgram := parse_eq_ok_of_isSome hsome
  obtain ⟨span, name, braced, body, hs, htest⟩ := exists_namespace_of_any hany
  obtain ⟨rfl, hbraced, hstatement⟩ := of_decide_eq_true htest
  obtain ⟨-, front, gap, ending, hhead, -, hform, hunbraced, -⟩ :=
    unbraced_iff_blank_gap hparse "" hs
  obtain ⟨rfl, -⟩ := hform.mp hbraced
  refine ⟨hparse, span, name, body, hs, hbraced, front, gap, hhead, ?_⟩
  have hstop := congrArg Span.stop (hstatement.symm.trans (hunbraced hbraced))
  exact (Nat.succ.inj hstop).symm

/-- A comment stands between the name and the semicolon. -/
def commentGapText : Text := "<?php\nnamespace A /* c */;\nclass C \x7b\x7d\n".toList

def commentGapProgram : List Stmt := (parse commentGapText).toOption.getD []

/-- The namespace has no braces, but the comment is taken for the beginning of its body. -/
theorem comment_taken_for_body :
    parse commentGapText = .ok commentGapProgram ∧ ∃ span name body,
      OnSurface commentGapProgram (.namespaceDecl span name false body) ∧
      (namespaceModel commentGapText span name body).braced = true ∧
      (namespaceModel commentGapText span name body).statement = ⟨6, 18⟩ := by
  obtain ⟨hsome, hany⟩ : (parse commentGapText).toOption.isSome = true ∧
      commentGapProgram.any (declaresNamespace commentGapText fun braced m =>
        decide (braced = false ∧ m.braced = true ∧ m.statement = ⟨6, 18⟩)) = true := by
    decide +kernel
  obtain ⟨span, name, braced, body, hs, htest⟩ := exists_namespace_of_any hany
  obtain ⟨rfl, hbraced, hstatement⟩ := of_decide_eq_true htest
  exact ⟨parse_eq_ok_of_isSome hsome, span, name, body, hs, hbraced, hstatement⟩

end CodeInsight.Extract
