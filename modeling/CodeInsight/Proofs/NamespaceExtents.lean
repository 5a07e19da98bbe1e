import CodeInsight.Proofs.NamespaceForms

/-!
# How far namespaces extend

The statements of a namespace without braces go on to the next namespace or to the end of the file.
So behind such a namespace another one begins, or no class is declared there. This follows from the
way in which statements are read: the parser of the namespace stops at the keyword of the next one,
and whoever has called it goes on from there.

## Main Results

- `Grammar.followed_unbraced`: what follows an unbraced namespace among the statements that are read
- `Extract.LaidOut`: namespaces and classes in their places
- `Extract.laidOut_of_parse`: every parsed program is laid out in that way
-/

namespace CodeInsight

variable {braced : Bool} {s : Stmt} {program : List Stmt} {text : Text} {name : Option Name}
  {body : List Stmt} {g : Recursion} {t : Token}

namespace Grammar

open Outline CodeInsight.Grammar.Parser

/-! ## Section 1: Places of tokens -/

theorem Along.behind {place stop : Nat} {A B : List Token} (h : Along place (A ++ t :: B) stop) :
    place ≤ t.span.start ∧ t.span.start ≤ t.span.stop ∧ Along t.span.stop B stop := by
  induction A generalizing place with
  | nil => exact h
  | cons a A ih =>
    obtain ⟨hle, hbehind⟩ := ih h.2.2
    exact ⟨Nat.le_trans h.1 (Nat.le_trans h.2.1 hle), hbehind⟩

theorem tokenize_solid {A B : List Token} (h : tokenize text = A ++ t :: B)
    (ht : t.kind.inCode = true) : t.span.start < t.span.stop := by
  obtain ⟨_, _, _, _, _, -, -, hread, -⟩ := tokenize_found h ht
  exact hread.solid

/-! ## Section 2: What follows a namespace -/

/-- The next token begins a namespace, or there is none. -/
def AtBreak (ts : List Token) : Prop := ts.head?.all (·.isKeyword .namespaceKw) = true

theorem atBreak_eq (ts : List Token) :
    (do return (← atEnd) || (← atKeyword .namespaceKw) : Parser Bool) ts =
      .ok (ts.head?.all (·.isKeyword .namespaceKw), ts) := by
  cases ts <;> rfl

section

variable {ts rest : List Token} {span : Span}

/-- A namespace without braces is read up to the next one. -/
theorem atBreak_of_unbraced (hg : Nested id g g)
    (h : stmt g ts = .ok (.namespaceDecl span name false body, rest)) : AtBreak rest := by
  obtain ⟨_, _, _, _, -, -, -, -, hbody, -⟩ := namespaceDecl_tokens (namespaceDecl_of_stmt hg h)
  cases hbody with
  | unbraced _ hread =>
    have hend := (rounds_of_manyRounds (looks_endsNamespace (f := id)).peeks hread).stop
    rw [atBreak_eq] at hend
    exact (Prod.mk.inj (Except.ok.inj hend)).1

/-- What is read there is a namespace. -/
theorem namespaceDecl_of_atBreak (h : stmt g ts = .ok (s, rest)) (hbreak : AtBreak ts) :
    ∃ span name braced body, s = .namespaceDecl span name braced body := by
  cases ts with
  | nil => cases h
  | cons t others =>
    rw [stmt_eq_namespaceDecl hbreak] at h
    exact yields_namespaceDecl _ _ _ h

/-- Namespaces are read nowhere else. -/
theorem atBreak_of_namespaceDecl (hg : Nested id g g)
    (h : stmt g ts = .ok (.namespaceDecl span name braced body, rest)) : AtBreak ts := by
  obtain ⟨k, _, _, _, rfl, hkeyword, -⟩ := namespaceDecl_tokens (namespaceDecl_of_stmt hg h)
  exact hkeyword

/-- **What follows an unbraced namespace** among statements that are read: another namespace, or the
end of the statements. -/
theorem followed_unbraced {ends : Parser Bool} {d n : Nat} {all : List Stmt} (hends : Peeks ends)
    (h : manyRounds ends (recursion d).stmt n ts = .ok (all, rest))
    (hs : .namespaceDecl span name false body ∈ all) :
    ∃ front behind, all = front ++ .namespaceDecl span name false body :: behind ∧
      (behind = [] ∧ AtBreak rest ∨
        ∃ span' name' braced' body' more, behind = .namespaceDecl span' name' braced'
          body' :: more) := by
  obtain ⟨front, behind, ts₁, ts₂, hall, hread, hfollow⟩ := (rounds_of_manyRounds hends h).follow hs
  cases d with
  | zero => cases hread
  | succ d =>
    have hbreak := atBreak_of_unbraced (nested_recursion id (Nat.le_refl d)) hread
    refine ⟨front, behind, hall, ?_⟩
    rcases hfollow with ⟨hnil, rfl⟩ | ⟨s, more, _, rfl, hnext⟩
    · exact .inl ⟨hnil, hbreak⟩
    · obtain ⟨span', name', braced', body', rfl⟩ := namespaceDecl_of_atBreak hnext hbreak
      exact .inr ⟨span', name', braced', body', more, rfl⟩

end

/-! ## Section 3: Ranges of declarations -/

theorem advances_namespaceBody_stop (hg : Nested id g g) {place start : Nat} (name : Option Name) :
    Advances place (namespaceBody g start name) fun t _ => place ≤ t.span.stop := by
  refine (peeks_atSymbol _).bind fun _ => .ite ?_ ?_
  · exact (parses_block hg _).advances.bind fun _ _ hblock =>
      .pure (Nat.le_trans hblock.1.1 hblock.1.2.1)
  · refine (parses_terminator (f := id)).advances.bind fun stop _ hstop => ?_
    refine (parses_untilNamespace hg _).advances.bind fun body _ hbody => .pure ?_
    exact Nat.le_trans hstop.1 (lies_stopOf (hbody.earlier hstop.2)).1.le

/-- A namespace ends behind its keyword. -/
theorem namespaceDecl_stop (hg : Nested id g g) {k : Token} {ts rest : List Token} {stop : Nat}
    (h : namespaceDecl g (k :: ts) = .ok (s, rest)) (hts : Along k.span.stop ts stop) :
    k.span.stop ≤ s.span.stop := by
  obtain ⟨mark, ts₁, hmark, hbody⟩ := bind_eq_ok.mp h
  obtain ⟨hsplit, -⟩ := token_eq_ok.mp hmark
  obtain ⟨rfl, rfl⟩ := List.cons.inj hsplit
  have hstop : Advances k.span.stop (do
      if (← atTerminator) || (← atSymbol .leftBrace) then namespaceBody g k.span.start none
      else namespaceBody g k.span.start (some (← qualifiedName))) fun s _ =>
          k.span.stop ≤ s.span.stop := by
    refine (peeks_nextIs _).bind fun _ => (peeks_atSymbol _).bind fun _ => .ite ?_ ?_
    · exact advances_namespaceBody_stop hg _
    · refine ((reads_qualifiedName (f := id)).forward _).bind fun _ _ hle => ?_
      exact (advances_namespaceBody_stop hg _).mono fun _ _ hs => Nat.le_trans hle hs
  obtain ⟨-, -, hle⟩ := hstop _ _ _ _ hts hbody
  exact hle

end Grammar

namespace Extract

open Grammar Outline CodeInsight.Grammar.Parser

section

variable {span : Span}

theorem namespace_filled (h : parse text = .ok program)
    (hs : OnSurface program (.namespaceDecl span name braced body)) : span.start < span.stop := by
  obtain ⟨A, ts, d, rest, hsplit, hread⟩ := exists_reading h hs
  have hspace := namespaceDecl_of_stmt (nested_recursion id (Nat.le_refl d)) hread
  obtain ⟨k, named, b, B, rfl, hkeyword, hstart, -⟩ := namespaceDecl_tokens hspace
  have hkind : k.kind = .keyword .namespaceKw := by simpa [Token.isKeyword] using hkeyword
  have hsolid := tokenize_solid hsplit (by rw [hkind]; rfl)
  have hstop := namespaceDecl_stop (nested_recursion id (Nat.le_refl d)) hspace
    (hsplit ▸ along_tokenize text).behind.2.2
  rw [hstart]
  exact Nat.lt_of_lt_of_le hsolid hstop

/-- The name of a class stands between the keyword and the braces. -/
theorem class_named (h : parse text = .ok program) {head : ClassHead} {all : List Member}
    (hs : OnSurface program (.classLike span head all)) :
    span.start < head.name.span.start ∧ head.name.span.stop < span.stop := by
  obtain ⟨A, ts, d, rest, hsplit, hread⟩ := exists_reading h hs
  obtain ⟨first, w, ts', form, modifiers, hfirst, rfl, hclass, -⟩ :=
    classDecl_of_stmt (nested_recursion id (Nat.le_refl d)) hread
  obtain ⟨k, t, u, opening, inner, closing, rfl, hkeyword, hname, hbrace, rfl⟩ :=
    classDecl_tokens (nested_recursion id (Nat.le_refl d)) hclass
  have hk : k.kind.inCode = true := by
    rw [show k.kind = .keyword (formKeyword form) by simpa [Token.isKeyword] using hkeyword]
    rfl
  have hopening : opening.kind.inCode = true := by
    rw [show opening.kind = .symbol .leftBrace by simpa [Token.isSymbol] using hbrace]
    rfl
  have hplace :
      tokenize text = (A ++ w) ++ k :: t :: (u ++ opening :: (inner ++ closing :: rest)) := by
    rw [hsplit, List.append_assoc]
  have hplace' : tokenize text = (A ++ w ++ k :: t :: u) ++
      opening :: (inner ++ closing :: rest) := by
    simp [hplace]
  have hsolid := tokenize_solid hplace hk
  have hsolid' := tokenize_solid hplace' hopening
  -- from the first token on, one stands behind the other
  have hstart : first.span.start ≤ k.span.start := by
    cases w with
    | nil =>
      obtain rfl := Option.some.inj hfirst
      exact Nat.le_refl _
    | cons _ w =>
      obtain rfl := Option.some.inj hfirst
      obtain ⟨-, hupright, hothers⟩ := (hsplit ▸ along_tokenize text).behind
      exact Nat.le_trans hupright hothers.behind.1
  obtain ⟨-, -, ht, -, hinside⟩ := (hplace ▸ along_tokenize text).behind
  obtain ⟨hlow, -, hmembers⟩ := hinside.behind
  obtain ⟨hinner, hclosing, -⟩ := hmembers.behind
  rw [hname]
  show first.span.start < t.span.start ∧ t.span.stop < closing.span.stop
  omega

end

/-! ## Section 4: Layouts -/

theorem OnSurface.cons (hs : OnSurface program s) (first : Stmt) :
    OnSurface (first :: program) s := by
  induction hs with
  | top hs => exact .top (List.mem_cons_of_mem _ hs)
  | inside _ hs ih => exact ih.inside hs

theorem OnSurface.trans {span : Span} (h : OnSurface program (.namespaceDecl span name braced body))
    (hs : OnSurface body s) : OnSurface program s := by
  induction hs with
  | top hs => exact h.inside hs
  | inside _ hs ih => exact ih.inside hs

/-- Every namespace that is modelled is on the surface of the program. -/
theorem exists_of_mem_namespacesIn {m : NamespaceModel} : ∀ {program : List Stmt},
    m ∈ namespacesIn text program → ∃ span name braced body,
      OnSurface program (.namespaceDecl span name braced body) ∧
        namespaceModel text span name body = m
  | [], hm => absurd hm List.not_mem_nil
  | s :: rest, hm => by
    rcases List.mem_append.mp (show m ∈ namespaces text s ++ namespacesIn text rest from hm) with
      hm | hm
    · cases s with
      | namespaceDecl span name braced body =>
        have hspace : OnSurface (.namespaceDecl span name braced body :: rest)
            (.namespaceDecl span name braced body) := .top List.mem_cons_self
        rcases List.mem_cons.mp hm with rfl | hm
        · exact ⟨span, name, braced, body, hspace, rfl⟩
        · obtain ⟨span, name, braced, body, hs, rfl⟩ := exists_of_mem_namespacesIn hm
          exact ⟨span, name, braced, body, hspace.trans hs, rfl⟩
      | _ => exact absurd hm List.not_mem_nil
    · obtain ⟨span, name, braced, body, hs, rfl⟩ := exists_of_mem_namespacesIn hm
      exact ⟨span, name, braced, body, hs.cons s, rfl⟩

/-- **Namespaces and classes in their places.** The ranges are nested, the name of a class stands
within its declaration, and behind an unbraced namespace another one begins or no class is
declared. -/
structure LaidOut (text : Text) (program : List Stmt) : Prop where
  nested : ∃ range, (ofStmts program done).nestedIn range = true
  filled : ∀ {span name braced body}, OnSurface program (.namespaceDecl span name braced body) →
    span.start < span.stop
  named : ∀ {span head all}, OnSurface program (.classLike span head all) →
    span.start < head.name.span.start ∧ head.name.span.stop < span.stop
  onward : ∀ m ∈ namespacesIn text program, m.braced = false →
    (∃ n ∈ namespacesIn text program, m.span.stop ≤ n.span.start) ∨
      ∀ {span head all}, OnSurface program (.classLike span head all) → span.stop ≤ m.span.stop

section

variable {span : Span}

theorem apart_of_lies {front more : List Stmt} {t : Stmt} {a b : Nat}
    (h : Lies (ofStmts (front ++ s :: t :: more)) a b) : s.span.stop ≤ t.span.start := by
  obtain ⟨_, -, hboth⟩ := h.stmts_split
  exact hboth.stmts_cons.2.stmts_cons.1.stmt_fits.1

/-- Behind an unbraced namespace of a program another one follows, or it is the last statement. -/
theorem unbraced_followed (h : parse text = .ok program)
    (hs : OnSurface program (.namespaceDecl span name false body)) :
    (∃ front, program = front ++ [.namespaceDecl span name false body]) ∨
      ∃ span' name' braced' body', OnSurface program (.namespaceDecl span' name' braced' body') ∧
        span.stop ≤ span'.start := by
  have hnested := nestedIn_of_parse h
  cases hs with
  | top hs =>
    obtain ⟨rest, hread⟩ := parseTokens_eq_ok (parse_eq_ok.mp h)
    obtain ⟨front, behind, rfl, ⟨rfl, -⟩ | ⟨span', name', braced', body', more, rfl⟩⟩ :=
      followed_unbraced peeks_atEnd hread hs
    · exact .inl ⟨front, rfl⟩
    · refine .inr ⟨span', name', braced', body', .top (by simp), ?_⟩
      exact apart_of_lies (lies_of_nestedIn_stmts hnested)
  | @inside around _ _ all _ hspace hs =>
    obtain ⟨A, ts, d, rest, -, hstmt⟩ := exists_reading h hspace
    have hdecl := namespaceDecl_of_stmt (nested_recursion id (Nat.le_refl d)) hstmt
    obtain ⟨k, named, b, B, -, -, -, -, hbody, -⟩ := namespaceDecl_tokens hdecl
    cases hbody with
    | @braced _ last _ _ hlast hread =>
      obtain ⟨front, behind, rfl, ⟨-, hbreak⟩ | ⟨span', name', braced', body', more, rfl⟩⟩ :=
        followed_unbraced (peeks_atSymbol _) hread hs
      · -- braces do not close where a namespace begins
        have hsymbol : last.kind = .symbol .rightBrace := by simpa [Token.isSymbol] using hlast
        have hkeyword : last.kind = .keyword .namespaceKw :=
          by simpa [AtBreak, Token.isKeyword] using hbreak
        cases hsymbol.symm.trans hkeyword
      · refine .inr ⟨span', name', braced', body', hspace.inside (by simp), ?_⟩
        exact apart_of_lies (lies_of_nestedIn_stmts (lies_node_iff.mp (hspace.lies hnested)).2.1)
    | unbraced hb hread =>
      -- without braces there is no namespace within a namespace
      have hfront := (nested_recursion id (Nat.le_refl d)).reads.stmt.takesFront
      have hrounds := rounds_of_manyRounds (looks_endsNamespace (f := id)).peeks hread
      obtain ⟨_, ts₁, ts₂, -, hended, hitem⟩ := hrounds.mem hfront hs
      cases d with
      | zero => cases hitem
      | succ d =>
        have hbreak := atBreak_of_namespaceDecl (nested_recursion id (Nat.le_refl d)) hitem
        rw [atBreak_eq, show ts₁.head?.all _ = true from hbreak] at hended
        cases hended

theorem unbraced_of_model (h : parse text = .ok program)
    (hs : OnSurface program (.namespaceDecl span name braced body))
    (hmodel : (namespaceModel text span name body).braced = false) : braced = false := by
  obtain ⟨front, gap, ending, hhead, hform⟩ := exists_headOf h hs
  obtain ⟨rfl, -⟩ := (namespaceModel_braced_iff hhead body).mp hmodel
  simpa using hform

end

/-- **Every parsed program is laid out** in its text. -/
theorem laidOut_of_parse (h : parse text = .ok program) : LaidOut text program where
  nested := ⟨_, nestedIn_of_parse h⟩
  filled := namespace_filled h
  named := class_named h
  onward := by
    intro m hm hbraced
    obtain ⟨span, name, braced, body, hs, rfl⟩ := exists_of_mem_namespacesIn hm
    obtain rfl := unbraced_of_model h hs hbraced
    rcases unbraced_followed h hs with ⟨front, hlast⟩ | ⟨span', name', braced', body', hs', hle⟩
    · -- the last statement ends where the program does
      right
      intro span' head all hclass
      have hlies := (lies_stopOf (lies_of_nestedIn_stmts (nestedIn_of_parse h))).1
      have hstop : stopOf program 0 = span.stop := by simp [stopOf, hlast, Stmt.span]
      rw [hstop] at hlies
      exact (hclass.lies hlies.nestedIn).stmt_fits.2.2
    · exact .inl ⟨_, hs'.mem_namespacesIn text List.mem_cons_self, hle⟩

end Extract

end CodeInsight
