import CodeInsight.Proofs.NestedStatements
import CodeInsight.Proofs.DeclaredNames

/-!
# The name in a declaration

A class or a namespace is declared by a keyword and the name behind it. With another name there, the
tokens of a program are read as the same program with another name in that declaration. The offsets
in front of the name and those behind it may change in different ways.

## Main Results

- `Grammar.Parser.namespaceDecl_tokens`: the tokens of a namespace
- `Grammar.Parser.renamable_classDecl`, `Grammar.Parser.renamable_namespaceDecl`: a declaration with
  another name
- `Grammar.Parser.renamable_inside`: a namespace with another name within it
- `Grammar.Parser.declares_stmt`: which parser reads a declaration
- `Grammar.Parser.renamable_class`, `Grammar.Parser.renamable_namespace`: statements
-/

namespace CodeInsight.Grammar

open CodeInsight.Grammar.Parser

variable {span : Span} {name : Option Name} {braced : Bool} {all : List Member} {form : ClassForm}
  {head : ClassHead} {body : List Stmt} {rest ts : List Token} {s : Stmt} {b : Token} {c : Prop}
  {modifiers : List Modifier} {name' : Option Name} {B : List Token} {t : Token} {k : Keyword}
  {α : Type} {j : Nat}

/-! ## Section 1: Another token for a name -/

/-- A keyword that declares what is named after it, and tokens that may follow the name. -/
structure Declaring (k : Token) (u : List Token) : Prop where
  keyword : ∃ keyword : Keyword, k.kind = .keyword keyword ∧ keyword.declares = true
  follows : ∃ b B, u = b :: B ∧ b.kind.follows = true

/-- Where `p` reads `x`, one of the tokens is the declared name `n`. With another token there, `q`
reads `x'` of the other name from the tokens, those in front being moved by `f` and those behind
by `h`. -/
def Renamable (f h : Nat → Nat) (n : Name) (allows : Token → Bool) {α : Type}
    (p q : Parser α) (x : α) (x' : Name → α) : Prop :=
  ∀ ts rest, p ts = .ok (x, rest) →
    ∃ A k t u, ts = A ++ k :: t :: (u ++ rest) ∧ Declaring k u ∧ nameOf t = n ∧ allows t = true ∧
      ∀ t' v, allows t' = true → t'.kind.unqualified = t.kind.unqualified → Alike rest v →
        q (move f A ++ move f k :: t' :: (move h u ++ v)) = .ok (x' (nameOf t'), v)

/-- A span that begins in front of a name and ends behind it. -/
def across (f h : Nat → Nat) (s : Span) : Span := ⟨f s.start, h s.stop⟩

section

variable {f h : Nat → Nat} {n : Name} {allows : Token → Bool} {β : Type} {x' : Name → α} {x : α}

/-- Tokens with another name among them begin alike. -/
theorem alike_exchange {A u v : List Token} {k t' : Token} (f h : Nat → Nat)
    (ht : t'.kind.unqualified = t.kind.unqualified) (hv : Alike rest v) :
    Alike (A ++ k :: t :: (u ++ rest)) (move f A ++ move f k :: t' :: (move h u ++ v)) := by
  have hcons : ∀ (t : Token) ts, kinds (t :: ts) = t.kind.unqualified :: kinds ts := fun _ _ => rfl
  constructor
  · cases A <;> rfl
  · have hshort : kinds (A ++ k :: t :: u) = kinds (move f A ++ move f k :: t' :: move h u) := by
      simp only [kinds_append, kinds_move, hcons, kind_move, ht]
    have hleft : A ++ k :: t :: (u ++ rest) = (A ++ k :: t :: u) ++ rest := by simp
    have hright : move f A ++ move f k :: t' :: (move h u ++ v) =
        (move f A ++ move f k :: t' :: move h u) ++ v := by simp
    rw [hleft, hright, kinds_append _ rest, kinds_append _ v, hshort, List.take_append,
      List.take_append, hv.take (Nat.sub_le _ _)]

/-- A parser before the name is the same on both sides. -/
theorem Renamable.bind [Placed β] {p p' : Parser β} {q q' : β → Parser α} (hp : Reads f j p p')
    (hq : ∀ y, Renamable f h n allows (q y) (q' (move f y)) x x') :
    Renamable f h n allows (p >>= q) (p' >>= q') x x' := by
  intro ts rest hts
  obtain ⟨y, mid, hy, hx⟩ := bind_eq_ok.mp hts
  obtain ⟨w, rfl, -, hw⟩ := hp _ ts y mid (Nat.le_refl _) hy
  obtain ⟨A, k, t, u, rfl, hdeclaring, hname, hallows, hA⟩ := hq y mid rest hx
  refine ⟨w ++ A, k, t, u, by simp, hdeclaring, hname, hallows, fun t' v ht' hkind hv => ?_⟩
  rw [move_append, List.append_assoc]
  exact bind_eq_ok.mpr
    ⟨move f y, _, hw _ _ (alike_exchange f h hkind hv) (Nat.le_refl _), hA t' v ht' hkind hv⟩

/-- The name is declared in what comes first. -/
theorem Renamable.andThen {p p' : Parser β} {q q' : β → Parser α}
    (hq : ∀ y mid rest, q y mid = .ok (x, rest) → ∃ y' : Name → β,
      Renamable f h n allows p p' y y' ∧ ∃ w, mid = w ++ rest ∧
        ∀ n' v, Alike rest v → q' (y' n') (move h w ++ v) = .ok (x' n', v)) :
    Renamable f h n allows (p >>= q) (p' >>= q') x x' := by
  intro ts rest hts
  obtain ⟨y, mid, hy, hx⟩ := bind_eq_ok.mp hts
  obtain ⟨y', hp, w, rfl, hw⟩ := hq y mid rest hx
  obtain ⟨A, k, t, u, rfl, hdeclaring, hname, hallows, hA⟩ := hp ts _ hy
  obtain ⟨b, B, rfl, hb⟩ := hdeclaring.follows
  refine ⟨A, k, t, b :: B ++ w, by simp, ⟨hdeclaring.keyword, b, B ++ w, rfl, hb⟩, hname, hallows,
    fun t' v ht' hkind hv => ?_⟩
  have hfirst := hA t' (move h w ++ v) ht' hkind (hv.prepend h w)
  rw [move_append, List.append_assoc]
  exact bind_eq_ok.mpr ⟨y' (nameOf t'), _, hfirst, hw _ v hv⟩

/-- Either way, as long as the test has the same outcome for both. -/
theorem Renamable.ite [Decidable c] {p p' q q' : Parser α}
    (hp : c → Renamable f h n allows p p' x x') (hq : ¬ c → Renamable f h n allows q q' x x') :
    Renamable f h n allows (if c then p else q) (if c then p' else q') x x' := by
  split
  next hc => exact hp hc
  next hc => exact hq hc

end

/-! ## Section 2: Statements that declare nothing -/

/-- The statement declares a class or a namespace. -/
def Stmt.isDeclaration : Stmt → Bool
  | .classLike _ _ _ | .namespaceDecl _ _ _ _ => true
  | _ => false

/-- Whatever the parser reads satisfies a condition. -/
def Yields {α : Type} (P : α → Prop) (p : Parser α) : Prop :=
  ∀ ts x rest, p ts = .ok (x, rest) → P x

section

variable {β : Type} {P : α → Prop} {p : Parser β}

/-- What is yielded is yielded by the last parser. -/
theorem Yields.bind {q : β → Parser α} (h : ∀ y, Yields P (q y)) : Yields P (p >>= q) := by
  intro ts x rest hx
  obtain ⟨y, mid, -, hq⟩ := bind_eq_ok.mp hx
  exact h y mid x rest hq

theorem Yields.pure {x : α} (h : P x) : Yields P (Pure.pure x) := by
  intro ts y rest hy
  obtain ⟨rfl, -⟩ := pure_eq_ok.mp hy
  exact h

theorem Yields.ite [Decidable c] {p q : Parser α} (hp : Yields P p) (hq : Yields P q) :
    Yields P (if c then p else q) := by
  split
  · exact hp
  · exact hq

theorem Yields.map {g : β → α} (h : ∀ y, P (g y)) : Yields P (g <$> p) := by
  rw [map_eq_pure_bind]
  exact .bind fun y => .pure (h y)

end

/-- The parser reads no declaration. -/
abbrev Plain (p : Parser Stmt) : Prop := Yields (fun s => s.isDeclaration = false) p

namespace Parser

variable {g : Recursion} {start : Nat}

theorem plain_declaration : Plain (declaration g) :=
  .bind fun _ => .bind fun _ => .bind fun _ => .pure rfl

theorem plain_importDecl : Plain importDecl := by
  refine .bind fun _ => .bind fun _ => .bind fun _ => .ite ?_ ?_
  · exact .bind fun _ => .bind fun _ => .bind fun _ => .bind fun _ => .pure rfl
  · exact .bind fun _ => .bind fun _ => .pure rfl

theorem plain_constantDecl (start : Nat) : Plain (constantDecl g start) :=
  .bind fun _ => .bind fun _ => .bind fun _ => .pure rfl

/-- A function is no class and no namespace, whether it has a name or not. -/
theorem plain_functionOrClosure (start : Nat) :
    Plain (do if ← atClosure then functionStmt g start else functionDecl g start) := by
  refine .bind fun _ => .ite (.bind fun _ => .bind fun _ => .pure rfl) ?_
  exact .bind fun _ => .bind fun _ => .bind fun _ => .bind fun _ => .bind fun _ =>
    .bind fun _ => .pure rfl

theorem plain_functionStmt (start : Nat) : Plain (functionStmt g start) :=
  .bind fun _ => .bind fun _ => .pure rfl

theorem plain_expressionStmt : Plain (expressionStmt g) := .bind fun _ => .bind fun _ => .pure rfl

theorem plain_labelOrExpression : Plain (labelOrExpression g) :=
  .bind fun _ => .ite (.bind fun _ => .bind fun _ => .pure rfl) plain_expressionStmt

/-- No `if` declares anything outside of its branches, -/
theorem plain_branch : Plain (branch g) := by
  refine .bind fun _ => .bind fun _ => .bind fun _ => .ite ?_ ?_
  · exact .bind fun _ => .bind fun _ => .bind fun _ => .bind fun _ => .bind fun _ => .pure rfl
  · exact .bind fun _ => .bind fun _ => .bind fun _ => .pure rfl

/-- no `switch` outside of its cases, -/
theorem plain_switch : Plain (switch g) := by
  have hcases : ∀ mark subject, Plain (do
      let cases ← many (atKeyword .endswitchKw) (switchCase g)
      let _ ← keyword .endswitchKw
      return Stmt.switch ⟨mark, ← terminator⟩ subject cases) := fun _ _ =>
    .bind fun _ => .bind fun _ => .bind fun _ => .pure rfl
  refine .bind fun _ => .bind fun _ => .bind fun _ => .ite ?_ (.bind fun _ => .pure rfl)
  exact .bind fun _ => .ite (.bind fun _ => hcases _ _) (hcases _ _)

/-- no loop outside of its body, -/
theorem plain_loops : Plain (foreach g) ∧ Plain (forLoop g) ∧ Plain (whileLoop g) ∧
    Plain (doLoop g) :=
  ⟨.bind fun _ => .bind fun _ => .bind fun _ => .pure rfl,
    .bind fun _ => .bind fun _ => .bind fun _ => .pure rfl,
    .bind fun _ => .bind fun _ => .bind fun _ => .pure rfl,
    .bind fun _ => .bind fun _ => .bind fun _ => .bind fun _ => .bind fun _ => .pure rfl⟩

/-- and no `try` outside of its blocks. -/
theorem plain_attempt : Plain (attempt g) := by
  refine .bind fun _ => .bind fun _ => .bind fun _ => .bind fun _ => .bind fun _ => ?_
  exact .ite (.bind fun _ => .pure rfl) (.pure rfl)

/-- Simple statements declare nothing. -/
theorem plain_simple : Plain (unset g) ∧ Plain (globals g) ∧ Plain (statics g) ∧
    Plain halt ∧ Plain jump :=
  ⟨.bind fun _ => .bind fun _ => .bind fun _ => .pure rfl,
    .bind fun _ => .bind fun _ => .bind fun _ => .pure rfl,
    .bind fun _ => .bind fun _ => .bind fun _ => .pure rfl,
    .bind fun _ => .bind fun _ => .bind fun _ => .bind fun _ => .pure rfl,
    .bind fun _ => .bind fun _ => .bind fun _ => .pure rfl⟩

theorem plain_single {make : Span → Stmt} (h : ∀ span, (make span).isDeclaration = false) :
    Plain (single make) :=
  .bind fun t => .pure (h t.span)

/-! ## Section 3: Classes -/

/-- A name is a token that is accepted as one. -/
theorem name_eq_ok {accepts : Token → Bool} {name : Name} :
    (do return nameOf (← token accepts) : Parser Name) ts = .ok (name, rest) ↔
      ∃ t, ts = t :: rest ∧ accepts t = true ∧ nameOf t = name := by
  constructor
  · intro h
    obtain ⟨t, mid, ht, hpure⟩ := bind_eq_ok.mp h
    obtain ⟨rfl, haccepts⟩ := token_eq_ok.mp ht
    obtain ⟨rfl, rfl⟩ := pure_eq_ok.mp hpure
    exact ⟨t, rfl, haccepts, rfl⟩
  · rintro ⟨t, rfl, haccepts, rfl⟩
    exact bind_eq_ok.mpr ⟨t, rest, token_eq_ok.mpr ⟨rfl, haccepts⟩, pure_eq_ok.mpr ⟨rfl, rfl⟩⟩

/-- Either the keyword is there, or nothing is taken. -/
theorem namesAfter_cases {names : List Name} (h : namesAfter k ts = .ok (names, rest)) :
    (∃ b B, ts = b :: B ∧ b.isKeyword k = true) ∨ rest = ts := by
  obtain ⟨found, mid, hskip, hnames⟩ := bind_eq_ok.mp h
  obtain ⟨ahead, same, hahead, htake⟩ := bind_eq_ok.mp hskip
  obtain ⟨rfl, rfl⟩ := Prod.mk.inj (Except.ok.inj hahead)
  cases ts with
  | nil =>
    obtain ⟨rfl, rfl⟩ := pure_eq_ok.mp htake
    obtain ⟨-, rfl⟩ := pure_eq_ok.mp hnames
    exact .inr rfl
  | cons b B =>
    cases hb : b.isKeyword k with
    | true => exact .inl ⟨b, B, rfl, hb⟩
    | false =>
      simp only [List.head?_cons, Option.any_some, hb] at htake
      obtain ⟨rfl, rfl⟩ := pure_eq_ok.mp htake
      obtain ⟨-, rfl⟩ := pure_eq_ok.mp hnames
      exact .inr rfl

theorem follows_of_isKeyword (h : b.isKeyword k = true) : b.kind.follows = true := by
  simp only [Token.isKeyword, beq_iff_eq] at h
  rw [h]
  rfl

theorem follows_of_isSymbol {s : Symbol} (h : b.isSymbol s = true)
    (hs : (TokenKind.symbol s).follows = true) : b.kind.follows = true := by
  simp only [Token.isSymbol, beq_iff_eq] at h
  rw [h]
  exact hs

/-- What follows the name of a class does not depend on what is in front. -/
theorem classBody_cases {name : Name}
    (h : classBody g form start modifiers name ts = .ok (s, rest)) :
    ∃ span head all, s = .classLike span head all ∧ span.start = start ∧ head.form = form ∧
      head.name = name ∧ ∀ start' other, classBody g form start' modifiers other ts =
        .ok (.classLike ⟨start', span.stop⟩ { head with name := other } all, rest) := by
  obtain ⟨backing, ts₁, hbacking, h⟩ := bind_eq_ok.mp h
  obtain ⟨bases, ts₂, hbases, h⟩ := bind_eq_ok.mp h
  obtain ⟨contracts, ts₃, hcontracts, h⟩ := bind_eq_ok.mp h
  obtain ⟨⟨braces, all⟩, ts₄, hmembers, h⟩ := bind_eq_ok.mp h
  obtain ⟨rfl, rfl⟩ := pure_eq_ok.mp h
  refine ⟨_, _, all, rfl, rfl, rfl, rfl, fun start' other => ?_⟩
  refine bind_eq_ok.mpr ⟨backing, ts₁, hbacking, bind_eq_ok.mpr ⟨bases, ts₂, hbases, ?_⟩⟩
  refine bind_eq_ok.mpr ⟨contracts, ts₃, hcontracts, bind_eq_ok.mpr ⟨_, ts₄, hmembers, ?_⟩⟩
  exact pure_eq_ok.mpr ⟨rfl, rfl⟩

/-- Behind the name of a class stands a keyword or the opening brace. -/
theorem classBody_follows (hform : form ≠ .isEnum) {name : Name}
    (h : classBody g form start modifiers name ts = .ok (s, rest)) :
    ∃ b B, ts = b :: B ∧ b.kind.follows = true := by
  obtain ⟨backing, ts₁, hbacking, h⟩ := bind_eq_ok.mp h
  obtain ⟨bases, ts₂, hbases, h⟩ := bind_eq_ok.mp h
  obtain ⟨contracts, ts₃, hcontracts, h⟩ := bind_eq_ok.mp h
  obtain ⟨⟨braces, all⟩, ts₄, hmembers, -⟩ := bind_eq_ok.mp h
  obtain ⟨opening, ts₅, hopening, -⟩ := bind_eq_ok.mp hmembers
  obtain ⟨rfl, hbrace⟩ := token_eq_ok.mp hopening
  rw [backingType, if_neg hform] at hbacking
  obtain ⟨-, rfl⟩ := pure_eq_ok.mp hbacking
  -- each of the two lists of names is absent or begins with its keyword
  have hlist : ∀ {c : Bool} {k : Keyword} {ts rest : List Token} {names : List Name},
      (if c = true then namesAfter k else pure []) ts = .ok (names, rest) →
        (∃ b B, ts = b :: B ∧ b.kind.follows = true) ∨ rest = ts := by
    intro c k ts rest names hnames
    split at hnames
    · exact (namesAfter_cases hnames).imp_left fun ⟨b, B, hb, hk⟩ =>
        ⟨b, B, hb, follows_of_isKeyword hk⟩
    · exact .inr (pure_eq_ok.mp hnames).2.symm
  obtain hfollows | rfl := hlist hbases
  · exact hfollows
  obtain hfollows | rfl := hlist hcontracts
  · exact hfollows
  exact ⟨opening, ts₅, rfl, follows_of_isSymbol hbrace rfl⟩

/-- The word before the name of a class declares it, but `enum` may also be a name. -/
theorem declares_formKeyword (h : form ≠ .isEnum) : (formKeyword form).declares = true := by
  cases form <;> first | rfl | exact absurd rfl h

/-- A declaration of a class yields a class. -/
theorem yields_classDecl (form : ClassForm) (start : Nat) (modifiers : List Modifier) :
    Yields (fun s => ∃ span head all, s = .classLike span head all)
      (classDecl g form start modifiers) := by
  refine .bind fun _ => .bind fun name => ?_
  intro ts s rest h
  obtain ⟨span, head, all, hs, -⟩ := classBody_cases h
  exact ⟨span, head, all, hs⟩

variable {f h : Nat → Nat} {g' : Recursion}

/-- A class from its keyword on. -/
theorem renamable_classDecl (hg : Nested h g g') (form : ClassForm) (start : Nat)
    (modifiers : List Modifier) (hform : head.form ≠ .isEnum) :
    Renamable f h head.name Token.isWord (classDecl g form start modifiers)
      (classDecl g' form (f start) modifiers) (.classLike span head all)
      (fun n => .classLike (across f h span) { move h head with name := n } (move h all)) := by
  intro ts rest hts
  obtain ⟨k, ts₁, hk, hnamed⟩ := bind_eq_ok.mp hts
  obtain ⟨rfl, hkeyword⟩ := token_eq_ok.mp hk
  obtain ⟨name, ts₂, hname, hbody⟩ := bind_eq_ok.mp hnamed
  obtain ⟨t, rfl, hword, rfl⟩ := name_eq_ok.mp hname
  obtain ⟨_, _, _, hs, hstart, hform', hname', -⟩ := classBody_cases hbody
  cases hs
  subst hstart hform'
  obtain ⟨b, B, hb, hfollows⟩ := classBody_follows hform hbody
  obtain ⟨u, rfl, hu, hread⟩ := (parses_classBody hg _ _ _ _ 0).reads _ _ _ _ (Nat.le_refl _) hbody
  obtain ⟨b', B', rfl⟩ := List.exists_cons_of_length_pos hu
  obtain ⟨rfl, -⟩ := List.cons.inj hb
  have hdeclares : ∃ keyword : Keyword, k.kind = .keyword keyword ∧ keyword.declares = true :=
    ⟨_, by simpa [Token.isKeyword] using hkeyword, declares_formKeyword hform⟩
  refine ⟨[], k, t, b' :: B', rfl, ⟨hdeclares, b', B', rfl, hfollows⟩, hname'.symm, hword,
    fun t' v ht' _ hv => ?_⟩
  refine bind_eq_ok.mpr ⟨move f k, _, token_eq_ok.mpr ⟨rfl, hkeyword⟩, ?_⟩
  refine bind_eq_ok.mpr ⟨nameOf t', move h (b' :: B') ++ v, name_eq_ok.mpr ⟨t', rfl, ht', rfl⟩, ?_⟩
  -- what is behind the name is read with its own offsets, and takes the name and the start as given
  obtain ⟨_, _, _, hs, -, -, -, hother⟩ := classBody_cases (hread v _ hv (Nat.le_refl _))
  simp only [move_stmt, Stmt.moved, movedMembers_eq_move] at hs
  cases hs
  exact hother (f span.start) (nameOf t')

/-! ## Section 4: Namespaces -/

/-- A token that may name a namespace. -/
def isPath (t : Token) : Bool := t.isWord || t.kind == .qualified || t.kind == .fullyQualified

/-- What follows the name of a namespace does not depend on what is in front. -/
theorem namespaceBody_cases (h : namespaceBody g start name ts = .ok (s, rest)) :
    ∃ span braced body, s = .namespaceDecl span name braced body ∧ span.start = start ∧
      ∀ start' other, namespaceBody g start' other ts =
        .ok (.namespaceDecl ⟨start', span.stop⟩ other braced body, rest) := by
  obtain ⟨opened, ts₁, hopened, h'⟩ := bind_eq_ok.mp h
  cases opened with
  | true =>
    obtain ⟨⟨braces, body⟩, ts₂, hblock, hpure⟩ := bind_eq_ok.mp h'
    obtain ⟨rfl, rfl⟩ := pure_eq_ok.mp hpure
    refine ⟨_, true, body, rfl, rfl, fun start' other => bind_eq_ok.mpr ⟨true, ts₁, hopened, ?_⟩⟩
    exact bind_eq_ok.mpr ⟨_, ts₂, hblock, pure_eq_ok.mpr ⟨rfl, rfl⟩⟩
  | false =>
    obtain ⟨stop, ts₂, hstop, hrest⟩ := bind_eq_ok.mp h'
    obtain ⟨body, ts₃, hbody, hpure⟩ := bind_eq_ok.mp hrest
    obtain ⟨rfl, rfl⟩ := pure_eq_ok.mp hpure
    refine ⟨_, false, body, rfl, rfl, fun start' other => bind_eq_ok.mpr ⟨false, ts₁, hopened, ?_⟩⟩
    refine bind_eq_ok.mpr ⟨stop, ts₂, hstop, bind_eq_ok.mpr ⟨body, ts₃, hbody, ?_⟩⟩
    exact pure_eq_ok.mpr ⟨rfl, rfl⟩

/-- How the body of a namespace is read, behind the token that ends the head. -/
inductive BodyRead (g : Recursion) (body : List Stmt) (rest : List Token) :
    Bool → Token → List Token → Prop
  | braced {b last : Token} {B : List Token} (hb : b.isSymbol .leftBrace = true)
      (hlast : last.isSymbol .rightBrace = true)
      (hread : many (atSymbol .rightBrace) g.stmt B = .ok (body, last :: rest)) :
      BodyRead g body rest true b B
  | unbraced {b : Token} {w B : List Token} (hb : isTerminator b = true)
      (hread : untilNamespace g B = .ok (body, rest)) : BodyRead g body rest false b (w ++ B)

theorem next_bind {q : Token → Parser α} (ht : ts.head? = some t) : (next >>= q) ts = q t ts := by
  obtain ⟨others, rfl⟩ := List.head?_eq_some_iff.mp ht
  rfl

/-- A terminator is one token, or two with an opening tag. -/
theorem terminator_tokens {stop : Nat} (h : terminator ts = .ok (stop, rest)) :
    ∃ b w, ts = b :: (w ++ rest) ∧ isTerminator b = true := by
  obtain ⟨u, hu, hpos, -⟩ := reads_terminator (f := id) _ ts stop rest (Nat.le_refl _) h
  obtain ⟨b, w, rfl⟩ := List.exists_cons_of_length_pos hpos
  refine ⟨b, w, hu, ?_⟩
  subst hu
  rw [terminator, next_bind rfl] at h
  unfold isTerminator Token.isSymbol
  generalize b.kind = kind at h ⊢
  split at h
  · rfl
  · rfl
  · cases h

/-- The token behind the name of a namespace tells whether there are braces. -/
theorem BodyRead.kind (h : BodyRead g body rest braced b B) :
    braced = true ∧ b.kind = .symbol .leftBrace ∨
      braced = false ∧ (b.kind = .symbol .semicolon ∨ b.kind = .closeTag) := by
  cases h with
  | braced hb hlast hread => exact .inl ⟨rfl, by simpa [Token.isSymbol] using hb⟩
  | unbraced hb hread => exact .inr ⟨rfl, by simpa [isTerminator, Token.isSymbol] using hb⟩

theorem BodyRead.follows (h : BodyRead g body rest braced b B) : b.kind.follows = true := by
  rcases h.kind with ⟨-, hkind⟩ | ⟨-, hkind | hkind⟩ <;> rw [hkind] <;> rfl

/-- A namespace behind its name: where it begins, its name, and the token that its body begins
with. -/
theorem namespaceBody_tokens
    (h : namespaceBody g start name ts = .ok (.namespaceDecl span name' braced body, rest)) :
    span.start = start ∧ name' = name ∧ ∃ b B, ts = b :: B ∧ BodyRead g body rest braced b B := by
  obtain ⟨opened, ts₁, hopened, h₁⟩ := bind_eq_ok.mp h
  obtain rfl := peeks_atSymbol _ _ _ _ hopened
  cases opened with
  | true =>
    obtain ⟨⟨braces, body'⟩, ts₂, hblock, hpure⟩ := bind_eq_ok.mp h₁
    obtain ⟨hs, rfl⟩ := pure_eq_ok.mp hpure
    cases hs
    obtain ⟨b, ts₃, hb, hinner⟩ := bind_eq_ok.mp hblock
    obtain ⟨rfl, hbrace⟩ := token_eq_ok.mp hb
    obtain ⟨_, ts₄, hmany, hclosing⟩ := bind_eq_ok.mp hinner
    obtain ⟨last, ts₅, hlast, hpair⟩ := bind_eq_ok.mp hclosing
    obtain ⟨rfl, hclose⟩ := token_eq_ok.mp hlast
    obtain ⟨hsame, rfl⟩ := pure_eq_ok.mp hpair
    cases hsame
    exact ⟨rfl, rfl, b, ts₃, rfl, .braced hbrace hclose hmany⟩
  | false =>
    obtain ⟨stop, ts₂, hstop, h₂⟩ := bind_eq_ok.mp h₁
    obtain ⟨body', ts₃, hbody, hpure⟩ := bind_eq_ok.mp h₂
    obtain ⟨hs, rfl⟩ := pure_eq_ok.mp hpure
    cases hs
    obtain ⟨b, w, rfl, hb⟩ := terminator_tokens hstop
    exact ⟨rfl, rfl, b, _, rfl, .unbraced hb hbody⟩

/-- **The tokens of a namespace**: the keyword, a name if it has one, and the token that ends the
head. -/
theorem namespaceDecl_tokens
    (h : namespaceDecl g ts = .ok (.namespaceDecl span name braced body, rest)) :
    ∃ k named b B, ts = k :: (named ++ b :: B) ∧ k.isKeyword .namespaceKw = true ∧
      span.start = k.span.start ∧
      (named = [] ∧ name = none ∨ ∃ t, named = [t] ∧ isPath t = true ∧ name = some (nameOf t)) ∧
      BodyRead g body rest braced b B ∧
      namespaceBody g k.span.start name (b :: B) =
        .ok (.namespaceDecl span name braced body, rest) := by
  obtain ⟨k, ts₁, hk, h₁⟩ := bind_eq_ok.mp h
  obtain ⟨rfl, hkeyword⟩ := token_eq_ok.mp hk
  obtain ⟨ended, ts₂, hended, h₂⟩ := bind_eq_ok.mp h₁
  obtain ⟨-, rfl⟩ := Prod.mk.inj (Except.ok.inj hended)
  obtain ⟨opened, ts₃, hopened, h₃⟩ := bind_eq_ok.mp h₂
  obtain ⟨-, rfl⟩ := Prod.mk.inj (Except.ok.inj hopened)
  split at h₃
  · obtain ⟨hstart, rfl, b, B, rfl, hbody⟩ := namespaceBody_tokens h₃
    exact ⟨k, [], b, B, rfl, hkeyword, hstart, .inl ⟨rfl, rfl⟩, hbody, h₃⟩
  · obtain ⟨n, ts₄, hname, h₄⟩ := bind_eq_ok.mp h₃
    obtain ⟨t, rfl, hpath, rfl⟩ := name_eq_ok.mp hname
    obtain ⟨hstart, rfl, b, B, rfl, hbody⟩ := namespaceBody_tokens h₄
    exact ⟨k, [t], b, B, rfl, hkeyword, hstart, .inr ⟨t, rfl, hpath, rfl⟩, hbody, h₄⟩

theorem isPath_refused (h : isPath t = true) :
    isTerminator t = false ∧ t.isSymbol .leftBrace = false := by
  unfold isPath isTerminator Token.isSymbol at *
  obtain ⟨kind, text, span⟩ := t
  cases kind <;> first | exact ⟨rfl, rfl⟩ | exact absurd h (by simp [Token.isWord])

/-- A declaration of a namespace yields a namespace. -/
theorem yields_namespaceDecl :
    Yields (fun s => ∃ span name braced body, s = .namespaceDecl span name braced body)
      (namespaceDecl g) := by
  have hbody : ∀ start name,
      Yields (fun s => ∃ span name braced body, s = .namespaceDecl span name braced body)
        (namespaceBody g start name) := by
    intro start name ts s rest h
    obtain ⟨span, braced, body, hs, -⟩ := namespaceBody_cases h
    exact ⟨span, name, braced, body, hs⟩
  refine .bind fun mark => .bind fun _ => .bind fun _ => .ite (hbody _ _) ?_
  exact .bind fun name => hbody _ _

/-- A namespace with another name. -/
theorem renamable_namespaceDecl (hg : Nested h g g') {n : Name} :
    Renamable f h n isPath (namespaceDecl g) (namespaceDecl g')
      (.namespaceDecl span (some n) braced body)
      (fun n => .namespaceDecl (across f h span) (some n) braced (move h body)) := by
  intro ts rest hts
  obtain ⟨k, named, b, B, rfl, hkeyword, hstart, hnamed, hbody, hread⟩ := namespaceDecl_tokens hts
  -- without a name the declaration would have none
  obtain ⟨-, hnone⟩ | ⟨t, rfl, hpath, hname⟩ := hnamed
  · cases hnone
  cases hname
  obtain ⟨u, hu, hpos, hagain⟩ := (parses_namespaceBody hg _ _ 0).reads _ _ _ _
    (Nat.le_refl _) hread
  obtain ⟨_, B', rfl⟩ := List.exists_cons_of_length_pos hpos
  obtain ⟨rfl, rfl⟩ := List.cons.inj hu
  have hdeclares : ∃ keyword : Keyword, k.kind = .keyword keyword ∧ keyword.declares = true :=
    ⟨.namespaceKw, by simpa [Token.isKeyword] using hkeyword, rfl⟩
  refine ⟨[], k, t, b :: B', rfl, ⟨hdeclares, b, B', rfl, hbody.follows⟩, rfl, hpath,
    fun t' v ht' _ hv => ?_⟩
  obtain ⟨hterminator, hbrace⟩ := isPath_refused ht'
  have hended' : atTerminator (t' :: (move h (b :: B') ++ v)) = .ok (false, _) :=
    congrArg (fun b => Except.ok (b, _)) hterminator
  have hopened' : atSymbol .leftBrace (t' :: (move h (b :: B') ++ v)) = .ok (false, _) :=
    congrArg (fun b => Except.ok (b, _)) hbrace
  refine bind_eq_ok.mpr ⟨move f k, _, token_eq_ok.mpr ⟨rfl, hkeyword⟩, ?_⟩
  refine bind_eq_ok.mpr ⟨false, _, hended', bind_eq_ok.mpr ⟨false, _, hopened', ?_⟩⟩
  refine bind_eq_ok.mpr ⟨nameOf t', move h (b :: B') ++ v, name_eq_ok.mpr ⟨t', rfl, ht', rfl⟩, ?_⟩
  obtain ⟨_, _, _, hs, -, hother⟩ := namespaceBody_cases (hagain v _ hv (Nat.le_refl _))
  simp only [move_stmt, Stmt.moved, movedStmts_eq_move] at hs
  cases hs
  have hstart' : (move f k).span.start = f span.start := congrArg f hstart.symm
  rw [hstart']
  exact hother (f span.start) (some (nameOf t'))

/-! ## Section 5: Lists of statements -/

section

variable [Placed α] {n : Name} {allows : Token → Bool} {ends : Parser Bool} {item item' : Parser α}
  {x : α} {x' : Name → α}

omit [Placed α] in
/-- A first item is read, and then the others. -/
theorem manyRounds_cons {m : Nat} {y : α} {ys : List α} :
    manyRounds ends item (m + 1) ts = .ok (y :: ys, rest) ↔
      ∃ ts₁ ts₂, ends ts = .ok (false, ts₁) ∧ item ts₁ = .ok (y, ts₂) ∧
        manyRounds ends item m ts₂ = .ok (ys, rest) := by
  constructor
  · intro h
    obtain ⟨ended, ts₁, hended, h₁⟩ := bind_eq_ok.mp h
    cases ended with
    | true =>
      obtain ⟨hnone, -⟩ := pure_eq_ok.mp h₁
      cases hnone
    | false =>
      obtain ⟨y', ts₂, hy, h₂⟩ := bind_eq_ok.mp h₁
      obtain ⟨ys', ts₃, hys, h₃⟩ := bind_eq_ok.mp h₂
      obtain ⟨hlist, rfl⟩ := pure_eq_ok.mp h₃
      cases hlist
      exact ⟨ts₁, ts₂, hended, hy, hys⟩
  · rintro ⟨ts₁, ts₂, hended, hy, hys⟩
    refine bind_eq_ok.mpr ⟨false, ts₁, hended, bind_eq_ok.mpr ⟨y, ts₂, hy, ?_⟩⟩
    exact bind_eq_ok.mpr ⟨ys, rest, hys, pure_eq_ok.mpr ⟨rfl, rfl⟩⟩

/-- Items before the one that declares the name, that one, and items behind it. -/
theorem renamable_manyRounds (hends : ∀ f, Reads f 0 ends ends) (hitem : ∀ f, Reads f 1 item item')
    (hx : Renamable f h n allows item item' x x') (after : List α) :
    ∀ (before : List α) (m : Nat) (ts rest : List Token), ts.length ≤ m →
      manyRounds ends item (m + 1) ts = .ok (before ++ x :: after, rest) →
      ∃ A k t u, ts = A ++ k :: t :: (u ++ rest) ∧ Declaring k u ∧ nameOf t = n ∧ allows t = true ∧
        ∀ t' v m', allows t' = true → t'.kind.unqualified = t.kind.unqualified → Alike rest v →
          A.length + (u.length + v.length) ≤ m' →
          manyRounds ends item' (m' + 1) (move f A ++ move f k :: t' :: (move h u ++ v)) =
            .ok (move f before ++ x' (nameOf t') :: move h after, v) := by
  intro before
  -- on the items before the declaration; each of them takes a token, so the rounds suffice
  induction before with
  | nil =>
    intro m ts rest hm hts
    obtain ⟨ts₁, ts₂, hended, hone, hmore⟩ := manyRounds_cons.mp hts
    obtain ⟨w, rfl, -, hw⟩ := hends f _ ts _ _ (Nat.le_refl _) hended
    obtain ⟨A, k, t, u, rfl, hdeclaring, hname, hallows, hA⟩ := hx ts₁ ts₂ hone
    simp only [List.length_append, List.length_cons] at hm
    obtain ⟨m, rfl⟩ : ∃ m₁, m = m₁ + 1 := ⟨m - 1, by omega⟩
    -- behind the declaration all items are read as before
    obtain ⟨u₂, rfl, -, hu₂⟩ := reads_manyRounds (hends h)
      (hitem h) m ts₂ after rest (by omega) hmore
    obtain ⟨b, B, rfl, hb⟩ := hdeclaring.follows
    refine ⟨w ++ A, k, t, b :: B ++ u₂, by simp, ⟨hdeclaring.keyword, b, B ++ u₂, rfl, hb⟩, hname,
      hallows, fun t' v m' ht' hkind hv hm' => ?_⟩
    simp only [List.length_append, List.length_cons] at hm'
    obtain ⟨m', rfl⟩ : ∃ m₁, m' = m₁ + 1 := ⟨m' - 1, by omega⟩
    have hbehind := hv.prepend h u₂
    have hitself := hA t' (move h u₂ ++ v) ht' hkind hbehind
    have hrest := hu₂ v m' hv (by omega)
    have hstart := hw _ _ (alike_exchange (A := A) (u := b :: B) (k := k) f h hkind hbehind)
      (Nat.le_refl _)
    rw [move_append, move_append, List.append_assoc, List.append_assoc]
    exact manyRounds_cons.mpr ⟨_, _, hstart, hitself, hrest⟩
  | cons y before ih =>
    intro m ts rest hm hts
    obtain ⟨ts₁, ts₂, hended, hone, hmore⟩ := manyRounds_cons.mp hts
    obtain ⟨w, rfl, -, hw⟩ := hends f _ ts _ _ (Nat.le_refl _) hended
    obtain ⟨w₁, rfl, hpos, hw₁⟩ := hitem f _ ts₁ _ _ (Nat.le_refl _) hone
    simp only [List.length_append] at hm
    obtain ⟨m, rfl⟩ : ∃ m₁, m = m₁ + 1 := ⟨m - 1, by omega⟩
    -- an item before it is read as before, and the others by induction
    obtain ⟨A, k, t, u, rfl, hdeclaring, hname, hallows, hA⟩ := ih m ts₂ rest (by omega) hmore
    refine ⟨w ++ (w₁ ++ A), k, t, u, by simp, hdeclaring, hname, hallows,
      fun t' v m' ht' hkind hv hm' => ?_⟩
    simp only [List.length_append] at hm'
    obtain ⟨m', rfl⟩ : ∃ m₁, m' = m₁ + 1 := ⟨m' - 1, by omega⟩
    have hbehind := alike_exchange (A := A) (u := u) (k := k) f h hkind hv
    have hrest := hA t' v m' ht' hkind hv (by omega)
    have hitself := hw₁ _ _ hbehind (Nat.le_refl _)
    have hstart := hw _ _ (hbehind.prepend f w₁) (Nat.le_refl _)
    rw [move_append, move_append, List.append_assoc, List.append_assoc]
    exact manyRounds_cons.mpr ⟨_, _, hstart, hitself, hrest⟩

/-- **Items around the renamed one** are moved, by one rule before it and by another behind it. -/
theorem renamable_many (hends : ∀ f, Reads f 0 ends ends) (hitem : ∀ f, Reads f 1 item item')
    (hx : Renamable f h n allows item item' x x') (before after : List α) :
    Renamable f h n allows (many ends item) (many ends item') (before ++ x :: after)
      (fun n => move f before ++ x' n :: move h after) := by
  intro ts rest hts
  obtain ⟨A, k, t, u, rfl, hdeclaring, hname, hallows, hA⟩ :=
    renamable_manyRounds hends hitem hx after before _ ts rest (Nat.le_refl _) hts
  refine ⟨A, k, t, u, rfl, hdeclaring, hname, hallows, fun t' v ht' hkind hv => ?_⟩
  exact hA t' v _ ht' hkind hv (by simp; omega)

end

section

variable {n : Name} {allows : Token → Bool} {x : Stmt} {x' : Name → Stmt} {before after : List Stmt}

/-- The same in braces. -/
theorem renamable_block (hg : ∀ f, Nested f g g') (hx : Renamable f h n allows g.stmt g'.stmt x x')
    (braces : Span) :
    Renamable f h n allows (block g) (block g') (braces, before ++ x :: after)
      (fun n => (across f h braces, move f before ++ x' n :: move h after)) := by
  refine .bind (reads_symbol _) fun first => .andThen fun body mid rest hrest => ?_
  obtain ⟨last, ts, hlast, hpure⟩ := bind_eq_ok.mp hrest
  obtain ⟨rfl, hbrace⟩ := token_eq_ok.mp hlast
  obtain ⟨hpair, rfl⟩ := pure_eq_ok.mp hpure
  cases hpair
  refine ⟨_, renamable_many (fun _ => reads_atSymbol _) (fun f => (hg f).reads.stmt) hx before
    after, [last], rfl, fun n' v _ => ?_⟩
  exact bind_eq_ok.mpr ⟨move h last, v, token_eq_ok.mpr ⟨rfl, hbrace⟩, pure_eq_ok.mpr ⟨rfl, rfl⟩⟩

/-- The last statement is the one that declares the name, or one behind it. -/
theorem stopOf_renamed {n' : Name} (hspan : (x' n').span = across f h x.span) (stop stop' : Nat) :
    stopOf (move f before ++ x' n' :: move h after) stop' =
      h (stopOf (before ++ x :: after) stop) := by
  have hlast : ∀ (front : List Stmt) (y : Stmt) (behind : List Stmt) (stop : Nat),
      stopOf (front ++ y :: behind) stop = stopOf behind y.span.stop := by
    intro front y behind stop
    cases hbehind : behind.getLast? with
    | none => simp [stopOf, List.getLast?_eq_none_iff.mp hbehind]
    | some z => simp [stopOf, List.getLast?_append, List.getLast?_cons, hbehind]
  rw [hlast, hlast, hspan, ← stopOf_move (f := h)]
  rfl

/-- The same in a namespace, with braces and without. -/
theorem renamable_namespaceBody (hg : ∀ f, Nested f g g')
    (hx : Renamable f h n allows g.stmt g'.stmt x x') (hspan : ∀ n, (x' n).span = across f h x.span)
    (start : Nat) (name : Option Name) :
    Renamable f h n allows (namespaceBody g start name) (namespaceBody g' (f start) (move f name))
      (.namespaceDecl span name' braced (before ++ x :: after))
      (fun n => .namespaceDecl (across f h span) (move f name') braced
        (move f before ++ x' n :: move h after)) := by
  refine .bind (reads_atSymbol _) fun _ => .ite (fun _ => ?_) fun _ => ?_
  · refine .andThen fun (braces, body) mid rest hrest => ?_
    obtain ⟨hs, rfl⟩ := pure_eq_ok.mp hrest
    cases hs
    exact ⟨_, renamable_block hg hx braces, [], rfl, fun n' v _ => pure_eq_ok.mpr ⟨rfl, rfl⟩⟩
  · refine .bind reads_terminator fun stop => .andThen fun body mid rest hrest => ?_
    obtain ⟨hs, rfl⟩ := pure_eq_ok.mp hrest
    cases hs
    refine ⟨_, renamable_many (fun _ => looks_endsNamespace.reads)
      (fun f => (hg f).reads.stmt) hx before after, [], rfl, fun n' v _ => ?_⟩
    refine pure_eq_ok.mpr ⟨?_, rfl⟩
    rw [stopOf_renamed (hspan n') stop]
    rfl

/-- A statement within a namespace declares another name. -/
theorem renamable_inside (hg : ∀ f, Nested f g g') (hx : Renamable f h n allows g.stmt g'.stmt x x')
    (hspan : ∀ n, (x' n).span = across f h x.span) :
    Renamable f h n allows (namespaceDecl g) (namespaceDecl g')
      (.namespaceDecl span name braced (before ++ x :: after))
      (fun n => .namespaceDecl (across f h span) (move f name) braced
        (move f before ++ x' n :: move h after)) := by
  refine .bind (reads_keyword _) fun mark => .bind reads_atTerminator fun _ => ?_
  refine .bind (reads_atSymbol _) fun _ => .ite (fun _ => ?_) fun _ => ?_
  · exact renamable_namespaceBody hg hx hspan _ none
  · exact .bind reads_qualifiedName fun name => renamable_namespaceBody hg hx hspan _ (some name)

end

/-! ## Section 6: Which parser reads a declaration -/

end Parser

/-- The declarations that `p` reads are classes that begin at `start`, perhaps behind attributes and
modifiers. Before another class `p'` reads what `p` reads before the class. -/
def ClassFrom (f : Nat → Nat) (g g' : Recursion) (start : Nat) (p p' : Parser Stmt) : Prop :=
  ∀ ts s rest, p ts = .ok (s, rest) → s.isDeclaration = true →
    ∃ w ts' form modifiers, ts = w ++ ts' ∧ classDecl g form start modifiers ts' = .ok (s, rest) ∧
      ∀ v x, Alike ts' v → classDecl g' form (f start) modifiers v = .ok x →
        p' (move f w ++ v) = .ok x

/-- The declarations that `p` reads from the token `t` on are namespaces, or classes as above. -/
def DeclaresFrom (f : Nat → Nat) (g g' : Recursion) (t : Token) (p p' : Parser Stmt) : Prop :=
  ∀ ts s rest, ts.head? = some t → p ts = .ok (s, rest) → s.isDeclaration = true →
    namespaceDecl g ts = .ok (s, rest) ∨
    ∃ w ts' form modifiers, ts = w ++ ts' ∧ classDecl g form t.span.start modifiers ts' =
      .ok (s, rest) ∧ ∀ v x, Alike ts' v → (move f w ++ v).head? = some (move f t) →
        classDecl g' form (f t.span.start) modifiers v = .ok x → p' (move f w ++ v) = .ok x

section

variable {f h : Nat → Nat} {g g' : Recursion} {start : Nat} {p p' : Parser Stmt}

theorem Plain.classFrom (hp : Plain p) : ClassFrom f g g' start p p' := by
  intro ts s rest h hs
  rw [hp ts s rest h] at hs
  cases hs

/-- What is read before a class is moved. -/
theorem ClassFrom.bind [Placed α] {p p' : Parser α} {q q' : α → Parser Stmt} (hp : Reads f j p p')
    (hq : ∀ x, ClassFrom f g g' start (q x) (q' (move f x))) :
    ClassFrom f g g' start (p >>= q) (p' >>= q') := by
  intro ts s rest h hs
  obtain ⟨x, mid, hx, hread⟩ := bind_eq_ok.mp h
  obtain ⟨u, rfl, -, hu⟩ := hp _ ts x mid (Nat.le_refl _) hx
  obtain ⟨w, ts', form, modifiers, rfl, hclass, hagain⟩ := hq x mid s rest hread hs
  refine ⟨u ++ w, ts', form, modifiers, by simp, hclass, fun v (y, rest) hv hy => ?_⟩
  rw [move_append, List.append_assoc]
  exact bind_eq_ok.mpr ⟨move f x, _, hu _ _ (hv.prepend f w) (Nat.le_refl _),
    hagain v (y, rest) hv hy⟩

theorem ClassFrom.ite [Decidable c] {q q' : Parser Stmt} (hp : ClassFrom f g g' start p p')
    (hq : ClassFrom f g g' start q q') :
    ClassFrom f g g' start (if c then p else q) (if c then p' else q') := by
  split
  · exact hp
  · exact hq

/-- A class begins where its first token does. -/
theorem ClassFrom.declares (hp : ClassFrom f g g' t.span.start p p') :
    DeclaresFrom f g g' t p p' := by
  intro ts s rest _ h hs
  obtain ⟨w, ts', form, modifiers, hsplit, hclass, hagain⟩ := hp ts s rest h hs
  exact .inr ⟨w, ts', form, modifiers, hsplit, hclass, fun v x hv _ hx => hagain v x hv hx⟩

theorem Plain.declares (hp : Plain p) : DeclaresFrom f g g' t p p' := hp.classFrom.declares

theorem DeclaresFrom.next {q q' : Token → Parser Stmt}
    (hq : DeclaresFrom f g g' t (q t) (q' (move f t))) :
    DeclaresFrom f g g' t (Parser.next >>= q) (Parser.next >>= q') := by
  intro ts s rest ht h hs
  rw [next_bind ht] at h
  refine (hq ts s rest ht h hs).imp_right
    fun ⟨w, ts', form, modifiers, hsplit, hclass, hagain⟩ => ?_
  refine ⟨w, ts', form, modifiers, hsplit, hclass, fun v x hv hhead hx => ?_⟩
  rw [next_bind hhead]
  exact hagain v x hv hhead hx

namespace Parser

theorem classFrom_classDecl (form : ClassForm) (start : Nat) (modifiers : List Modifier) :
    ClassFrom f g g' start (classDecl g form start modifiers)
      (classDecl g' form (f start) modifiers) :=
  fun ts _ _ h _ => ⟨[], ts, form, modifiers, rfl, h, fun _ _ _ hx => hx⟩

theorem classFrom_modifiedClass (start : Nat) :
    ClassFrom f g g' start (modifiedClass g start) (modifiedClass g' (f start)) := by
  refine .bind reads_modifiers fun modifiers => ?_
  rw [move_modifiers]
  exact classFrom_classDecl _ start modifiers

theorem classFrom_modifiedStmt (start : Nat) :
    ClassFrom f g g' start (modifiedStmt g start) (modifiedStmt g' (f start)) := by
  refine .bind (reads_kindAt (by decide)) fun kind => ?_
  rw [move_kind?]
  exact .ite plain_expressionStmt.classFrom (classFrom_modifiedClass start)

/-- Behind attributes there may be a class, or something that declares nothing. -/
theorem classFrom_attributed (start : Nat) :
    ClassFrom f g g' start (attributed g start) (attributed g' (f start)) := by
  refine .bind (reads_kindAt (by decide)) fun kind => ?_
  rw [move_kind?]
  split
  · exact classFrom_classDecl _ start _
  · exact classFrom_classDecl _ start _
  · exact classFrom_classDecl _ start _
  · exact (plain_constantDecl start).classFrom
  · exact (plain_functionOrClosure start).classFrom
  · exact (plain_functionStmt start).classFrom
  · refine .bind (reads_kindAt (by decide)) fun following => ?_
    rw [move_kind?]
    split
    · exact (plain_functionStmt start).classFrom
    · exact (plain_functionStmt start).classFrom
    · exact classFrom_modifiedClass start
  · exact classFrom_modifiedClass start

/-- **Statements that begin with a keyword**: classes, namespaces, and those that declare
neither. -/
theorem declares_keywordStmt (k : Keyword) : DeclaresFrom f g g' t (keywordStmt g k)
    (keywordStmt g' k) := by
  obtain ⟨hforeach, hfor, hwhile, hdo⟩ := plain_loops (g := g)
  obtain ⟨hunset, hglobals, hstatics, hhalt, hjump⟩ := plain_simple (g := g)
  refine .next ?_
  cases k
  case declareKw => exact plain_declaration.declares
  case namespaceKw => exact fun _ _ _ _ h _ => .inl h
  case useKw => exact plain_importDecl.declares
  case interfaceKw | traitKw | enumKw | classKw => exact (classFrom_classDecl _ _ _).declares
  case constKw => exact (plain_constantDecl _).declares
  case functionKw => exact (plain_functionOrClosure _).declares
  case staticKw =>
    refine ClassFrom.declares (.bind (reads_kindAt (by decide)) fun kind => ?_)
    rw [move_kind?]
    exact .ite hstatics.classFrom (classFrom_modifiedStmt _)
  case globalKw => exact hglobals.declares
  case haltKw => exact hhalt.declares
  case ifKw => exact plain_branch.declares
  case switchKw => exact plain_switch.declares
  case foreachKw => exact hforeach.declares
  case forKw => exact hfor.declares
  case whileKw => exact hwhile.declares
  case doKw => exact hdo.declares
  case continueKw | breakKw | returnKw | echoKw => exact Plain.declares (.map fun _ => rfl)
  case tryKw => exact plain_attempt.declares
  case gotoKw => exact hjump.declares
  case unsetKw => exact hunset.declares
  all_goals first
    | exact (classFrom_modifiedStmt _).declares
    | exact plain_labelOrExpression.declares

/-- **A declaration is read** by the parser of namespaces or by that of classes. -/
theorem declares_stmt (hg : Nested f g g') : DeclaresFrom f g g' t (stmt g) (stmt g') := by
  refine .next ?_
  rw [kind_move]
  split
  · exact (plain_single fun _ => rfl).declares
  · exact (plain_single fun _ => rfl).declares
  · exact (plain_single fun _ => rfl).declares
  · exact Plain.declares (.map fun _ => rfl)
  · exact declares_keywordStmt _
  · exact (plain_single fun _ => rfl).declares
  · exact Plain.declares (.map fun _ => rfl)
  · exact ClassFrom.declares (.bind (reads_attributes hg.reads) fun _ => classFrom_attributed _)
  · exact plain_labelOrExpression.declares
  · exact plain_expressionStmt.declares

/-- **A statement that is a class** is read as a declaration of one, behind its attributes and
modifiers. -/
theorem classDecl_of_stmt (hg : Nested f g g')
    (h : stmt g ts = .ok (.classLike span head all, rest)) :
    ∃ t w ts' form modifiers, ts.head? = some t ∧ ts = w ++ ts' ∧
      classDecl g form t.span.start modifiers ts' = .ok (.classLike span head all, rest) ∧
      ∀ v x, Alike ts' v → (move f w ++ v).head? = some (move f t) →
        classDecl g' form (f t.span.start) modifiers v = .ok x →
          stmt g' (move f w ++ v) = .ok x := by
  cases ts with
  | nil => cases h
  | cons t others =>
    rcases declares_stmt hg _ _ _ rfl h rfl with hspace | ⟨w, ts', form, modifiers, hclass⟩
    · obtain ⟨_, _, _, _, hs⟩ := yields_namespaceDecl _ _ _ hspace
      cases hs
    · exact ⟨t, w, ts', form, modifiers, rfl, hclass⟩

/-- **A statement that is a namespace** is read as a declaration of one. -/
theorem namespaceDecl_of_stmt (hg : Nested f g g')
    (h : stmt g ts = .ok (.namespaceDecl span name braced body, rest)) :
    namespaceDecl g ts = .ok (.namespaceDecl span name braced body, rest) := by
  cases ts with
  | nil => cases h
  | cons t others =>
    rcases declares_stmt hg _ _ _ rfl h rfl with hread | ⟨_, _, form, modifiers, -, hread, -⟩
    · exact hread
    · obtain ⟨_, _, _, hs⟩ := yields_classDecl form _ modifiers _ _ _ hread
      cases hs

theorem stmt_eq_namespaceDecl (ht : t.isKeyword .namespaceKw = true) (ts : List Token) :
    stmt g (t :: ts) = namespaceDecl g (t :: ts) := by
  have hkind : t.kind = .keyword .namespaceKw := by simpa [Token.isKeyword] using ht
  obtain ⟨kind, text, span⟩ := t
  obtain rfl : kind = _ := hkind
  rfl

/-- The first token is one before the name, the keyword at the latest. -/
theorem head?_move {A us : List Token} {k : Token} (vs : List Token)
    (h : (A ++ k :: us).head? = some t) : (move f A ++ move f k :: vs).head? = some (move f t) := by
  cases A with
  | nil | cons a A => exact congrArg (Option.map (move f)) h

variable {n : Name} {allows : Token → Bool} {x' : Name → Stmt}

/-- A statement declares the name of a class if the class does so. -/
theorem renamable_class (hg : Nested f g g')
    (hclass : ∀ form start modifiers, Renamable f h n allows (classDecl g form start modifiers)
      (classDecl g' form (f start) modifiers) (.classLike span head all) x') :
    Renamable f h n allows (stmt g) (stmt g') (.classLike span head all) x' := by
  intro ts rest hts
  obtain ⟨t, w, ts', form, modifiers, hhead, rfl, hread, hagain⟩ := classDecl_of_stmt hg hts
  obtain ⟨A, k, t₁, u, rfl, hdeclaring, hname, hallows, hA⟩ :=
    hclass form _ modifiers ts' rest hread
  refine ⟨w ++ A, k, t₁, u, by simp, hdeclaring, hname, hallows, fun t' v ht' hkind hv => ?_⟩
  rw [← List.append_assoc] at hhead
  have hfirst := head?_move (f := f) (t' :: (move h u ++ v)) hhead
  rw [move_append, List.append_assoc] at hfirst ⊢
  exact hagain _ _ (alike_exchange f h hkind hv) hfirst (hA t' v ht' hkind hv)

/-- A statement declares the name of a namespace, or one within it, if the namespace does so. -/
theorem renamable_namespace (hg : Nested f g g')
    (hspace : Renamable f h n allows (namespaceDecl g) (namespaceDecl g')
      (.namespaceDecl span name braced body) x') :
    Renamable f h n allows (stmt g) (stmt g') (.namespaceDecl span name braced body) x' := by
  intro ts rest hts
  have hread := namespaceDecl_of_stmt hg hts
  obtain ⟨A, k, t, u, rfl, hdeclaring, hname, hallows, hA⟩ := hspace ts rest hread
  refine ⟨A, k, t, u, rfl, hdeclaring, hname, hallows, fun t' v ht' hkind hv => ?_⟩
  obtain ⟨first, mid, hfirst, -⟩ := bind_eq_ok.mp hread
  obtain ⟨hsplit, hkeyword⟩ := token_eq_ok.mp hfirst
  have hhead := head?_move (f := f) (t' :: (move h u ++ v)) (congrArg List.head? hsplit)
  obtain ⟨others, hothers⟩ := List.head?_eq_some_iff.mp hhead
  have hsame := hA t' v ht' hkind hv
  rw [hothers] at hsame ⊢
  exact (stmt_eq_namespaceDecl (t := move f first) hkeyword others).trans hsame

end Parser

end

end CodeInsight.Grammar
