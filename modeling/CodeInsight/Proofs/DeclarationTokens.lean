import CodeInsight.Proofs.ClassSites
import CodeInsight.Proofs.NestedStatements
import CodeInsight.Proofs.TokenGaps

/-!
# The tokens of declarations

A class or a namespace of a parsed program goes back to tokens of the text. Going from a program to
the tokens, these rules say from which tokens on a declaration is read, and what the tokens of its
head are.

## Main Results

- `Grammar.TakesFront`: a parser takes tokens from the front and leaves the others
- `Grammar.Rounds`: how items are read until a condition ends them
- `Grammar.Parser.classDecl_tokens`: the tokens of a class
- `Grammar.exists_reading`: every declaration of a program is read from some of its tokens on
-/

namespace CodeInsight

variable {s : Stmt} {program : List Stmt}

namespace Grammar

open CodeInsight.Grammar.Parser

/-! ## Section 1: Tokens that are left -/

/-- Whatever the parser reads, the tokens left are the last of those before. -/
def TakesFront {α : Type} (p : Parser α) : Prop :=
  ∀ ts x rest, p ts = .ok (x, rest) → ∃ w, ts = w ++ rest

theorem Reads.takesFront {α : Type} [Placed α] {f : Nat → Nat} {k : Nat} {p q : Parser α}
    (h : Reads f k p q) : TakesFront p := by
  intro ts x rest hx
  obtain ⟨w, hw, -⟩ := h _ ts x rest (Nat.le_refl _) hx
  exact ⟨w, hw⟩

section

variable {α : Type} {ends : Parser Bool} {item : Parser α} {n : Nat} {rest ts : List Token} {x : α}
  {xs : List α}

/-- How items are read until a condition ends them. -/
inductive Rounds (ends : Parser Bool) (item : Parser α) : List Token → List α → List Token → Prop
  | ended {ts : List Token} (h : ends ts = .ok (true, ts)) : Rounds ends item ts [] ts
  | item {ts mid rest : List Token} {x : α} {xs : List α} (h : ends ts = .ok (false, ts))
      (hx : item ts = .ok (x, mid)) (hxs : Rounds ends item mid xs rest) :
      Rounds ends item ts (x :: xs) rest

theorem rounds_of_manyRounds (hends : Peeks ends) (h : manyRounds ends item n ts = .ok (xs, rest)) :
    Rounds ends item ts xs rest := by
  induction n generalizing ts xs with
  | zero => cases h
  | succ n ih =>
    obtain ⟨ended, ts₁, hended, h₁⟩ := bind_eq_ok.mp h
    obtain rfl := hends _ _ _ hended
    cases ended with
    | true =>
      obtain ⟨rfl, rfl⟩ := pure_eq_ok.mp h₁
      exact .ended hended
    | false =>
      obtain ⟨x, ts₂, hx, h₂⟩ := bind_eq_ok.mp h₁
      obtain ⟨ys, ts₃, hys, h₃⟩ := bind_eq_ok.mp h₂
      obtain ⟨rfl, rfl⟩ := pure_eq_ok.mp h₃
      exact .item hended hx (ih hys)

variable (h : Rounds ends item ts xs rest)
include h

/-- Rounds end where the condition says so. -/
theorem Rounds.stop : ends rest = .ok (true, rest) := by
  induction h with
  | ended h => exact h
  | item _ _ _ ih => exact ih

/-- Each of the items is read from some of the tokens on. -/
theorem Rounds.mem (hitem : TakesFront item) (hx : x ∈ xs) :
    ∃ w ts₁ ts₂, ts = w ++ ts₁ ∧ ends ts₁ = .ok (false, ts₁) ∧ item ts₁ = .ok (x, ts₂) := by
  induction h with
  | ended _ => cases hx
  | @item ts mid _ y _ hended hy _ ih =>
    rcases List.mem_cons.mp hx with rfl | hx
    · exact ⟨[], ts, mid, rfl, hended, hy⟩
    · obtain ⟨u, rfl⟩ := hitem _ _ _ hy
      obtain ⟨w, ts₁, ts₂, rfl, hread⟩ := ih hx
      exact ⟨u ++ w, ts₁, ts₂, by simp, hread⟩

/-- Each of the items is the last one, or the next one is read from where it ends. -/
theorem Rounds.follow (hx : x ∈ xs) :
    ∃ front behind ts₁ ts₂, xs = front ++ x :: behind ∧ item ts₁ = .ok (x, ts₂) ∧
      (behind = [] ∧ rest = ts₂ ∨ ∃ y more ts₃, behind = y :: more ∧ item ts₂ = .ok (y, ts₃)) := by
  induction h with
  | ended _ => cases hx
  | @item ts mid _ y ys _ hy hys ih =>
    rcases List.mem_cons.mp hx with rfl | hx
    · refine ⟨[], ys, ts, mid, rfl, hy, ?_⟩
      cases hys with
      | ended _ => exact .inl ⟨rfl, rfl⟩
      | item _ hz _ => exact .inr ⟨_, _, _, rfl, hz⟩
    · obtain ⟨front, behind, ts₁, ts₂, rfl, hread⟩ := ih hx
      exact ⟨y :: front, behind, ts₁, ts₂, rfl, hread⟩

end

/-! ## Section 2: The tokens of a head -/

namespace Parser

variable {g : Recursion} {start : Nat}

section

variable {rest ts B : List Token} {span : Span} {braced : Bool} {body : List Stmt} {b : Token}

/-- The name of a class stands behind a keyword and before the braces. -/
theorem classDecl_tokens (hg : Nested id g g) {form : ClassForm} {modifiers : List Modifier}
    {head : ClassHead} {all : List Member}
    (h : classDecl g form start modifiers ts = .ok (.classLike span head all, rest)) :
    ∃ k t w opening inner closing, ts = k :: t :: (w ++ opening :: (inner ++ closing :: rest)) ∧
      k.isKeyword (formKeyword form) = true ∧ head.name = nameOf t ∧
        opening.isSymbol .leftBrace = true ∧
      span = ⟨start, closing.span.stop⟩ := by
  obtain ⟨k, ts₁, hk, hnamed⟩ := bind_eq_ok.mp h
  obtain ⟨rfl, hkeyword⟩ := token_eq_ok.mp hk
  obtain ⟨name, ts₂, hname, hbody⟩ := bind_eq_ok.mp hnamed
  obtain ⟨t, rfl, -, rfl⟩ := name_eq_ok.mp hname
  obtain ⟨backing, ts₃, hbacking, h₁⟩ := bind_eq_ok.mp hbody
  obtain ⟨bases, ts₄, hbases, h₂⟩ := bind_eq_ok.mp h₁
  obtain ⟨contracts, ts₅, hcontracts, h₃⟩ := bind_eq_ok.mp h₂
  obtain ⟨⟨braces, all'⟩, ts₆, hmembers, h₄⟩ := bind_eq_ok.mp h₃
  obtain ⟨hs, rfl⟩ := pure_eq_ok.mp h₄
  cases hs
  -- the body in its braces
  obtain ⟨opening, ts₇, hopening, hinner⟩ := bind_eq_ok.mp hmembers
  obtain ⟨rfl, hbrace⟩ := token_eq_ok.mp hopening
  obtain ⟨_, ts₈, hmany, hlast⟩ := bind_eq_ok.mp hinner
  obtain ⟨closing, ts₉, hclosing, hpure⟩ := bind_eq_ok.mp hlast
  obtain ⟨rfl, -⟩ := token_eq_ok.mp hclosing
  obtain ⟨hpair, rfl⟩ := pure_eq_ok.mp hpure
  cases hpair
  -- between the name and the brace, each reader takes a front part
  have hitems : TakesFront (many (atSymbol .rightBrace) (member g)) :=
    (reads_many (reads_atSymbol _) (parses_member hg 0).reads).takesFront
  obtain ⟨w₁, rfl⟩ := (reads_backingType (f := id) form).takesFront _ _ _ hbacking
  obtain ⟨w₂, rfl⟩ := (reads_basesOf (f := id) form).takesFront _ _ _ hbases
  obtain ⟨w₃, rfl⟩ := (reads_contractsOf (f := id) form).takesFront _ _ _ hcontracts
  obtain ⟨inner, rfl⟩ := hitems _ _ _ hmany
  exact ⟨k, t, w₁ ++ (w₂ ++ w₃), opening, inner, closing, by simp, hkeyword, rfl, hbrace, rfl⟩

theorem BodyRead.inCode (h : BodyRead g body rest braced b B) :
    b.kind.inCode = true := by
  rcases h.kind with ⟨-, hkind⟩ | ⟨-, hkind | hkind⟩ <;> rw [hkind] <;> rfl

theorem BodyRead.mem (hg : TakesFront g.stmt) (h : BodyRead g body rest braced b B)
    (hs : s ∈ body) :
    ∃ w ts ts', B = w ++ ts ∧ g.stmt ts = .ok (s, ts') := by
  cases h with
  | braced hb hlast hread =>
    obtain ⟨w, ts, ts', hsplit, -, hread⟩ :=
      (rounds_of_manyRounds (peeks_atSymbol _) hread).mem hg hs
    exact ⟨w, ts, ts', hsplit, hread⟩
  | @unbraced _ u B hb hread =>
    have hrounds := rounds_of_manyRounds (looks_endsNamespace (f := id)).peeks hread
    obtain ⟨w, ts, ts', rfl, -, hread⟩ := hrounds.mem hg hs
    exact ⟨u ++ w, ts, ts', by simp, hread⟩

end

end Parser

/-! ## Section 3: Programs -/

/-- **Every declaration of a program** is read from some of the tokens on. -/
theorem exists_reading {text : Text} (h : parse text = .ok program)
    (hs : Extract.OnSurface program s) :
    ∃ A ts d rest, tokenize text = A ++ ts ∧ stmt (recursion d) ts = .ok (s, rest) := by
  have hfront : ∀ d, TakesFront (recursion d).stmt := fun d =>
    (nested_recursion id (Nat.le_refl d)).reads.stmt.takesFront
  induction hs with
  | top hs =>
    obtain ⟨rest, hread⟩ := parseTokens_eq_ok (parse_eq_ok.mp h)
    obtain ⟨A, ts, ts', hsplit, -, hread⟩ := (rounds_of_manyRounds peeks_atEnd hread).mem
      (hfront _) hs
    exact ⟨A, ts, _, ts', hsplit, hread⟩
  | inside _ hs ih =>
    obtain ⟨A, ts, d, rest, hsplit, hstmt⟩ := ih
    have hspace := namespaceDecl_of_stmt (nested_recursion id (Nat.le_refl d)) hstmt
    obtain ⟨k, named, b, B, rfl, -, -, -, hbody, -⟩ := namespaceDecl_tokens hspace
    obtain ⟨w, ts, ts', rfl, hread⟩ := hbody.mem (hfront d) hs
    cases d with
    | zero => cases hread
    | succ d => exact ⟨A ++ k :: (named ++ b :: w), ts, d, ts', by simp [hsplit], hread⟩

end Grammar

namespace Extract

open Grammar Outline

/-- What is on the surface of a program lies within it. -/
theorem OnSurface.lies {a b : Nat} (hs : OnSurface program s)
    (h : (ofStmts program done).nestedIn ⟨a, b⟩ = true) : Lies (ofStmt s) a b := by
  induction hs with
  | top hs => exact (lies_of_nestedIn_stmts h).stmt_of_mem hs
  | inside hspace hs ih =>
    obtain ⟨ha, hbody, hb⟩ := lies_node_iff.mp ih
    exact ((lies_of_nestedIn_stmts hbody).stmt_of_mem hs).widen ha hb

end Extract

end CodeInsight
