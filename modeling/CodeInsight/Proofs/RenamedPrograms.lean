import CodeInsight.Grammar.Parse
import CodeInsight.Proofs.DeclaredStatements
import CodeInsight.Proofs.TokenOrder

/-!
# Programs with another name in a declaration

A class or a namespace of a program is declared somewhere among its statements, possibly within
namespaces. When the text of the declared name is exchanged, the new text is the same program with
the other name there. The tokens are in order, so whatever is read in front of the name has offsets
before it, and whatever is read behind it has offsets after it.

## Main Results

- `Grammar.Exchangeable`: a statement that declares a name
- `Grammar.Exchangeable.fill`: a statement with a declaration within namespaces
- `Grammar.Located`: where the name stands, where the statements around it stand, and the program
  with the other name
- `Grammar.Exchangeable.located`: the name of a declaration has such a place
-/

namespace CodeInsight.Grammar

open CodeInsight.Grammar.Parser

/-! ## Section 1: Statements that declare a name -/

/-- The statement `x` declares the name `n`. With another name there it becomes `x'`, with the
offsets in front of the name and those behind it changed. -/
structure Exchangeable (n : Name) (allows : Token → Bool) (x : Stmt)
    (x' : (Nat → Nat) → (Nat → Nat) → Name → Stmt) : Prop where
  word : ∀ t, allows t = true → t.kind.isWord = true
  span : ∀ f h n, (x' f h n).span = across f h x.span
  reads : ∀ f h d, Renamable f h n allows (recursion d).stmt (recursion d).stmt x (x' f h)

/-- Nothing is read without depth, and with more depth a statement is. -/
theorem Renamable.recursion {f h : Nat → Nat} {n : Name} {allows : Token → Bool} {x : Stmt}
    {x' : Name → Stmt} (hx : ∀ d, (∀ f, Nested f (recursion d) (recursion d)) →
      Renamable f h n allows (stmt (recursion d)) (stmt (recursion d)) x x') (d : Nat) :
    Renamable f h n allows (recursion d).stmt (recursion d).stmt x x' := by
  cases d with
  | zero =>
    intro ts rest hts
    cases ts <;> cases hts
  | succ d => exact hx d fun f => nested_recursion f (Nat.le_refl d)

theorem exchangeable_class (span : Span) {head : ClassHead} (all : List Member)
    (hform : head.form ≠ .isEnum) :
    Exchangeable head.name Token.isWord (.classLike span head all)
      (fun f h n => .classLike (across f h span) { move h head with name := n } (move h all)) where
  word := by
    intro t ht
    obtain ⟨kind, text, span⟩ := t
    cases kind <;> first | rfl | cases ht
  span := fun _ _ _ => rfl
  reads := fun f h => .recursion fun _ hread => renamable_class (hread f)
      fun form start modifiers =>
    renamable_classDecl (hread h) form start modifiers hform

theorem exchangeable_namespace {span : Span} {n : Name} {braced : Bool} {body : List Stmt} :
    Exchangeable n isPath (.namespaceDecl span (some n) braced body)
      (fun f h n => .namespaceDecl (across f h span) (some n) braced (move h body)) where
  word := by
    intro t ht
    obtain ⟨kind, text, span⟩ := t
    cases kind <;> first | rfl | cases ht
  span := fun _ _ _ => rfl
  reads := fun f h => .recursion fun _ hread => renamable_namespace (hread f)
    (renamable_namespaceDecl (hread h))

/-- A namespace around a statement. -/
structure Layer where
  span : Span
  name : Option Name
  braced : Bool
  before : List Stmt
  after : List Stmt

/-- The statements of the namespace, with the one it is around. -/
def Layer.body (F : Layer) (s : Stmt) : List Stmt := F.before ++ s :: F.after

/-- The namespace with the statement that it is around. -/
def Layer.fill (F : Layer) (s : Stmt) : Stmt := .namespaceDecl F.span F.name F.braced (F.body s)

/-- Namespaces around a statement, the outermost first. -/
def fill (layers : List Layer) (s : Stmt) : Stmt := layers.foldr Layer.fill s

/-- A namespace with the offsets in front of some name in it and those behind the name changed. -/
def Layer.across (f h : Nat → Nat) (F : Layer) : Layer :=
  ⟨Grammar.across f h F.span, move f F.name, F.braced, move f F.before, move h F.after⟩

variable {n : Name} {allows : Token → Bool} {x : Stmt}
    {x' : (Nat → Nat) → (Nat → Nat) → Name → Stmt}

section

variable (hx : Exchangeable n allows x x')
include hx

theorem Exchangeable.inside (F : Layer) :
    Exchangeable n allows (F.fill x) (fun f h n => (F.across f h).fill (x' f h n)) where
  word := hx.word
  span := fun _ _ _ => rfl
  reads := fun f h => .recursion fun d hread =>
    renamable_namespace (hread f) (renamable_inside hread (hx.reads f h d) (hx.span f h))

/-- **A declaration within namespaces**, one in the other. -/
theorem Exchangeable.fill (layers : List Layer) :
    Exchangeable n allows (fill layers x)
      (fun f h n => fill (layers.map (Layer.across f h)) (x' f h n)) := by
  induction layers with
  | nil => exact hx
  | cons F layers ih => exact ih.inside F

/-! ## Section 2: Tokens of a program -/

theorem Exchangeable.parseTokens {before after : List Stmt} {tokens : List Token}
    (h : parseTokens tokens = .ok (before ++ x :: after)) (f g : Nat → Nat) :
    ∃ A k t u, tokens = A ++ k :: t :: u ∧ Declaring k u ∧ nameOf t = n ∧ allows t = true ∧
      ∀ t', allows t' = true → t'.kind.unqualified = t.kind.unqualified →
        Grammar.parseTokens (move f A ++ move f k :: t' :: move g u) =
          .ok (move f before ++ x' f g (nameOf t') :: move g after) := by
  unfold Grammar.parseTokens at h
  cases hrun : (statements (recursion (2 * tokens.length + 2))).run tokens with
  | error left =>
    rw [hrun] at h
    cases h
  | ok result =>
    obtain ⟨program, rest⟩ := result
    rw [hrun] at h
    cases h
    have hread : ∀ f, Nested f (recursion (2 * tokens.length + 2))
        (recursion (2 * tokens.length + 2)) :=
      fun f => nested_recursion f (Nat.le_refl _)
    obtain ⟨A, k, t, u, htokens, hdeclaring, hname, hallows, hA⟩ :=
      renamable_many (fun _ => reads_atEnd) (fun f => (hread f).reads.stmt)
        (hx.reads f g _) before after tokens rest hrun
    obtain ⟨b, B, rfl, hb⟩ := hdeclaring.follows
    refine ⟨A, k, t, b :: B ++ rest, htokens, ⟨hdeclaring.keyword, b, B ++ rest, rfl, hb⟩, hname,
      hallows, fun t' ht' hkind => ?_⟩
    -- the number of tokens is the same, and so is the depth to which they are read
    have hlength : (move f A ++ move f k :: t' :: move g (b :: B ++ rest)).length =
        tokens.length := by
      rw [htokens]
      simp
    have hrest : Alike rest (move g rest) := by
      have hprepend := (Alike.refl []).prepend g rest
      rwa [List.append_nil, List.append_nil] at hprepend
    have hnew := hA t' (move g rest) ht' hkind hrest
    rw [← move_append] at hnew
    unfold Grammar.parseTokens
    rw [hlength]
    exact congrArg (Except.map Prod.fst) hnew

end

/-- Tokens whose offsets are kept. -/
theorem move_eq_self {f : Nat → Nat} {ts : List Token}
    (h : ∀ t ∈ ts, f t.span.start = t.span.start ∧ f t.span.stop = t.span.stop) :
    move f ts = ts := by
  induction ts with
  | nil => rfl
  | cons t rest ih =>
    obtain ⟨hfirst, hrest⟩ := List.forall_mem_cons.mp h
    have ht : move f t = t := by
      obtain ⟨kind, text, start, stop⟩ := t
      simp only [Placed.move, hfirst.1, hfirst.2]
    rw [move_cons, ht, ih hrest]

/-- A token that is not empty stands at one place only. -/
theorem Ordered.unique {A B u v : List Token} {k l s t : Token}
    (h : Ordered (A ++ k :: s :: u)) (heq : A ++ k :: s :: u = B ++ l :: t :: v)
    (hspan : s.span = t.span) (hpos : s.span.start < s.span.stop) :
    A = B ∧ k = l ∧ s = t ∧ u = v := by
  -- if one of them came later, it would begin behind the end of the other
  have hlate : ∀ {A C u v : List Token} {k l s t : Token}, Ordered (A ++ k :: s :: u) →
      k :: s :: u = C ++ l :: t :: v → s.span = t.span → s.span.start < s.span.stop → C = [] := by
    intro A C u v k l s t h heq hspan hpos
    have hbehind : ∀ b ∈ u, s.span.stop ≤ b.span.start := by
      have hapart := (List.pairwise_append.mp h.apart).2.1
      exact (List.pairwise_cons.mp (List.pairwise_cons.mp hapart).2).1
    have hlater : t ∉ u := fun hmem => by
      have hle := hbehind t hmem
      rw [← hspan] at hle
      omega
    match C with
    | [] => rfl
    | [c] =>
      obtain ⟨-, hrest⟩ := List.cons.inj heq
      obtain ⟨-, rfl⟩ := List.cons.inj hrest
      exact absurd List.mem_cons_self hlater
    | c :: d :: C =>
      obtain ⟨-, hrest⟩ := List.cons.inj heq
      obtain ⟨-, rfl⟩ := List.cons.inj hrest
      exact absurd (by simp) hlater
  rcases List.append_eq_append_iff.mp heq with ⟨C, rfl, hC⟩ | ⟨C, rfl, hC⟩
  · obtain rfl := hlate h hC hspan hpos
    obtain ⟨rfl, hrest⟩ := List.cons.inj hC
    obtain ⟨rfl, rfl⟩ := List.cons.inj hrest
    exact ⟨(List.append_nil _).symm, rfl, rfl, rfl⟩
  · rw [heq] at h
    obtain rfl := hlate h hC hspan.symm (hspan ▸ hpos)
    obtain ⟨rfl, hrest⟩ := List.cons.inj hC
    obtain ⟨rfl, rfl⟩ := List.cons.inj hrest
    exact ⟨List.append_nil _, rfl, rfl, rfl⟩

/-! ## Section 3: The text of a program -/

/-- The declared name of a program stands between the texts `u` and `s`. What is read in front of it
has offsets before it, and what is read behind it has offsets after it. With another name in its
place the text is the program with that name. -/
structure Located (text : Text) (before : List Stmt) (n : Name) (allows : Token → Bool) (x : Stmt)
    (x' : (Nat → Nat) → (Nat → Nat) → Name → Stmt) (after : List Stmt) (u s : Text) : Prop where
  text : text = u ++ (n.text.toList ++ s)
  span : n.span = ⟨Text.size u, Text.size u + Text.size n.text.toList⟩
  around : ∀ f g : Nat → Nat, (∀ m < Text.size u, f m = m) →
    (∀ m, Text.size u + Text.size n.text.toList ≤ m → g m = m) →
    move f before = before ∧ x' f g n = x ∧ move g after = after
  again : ∀ y, FreeName y → (nameKind y).unqualified = (nameKind n.text.toList).unqualified →
    (∀ t : Token, t.kind = nameKind y → allows t = true) → ∀ f,
    Shift f (Text.size u) (Text.size u + Text.size n.text.toList) (Text.size u + Text.size y) →
    parse (u ++ (y ++ s)) = .ok (move f before ++
      x' f f ⟨String.ofList y, ⟨Text.size u, Text.size u + Text.size y⟩⟩ :: move f after)

/-- **Exchanging the name of a declaration**, where it is no reserved word. -/
theorem Exchangeable.located (hx : Exchangeable n allows x x') {before after : List Stmt}
    {text : Text} (h : parse text = .ok (before ++ x :: after)) (hfree : FreeName n.text.toList) :
    ∃ u s, Located text before n allows x x' after u s := by
  have hordered := tokenize_ordered text
  have htokens := parse_eq_ok.mp h
  obtain ⟨A, k, t, u', hsplit, hdeclaring, rfl, hallows, -⟩ := hx.parseTokens htokens id id
  -- the token is a name since its text is one
  have hkind : t.kind = nameKind t.text.toList := by
    apply hordered.spelled t _ (hx.word t hallows) hfree
    rw [hsplit]
    simp
  obtain ⟨b, B, rfl, hb⟩ := hdeclaring.follows
  obtain ⟨keyword, hk, hdeclares⟩ := hdeclaring.keyword
  have hname : t.kind.isName = true := hkind ▸ hfree.isName
  obtain ⟨u, x₀, s, rfl, hx₀, hapart, ht, hagain⟩ := tokenize_renamed hsplit hk hdeclares hname hb
  obtain rfl : x₀ = t.text.toList := by rw [ht, String.toList_ofList]
  have hspan : t.span = ⟨Text.size u, Text.size u + Text.size t.text.toList⟩ := by
    generalize t.text.toList = w at ht
    rw [ht]
  have hpos : t.span.start < t.span.stop := by
    rw [hspan]
    exact Nat.lt_add_of_pos_right (size_pos hx₀.ne_nil)
  -- the place of the name does not depend on how offsets are changed
  have hplace : ∀ f g, ∀ t', allows t' = true → t'.kind.unqualified = t.kind.unqualified →
      Grammar.parseTokens (move f A ++ move f k :: t' :: move g (b :: B)) =
        .ok (move f before ++ x' f g (nameOf t') :: move g after) := by
    intro f g
    obtain ⟨A₁, k₁, t₁, u₁, hsplit₁, -, hname₁, -, hread⟩ := hx.parseTokens htokens f g
    rw [hsplit] at hordered hsplit₁
    have hspan₁ : t.span = t₁.span := (congrArg Name.span hname₁).symm
    obtain ⟨rfl, rfl, rfl, rfl⟩ := hordered.unique hsplit₁ hspan₁ hpos
    exact hread
  refine ⟨u, s, rfl, hspan, fun f g hf hg => ?_, fun y hy hykind hyallows f hf => ?_⟩
  · have hkept : move f A = A ∧ move f k = k ∧ move g (b :: B) = b :: B := by
      rw [hsplit] at hordered
      obtain ⟨-, hbehind, hfront⟩ := List.pairwise_append.mp hordered.apart
      have hstart : t.span.start = Text.size u := by rw [hspan]
      have hstop : t.span.stop = Text.size u + Text.size (nameOf t).text.toList := by
        rw [hspan]
        rfl
      have hk := hordered.upright k (by simp)
      refine ⟨move_eq_self fun a ha => ?_, ?_, move_eq_self fun a ha => ?_⟩
      · have hbefore := hfront a ha k List.mem_cons_self
        have ha' := hordered.upright a (List.mem_append_left _ ha)
        exact ⟨hf _ (by omega), hf _ (by omega)⟩
      · have hsingle : move f [k] = [k] := move_eq_self fun a ha => by
          obtain rfl := List.mem_singleton.mp ha
          exact ⟨hf _ (by omega), hf _ (by omega)⟩
        exact (List.cons.inj hsingle).1
      · have hafter := (List.pairwise_cons.mp (List.pairwise_cons.mp hbehind).2).1 a ha
        have ha' := hordered.upright a
          (List.mem_append_right _ (List.mem_cons_of_mem _ (List.mem_cons_of_mem _ ha)))
        exact ⟨hg _ (by omega), hg _ (by omega)⟩
    obtain ⟨hA, hk, hB⟩ := hkept
    have hsame := hplace f g t hallows rfl
    rw [hA, hk, hB, ← hsplit, htokens] at hsame
    obtain ⟨hbefore, hrest⟩ := List.append_inj (Except.ok.inj hsame) (by simp)
    obtain ⟨hitself, hafter⟩ := List.cons.inj hrest
    exact ⟨hbefore.symm, hitself.symm, hafter.symm⟩
  · apply parse_eq_ok.mpr
    rw [hagain y hy f hf, move_append, List.append_assoc]
    apply hplace f f ⟨nameKind y, String.ofList y, _⟩ (hyallows _ rfl)
    rw [hkind]
    exact hykind

end CodeInsight.Grammar
