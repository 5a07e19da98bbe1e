import Mathlib.Data.List.TakeWhile
import CodeInsight.Proofs.MovedTrees

/-!
# Parsers read locally

A parser decides by the kinds of tokens, at most three of them beyond what it takes. So what it
takes is taken in front of any other tokens that begin alike, and with other offsets in the tokens
the tree is the same up to these offsets. Loops that count down from the number of tokens are read
alike as well, since every round takes a token.

## Main Results

- `Grammar.Reads`: one parser does to moved tokens what another one does
- `Grammar.Reads.bind`, `Grammar.ReadsIn.round`: parsers made of parsers
- `Grammar.Parser.reads_params`: parameters are read locally
-/

namespace CodeInsight.Grammar

variable {accepts : Token → Bool} {ends : Parser Bool} {α β : Type} {c : Prop} {i : Nat}

/-- The kinds of tokens, names of all forms being one kind. -/
def kinds (ts : List Token) : List TokenKind := ts.map fun t => t.kind.unqualified

/-- Two lists of tokens begin with the same kind, and with the same three kinds if names of all
forms are one kind. -/
structure Alike (a b : List Token) : Prop where
  head : a.head?.map Token.kind = b.head?.map Token.kind
  kinds : (kinds a).take 3 = (kinds b).take 3

section

variable {a b u : List Token}

theorem Alike.refl (a : List Token) : Alike a a := ⟨rfl, rfl⟩

/-- Lists that begin alike have the same kinds at the first places. -/
theorem Alike.take (h : Alike a b) {n : Nat} (hn : n ≤ 3) :
    (Grammar.kinds a).take n = (Grammar.kinds b).take n := by
  have hthree : ((Grammar.kinds a).take 3).take n = ((Grammar.kinds b).take 3).take n := by
    rw [h.kinds]
  simpa [List.take_take, Nat.min_eq_left hn] using hthree

/-- Moving tokens leaves their kinds alone. -/
theorem kinds_move (f : Nat → Nat) (u : List Token) : kinds (move f u) = kinds u := by
  induction u with
  | nil => rfl
  | cons t rest ih =>
    unfold kinds at *
    simp [ih]

theorem kinds_append (a b : List Token) : kinds (a ++ b) = kinds a ++ kinds b := List.map_append

/-- Lists still begin alike behind tokens that are moved on one side. -/
theorem Alike.prepend (h : Alike a b) (f : Nat → Nat) (u : List Token) :
    Alike (u ++ a) (move f u ++ b) := by
  constructor
  · cases u with
    | nil => exact h.head
    | cons t rest => rfl
  · rw [kinds_append, kinds_append, kinds_move, List.take_append, List.take_append,
      h.take (Nat.sub_le _ _)]

/-- Of two lists that begin alike, both have tokens or none has. -/
theorem Alike.isEmpty (h : Alike a b) : a.isEmpty = b.isEmpty := by
  have hhead := h.head
  cases a <;> cases b <;> simp_all

end

/-! ## Section 1: Local reading -/

/-- On at most `n` tokens `p` takes at least `k` of them from the front. Any `q m` does the same to
the moved tokens in front of others that begin alike, as long as there are at most `m` tokens. -/
def ReadsIn (f : Nat → Nat) (n k : Nat) {α : Type} [Placed α] (p : Parser α)
    (q : Nat → Parser α) : Prop :=
  ∀ ts x rest, ts.length ≤ n → p ts = .ok (x, rest) →
    ∃ u, ts = u ++ rest ∧ k ≤ u.length ∧
      ∀ v m, Alike rest v → u.length + v.length ≤ m → q m (move f u ++ v) = .ok (move f x, v)

/-- `p` takes at least `k` tokens from the front, and `q` does the same to the moved tokens in front
of any others that begin alike. -/
def Reads (f : Nat → Nat) (k : Nat) {α : Type} [Placed α] (p q : Parser α) : Prop :=
  ∀ n, ReadsIn f n k p fun _ => q

/-- Parsers one after the other: both succeed, and the second goes on where the first one stops. -/
theorem bind_eq_ok {p : Parser α} {q : α → Parser β} {ts rest : List Token} {y : β} :
    (p >>= q) ts = .ok (y, rest) ↔
      ∃ x mid, p ts = .ok (x, mid) ∧ q x mid = .ok (y, rest) := by
  change StateT.bind p q ts = _ ↔ _
  unfold StateT.bind
  -- a parser fails with the first one that does
  cases h : p ts with
  | error e => simp [bind, Except.bind]
  | ok r =>
    obtain ⟨x, mid⟩ := r
    simp [bind, Except.bind, and_assoc]

/-- A parser that takes nothing. -/
theorem pure_eq_ok {x y : α} {ts rest : List Token} :
    (pure x : Parser α) ts = .ok (y, rest) ↔ x = y ∧ ts = rest := by
  change Except.ok (x, ts) = _ ↔ _
  simp

section

variable {f : Nat → Nat} {n k j : Nat} [Placed α] [Placed β] {p' : Nat → Parser α} {p : Parser α}
  {q q' : α → Parser β} {x : α}

/-- **Parsers one after the other.** The first one takes `k` tokens, so the second one needs as many
fewer. -/
theorem ReadsIn.both {q' r : Nat → α → Parser β} {l : Nat} (hp : ReadsIn f n k p p')
    (hq : ∀ x, ReadsIn f l j (q x) fun m => q' m (move f x)) (hl : n ≤ l + k)
    (hr : ∀ m, q' m = r (m + k)) : ReadsIn f n (k + j) (p >>= q) fun m => p' m >>= r m := by
  intro ts y rest hts h
  obtain ⟨x, mid, hx, hy⟩ := bind_eq_ok.mp h
  obtain ⟨u, rfl, hk, hu⟩ := hp ts x mid hts hx
  obtain ⟨w, rfl, hj, hw⟩ := hq x mid y rest (by simp at hts; omega) hy
  refine ⟨u ++ w, by simp, by simp; omega, fun v m hv hm => ?_⟩
  -- the second parser stands between the first one and what follows both
  simp only [List.length_append] at hm
  rw [move_append, List.append_assoc]
  have hfirst := hu (move f w ++ v) m (hv.prepend f w) (by simp; omega)
  have hsecond : q' (m - k) (move f x) (move f w ++ v) = .ok (move f y, v) :=
    hw v (m - k) hv (by omega)
  rw [hr, Nat.sub_add_cancel (by omega)] at hsecond
  exact bind_eq_ok.mpr ⟨move f x, move f w ++ v, hfirst, hsecond⟩

/-- What takes some tokens takes at least fewer. -/
theorem ReadsIn.mono (h : ReadsIn f n k p p') (hle : j ≤ k) : ReadsIn f n j p p' := by
  intro ts x rest hts hx
  obtain ⟨u, hu, hk, hv⟩ := h ts x rest hts hx
  exact ⟨u, hu, Nat.le_trans hle hk, hv⟩

theorem Reads.mono {p' : Parser α} (h : Reads f k p p') (hle : j ≤ k) : Reads f j p p' :=
  fun n => (h n).mono hle

theorem Reads.weak {p' : Parser α} (h : Reads f k p p') : Reads f 0 p p' := h.mono (Nat.zero_le _)

/-- What follows a parser may begin with fewer tokens, but need not. -/
theorem ReadsIn.bind {p' : Parser α} {q' : Nat → α → Parser β} (hp : Reads f k p p')
    (hq : ∀ x, ReadsIn f n j (q x) fun m => q' m (move f x)) :
    ReadsIn f n j (p >>= q) fun m => p' >>= q' m :=
  ((hp.weak n).both hq (Nat.le_add_right _ _) fun _ => rfl).mono (Nat.le_add_left _ _)

/-- Behind a loop stands a parser that does not count. -/
theorem ReadsIn.andThen (hp : ReadsIn f n k p p') (hq : ∀ x, Reads f 0 (q x) (q' (move f x))) :
    ReadsIn f n k (p >>= q) fun m => p' m >>= q' :=
  hp.both (r := fun _ => q') (fun x => hq x n) (Nat.le_add_right _ _) fun _ => rfl

/-- A round of a loop takes a token, so fewer tokens are left for the rounds that follow. -/
theorem ReadsIn.round {q' : Nat → α → Parser β} (hp : ReadsIn f (n + 1) 1 p p')
    (hq : ∀ x, ReadsIn f n 0 (q x) fun m => q' (m + 1) (move f x)) :
    ReadsIn f (n + 1) 1 (p >>= q) fun m => p' m >>= q' m :=
  hp.both hq (Nat.le_refl _) fun _ => rfl

/-- There is no round without tokens. -/
theorem ReadsIn.no_round {r : Nat → Parser β} (hp : ReadsIn f 0 1 p p') :
    ReadsIn f 0 k (p >>= q) r := by
  intro ts y rest hts h
  obtain ⟨x, mid, hx, _⟩ := bind_eq_ok.mp h
  obtain ⟨u, rfl, hu, _⟩ := hp ts x mid hts hx
  simp only [List.length_append] at hts
  omega

/-- Nothing is taken, and what is made of it is moved. -/
theorem ReadsIn.pure {x' : Nat → α} (h : ∀ m, x' m = move f x) :
    ReadsIn f n 0 (Pure.pure x) fun m => Pure.pure (x' m) := by
  intro ts y rest _ hy
  obtain ⟨rfl, rfl⟩ := pure_eq_ok.mp hy
  exact ⟨[], rfl, Nat.le_refl 0, fun v m _ _ => pure_eq_ok.mpr ⟨h m, rfl⟩⟩

/-- Either way, as long as the test has the same outcome for both. -/
theorem ReadsIn.ite [Decidable c] {q : Parser α} {q' : Nat → Parser α} (hp : c → ReadsIn f n k p p')
    (hq : ¬ c → ReadsIn f n k q q') :
    ReadsIn f n k (if c then p else q) fun m => if c then p' m else q' m := by
  split
  next h => exact hp h
  next h => exact hq h

/-- A parser whose answer is put to use. -/
theorem ReadsIn.thenPure {g g' : α → β} (hp : ReadsIn f n k p p')
    (hg : ∀ x, g' (move f x) = move f (g x)) :
    ReadsIn f n k (p >>= fun x => Pure.pure (g x)) fun m => p' m >>= fun x => Pure.pure (g' x) := by
  have hq : ∀ x, ReadsIn f n 0 (Pure.pure (g x)) fun _ => Pure.pure (g' (move f x)) :=
    fun x => .pure fun _ => hg x
  exact hp.both (r := fun _ x => Pure.pure (g' x)) hq (Nat.le_add_right _ _) fun _ => rfl

/-- What is read is made into something else. -/
theorem ReadsIn.map {g g' : α → β} (hp : ReadsIn f n k p p')
    (hg : ∀ x, g' (move f x) = move f (g x)) : ReadsIn f n k (g <$> p) fun m => g' <$> p' m := by
  simp only [map_eq_pure_bind]
  exact hp.thenPure hg

/-- The first parser takes the tokens that are asked for, -/
theorem Reads.bind {p' : Parser α} (hp : Reads f k p p')
    (hq : ∀ x, Reads f 0 (q x) (q' (move f x))) :
    Reads f k (p >>= q) (p' >>= q') :=
  fun n => (hp n).both (fun x => hq x n) (Nat.le_add_right _ _) fun _ => rfl

/-- or the second one does. -/
theorem Reads.seq {p' : Parser α} (hp : Reads f j p p')
    (hq : ∀ x, Reads f k (q x) (q' (move f x))) :
    Reads f k (p >>= q) (p' >>= q') :=
  fun n => .bind hp fun x => hq x n

theorem Reads.pure {x' : α} (h : x' = move f x) : Reads f 0 (Pure.pure x) (Pure.pure x') :=
  fun _ => .pure fun _ => h

theorem Reads.ite [Decidable c] {p' q q' : Parser α} (hp : c → Reads f k p p')
    (hq : ¬ c → Reads f k q q') : Reads f k (if c then p else q) (if c then p' else q') :=
  fun n => .ite (fun h => hp h n) (fun h => hq h n)

theorem Reads.map {p' : Parser α} {g g' : α → β} (hp : Reads f k p p')
    (hg : ∀ x, g' (move f x) = move f (g x)) : Reads f k (g <$> p) (g' <$> p') :=
  fun n => (hp n).map hg

/-- A parser that fails reads nothing, so there is nothing to compare. -/
theorem reads_unexpected : Reads f k Parser.unexpected p := by
  intro n ts x rest _ hx
  cases hx

/-- A loop that counts down from the number of tokens and some more. -/
theorem Reads.counted {c : Nat} {p : Nat → Parser α}
    (h : ∀ n, ReadsIn f n k (p (n + c)) fun m => p' (m + c)) :
    Reads f k (do p ((← get).length + c)) (do p' ((← get).length + c)) := by
  intro n ts x rest hts hx
  obtain ⟨u, rfl, hk, hv⟩ := h ts.length ts x rest (Nat.le_refl _) hx
  refine ⟨u, rfl, hk, fun v m halike hm => ?_⟩
  have hlen : (move f u ++ v).length = u.length + v.length := by simp
  change p' ((move f u ++ v).length + c) _ = _
  rw [hlen]
  exact hv v _ halike (Nat.le_refl _)

/-- A loop that counts down from the number of tokens. -/
theorem Reads.countedAll {p : Nat → Parser α} (h : ∀ n, ReadsIn f n k (p n) p') :
    Reads f k (do p (← get).length) (do p' (← get).length) :=
  Reads.counted (c := 0) h

/-- A loop that counts down from the number of tokens, and what is made of its items. -/
theorem Reads.countedAllThen {p : Nat → Parser α} (h : ∀ n, ReadsIn f n k (p n) p')
    (hq : ∀ x, Reads f 0 (q x) (q' (move f x))) :
    Reads f k (do q (← p (← get).length)) (do q' (← p' (← get).length)) := by
  have hbind := (Reads.countedAll h).bind hq
  simpa only [bind_assoc] using hbind

/-- A loop that ends without complaint when the count is down to zero. It gives the same answer
without tokens then as before. -/
theorem ReadsIn.silent {p : Nat → Parser α} (hp : ∀ n, p n [] = .ok (x, []))
    (hp' : ∀ n, p' n [] = .ok (move f x, []))
    (hstep : ∀ n, ReadsIn f n 0 (p n) p' → ReadsIn f (n + 1) 0 (p (n + 1)) fun m => p' (m - 1 + 1))
    (n : Nat) : ReadsIn f n 0 (p n) p' := by
  have hnone : ∀ n, ∀ y rest, p n [] = .ok (y, rest) → ∃ u, [] = u ++ rest ∧ 0 ≤ u.length ∧
      ∀ v m, Alike rest v → u.length + v.length ≤ m → p' m (move f u ++ v) = .ok (move f y, v) := by
    intro n y rest h
    rw [hp n] at h
    obtain ⟨rfl, rfl⟩ := Prod.mk.inj (Except.ok.inj h)
    refine ⟨[], rfl, Nat.le_refl 0, fun v m hv _ => ?_⟩
    have hempty : v = [] := by simpa using hv.isEmpty
    rw [hempty]
    exact hp' m
  induction n with
  | zero =>
    intro ts y rest hts h
    obtain rfl : ts = [] := List.length_eq_zero_iff.mp (Nat.le_zero.mp hts)
    exact hnone 0 y rest h
  | succ n ih =>
    intro ts y rest hts h
    by_cases hempty : ts = []
    · subst hempty
      exact hnone (n + 1) y rest h
    · obtain ⟨u, rfl, hk, hv⟩ := hstep n ih ts y rest hts h
      refine ⟨u, rfl, hk, fun v m halike hm => ?_⟩
      -- with tokens on the one side there are tokens on the other, so there is a round to make
      have hpos : 0 < u.length + v.length := by
        by_contra hzero
        obtain rfl : u = [] := List.length_eq_zero_iff.mp (by omega)
        obtain rfl : v = [] := List.length_eq_zero_iff.mp (by omega)
        exact hempty (by simpa using halike.isEmpty)
      have hround : p' (m - 1 + 1) (move f u ++ v) = .ok (move f y, v) := hv v m halike hm
      rwa [Nat.sub_add_cancel (by omega)] at hround

/-- What looks at the next token and then takes it does so to the moved token. -/
theorem ReadsIn.next {q : Token → Parser α} {q' : Nat → Token → Parser α}
    (hq : ∀ t, ReadsIn f n (k + 1) (q t) fun m => q' m (move f t)) :
    ReadsIn f n (k + 1) (Parser.next >>= q) fun m => Parser.next >>= q' m := by
  intro ts x rest hts h
  obtain ⟨t, mid, ht, hx⟩ := bind_eq_ok.mp h
  cases ts with
  | nil => cases ht
  | cons first others =>
    obtain ⟨rfl, rfl⟩ := pure_eq_ok.mp ht
    obtain ⟨u, hu, hk, hv⟩ := hq first _ x rest hts hx
    refine ⟨u, hu, hk, fun v m hv' hm => ?_⟩
    cases u with
    | nil => simp at hk
    | cons t u =>
      obtain ⟨rfl, -⟩ := List.cons.inj hu
      exact bind_eq_ok.mpr ⟨move f first, _, rfl, hv v m hv' hm⟩

/-- The next token is looked at and left for another parser. -/
theorem Reads.next {q q' : Token → Parser α} (hq : ∀ t, Reads f (k + 1) (q t) (q' (move f t))) :
    Reads f (k + 1) (Parser.next >>= q) (Parser.next >>= q') :=
  fun n => .next fun t => hq t n

end

/-! ## Section 2: Single tokens -/

/-- A condition on tokens that looks at their kind only. -/
def ByKind (accepts : Token → Bool) : Prop := ∀ t t', t.kind = t'.kind → accepts t = accepts t'

namespace Parser

variable {f : Nat → Nat} {n k : Nat}

/-- Invalid tokens are of one kind with nothing else. -/
theorem unqualified_eq_invalid_iff (k : TokenKind) : k.unqualified = .invalid ↔ k = .invalid := by
  cases k <;> simp [TokenKind.unqualified]

theorem get_bind (q : List Token → Parser α) (ts : List Token) :
    ((get : Parser (List Token)) >>= q) ts = q ts ts :=
  rfl

/-- Looking ahead takes no token. It fails if a token on the way there is invalid. -/
theorem kindAt_eq_ok {ts rest : List Token} {x : Option TokenKind} :
    kindAt i ts = .ok (x, rest) ↔ (kinds ts)[i]? = x ∧ ts = rest ∧
      .invalid ∉ (kinds ts).take (i + 1) := by
  have hnone : (ts.take (i + 1)).dropWhile (fun t => t.kind != .invalid) = [] ↔
      TokenKind.invalid ∉ (kinds ts).take (i + 1) := by
    rw [List.dropWhile_eq_nil_iff, kinds, ← List.map_take, List.mem_map]
    simp [unqualified_eq_invalid_iff]
  rw [kinds, List.getElem?_map, ← kinds, ← hnone]
  unfold kindAt
  rw [get_bind]
  cases (ts.take (i + 1)).dropWhile fun t : Token => t.kind != TokenKind.invalid with
  | nil => simp [pure_eq_ok]
  | cons t others =>
    simp only [reduceCtorEq, and_false, iff_false]
    intro h
    cases h

/-- Up to two tokens ahead the kinds are the same on both sides. -/
theorem reads_kindAt (hi : i < 3) : Reads f 0 (kindAt i) (kindAt i) := by
  intro n ts x rest _ h
  obtain ⟨rfl, rfl, hvalid⟩ := kindAt_eq_ok.mp h
  -- a kind has no offsets, so moving leaves it alone
  have hfixed : move f (kinds ts)[i]? = (kinds ts)[i]? := by
    cases (kinds ts)[i]? <;> rfl
  refine ⟨[], rfl, Nat.le_refl 0, fun v m hv _ => kindAt_eq_ok.mpr ⟨?_, rfl, ?_⟩⟩
  · have hat := congrArg (·[i]?) hv.kinds
    rw [hfixed]
    simpa [List.getElem?_take, hi, eq_comm] using hat
  · rwa [move_nil, List.nil_append, ← hv.take hi]

/-- The end is seen on both sides or on none. -/
theorem reads_atEnd : Reads f 0 atEnd atEnd := by
  intro n ts x rest _ h
  obtain ⟨rfl, rfl⟩ := Prod.mk.inj (Except.ok.inj h)
  refine ⟨[], rfl, Nat.le_refl 0, fun v m hv _ => ?_⟩
  change Except.ok (v.isEmpty, v) = _
  rw [← hv.isEmpty]
  rfl

/-- The next token is tested. -/
theorem reads_nextIs (h : ByKind accepts) : Reads f 0 (nextIs accepts) (nextIs accepts) := by
  intro n ts x rest _ hx
  change Except.ok (ts.head?.any accepts, ts) = _ at hx
  obtain ⟨rfl, rfl⟩ := Prod.mk.inj (Except.ok.inj hx)
  refine ⟨[], rfl, Nat.le_refl 0, fun v m hv _ => ?_⟩
  have hsame : v.head?.any accepts = ts.head?.any accepts := by
    have hhead := hv.head
    cases ts with
    | nil => cases v <;> simp_all
    | cons t others =>
      cases v with
      | nil => simp at hhead
      | cons t' others' =>
        have hkind : t.kind = t'.kind := by simpa using hhead
        simp [h t t' hkind]
  change Except.ok (v.head?.any accepts, v) = _
  rw [hsame]
  rfl

/-- One token is taken if it is accepted. -/
theorem token_eq_ok {ts rest : List Token} {t : Token} :
    token accepts ts = .ok (t, rest) ↔ ts = t :: rest ∧ accepts t = true := by
  cases ts with
  | nil =>
    constructor
    · intro h
      cases h
    · rintro ⟨h, _⟩
      cases h
  | cons first others =>
    change (if accepts first then (do set others; return first) else unexpected : Parser Token)
      (first :: others) = _ ↔ _
    split
    next haccepts =>
      change Except.ok (first, others) = _ ↔ _
      simp only [Except.ok.injEq, Prod.mk.injEq, List.cons.injEq]
      constructor
      · rintro ⟨rfl, rfl⟩
        exact ⟨⟨rfl, rfl⟩, haccepts⟩
      · rintro ⟨h, _⟩
        exact h
    next hrefuses =>
      constructor
      · intro h
        cases h
      · rintro ⟨h, haccepts⟩
        cases h
        exact absurd haccepts hrefuses

/-- A token that is accepted for its kind is accepted when it is moved. -/
theorem reads_token (h : ByKind accepts) : Reads f 1 (token accepts) (token accepts) := by
  intro n ts t rest _ ht
  obtain ⟨rfl, haccepts⟩ := token_eq_ok.mp ht
  refine ⟨[t], rfl, Nat.le_refl 1, fun v m _ _ => token_eq_ok.mpr ⟨rfl, ?_⟩⟩
  rwa [← h t (move f t) rfl]

theorem byKind_isSymbol (s : Symbol) : ByKind (·.isSymbol s) := fun t t' h => by
  simp only [Token.isSymbol, h]

theorem byKind_isKeyword (k : Keyword) : ByKind (·.isKeyword k) := fun t t' h => by
  simp only [Token.isKeyword, h]

theorem byKind_isWord : ByKind Token.isWord := fun t t' h => by simp only [Token.isWord, h]

theorem byKind_isTerminator : ByKind isTerminator := fun t t' h => by
  simp only [isTerminator, Token.isSymbol, h]

theorem reads_atSymbol (s : Symbol) : Reads f 0 (atSymbol s) (atSymbol s) :=
  reads_nextIs (byKind_isSymbol s)

theorem reads_atKeyword (k : Keyword) : Reads f 0 (atKeyword k) (atKeyword k) :=
  reads_nextIs (byKind_isKeyword k)

theorem reads_atTerminator : Reads f 0 atTerminator atTerminator :=
  reads_nextIs byKind_isTerminator

theorem reads_anyToken : Reads f 1 anyToken anyToken := reads_token fun _ _ _ => rfl

theorem reads_symbol (s : Symbol) : Reads f 1 (symbol s) (symbol s) :=
  reads_token (byKind_isSymbol s)

theorem reads_keyword (k : Keyword) : Reads f 1 (keyword k) (keyword k) :=
  reads_token (byKind_isKeyword k)

/-- A symbol may be there or not. -/
theorem reads_skipSymbol (s : Symbol) : Reads f 0 (skipSymbol s) (skipSymbol s) :=
  (reads_atSymbol s).bind fun _ =>
    .ite (fun _ => .weak ((reads_symbol s).bind fun _ => .pure rfl)) fun _ => .pure rfl

theorem reads_skipKeyword (k : Keyword) : Reads f 0 (skipKeyword k) (skipKeyword k) :=
  (reads_atKeyword k).bind fun _ =>
    .ite (fun _ => .weak ((reads_keyword k).bind fun _ => .pure rfl)) fun _ => .pure rfl

theorem reads_identifier : Reads f 1 identifier identifier :=
  (reads_token byKind_isWord).bind fun _ => .pure rfl

theorem reads_qualifiedName : Reads f 1 qualifiedName qualifiedName :=
  (reads_token fun t t' h => by simp only [Token.isWord, h]).bind fun _ => .pure rfl

/-- Names are moved with the tokens that they come from. -/
theorem reads_variableName : Reads f 1 variableName variableName :=
  (reads_token fun t t' h => by simp only [h]).bind fun _ => .pure rfl

/-! ## Section 3: Repetition -/

section

variable [Placed α] {stop : Token → Bool} {item item' : Parser α}

/-- The induction is on the rounds left. Each of them takes a token, so they do not run out. -/
theorem reads_manyRounds (hends : Reads f 0 ends ends) (hitem : Reads f 1 item item') (n : Nat) :
    ReadsIn f n 0 (manyRounds ends item (n + 1)) fun m => manyRounds ends item' (m + 1) := by
  induction n with
  -- without tokens there is no item
  | zero =>
    refine .bind hends fun _ => .ite (fun _ => .pure fun _ => rfl) fun _ => ?_
    exact .no_round (hitem 0)
  -- with an item there is a token less for the rounds behind it
  | succ n ih =>
    refine .bind hends fun _ => .ite (fun _ => .pure fun _ => rfl) fun _ => ?_
    exact .mono (.round (hitem _) fun a => .thenPure ih fun _ => rfl) (Nat.zero_le _)

/-- **Items up to an end.** -/
theorem reads_many (hends : Reads f 0 ends ends) (hitem : Reads f 1 item item') :
    Reads f 0 (many ends item) (many ends item') :=
  .counted (reads_manyRounds hends hitem)

/-- A symbol that may be there, as a choice between two ways to go on. -/
theorem skipSymbol_bind (s : Symbol) (q : Bool → Parser β) :
    (skipSymbol s >>= q) =
      atSymbol s >>= fun found => if found = true then symbol s >>= fun _ =>
        q true else q false := by
  simp only [skipSymbol, bind_assoc]
  congr 1
  funext found
  cases found <;> simp

/-- An item may take no token, since the comma behind it is one. -/
theorem reads_listRounds (hstop : ByKind stop) (hitem : Reads f k item item') (n : Nat) :
    ReadsIn f n 0 (listRounds stop item (n + 1)) fun m => listRounds stop item' (m + 1) := by
  induction n with
  | zero =>
    refine .bind (reads_nextIs hstop) fun _ => .ite (fun _ => .pure fun _ => rfl) fun _ => ?_
    refine .bind hitem fun a => ?_
    intro ts x rest hts h
    obtain rfl : ts = [] := List.length_eq_zero_iff.mp (Nat.le_zero.mp hts)
    cases h
  | succ n ih =>
    refine .bind (reads_nextIs hstop) fun _ => .ite (fun _ => .pure fun _ => rfl) fun _ => ?_
    refine .bind hitem fun a => ?_
    simp only [skipSymbol_bind, if_true]
    refine .bind (reads_atSymbol _) fun _ => .ite (fun _ => ?_) fun _ => ?_
    -- the comma makes the round, and without one the list has to end
    · exact .mono (.round (reads_symbol _ _) fun _ => .thenPure ih fun _ => rfl) (Nat.zero_le _)
    · refine .bind (reads_nextIs hstop) fun _ => .ite (fun _ => .pure fun _ => rfl) fun _ => ?_
      exact reads_unexpected _

/-- **Items with commas between them.** -/
theorem reads_listUntil (hstop : ByKind stop) (hitem : Reads f k item item') :
    Reads f 0 (listUntil stop item) (listUntil stop item') :=
  .counted (reads_listRounds hstop hitem)

theorem reads_list (close : Symbol) (hitem : Reads f k item item') :
    Reads f 0 (list close item) (list close item') :=
  reads_listUntil (byKind_isSymbol close) hitem

theorem reads_items (hitem : Reads f 1 item item') : Reads f 0 (items item) (items item') :=
  reads_listUntil byKind_isTerminator hitem

/-- At least one item is there, and one more behind each comma. -/
theorem reads_sequenceRounds (hitem : Reads f 1 item item') (n : Nat) :
    ReadsIn f n 1 (sequenceRounds item (n + 1)) fun m => sequenceRounds item' (m + 1) := by
  induction n with
  | zero => exact .no_round (hitem 0)
  | succ n ih =>
    refine .round (hitem _) fun a => .bind (reads_skipSymbol .comma) fun _ => .ite ?_ ?_
    · exact fun _ => .mono (.thenPure ih fun _ => rfl) (Nat.zero_le _)
    · exact fun _ => .pure fun _ => rfl

/-- **Items with commas between them, at least one.** -/
theorem reads_sequence (hitem : Reads f 1 item item') :
    Reads f 1 (sequence item) (sequence item') :=
  .counted (reads_sequenceRounds hitem)

/-- What is read in brackets takes at least the opening one. -/
theorem reads_between (opening closing : Symbol) {inside inside' : Parser α}
    (h : Reads f k inside inside') :
    Reads f 1 (between opening closing inside) (between opening closing inside') :=
  (reads_symbol opening).bind fun _ => h.seq fun _ => (reads_symbol closing).seq fun _ => .pure rfl

end

/-! ## Section 4: Ends of statements -/

/-- A statement ends with a semicolon, or with a closing tag and the opening one behind it. -/
theorem reads_terminator : Reads f 1 terminator terminator := by
  refine .next fun t => ?_
  rw [kind_move]
  generalize t.kind = kind
  split
  · exact reads_anyToken.bind fun _ => .pure rfl
  · refine reads_anyToken.bind fun _ => (reads_kindAt (by decide)).seq fun next => ?_
    rw [move_kind?]
    exact .ite (fun _ => reads_anyToken.seq fun _ => .pure rfl) fun _ => .pure rfl
  · exact reads_unexpected

/-- Nested constructs are read alike by two parsers of them. -/
structure ReadAlike (f : Nat → Nat) (g g' : Recursion) : Prop where
  expr : ∀ level, Reads f 1 (g.expr level) (g'.expr level)
  stmt : Reads f 1 g.stmt g'.stmt
  hooks : Reads f 1 g.hooks g'.hooks

variable {g g' : Recursion}

/-- Statements in braces. -/
theorem reads_block (hg : ReadAlike f g g') : Reads f 1 (block g) (block g') :=
  reads_between _ _ (reads_many (reads_atSymbol _) hg.stmt)

/-! ## Section 5: Types -/

theorem byKind_isTypeName : ByKind isTypeName := fun t t' h => by simp only [isTypeName, h]

theorem byKind_startsHint : ByKind startsHint := fun t t' h => by
  simp only [startsHint, isTypeName, Token.isSymbol, h]

/-- An ampersand joins types unless a parameter follows it. -/
theorem reads_joinsTypes : Reads f 0 joinsTypes joinsTypes := by
  refine (reads_atSymbol _).bind fun _ => .ite (fun _ => .pure rfl) fun _ => ?_
  refine (reads_kindAt (by decide)).bind fun kind => ?_
  rw [move_kind?]
  split <;> exact .pure rfl

/-- A type by itself, in parentheses or with a question mark before it. -/
theorem reads_singleHint {inner : Parser Span} {inner' : Nat → Parser Span}
    (h : ReadsIn f n 1 inner fun m => inner' (m + 1)) :
    ReadsIn f (n + 1) 1 (singleHint inner) fun m => singleHint (inner' m) := by
  refine .next fun t => ?_
  simp only [kind_move]
  generalize t.kind = kind
  split
  · exact .round (reads_anyToken _) fun _ => .mono (.thenPure h fun _ => rfl) (Nat.zero_le _)
  · refine .map (.round (reads_symbol _ _) fun _ => .mono (.andThen h fun _ => ?_) (Nat.zero_le _))
      fun _ => rfl
    exact (reads_symbol _).seq fun _ => .pure rfl
  · exact .thenPure (reads_token byKind_isTypeName _) fun _ => rfl

/-- The induction is on the depth of parentheses, each of which takes a token. -/
theorem reads_hintRounds (n : Nat) :
    ReadsIn f n 1 (hintRounds (n + 1)) fun m => hintRounds (m + 1) := by
  induction n with
  | zero =>
    intro ts x rest hts h
    obtain rfl : ts = [] := List.length_eq_zero_iff.mp (Nat.le_zero.mp hts)
    cases h
  | succ n ih =>
    refine .round (reads_singleHint ih) fun first => .bind (reads_skipSymbol _) fun _ => .ite ?_ ?_
    · exact fun _ => .mono (.thenPure ih fun _ => rfl) (Nat.zero_le _)
    · refine fun _ => .bind reads_joinsTypes fun _ => .ite ?_ ?_
      · exact fun _ => .bind (reads_symbol _) fun _ => .mono (.thenPure ih fun _ => rfl)
          (Nat.zero_le _)
      · exact fun _ => .pure fun _ => rfl

theorem reads_hint : Reads f 1 hint hint := .counted reads_hintRounds

theorem reads_hint? : Reads f 0 hint? hint? :=
  (reads_nextIs byKind_startsHint).bind fun _ =>
    .ite (fun _ => reads_hint.seq fun _ => .pure rfl) fun _ => .pure rfl

/-- A type behind a colon, if there is one. -/
theorem reads_returnHint? : Reads f 0 returnHint? returnHint? :=
  (reads_skipSymbol _).bind fun _ =>
    .ite (fun _ => reads_hint.seq fun _ => .pure rfl) fun _ => .pure rfl

/-! ## Section 6: Arguments, attributes and modifiers -/

/-- A word before a single colon names an argument. -/
theorem reads_atNamedArgument : Reads f 0 atNamedArgument atNamedArgument := by
  refine (reads_nextIs byKind_isWord).bind fun _ => .ite (fun _ => ?_) fun _ => .pure rfl
  exact (reads_kindAt (by decide)).bind fun _ => .pure (by simp)

section

variable (hg : ReadAlike f g g')
include hg

/-- An argument, with its name or with dots before it. -/
theorem reads_argument : Reads f 1 (argument g) (argument g') := by
  refine reads_atNamedArgument.seq fun _ => .ite (fun _ => ?_) fun _ => ?_
  · exact reads_anyToken.seq fun _ => reads_anyToken.seq fun _ => hg.expr 0
  · exact (reads_skipSymbol _).seq fun _ => hg.expr 0

theorem reads_arguments : Reads f 1 (arguments g) (arguments g') :=
  reads_between _ _ (reads_list _ (reads_argument hg))

/-- A name, and arguments if there are any. -/
theorem reads_attributeItem : Reads f 1 (attributeItem g) (attributeItem g') :=
  reads_qualifiedName.bind fun _ => (reads_atSymbol _).bind fun _ =>
    .ite (fun _ => (reads_arguments hg).seq fun _ => .pure rfl) fun _ => .pure rfl

/-- Groups of attributes, one behind the other. -/
theorem reads_attributeRounds (n : Nat) :
    ReadsIn f n 0 (attributeRounds g n) (attributeRounds g') := by
  refine .silent (x := ()) (fun n => by cases n <;> rfl) (fun n => by cases n <;> rfl)
    (fun n ih => ?_) n
  refine .bind (reads_atSymbol _) fun _ => .ite (fun _ => ?_) fun _ => .pure fun _ => rfl
  have hgroup := reads_between .attributeOpen .rightBracket
    (reads_list .rightBracket (reads_attributeItem hg))
  exact .mono (.round (hgroup _) fun _ => ih) (Nat.zero_le _)

theorem reads_attributes : Reads f 0 (attributes g) (attributes g') :=
  .countedAll (reads_attributeRounds hg)

end

/-- Some keywords are modifiers. -/
theorem reads_modifier? : Reads f 0 modifier? modifier? := by
  refine (reads_kindAt (by decide)).bind fun kind => ?_
  rw [move_kind?]
  split
  · exact .ite (fun _ => reads_anyToken.seq fun _ => .pure (by simp)) fun _ => .pure (by simp)
  · exact .pure rfl

/-- A round of modifiers, with the keyword and the modifier that it writes told apart. -/
theorem modifierRounds_succ (fuel : Nat) :
    modifierRounds (fuel + 1) = do
      match (← kindAt 0) with
      | some (.keyword k) =>
        match modifierOf? k with
        | some m => do
          let _ ← anyToken
          return m :: (← modifierRounds fuel)
        | none => return []
      | _ => return [] := by
  simp only [modifierRounds, modifier?, bind_assoc]
  congr 1
  funext kind
  rcases kind with _ | kind
  · exact pure_bind none _
  cases kind with
  | keyword k =>
    dsimp only
    -- the keyword is looked up twice, and the case is told to both
    generalize modifierOf? k = found
    cases found with
    | none => exact pure_bind none _
    | some m =>
      rw [if_pos (by simp), bind_assoc]
      congr 1
  | _ => exact pure_bind none _

/-- Modifiers are told apart by their keywords alone, so they are the same on both sides. -/
theorem reads_modifierRounds (n : Nat) : ReadsIn f n 0 (modifierRounds n) modifierRounds := by
  have hnone : ∀ n, modifierRounds n [] = .ok ([], []) := by
    intro n
    cases n <;> rfl
  refine .silent hnone hnone (fun n ih => ?_) n
  simp only [modifierRounds_succ]
  refine .bind (reads_kindAt (by decide)) fun kind => ?_
  simp only [move_kind?]
  split
  next k =>
    cases modifierOf? k with
    | none => exact .pure fun _ => rfl
    | some m =>
      exact .mono (.round (reads_anyToken _) fun _ => .thenPure ih fun _ => rfl) (Nat.zero_le _)
  next => exact .pure fun _ => rfl

theorem reads_modifiers : Reads f 0 modifiers modifiers := .countedAll reads_modifierRounds

/-! ## Section 7: Parameters and property hooks -/

section

variable (hg : ReadAlike f g g')
include hg

/-- A parameter: attributes, modifiers, a type, its name, a default and hooks. -/
theorem reads_param : Reads f 1 (param g) (param g') := by
  refine (reads_attributes hg).seq fun _ => reads_modifiers.seq fun _ => reads_hint?.seq fun _ => ?_
  refine (reads_skipSymbol _).seq fun _ => (reads_skipSymbol _).seq fun _ => ?_
  refine reads_variableName.bind fun _ => (reads_atSymbol _).bind fun _ =>
    .ite (fun _ => ?_) fun _ => ?_
  · refine (reads_symbol _).seq fun _ => (hg.expr 0).seq fun _ =>
      Reads.seq (.pure (by simp)) fun _ => ?_
    refine (reads_atSymbol _).bind fun _ => .ite (fun _ => ?_) fun _ => .pure (by simp)
    exact hg.hooks.seq fun _ => .pure (by simp)
  · refine Reads.seq (.pure rfl) fun _ => ?_
    refine (reads_atSymbol _).bind fun _ => .ite (fun _ => ?_) fun _ => .pure (by simp)
    exact hg.hooks.seq fun _ => .pure (by simp)

theorem reads_params : Reads f 1 (params g) (params g') :=
  .map (reads_between _ _ (reads_list _ (reads_param hg))) fun _ => rfl

/-- A hook of a property, with a body or with an expression. -/
theorem reads_hook : Reads f 1 (hook g) (hook g') := by
  have hbody : Reads f 0
      (do if ← skipSymbol .semicolon then return
          if ← skipSymbol .doubleArrow then
            let _ ← g.expr 0
            let _ ← symbol .semicolon
          else
            let _ ← block g)
      (do if ← skipSymbol .semicolon then return
          if ← skipSymbol .doubleArrow then
            let _ ← g'.expr 0
            let _ ← symbol .semicolon
          else
            let _ ← block g') := by
    refine (reads_skipSymbol _).bind fun _ => .ite (fun _ => .pure rfl) fun _ => ?_
    refine (reads_skipSymbol _).bind fun _ => .ite (fun _ => ?_) fun _ => ?_
    · exact (hg.expr 0).seq fun _ => (reads_symbol _).seq fun _ => .pure rfl
    · exact (reads_block hg).seq fun _ => .pure rfl
  refine (reads_attributes hg).seq fun _ => (reads_skipSymbol _).seq fun _ => ?_
  refine reads_modifiers.seq fun _ => reads_identifier.bind fun _ =>
    (reads_atSymbol _).bind fun _ => ?_
  exact .ite (fun _ => (reads_params hg).seq fun _ => hbody) fun _ => hbody

/-! ## Section 8: Parts of members -/

/-- A property and its default. -/
theorem reads_propertyItem : Reads f 1 (propertyItem g) (propertyItem g') := by
  refine reads_variableName.bind fun _ => (reads_skipSymbol _).bind fun _ => .ite (fun _ => ?_) ?_
  · exact (hg.expr 0).seq fun _ => .pure rfl
  · exact fun _ => .pure rfl

end

/-- A rule for a method of a trait. -/
theorem reads_adaptation : Reads f 1 adaptation adaptation := by
  have hend : Reads f 0 (do let _ ← terminator) (do let _ ← terminator) :=
    reads_terminator.seq fun _ => .pure rfl
  refine (reads_kindAt (by decide)).seq fun kind => ?_
  rw [move_kind?]
  refine .ite (fun _ => reads_qualifiedName.seq fun _ => (reads_symbol _).seq fun _ => ?_)
    fun _ => ?_
  all_goals
    refine reads_identifier.bind fun _ => (reads_atKeyword _).bind fun _ =>
      .ite (fun _ => ?_) fun _ => ?_
    · exact (reads_keyword _).seq fun _ => (reads_items reads_qualifiedName).seq fun _ => hend
    · refine (reads_keyword _).seq fun _ => reads_modifier?.seq fun _ => ?_
      refine reads_atTerminator.bind fun _ => .ite (fun _ => ?_) fun _ => hend
      exact reads_identifier.seq fun _ => hend

theorem byKind_endsTraits : ByKind fun t => t.isSymbol .leftBrace || isTerminator t :=
    fun t t' h => by
  simp only [isTerminator, Token.isSymbol, h]

/-- The names behind a keyword, or none without it. -/
theorem reads_namesAfter (k : Keyword) : Reads f 0 (namesAfter k) (namesAfter k) :=
  (reads_skipKeyword k).bind fun _ =>
    .ite (fun _ => .weak (reads_sequence reads_qualifiedName)) fun _ => .pure rfl

end Parser

end CodeInsight.Grammar
