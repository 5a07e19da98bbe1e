import CodeInsight.Grammar.Parse
import CodeInsight.Proofs.LocalReading
import CodeInsight.Proofs.ProgramOutline

/-!
# Parsers go forward

Tokens stand one behind the other, and a parser takes them from the front. So what it reads lies
between the offset where it begins and the offset where it ends, and the parts of what it reads lie
one behind the other. The rules below follow the offset through a parser: whatever is read next
begins where the last piece has ended, or later. They say at once that another parser reads the same
from moved tokens.

## Main Results

- `Outline.Lies`: nodes that lie between two offsets, one behind the other
- `Grammar.Advances`: what a parser reads from an offset on, and where it ends
- `Grammar.Parses`, `Grammar.Parses.bind`: parsers that read alike, and one parser behind another
- `Grammar.Parser.parses_member`: members of classes are read locally and lie where they are read
-/

namespace CodeInsight

variable {accepts : Token → Bool} {es' : List Expr} {ts' : List Stmt}

/-- A range between two offsets. -/
abbrev Span.Fits (s : Span) (a b : Nat) : Prop := a ≤ s.start ∧ s.start ≤ s.stop ∧ s.stop ≤ b

/-! ## Section 1: Stretches of an outline -/

namespace Outline

open Grammar

/-- The nodes that `put` puts before others lie between two offsets. -/
def Lies (put : Outline → Outline) (a b : Nat) : Prop :=
  -- The nodes of a tree are put before whatever follows, so the rule speaks of everything that may
  -- follow.
  ∀ rest c, rest.nestedIn ⟨b, c⟩ = true → (put rest).nestedIn ⟨a, c⟩ = true

/-- `put` puts a single node. -/
def Single (put : Outline → Outline) (span : Span) : Prop :=
  ∃ visit inner, put = node span visit inner

section

variable {put put' : Outline → Outline} {a a' b b' c : Nat} {span : Span} {visit : Visit}

/-- What is nested from an offset on is so from an earlier one on. -/
theorem nestedIn_earlier {o : Outline} (h : o.nestedIn ⟨b, c⟩ = true) (hle : a ≤ b) :
    o.nestedIn ⟨a, c⟩ = true := by
  cases o with
  | done =>
    simp only [nestedIn, decide_eq_true_eq] at h ⊢
    exact Nat.le_trans hle h
  | node span visit inner rest =>
    simp only [nestedIn, Bool.and_eq_true, decide_eq_true_eq] at h ⊢
    exact ⟨⟨Nat.le_trans hle h.1.1, h.1.2⟩, h.2⟩

theorem Lies.nestedIn (h : Lies put a b) : (put done).nestedIn ⟨a, b⟩ = true :=
  h done b (by simp [Outline.nestedIn])

theorem Lies.le (h : Lies put a b) : a ≤ b := start_le_stop h.nestedIn

/-- Something lies between two offsets if it lies between closer ones. -/
theorem Lies.widen (h : Lies put a b) (ha : a' ≤ a) (hb : b ≤ b') : Lies put a' b' :=
  fun rest d hrest => nestedIn_earlier (h rest d (nestedIn_earlier hrest hb)) ha

theorem Lies.earlier (h : Lies put b c) (ha : a ≤ b) : Lies put a c := h.widen ha (Nat.le_refl _)

/-- Nothing lies anywhere. -/
theorem Lies.none (h : a ≤ b) : Lies (fun rest => rest) a b :=
  fun _ _ hrest => nestedIn_earlier hrest h

/-- Nodes behind others. -/
theorem Lies.seq (h : Lies put a b) (h' : Lies put' b c) : Lies (fun rest => put (put' rest)) a c :=
  fun rest d hrest => h _ d (h' rest d hrest)

/-- A node lies where its range is, if what is in it lies within the range. -/
theorem lies_node_iff {inner : Outline} :
    Lies (node span visit inner) a b ↔ a ≤ span.start ∧ inner.nestedIn span = true ∧
      span.stop ≤ b := by
  constructor
  · intro h
    have hnested := h.nestedIn
    simp only [Outline.nestedIn, Bool.and_eq_true, decide_eq_true_eq] at hnested
    exact ⟨hnested.1.1, hnested.1.2, hnested.2⟩
  · rintro ⟨ha, hinner, hb⟩ rest d hrest
    simp only [Outline.nestedIn, Bool.and_eq_true, decide_eq_true_eq]
    exact ⟨⟨ha, hinner⟩, nestedIn_earlier hrest hb⟩

/-- A node around others. -/
theorem Lies.node (h : Lies put b c) (ha : a ≤ b) (hb : c ≤ b') :
    Lies (Outline.node ⟨b, c⟩ visit (put done)) a b' :=
  lies_node_iff.mpr ⟨ha, h.nestedIn, hb⟩

/-- A node with nothing in it. -/
theorem Lies.leaf (ha : a ≤ b) (h : b ≤ c) (hb : c ≤ b') : Lies (Outline.leaf ⟨b, c⟩) a b' :=
  (Lies.none h).node ha hb

variable (hput : Single put span)
include hput

/-- A single node lies where its range does. -/
theorem Single.fits (h : Lies put a b) : span.Fits a b := by
  obtain ⟨visit, inner, rfl⟩ := hput
  obtain ⟨ha, hinner, hb⟩ := lies_node_iff.mp h
  exact ⟨ha, start_le_stop hinner, hb⟩

/-- A single node lies in its own range. -/
theorem Single.self (h : Lies put a b) : Lies put span.start span.stop := by
  obtain ⟨visit, inner, rfl⟩ := hput
  exact lies_node_iff.mpr ⟨Nat.le_refl _, (lies_node_iff.mp h).2.1, Nat.le_refl _⟩

/-- A node of the same range around a single one. -/
theorem Single.part (h : Lies put a b) : Lies (Outline.node span visit (put done)) a b := by
  have hfits := hput.fits h
  exact (hput.self h).node hfits.1 hfits.2.2

/-- A single node at the beginning of an outline. -/
theorem Single.first {rest : Outline} (h : (put rest).nestedIn ⟨a, c⟩ = true) :
    Lies put a span.stop ∧ rest.nestedIn ⟨span.stop, c⟩ = true := by
  obtain ⟨visit, inner, rfl⟩ := hput
  simp only [Outline.nestedIn, Bool.and_eq_true, decide_eq_true_eq] at h
  exact ⟨lies_node_iff.mpr ⟨h.1.1, h.1.2, Nat.le_refl _⟩, h.2⟩

/-- A single node and what follows it. -/
theorem Single.split (h : Lies (fun rest => put (put' rest)) a b) :
    Lies put a span.stop ∧ Lies put' span.stop b := by
  obtain ⟨visit, inner, rfl⟩ := hput
  have hnode : ∀ {rest c}, rest.nestedIn ⟨b, c⟩ = true →
      (a ≤ span.start ∧ inner.nestedIn span = true) ∧
          (put' rest).nestedIn ⟨span.stop, c⟩ = true := by
    intro rest c hrest
    simpa [Outline.nestedIn] using h rest c hrest
  -- What the node itself needs does not depend on what follows, so the least of all will do.
  have hdone : done.nestedIn ⟨b, b⟩ = true := by simp [Outline.nestedIn]
  obtain ⟨⟨ha, hinner⟩, -⟩ := hnode hdone
  exact ⟨lies_node_iff.mpr ⟨ha, hinner, Nat.le_refl _⟩, fun rest c hrest => (hnode hrest).2⟩

end

/-- An expression is a single node, -/
theorem single_ofExpr (e : Expr) : Single (ofExpr e) e.span := by
  cases e <;> exact ⟨_, _, funext fun _ => rfl⟩

/-- and so is a statement. -/
theorem single_ofStmt (t : Stmt) : Single (ofStmt t) t.span := by
  cases t with
  | foreach span subject key value bodyStart body => cases key <;> exact ⟨_, _, funext fun _ => rfl⟩
  | switchCase span value body => cases value <;> exact ⟨_, _, funext fun _ => rfl⟩
  | _ => exact ⟨_, _, funext fun _ => rfl⟩

section

variable {e : Expr} {t : Stmt} {visit : Visit} {a b c : Nat}
variable {es : List Expr} {ts : List Stmt}

section

variable (h : Lies (ofExpr e) a b)
include h

theorem Lies.expr_fits : e.span.Fits a b := (single_ofExpr e).fits h

/-- An expression lies in its own range. -/
theorem Lies.expr_self : Lies (ofExpr e) e.span.start e.span.stop :=
  (single_ofExpr e).self h

/-- An expression begins at the first of its characters. -/
theorem Lies.expr_begin : Lies (ofExpr e) e.span.start b :=
  h.expr_self.widen (Nat.le_refl _) h.expr_fits.2.2

/-- An expression ends at the last of its characters. -/
theorem Lies.expr_end : Lies (ofExpr e) a e.span.stop :=
  h.expr_self.earlier h.expr_fits.1

/-- It still does in a node of its own with the same range. -/
theorem Lies.expr_part : Lies (Outline.node e.span visit (ofExpr e done)) a b :=
  (single_ofExpr e).part h

end

theorem Lies.stmt_fits (h : Lies (ofStmt t) a b) : t.span.Fits a b := (single_ofStmt t).fits h

theorem Lies.stmt_self (h : Lies (ofStmt t) a b) : Lies (ofStmt t) t.span.start t.span.stop :=
  (single_ofStmt t).self h

/-- The first of several expressions, and the others. -/
theorem Lies.exprs_cons (h : Lies (ofExprs (e :: es)) a b) :
    Lies (ofExpr e) a e.span.stop ∧ Lies (ofExprs es) e.span.stop b :=
  (single_ofExpr e).split h

/-- The first of several statements, and the others. -/
theorem Lies.stmts_cons (h : Lies (ofStmts (t :: ts)) a b) :
    Lies (ofStmt t) a t.span.stop ∧ Lies (ofStmts ts) t.span.stop b :=
  (single_ofStmt t).split h

/-- Expressions one behind the other lie where both parts do. -/
theorem Lies.exprs_append (h : Lies (ofExprs es) a b) (h' : Lies (ofExprs es') b c) :
    Lies (ofExprs (es ++ es')) a c := by
  induction es generalizing a with
  | nil => exact h'.earlier h.le
  | cons e more ih =>
    obtain ⟨he, hmore⟩ := Lies.exprs_cons h
    exact he.seq (ih hmore)

/-- Expressions can be parted at some offset. -/
theorem Lies.exprs_split (h : Lies (ofExprs (es ++ es')) a c) :
    ∃ b, Lies (ofExprs es) a b ∧ Lies (ofExprs es') b c := by
  induction es generalizing a with
  | nil => exact ⟨a, .none (Nat.le_refl _), h⟩
  | cons e more ih =>
    obtain ⟨he, hmore⟩ := Lies.exprs_cons h
    obtain ⟨b, hfront, hback⟩ := ih hmore
    exact ⟨b, he.seq hfront, hback⟩

/-- The same for statements. -/
theorem Lies.stmts_append (h : Lies (ofStmts ts) a b) (h' : Lies (ofStmts ts') b c) :
    Lies (ofStmts (ts ++ ts')) a c := by
  induction ts generalizing a with
  | nil => exact h'.earlier h.le
  | cons t more ih =>
    obtain ⟨ht, hmore⟩ := Lies.stmts_cons h
    exact ht.seq (ih hmore)

theorem Lies.stmts_split (h : Lies (ofStmts (ts ++ ts')) a c) :
    ∃ b, Lies (ofStmts ts) a b ∧ Lies (ofStmts ts') b c := by
  induction ts generalizing a with
  | nil => exact ⟨a, .none (Nat.le_refl _), h⟩
  | cons t more ih =>
    obtain ⟨ht, hmore⟩ := Lies.stmts_cons h
    obtain ⟨b, hfront, hback⟩ := ih hmore
    exact ⟨b, ht.seq hfront, hback⟩

/-- What is nested in a range lies between its ends. -/
theorem lies_of_nestedIn (h : (ofExprs es done).nestedIn ⟨a, b⟩ = true) :
    Lies (ofExprs es) a b := by
  induction es generalizing a with
  | nil => exact .none (start_le_stop h)
  | cons e more ih =>
    obtain ⟨he, hmore⟩ := (single_ofExpr e).first h
    exact he.seq (ih hmore)

/-- Statements before other nodes. -/
theorem nestedIn_ofStmts {rest : Outline} (h : (ofStmts ts rest).nestedIn ⟨a, c⟩ = true) :
    ∃ b, Lies (ofStmts ts) a b ∧ rest.nestedIn ⟨b, c⟩ = true := by
  induction ts generalizing a with
  | nil => exact ⟨a, .none (Nat.le_refl _), h⟩
  | cons t more ih =>
    obtain ⟨ht, hmore⟩ := (single_ofStmt t).first h
    obtain ⟨b, hlies, hrest⟩ := ih hmore
    exact ⟨b, ht.seq hlies, hrest⟩

theorem lies_of_nestedIn_stmts (h : (ofStmts ts done).nestedIn ⟨a, b⟩ = true) :
    Lies (ofStmts ts) a b := by
  obtain ⟨last, hlies, hrest⟩ := nestedIn_ofStmts h
  exact hlies.widen (Nat.le_refl _) (start_le_stop hrest)

/-- Each of several statements lies where they do. -/
theorem Lies.stmt_of_mem (h : Lies (ofStmts ts) a b) (ht : t ∈ ts) : Lies (ofStmt t) a b := by
  induction ts generalizing a with
  | nil => cases ht
  | cons first more ih =>
    obtain ⟨hfirst, hmore⟩ := Lies.stmts_cons h
    rcases List.mem_cons.mp ht with rfl | ht
    · exact hfirst.widen (Nat.le_refl _) hmore.le
    · exact (ih hmore ht).earlier hfirst.le

/-- The operands of an operation lie in its range. -/
theorem Lies.operands {span : Span} {form : Operation}
    (h : Lies (ofExpr (.operation span form es)) a b) :
    Lies (ofExprs es) span.start span.stop :=
  lies_of_nestedIn (lies_node_iff.mp h).2.1

end

end Outline

/-! ## Section 2: Places -/

namespace Grammar

open Outline

/-- Tokens that stand one behind the other between two offsets. -/
def Along : Nat → List Token → Nat → Prop
  | place, [], stop => place ≤ stop
  | place, t :: rest, stop =>
    place ≤ t.span.start ∧ t.span.start ≤ t.span.stop ∧ Along t.span.stop rest stop

/-- Tokens that follow an offset follow an earlier one too. -/
theorem Along.earlier {ts : List Token} {place place' stop : Nat} (h : Along place' ts stop)
    (hle : place ≤ place') :
    Along place ts stop := by
  cases ts with
  | nil => exact Nat.le_trans hle h
  | cons t rest => exact ⟨Nat.le_trans hle h.1, h.2⟩

theorem Along.le {ts : List Token} {place stop : Nat} (h : Along place ts stop) : place ≤ stop := by
  induction ts generalizing place with
  | nil => exact h
  | cons t rest ih => exact Nat.le_trans h.1 (Nat.le_trans h.2.1 (ih h.2.2))

/-- Behind tokens that were taken, the others go on. -/
theorem Along.rest {place stop : Nat} {ts u : List Token} (h : Along place (u ++ ts) stop) :
    ∃ next, Along next ts stop ∧ place ≤ next := by
  induction u generalizing place with
  | nil => exact ⟨place, h, Nat.le_refl _⟩
  | cons t u ih =>
    obtain ⟨next, hnext, hle⟩ := ih h.2.2
    exact ⟨next, hnext, Nat.le_trans h.1 (Nat.le_trans h.2.1 hle)⟩

/-- On tokens behind an offset, what a parser reads and the offset behind it are as `Q` says. -/
def Advances (place : Nat) {α : Type} (p : Parser α) (Q : α → Nat → Prop) : Prop :=
  ∀ ts x rest stop, Along place ts stop → p ts = .ok (x, rest) →
    ∃ next, Along next rest stop ∧ Q x next

/-- A parser that takes no token. -/
def Peeks {α : Type} (p : Parser α) : Prop := ∀ ts x rest, p ts = .ok (x, rest) → rest = ts

/-- A token that begins at `start` is next at an offset, or has been so since another one. -/
abbrev Since (place start next : Nat) : Prop := place ≤ start ∧ start ≤ next

/-- What holds at an offset holds at later ones. -/
class Carries (H : Nat → Prop) : Prop where
  carry : ∀ {b c}, H b → b ≤ c → H c

instance (start : Nat) : Carries (start ≤ ·) := ⟨Nat.le_trans⟩

instance (place start : Nat) : Carries (Since place start) :=
    ⟨fun h hle => ⟨h.1, Nat.le_trans h.2 hle⟩⟩

instance (span : Span) (a : Nat) : Carries (span.Fits a) :=
  ⟨fun h hle => ⟨h.1, h.2.1, Nat.le_trans h.2.2 hle⟩⟩

instance (put : Outline → Outline) (a : Nat) : Carries (Lies put a) :=
  ⟨fun h hle => h.widen (Nat.le_refl _) hle⟩

section

variable {α β : Type} {place : Nat} {p : Parser α} {q : α → Parser β} {Q : α → Nat → Prop}
  {R : β → Nat → Prop}

/-- One parser behind another. -/
theorem Advances.bind (hp : Advances place p Q) (hq : ∀ x next, Q x next → Advances next (q x) R) :
    Advances place (p >>= q) R := by
  intro ts y rest stop hts h
  obtain ⟨x, mid, hx, hy⟩ := bind_eq_ok.mp h
  obtain ⟨next, hmid, hQ⟩ := hp ts x mid stop hts hx
  exact hq x next hQ mid y rest stop hmid hy

/-- A look ahead leaves the place alone. -/
theorem Peeks.bind (hp : Peeks p) (hq : ∀ x, Advances place (q x) R) :
    Advances place (p >>= q) R := by
  intro ts y rest stop hts h
  obtain ⟨x, mid, hx, hy⟩ := bind_eq_ok.mp h
  obtain rfl := hp ts x mid hx
  exact hq x mid y rest stop hts hy

theorem Advances.pure {x : α} (h : Q x place) : Advances place (Pure.pure x) Q := by
  intro ts y rest stop hts hy
  obtain ⟨rfl, rfl⟩ := pure_eq_ok.mp hy
  exact ⟨place, hts, h⟩

/-- Either way, what is read is as `Q` says. -/
theorem Advances.ite {c : Prop} [Decidable c] {q : Parser α} (hp : Advances place p Q)
    (hq : Advances place q Q) : Advances place (if c then p else q) Q := by
  split
  next => exact hp
  next => exact hq

/-- What is read may be said to be less. -/
theorem Advances.mono {Q' : α → Nat → Prop} (h : Advances place p Q)
    (hQ : ∀ x next, Q x next → Q' x next) :
    Advances place p Q' := by
  intro ts x rest stop hts hx
  obtain ⟨next, hrest, hx⟩ := h ts x rest stop hts hx
  exact ⟨next, hrest, hQ x next hx⟩

/-- A parser that fails reads nothing. -/
theorem advances_unexpected : Advances place (Parser.unexpected : Parser α) Q := by
  intro ts x rest stop _ h
  cases h

/-- What is read locally is taken from the front. -/
theorem Reads.forward [Placed α] {f : Nat → Nat} {k : Nat} {p' : Parser α} (h : Reads f k p p')
    (place : Nat) : Advances place p fun _ next => place ≤ next := by
  intro ts x rest stop hts hx
  obtain ⟨u, rfl, -⟩ := h _ ts x rest (Nat.le_refl _) hx
  exact hts.rest

/-- Two looks ahead are one. -/
theorem Peeks.andThen (hp : Peeks p) (hq : ∀ x, Peeks (q x)) : Peeks (p >>= q) := by
  intro ts y rest h
  obtain ⟨x, mid, hx, hy⟩ := bind_eq_ok.mp h
  obtain rfl := hp ts x mid hx
  exact hq x mid y rest hy

theorem Peeks.pure (x : α) : Peeks (Pure.pure x : Parser α) := fun _ _ _ h =>
    (pure_eq_ok.mp h).2.symm

theorem Peeks.ite {c : Prop} [Decidable c] {q : Parser α} (hp : Peeks p) (hq : Peeks q) :
    Peeks (if c then p else q) := by
  split
  next => exact hp
  next => exact hq

/-- A loop may count down from anything it knows about the tokens. -/
theorem peeks_get : Peeks (get : Parser (List Token)) := by
  intro ts x rest h
  cases h
  rfl

end

namespace Parser

theorem peeks_kindAt (n : Nat) : Peeks (kindAt n) := fun _ _ _ h => (kindAt_eq_ok.mp h).2.1.symm

/-- To test the next token is to look at it. -/
theorem peeks_nextIs (accepts : Token → Bool) : Peeks (nextIs accepts) := by
  intro ts x rest h
  cases h
  rfl

theorem peeks_atSymbol (s : Symbol) : Peeks (atSymbol s) := peeks_nextIs _

theorem peeks_atKeyword (k : Keyword) : Peeks (atKeyword k) := peeks_nextIs _

theorem peeks_atEnd : Peeks atEnd := by
  intro ts x rest h
  cases h
  rfl

end Parser

/-! ## Section 3: Local reading from a place on -/

/-- `p` and `q` read alike, and what `p` reads from an offset on is as `Q` says. -/
structure Parses (f : Nat → Nat) (k place : Nat) {α : Type} [Placed α] (p q : Parser α)
    (Q : α → Nat → Prop) : Prop where
  reads : Reads f k p q
  advances : Advances place p Q

/-- Two parsers look at tokens alike and take none. -/
structure Looks (f : Nat → Nat) {α : Type} [Placed α] (p q : Parser α) : Prop where
  reads : Reads f 0 p q
  peeks : Peeks p

section

variable (f : Nat → Nat) (k : Nat) {α : Type} [Placed α]

/-- What is read lies where it is read. -/
abbrev Laid (put : α → Outline → Outline) (p q : Parser α) : Prop :=
  ∀ a, Parses f k a p q fun x next => Lies (put x) a next

/-- What is read begins at `start` if the tokens do not begin before. -/
abbrev Begun (put : α → Outline → Outline) (start : Nat) (p q : Parser α) : Prop :=
  ∀ a, Parses f k a p q fun x next => start ≤ a → Lies (put x) start next

/-- A range is read, and what lies in it. -/
abbrev Enclosed (put : α → Outline → Outline) (p q : Parser (Span × α)) : Prop :=
  ∀ a, Parses f k a p q fun r next => r.1.Fits a next ∧ Lies (put r.2) r.1.start r.1.stop

end

section

variable {f : Nat → Nat} {k j place : Nat} {α β : Type} [Placed α] [Placed β] {p p' : Parser α}
  {q q' : α → Parser β} {Q : α → Nat → Prop} {R : β → Nat → Prop} {H : Nat → Prop}
  {put : α → Outline → Outline}

/-- What is read locally goes on to some later place. -/
theorem Reads.parses (h : Reads f k p p') : Parses f k place p p' fun _ next => place ≤ next :=
  ⟨h, h.forward place⟩

/-- One parser behind another. What the first one gives is known where the second one ends. -/
theorem Parses.bind (hp : Parses f k place p p' Q)
    (hq : ∀ x next, Parses f 0 next (q x) (q' (move f x)) fun y last => Q x next → R y last) :
    Parses f k place (p >>= q) (p' >>= q') R where
  reads := hp.reads.bind fun x => (hq x place).reads
  advances := hp.advances.bind fun x next hx => (hq x next).advances.mono fun _ _ h => h hx

/-- **Parsers one after the other**, where the second one takes the tokens that are asked for. -/
theorem Parses.seq (hp : Parses f j place p p' Q)
    (hq : ∀ x next, Parses f k next (q x) (q' (move f x)) fun y last => Q x next → R y last) :
    Parses f k place (p >>= q) (p' >>= q') R where
  reads := hp.reads.seq fun x => (hq x place).reads
  advances := hp.advances.bind fun x next hx => (hq x next).advances.mono fun _ _ h => h hx

/-- A look ahead comes first, and takes nothing. -/
theorem Looks.bind (hp : Looks f p p') (hq : ∀ x, Parses f k place (q x) (q' (move f x)) R) :
    Parses f k place (p >>= q) (p' >>= q') R where
  reads := hp.reads.seq fun x => (hq x).reads
  advances := hp.peeks.bind fun x => (hq x).advances

/-- Behind a parser of which only counts that it does not go back, what was known is known still. -/
theorem Reads.step [Carries H] (hp : Reads f j p p')
    (hq : ∀ x next, Parses f k next (q x) (q' (move f x)) fun y last => H next → R y last) :
    Parses f k place (p >>= q) (p' >>= q') fun y last => H place → R y last :=
  hp.parses.seq fun x next => ⟨(hq x next).reads,
    (hq x next).advances.mono fun _ _ h hle hplace => h (Carries.carry hplace hle)⟩

/-- The same where the first parser takes the tokens that count. -/
theorem Reads.enter [Carries H] (hp : Reads f k p p')
    (hq : ∀ x next, Parses f 0 next (q x) (q' (move f x)) fun y last => H next → R y last) :
    Parses f k place (p >>= q) (p' >>= q') fun y last => H place → R y last :=
  ⟨hp.bind fun x => (hq x place).reads, (hp.step hq).advances⟩

/-- Nothing is taken, and what is made has to lie before the place. -/
theorem Parses.pure {x x' : α} (h : x' = move f x) (hQ : Q x place) :
    Parses f 0 place (Pure.pure x) (Pure.pure x') Q :=
  ⟨.pure h, .pure hQ⟩

/-- Both ways are read locally and lie where they are read. -/
theorem Parses.ite {c : Prop} [Decidable c] {q q' : Parser α} (hp : Parses f k place p p' Q)
    (hq : Parses f k place q q' Q) :
    Parses f k place (if c then p else q) (if c then p' else q') Q :=
  ⟨.ite (fun _ => hp.reads) fun _ => hq.reads, .ite hp.advances hq.advances⟩

theorem Parses.imp {Q' : α → Nat → Prop} (h : Parses f k place p p' Q)
    (hQ : ∀ x next, Q x next → Q' x next) : Parses f k place p p' Q' :=
  ⟨h.reads, h.advances.mono hQ⟩

theorem Parses.weak (h : Parses f k place p p' Q) : Parses f 0 place p p' Q :=
    ⟨h.reads.weak, h.advances⟩

/-- What is read is made into something else. -/
theorem Parses.map {g g' : α → β} (h : Parses f k place p p' fun x next => R (g x) next)
    (hg : ∀ x, g' (move f x) = move f (g x)) : Parses f k place (g <$> p) (g' <$> p') R := by
  refine ⟨h.reads.map hg, ?_⟩
  rw [map_eq_pure_bind]
  exact h.advances.bind fun _ _ hx => .pure hx

theorem parses_unexpected : Parses f k place Parser.unexpected p Q :=
  ⟨reads_unexpected, advances_unexpected⟩

section

variable (h : Parses f k place p p' fun x next => Lies (put x) place next)
include h

/-- What begins at the place may have begun before. -/
theorem Parses.after {s : Nat} :
    Parses f k place p p' fun x next => s ≤ place → Lies (put x) s next :=
  h.imp fun _ _ hx hle => hx.earlier hle

/-- What lies where it is read lies behind the token that is looked at before. -/
theorem Parses.behind {a s : Nat} :
    Parses f k place p p' fun x next => Since a s place → Lies (put x) a next :=
  h.imp fun _ _ hx hle => hx.earlier (Nat.le_trans hle.1 hle.2)

end

/-- What begins with the token that is looked at before. -/
theorem Parses.begun {a start : Nat}
    (h : Parses f k place p p' fun x next => start ≤ place → Lies (put x) start next) :
    Parses f k place p p' fun x next => Since a start place → Lies (put x) a next :=
  h.imp fun _ _ hx hle => (hx hle.2).earlier hle.1

/-- The way to go on is told by the kind of a token ahead. -/
theorem Parses.atKind {i : Nat} (hi : i < 3) {q q' : Option TokenKind → Parser α}
    (hq : ∀ kind, Parses f k place (q kind) (q' kind) Q) :
    Parses f k place (Parser.kindAt i >>= q) (Parser.kindAt i >>= q') Q := by
  refine ⟨(Parser.reads_kindAt hi).seq fun kind => ?_, ?_⟩
  · rw [move_kind?]
    exact (hq kind).reads
  · exact (Parser.peeks_kindAt i).bind fun kind => (hq kind).advances

/-- The next token is where reading goes on. -/
theorem Parses.next {q q' : Token → Parser α}
    (hq : ∀ t b, Parses f (k + 1) b (q t) (q' (move f t)) fun x last =>
      Since place t.span.start b → Q x last) :
    Parses f (k + 1) place (Parser.next >>= q) (Parser.next >>= q') Q := by
  refine ⟨.next fun t => (hq t place).reads, ?_⟩
  intro ts x rest stop hts h
  obtain ⟨t, mid, ht, hx⟩ := bind_eq_ok.mp h
  cases ts with
  | nil => cases ht
  | cons first others =>
    obtain ⟨rfl, rfl⟩ := pure_eq_ok.mp ht
    have hfirst : Along first.span.start (first :: others) stop := ⟨Nat.le_refl _, hts.2⟩
    obtain ⟨next, hnext, hQ⟩ := (hq first first.span.start).advances _ x rest stop hfirst hx
    exact ⟨next, hnext, hQ ⟨hts.1, Nat.le_refl _⟩⟩

/-- A loop that counts down from the number of tokens, and what follows it. -/
theorem Parses.countedAllThen {p p' : Nat → Parser α} (hp : ∀ n, ReadsIn f n k (p n) p')
    (hplace : ∀ fuel, Advances place (p fuel) Q)
    (hq : ∀ x next, Parses f 0 next (q x) (q' (move f x)) fun y last => Q x next → R y last) :
    Parses f k place (do q (← p (← get).length)) (do q' (← p' (← get).length)) R where
  reads := .countedAllThen hp fun x => (hq x place).reads
  advances := peeks_get.bind fun _ => (hplace _).bind fun x next hx =>
    (hq x next).advances.mono fun _ _ h => h hx

end

namespace Parser

variable {f : Nat → Nat} {k place : Nat}

/-! ## Section 4: Single tokens -/

theorem looks_nextIs (h : ByKind accepts) : Looks f (nextIs accepts) (nextIs accepts) :=
  ⟨reads_nextIs h, peeks_nextIs _⟩

theorem looks_atSymbol (s : Symbol) : Looks f (atSymbol s) (atSymbol s) :=
    looks_nextIs (byKind_isSymbol s)

theorem looks_atKeyword (k : Keyword) : Looks f (atKeyword k) (atKeyword k) :=
  looks_nextIs (byKind_isKeyword k)

theorem looks_atTerminator : Looks f atTerminator atTerminator := looks_nextIs byKind_isTerminator

/-- A token fits between the place before it and the one behind it. -/
theorem parses_token (h : ByKind accepts) :
    Parses f 1 place (token accepts) (token accepts) fun t next => t.span.Fits place next := by
  refine ⟨reads_token h, ?_⟩
  intro ts t rest stop hts h
  obtain ⟨rfl, -⟩ := token_eq_ok.mp h
  exact ⟨t.span.stop, hts.2.2, hts.1, hts.2.1, Nat.le_refl _⟩

theorem parses_anyToken : Parses f 1 place anyToken anyToken fun t next => t.span.Fits place next :=
  parses_token fun _ _ _ => rfl

theorem parses_symbol (s : Symbol) :
    Parses f 1 place (symbol s) (symbol s) fun t next => t.span.Fits place next :=
  parses_token (byKind_isSymbol s)

theorem parses_keyword (k : Keyword) :
    Parses f 1 place (keyword k) (keyword k) fun t next => t.span.Fits place next :=
  parses_token (byKind_isKeyword k)

theorem parses_identifier : Parses f 1 place identifier identifier fun n next =>
    n.span.Fits place next :=
  (parses_token byKind_isWord).bind fun _ _ => .pure rfl id

/-! ## Section 5: Repetition -/

/-- From what holds of single items, `P` is made up for lists of them. Between two items there may
be tokens that separate them. -/
structure Rows {α : Type} (Q : Nat → α → Nat → Prop) (P : Nat → List α → Nat → Prop) : Prop where
  nil : ∀ a, P a [] a
  cons : ∀ {a b b' c x xs}, Q a x b → b ≤ b' → P b' xs c → P a (x :: xs) c

/-- Expressions are rows of expressions, and so on for the other lists of a tree. -/
theorem rows_exprs : Rows (fun a e b => Lies (ofExpr e) a b) fun a es b =>
    Lies (ofExprs es) a b where
  nil _ := .none (Nat.le_refl _)
  cons he hle hes := he.seq (hes.earlier hle)

theorem rows_elements :
    Rows (fun a e b => Lies (ofElement e) a b) fun a es b => Lies (ofElements es) a b where
  nil _ := .none (Nat.le_refl _)
  cons he hle hes := he.seq (hes.earlier hle)

theorem rows_stmts : Rows (fun a t b => Lies (ofStmt t) a b) fun a ts b =>
    Lies (ofStmts ts) a b where
  nil _ := .none (Nat.le_refl _)
  cons ht hle hts := ht.seq (hts.earlier hle)

theorem rows_members : Rows (fun a m b => Lies (ofMember m) a b) fun a ms b =>
    Lies (ofMembers ms) a b where
  nil _ := .none (Nat.le_refl _)
  cons hm hle hms := hm.seq (hms.earlier hle)

/-- Items that are read as several expressions each. -/
theorem rows_flatMap {α : Type} (f : α → List Expr) :
    Rows (fun a x b => Lies (ofExprs (f x)) a b) fun a xs b =>
      Lies (ofExprs (xs.flatMap f)) a b where
  nil _ := .none (Nat.le_refl _)
  cons hx hle hxs := by
    rw [List.flatMap_cons]
    exact hx.exprs_append (hxs.earlier hle)

section

variable {α : Type} {Q : Nat → α → Nat → Prop} {P : Nat → List α → Nat → Prop}
    {item item' : Parser α}

/-- The induction is on the rounds. Each item begins behind the one before it. -/
theorem advances_manyRounds (hrows : Rows Q P) {ends : Parser Bool} (hends : Peeks ends)
    (hitem : ∀ a, Advances a item (Q a)) (fuel : Nat) :
    ∀ a, Advances a (manyRounds ends item fuel) (P a) := by
  induction fuel with
  | zero => exact fun _ => advances_unexpected
  | succ fuel ih =>
    intro a
    refine hends.bind fun _ => .ite (.pure (hrows.nil a)) ?_
    refine (hitem a).bind fun x b hx => ?_
    refine (ih b).bind fun xs c hxs => .pure ?_
    exact hrows.cons hx (Nat.le_refl _) hxs

/-- The same with commas between the items. -/
theorem advances_listRounds (hrows : Rows Q P) (stop : Token → Bool)
    (hitem : ∀ a, Advances a item (Q a))
    (fuel : Nat) : ∀ a, Advances a (listRounds stop item fuel) (P a) := by
  induction fuel with
  | zero => exact fun _ => advances_unexpected
  | succ fuel ih =>
    intro a
    have hcomma := (reads_skipSymbol (f := id) .comma).forward
    refine (peeks_nextIs stop).bind fun _ => .ite (.pure (hrows.nil a)) ?_
    refine (hitem a).bind fun x b hx => ?_
    refine (hcomma b).bind fun _ b' hle => .ite ?_ ?_
    · exact (ih b').bind fun xs c hxs => .pure (hrows.cons hx hle hxs)
    · refine (peeks_nextIs stop).bind fun _ => .ite (.pure ?_) advances_unexpected
      exact hrows.cons hx hle (hrows.nil b')

variable [Placed α]

/-- **Items up to an end** lie one behind the other. -/
theorem parses_many (hrows : Rows Q P) {ends : Parser Bool} (hends : Looks f ends ends)
    (hitem : ∀ a, Parses f 1 a item item' (Q a)) :
    Parses f 0 place (many ends item) (many ends item') (P place) where
  reads := reads_many hends.reads (hitem place).reads
  advances := peeks_get.bind fun _ =>
    advances_manyRounds hrows hends.peeks (fun a => (hitem a).advances) _ place

/-- **Items with commas between them** lie one behind the other. -/
theorem parses_listUntil (hrows : Rows Q P) {stop : Token → Bool} (hstop : ByKind stop)
    (hitem : ∀ a, Parses f k a item item' (Q a)) :
    Parses f 0 place (listUntil stop item) (listUntil stop item') (P place) where
  reads := reads_listUntil hstop (hitem place).reads
  advances := peeks_get.bind fun _ => advances_listRounds hrows stop
    (fun a => (hitem a).advances) _ place

theorem parses_list (hrows : Rows Q P) (close : Symbol)
    (hitem : ∀ a, Parses f k a item item' (Q a)) :
    Parses f 0 place (list close item) (list close item') (P place) :=
  parses_listUntil hrows (byKind_isSymbol close) hitem

theorem parses_items (hrows : Rows Q P) (hitem : ∀ a, Parses f 1 a item item' (Q a)) :
    Parses f 0 place (items item) (items item') (P place) :=
  parses_listUntil hrows byKind_isTerminator hitem

/-- What stands between two symbols lies between them. -/
theorem parses_between (opening closing : Symbol) {put : α → Outline → Outline}
    (h : ∀ a, Parses f k a item item' fun x next => Lies (put x) a next) :
    Parses f 1 place (between opening closing item) (between opening closing item') fun r next =>
      r.1.Fits place next ∧ Lies (put r.2) r.1.start r.1.stop := by
  refine (parses_symbol opening).bind fun first a => ?_
  refine (h a).seq fun x b => ?_
  refine (parses_symbol closing).seq fun last c => .pure rfl ?_
  intro hlast hx hfirst
  have hle := hx.le
  have hspan : first.span.start ≤ last.span.stop := by omega
  have hinside : Lies (put x) first.span.start last.span.stop := hx.widen (by omega) (by omega)
  exact ⟨⟨hfirst.1, hspan, hlast.2.2⟩, hinside⟩

/-- What stands in brackets lies between them, whatever it is. -/
theorem parses_around (opening closing : Symbol) (h : Reads f k item item') :
    Parses f 1 place (between opening closing item) (between opening closing item') fun r next =>
      r.1.Fits place next := by
  have hnone : ∀ a, Parses f k a item item' fun _ next => Lies (fun rest => rest) a next :=
    fun _ => h.parses.imp fun _ _ hle => .none hle
  exact (parses_between opening closing hnone).imp fun _ _ hr => hr.1

end

/-! ## Section 6: Ends of statements, arguments and hooks -/

/-- A statement ends at its terminator. -/
theorem parses_terminator :
    Parses f 1 place terminator terminator fun stop next => place ≤ stop ∧ stop ≤ next := by
  refine .next fun t a => ?_
  rw [kind_move]
  split
  · exact parses_anyToken.bind fun mark b => .pure rfl (by omega)
  · refine parses_anyToken.bind fun close b => .atKind (by decide) fun _ =>
      .ite ?_ (.pure rfl (by omega))
    exact parses_anyToken.seq fun tag c => .pure rfl (by omega)
  · exact parses_unexpected

/-- What is nested is read locally and lies where it is read. -/
structure Nested (f : Nat → Nat) (g g' : Recursion) : Prop where
  expr : ∀ level, Laid f 1 ofExpr (g.expr level) (g'.expr level)
  stmt : Laid f 1 ofStmt g.stmt g'.stmt
  hooks : ∀ a, Parses f 1 a g.hooks g'.hooks fun s next => s.Fits a next

/-- What is nested is read locally, wherever it lies. -/
theorem Nested.reads {g g' : Recursion} (hg : Nested f g g') : ReadAlike f g g' :=
  ⟨fun level => (hg.expr level 0).reads, (hg.stmt 0).reads, (hg.hooks 0).reads⟩

variable {g g' : Recursion} (hg : Nested f g g')

include hg

theorem parses_stmts {ends : Parser Bool} (hends : Looks f ends ends) :
    Laid f 0 ofStmts (many ends g.stmt) (many ends g'.stmt) :=
  fun _ => parses_many rows_stmts hends hg.stmt

/-- Statements in braces. -/
theorem parses_block : Enclosed f 1 ofStmts (block g) (block g') :=
  fun _ => parses_between _ _ (parses_stmts hg (looks_atSymbol _))

omit hg in
theorem looks_atNamedArgument : Looks f atNamedArgument atNamedArgument := by
  refine ⟨reads_atNamedArgument, (peeks_nextIs _).andThen fun _ => .ite ?_ (.pure _)⟩
  exact (peeks_kindAt 1).andThen fun _ => .pure _

/-- An argument is its value. A name or dots before it are no part of the tree. -/
theorem parses_argument : Laid f 1 ofExpr (argument g) (argument g') := by
  intro a
  refine looks_atNamedArgument.bind fun _ => .ite ?_ ?_
  · refine parses_anyToken.seq fun _ b => ?_
    refine parses_anyToken.seq fun _ c => ?_
    exact (hg.expr 0 c).imp fun _ _ he hc hb => he.earlier (by omega)
  · exact (reads_skipSymbol _).parses.seq fun _ b => (hg.expr 0 b).imp fun _ _ he hb =>
      he.earlier hb

theorem parses_arguments : Enclosed f 1 ofExprs (arguments g) (arguments g') :=
  fun _ => parses_between _ _ fun _ => parses_list rows_exprs _ (parses_argument hg)

theorem parses_hooks : Parses f 1 place (hooks g) (hooks g') fun s next => s.Fits place next :=
  .map (parses_around _ _ (reads_many (reads_atSymbol _) (reads_hook hg.reads))) fun _ => rfl

/-! ## Section 7: Members -/

/-- A constant is its value, behind its name. -/
theorem parses_constantItem : Laid f 1 ofExpr (constantItem g) (constantItem g') := by
  intro a
  refine reads_identifier.parses.seq fun _ b => ?_
  refine (reads_symbol _).parses.seq fun _ c => ?_
  exact (hg.expr 0 c).imp fun _ _ he hc hb => he.earlier (Nat.le_trans hb hc)

/-- Constants of a class are read to the end of their statement. -/
theorem parses_constantItems :
    Parses f 1 place (constantItems g) (constantItems g') fun stop next =>
      place ≤ stop ∧ stop ≤ next := by
  have hrest : ∀ a, Parses f 1 a (do let _ ← items (constantItem g); terminator)
      (do let _ ← items (constantItem g'); terminator)
      fun stop next => place ≤ a → place ≤ stop ∧ stop ≤ next := fun a =>
    (reads_items (parses_constantItem hg a).reads).step fun _ b =>
      parses_terminator.imp fun _ _ h hb => ⟨Nat.le_trans hb h.1, h.2⟩
  refine .atKind (by decide) fun _ => .ite ?_ ((hrest place).imp fun _ _ h => h (Nat.le_refl _))
  exact reads_hint?.parses.seq fun _ a => hrest a

omit hg in
theorem parses_noExprs : Laid f 0 ofExprs (pure []) (pure []) := fun _ =>
    .pure rfl (.none (Nat.le_refl _))

/-- A method. Its body is a node of its own, since it opens a scope. -/
theorem parses_method (start : Nat) (modifiers : List Modifier) :
    Begun f 1 ofMember start (method g start modifiers) (method g' (f start) modifiers) := by
  intro _
  refine (reads_keyword _).enter fun _ _ => ?_
  refine (reads_skipSymbol _).step fun _ _ => ?_
  refine reads_identifier.step fun _ _ => ?_
  refine (reads_params hg.reads).step fun _ _ => ?_
  refine reads_returnHint?.step fun _ a => ?_
  refine (looks_atSymbol _).bind fun _ => .ite ?_ ?_
  · refine parses_anyToken.seq fun mark b => .pure (by simp) ?_
    intro hmark h
    exact (Lies.none (by omega)).node (Nat.le_refl _) hmark.2.2
  · refine (parses_block hg _).seq fun ⟨braces, body⟩ b => .pure (by simp) ?_
    rintro ⟨hbraces, hbody⟩ h
    exact (hbody.node (Nat.le_trans h hbraces.1) (Nat.le_refl _)).node (Nat.le_refl _) hbraces.2.2

/-- Properties, with hooks or with a terminator behind them. -/
theorem parses_property (start : Nat) (modifiers : List Modifier) :
    Begun f 1 ofMember start (property g start modifiers) (property g' (f start) modifiers) := by
  intro _
  refine reads_hint?.step fun _ _ => ?_
  refine (reads_propertyItem hg.reads).enter fun first _ => ?_
  refine (looks_atSymbol _).bind fun _ => .ite ?_ ((reads_skipSymbol _).step fun _ _ =>
    .ite ((reads_sequence (reads_propertyItem hg.reads)).step ?_) (Reads.step (.pure rfl) ?_))
  · refine (hg.hooks _).seq fun braces a => .pure (by simp) ?_
    intro hbraces h
    exact .leaf (Nat.le_refl _) (by omega) hbraces.2.2
  all_goals
    intro _ _
    refine parses_terminator.seq fun stop a => .pure (by simp) ?_
    intro hstop h
    exact .leaf (Nat.le_refl _) (by omega) hstop.2

omit hg in
/-- Traits that a class uses, and rules for their methods. -/
theorem parses_traitUse (start : Nat) : Begun f 1 ofMember start (traitUse start)
    (traitUse (f start)) := by
  intro _
  refine (reads_keyword _).enter fun _ _ => ?_
  refine (reads_listUntil byKind_endsTraits reads_qualifiedName).step fun names _ => ?_
  refine (looks_atSymbol _).bind fun _ => .ite ?_ ?_
  · have hrules := reads_many (f := f) (reads_atSymbol .rightBrace) reads_adaptation
    refine (parses_around _ _ hrules).seq fun r a => .pure (by simp) ?_
    intro hr h
    exact .leaf (Nat.le_refl _) (by omega) hr.2.2
  · exact parses_terminator.seq fun stop a => .pure (by simp) fun hstop h =>
      .leaf (Nat.le_refl _) (by omega) hstop.2

/-- A case of an enumeration. -/
theorem parses_enumCase (start : Nat) :
    Begun f 1 ofMember start (enumCase g start) (enumCase g' (f start)) := by
  intro _
  refine (reads_keyword _).enter fun _ _ => ?_
  refine reads_identifier.step fun _ _ => ?_
  refine (reads_skipSymbol _).step fun _ a => .ite ((hg.reads.expr 0).step fun _ b => ?_) ?_
  all_goals
    refine parses_terminator.seq fun stop a => .pure (by simp) ?_
    intro hstop h
    exact .leaf (Nat.le_refl _) (by omega) hstop.2

/-- What may stand behind modifiers: a constant, a method or a property. -/
theorem parses_modified (start : Nat) (modifiers : List Modifier) :
    Begun f 1 ofMember start (modified g start modifiers) (modified g' (f start) modifiers) := by
  intro _
  refine .atKind (by decide) fun kind => ?_
  split
  · refine (reads_keyword _).enter fun _ a => ?_
    refine (parses_constantItems hg).seq fun stop b => ?_
    exact .pure (by simp) fun hstop h => .leaf (Nat.le_refl _) (by omega) hstop.2
  · exact parses_method hg start modifiers _
  · exact (reads_keyword _).step fun _ _ => parses_property hg start modifiers _
  · exact parses_property hg start modifiers _

/-- **A member of a class** is read locally and lies where it is read. -/
theorem parses_member : Laid f 1 ofMember (member g) (member g') := by
  -- Every kind of member begins with the first token, be it a word, a modifier or an attribute.
  intro a
  refine .next fun t b => ?_
  refine (looks_atKeyword _).bind fun _ => .ite (parses_traitUse _ _).begun ?_
  refine (reads_attributes hg.reads).step fun _ _ => ?_
  refine (looks_atKeyword _).bind fun _ => ?_
  refine .ite (parses_enumCase hg _ _).begun (reads_modifiers.step fun modifiers _ => ?_)
  rw [move_modifiers]
  exact (parses_modified hg _ modifiers _).begun

/-- The members of a class, in braces. -/
theorem parses_members : Enclosed f 1 ofMembers (members g) (members g') :=
  fun _ => parses_between _ _ fun _ => parses_many rows_members (looks_atSymbol _)
    (parses_member hg)

end Parser

end Grammar

end CodeInsight
