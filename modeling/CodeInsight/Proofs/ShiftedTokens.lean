import CodeInsight.Proofs.WordTokens
import CodeInsight.Proofs.MovedTrees

/-!
# Tokens at other offsets

When a piece of a text is exchanged for a longer or a shorter one, the text behind it stands at
other offsets. Its tokens are the same there, at these offsets.

## Main Results

- `Grammar.Shift`: how offsets change around an exchanged piece
- `Grammar.run_shift`: the tokens of a text at another place
- `Grammar.before_head`: the first token is the one that was read, if no tokens are lost
-/

namespace CodeInsight.Grammar

open Lexeme Template Lexer

variable {parts : List Part} {more : Reading} {mode : Mode} {cs : Text} {t : Token}

/-! ## Section 1: One round of the lexer -/

section

variable {offset : Nat}

/-- What is left of the text after `n` characters, read in the mode that holds there. -/
def runAfter (fuel : Nat) (mode : Mode) (parts : List Part) (offset : Nat) (cs : Text) (n : Nat) :
    Reading :=
  let stop := offset + Text.size (cs.take n)
  let next := settle mode parts ⟨offset, stop⟩
  run fuel next.1 next.2 stop (cs.drop n)

/-- A gap is not closed, or it takes some characters, or there is none. -/
theorem gapIn_cases (mode : Mode) (cs : Text) :
    gapIn mode cs = none ∨ (∃ n, gapIn mode cs = some (n + 1)) ∨ gapIn mode cs = some 0 := by
  cases gapIn mode cs with
  | none => exact .inl rfl
  | some n =>
    cases n with
    | zero => exact .inr (.inr rfl)
    | succ n => exact .inr (.inl ⟨n, rfl⟩)

variable (hcs : cs ≠ [])
include hcs

theorem run_unclosed (hgap : gapIn mode cs = none) (fuel : Nat) :
    run (fuel + 1) mode parts offset cs = failure parts (offset + Text.size cs) ⟨[], none⟩ := by
  obtain ⟨c, rest, rfl⟩ := List.exists_cons_of_ne_nil hcs
  simp [run, hgap]

theorem run_gap {n : Nat} (hgap : gapIn mode cs = some (n + 1)) (fuel : Nat) :
    run (fuel + 1) mode parts offset cs = runAfter fuel mode parts offset cs (n + 1) := by
  obtain ⟨c, rest, rfl⟩ := List.exists_cons_of_ne_nil hcs
  simp [run, runAfter, hgap]

theorem run_token (hgap : gapIn mode cs = some 0)
    (hkind : (step mode parts offset cs).lexeme.kind ≠ .invalid) (fuel : Nat) :
    run (fuel + 1) mode parts offset cs =
      (runAfter fuel (step mode parts offset cs).mode (step mode parts offset cs).parts offset cs
        (step mode parts offset cs).lexeme.length).before
        ⟨(step mode parts offset cs).lexeme.kind,
          String.ofList (cs.take (step mode parts offset cs).lexeme.length),
          ⟨offset, offset + Text.size (cs.take (step mode parts offset cs).lexeme.length)⟩⟩ := by
  obtain ⟨c, rest, rfl⟩ := List.exists_cons_of_ne_nil hcs
  simp [run, runAfter, hgap, hkind]

theorem run_invalid (hgap : gapIn mode cs = some 0)
    (hkind : (step mode parts offset cs).lexeme.kind = .invalid) (fuel : Nat) :
    run (fuel + 1) mode parts offset cs =
      failure (step mode parts offset cs).parts
        (offset + Text.size (cs.take (step mode parts offset cs).lexeme.length))
        (run fuel .code []
          (offset + Text.size (cs.take ((step mode parts offset cs).lexeme.length + 1)))
          (cs.drop ((step mode parts offset cs).lexeme.length + 1))) := by
  obtain ⟨c, rest, rfl⟩ := List.exists_cons_of_ne_nil hcs
  have hsize : ∀ n, Text.size ((c :: rest).take n) + Text.size (((c :: rest).drop n).take 1) =
      Text.size ((c :: rest).take (n + 1)) := fun n => by
    rw [← Text.size_append, ← List.take_add]
  simp only [run, hgap, hkind, if_true, List.splitAt_eq, List.drop_drop, Nat.add_assoc, hsize]

end

/-- The token of a first line that names an interpreter, if there is one. -/
def lineTokens (line : Text) : List Token :=
  if line.isEmpty then [] else [⟨.markup, String.ofList line, ⟨0, Text.size line⟩⟩]

theorem exists_firstLine (text : Text) :
    ∃ line rest, text.splitAt (interpreterLine text) = (line, rest) ∧ text = line ++ rest :=
  ⟨_, _, List.splitAt_eq, (List.take_append_drop _ _).symm⟩

/-- The tokens of a source text are that of its first line and those that are read behind it. -/
theorem tokenize_of_splitAt {text line rest : Text}
    (h : text.splitAt (interpreterLine text) = (line, rest)) :
    tokenize text =
      lineTokens line ++ (run (rest.length + 1) .markup [] (Text.size line) rest).tokens := by
  unfold tokenize lineTokens
  rw [h]
  dsimp only
  split <;> rfl

/-- A token other than markup is read behind the first line. -/
theorem lineTokens_split {line : Text} {more A B : List Token}
    (h : lineTokens line ++ more = A ++ t :: B) (ht : t.kind ≠ .markup) :
    ∃ A', A = lineTokens line ++ A' ∧ more = A' ++ t :: B := by
  unfold lineTokens at h ⊢
  split
  next hline =>
    rw [if_pos hline] at h
    exact ⟨A, rfl, h⟩
  next hline =>
    rw [if_neg hline] at h
    cases A with
    | nil => exact absurd (congrArg Token.kind (List.cons.inj h).1.symm) ht
    | cons a A =>
      obtain ⟨rfl, hmore⟩ := List.cons.inj h
      exact ⟨A, rfl, hmore⟩

/-! ## Section 2: Offsets around an exchange -/

/-- `f` takes offsets of a text to those of the text in which the piece from `p` to `q` is exchanged
for one that ends at `q'`. -/
structure Shift (f : Nat → Nat) (p q q' : Nat) : Prop where
  nonempty : p < q
  nonempty' : p < q'
  low : ∀ n ≤ p, f n = n
  high : ∀ n, f (q + n) = q' + n

/-- An offset that is not within the piece. -/
def Outside (p q n : Nat) : Prop := n ≤ p ∨ q ≤ n

section

variable {f : Nat → Nat} {p q q' : Nat}

theorem Shift.add (hf : Shift f p q q') {m : Nat} (h : q ≤ m) (n : Nat) : f (m + n) = f m + n := by
  obtain ⟨k, rfl⟩ := Nat.exists_eq_add_of_le h
  rw [Nat.add_assoc, hf.high, hf.high, Nat.add_assoc]

theorem Shift.le_iff (hf : Shift f p q q') {m n : Nat} (hm : Outside p q m) (hn : Outside p q n) :
    f m ≤ f n ↔ m ≤ n := by
  have hpq := hf.nonempty
  have hpq' := hf.nonempty'
  obtain hm | hm := hm <;> obtain hn | hn := hn
  · rw [hf.low m hm, hf.low n hn]
  · obtain ⟨k, rfl⟩ := Nat.exists_eq_add_of_le hn
    rw [hf.low m hm, hf.high]
    omega
  · obtain ⟨k, rfl⟩ := Nat.exists_eq_add_of_le hm
    rw [hf.low n hn, hf.high]
    omega
  · obtain ⟨k, rfl⟩ := Nat.exists_eq_add_of_le hm
    obtain ⟨l, rfl⟩ := Nat.exists_eq_add_of_le hn
    rw [hf.high, hf.high]
    omega

instance : Placed Part := ⟨fun f part => ⟨f part.start, f part.limit, part.closing⟩⟩

instance : Placed Reading := ⟨fun f r => ⟨move f r.tokens, move f r.lostFrom⟩⟩

@[simp] theorem limit_move_part (part : Part) : (move f part).limit = f part.limit := rfl
@[simp] theorem closing_move_part (part : Part) : (move f part).closing = part.closing := rfl

@[simp] theorem tokens_move_reading (r : Reading) : (move f r).tokens = move f r.tokens := rfl
@[simp] theorem lostFrom_move_reading (r : Reading) : (move f r).lostFrom = move f r.lostFrom := rfl

/-- A part that begins and ends outside of the piece. -/
def Part.Outside (p q : Nat) (part : Part) : Prop :=
  CodeInsight.Grammar.Outside p q part.start ∧ CodeInsight.Grammar.Outside p q part.limit

theorem settle_move (hf : Shift f p q q') (hparts : ∀ part ∈ parts, part.Outside p q) (mode : Mode)
    (piece : Span) (hstart : Outside p q piece.start) (hstop : Outside p q piece.stop) :
    settle mode (move f parts) (move f piece) =
      ((settle mode parts piece).1, move f (settle mode parts piece).2) := by
  cases parts with
  | nil => rfl
  | cons part outer =>
    have hlimit := (hparts part List.mem_cons_self).2
    have hle := hf.le_iff hstart hlimit
    have hle' := hf.le_iff hlimit hstop
    simp only [settle, move_cons, limit_move_part, closing_move_part, start_move,
      stop_move, hle, hle']
    split <;> rfl

theorem step_plain (offset : Nat) (hmode : mode.Plain) (hcs : cs ≠ [])
    (hparts : ∀ part ∈ parts, part.closing.Plain) :
    ∀ part ∈ (step mode parts offset cs).parts, part.closing.Plain := by
  obtain ⟨-, -, heq | ⟨closing, rfl, heq⟩⟩ := step_spec hmode parts offset hcs
  · rwa [heq]
  · rw [heq]
    exact List.forall_mem_cons.mpr ⟨hmode, hparts⟩

/-- The parts after a piece of source are among those before. -/
theorem settle_spec (hmode : mode.Plain) (hparts : ∀ part ∈ parts, part.closing.Plain)
    (piece : Span) :
    (settle mode parts piece).1.Plain ∧ ∀ part ∈ (settle mode parts piece).2, part ∈ parts := by
  cases parts with
  | nil => exact ⟨hmode, fun part h => h⟩
  | cons part outer =>
    simp only [settle]
    split
    · exact ⟨hparts part List.mem_cons_self, fun part h => List.mem_cons_of_mem _ h⟩
    · exact ⟨hmode, fun part h => h⟩

theorem failure_move (parts : List Part) (place : Nat) (more : Reading) :
    failure (move f parts) (f place) (move f more) = move f (failure parts place more) := by
  have hlast : (move f parts).getLast? = move f parts.getLast? := List.getLast?_map
  unfold Lexer.failure
  rw [hlast]
  cases parts.getLast? <;> rfl

/-- What is lost before a place is lost before it after the exchange. -/
theorem lost_move (hf : Shift f p q q') {lost : Option Nat} {place : Nat}
    (hlost : ∀ place ∈ lost, Outside p q place) (hplace : Outside p q place) :
    ((move f lost).any fun l => l ≤ f place) = lost.any fun l => l ≤ place := by
  cases lost with
  | none => rfl
  | some l =>
    have hle := hf.le_iff (hlost l rfl) hplace
    simp only [move_some, move_nat, Option.any_some, hle]

theorem before_move (hf : Shift f p q q') (hmore : ∀ place ∈ more.lostFrom, Outside p q place)
    (ht : Outside p q t.span.start) : (move f more).before (move f t) = move f (more.before t) := by
  have hlost := lost_move hf hmore ht
  have hspan : (move f t).span.start = f t.span.start := rfl
  unfold Reading.before
  rw [hspan, lostFrom_move_reading, hlost]
  split <;> rfl

/-- A token that is not lost stands in front. -/
theorem before_kept (h : ¬ (more.lostFrom.any fun place => place ≤ t.span.start) = true) :
    more.before t = ⟨t :: more.tokens, more.lostFrom⟩ := by
  unfold Reading.before
  rw [if_neg h]

/-! ## Section 3: Text behind the exchange -/

section

variable {offset : Nat}

theorem codeStep_parts (parts parts' : List Part) (cs : Text) :
    codeStep parts' cs = { codeStep parts cs with parts := parts' } := by
  unfold Lexer.codeStep
  split <;> rfl

theorem partsAt_shift (hf : Shift f p q q') (h : q ≤ offset) (closing : Closing) (parts : List Part)
    (cs : Text) :
    partsAt closing (move f parts) (f offset) cs = move f (partsAt closing parts offset cs) := by
  simp only [partsAt, move_cons]
  rw [← hf.add h]
  rfl

/-- One token at another place. -/
theorem step_shift (hf : Shift f p q q') (h : q ≤ offset) (mode : Mode) (parts : List Part)
    (cs : Text) :
    step mode (move f parts) (f offset) cs =
      { step mode parts offset cs with parts := move f (step mode parts offset cs).parts } := by
  cases mode with
  | markup =>
    simp only [step]
    unfold markupStep
    split <;> rfl
  | code =>
    simp only [step]
    rw [codeStep_parts parts (move f parts), (codeStep_spec parts cs).2.2]
  | template closing =>
    simp only [step]
    unfold templateStep
    split
    · rfl
    · have hparts := partsAt_shift hf h closing parts cs
      change codeStep (partsAt closing (move f parts) (f offset) cs) cs =
        { codeStep (partsAt closing parts offset cs) cs with
          parts := move f (codeStep (partsAt closing parts offset cs) cs).parts }
      rw [hparts, codeStep_parts (partsAt closing parts offset cs), (codeStep_spec _ cs).2.2]
    · rfl
  | ending n => rfl
  | data => rfl

/-- Parts of plain labels that begin and end outside of the piece. -/
def Settled (p q : Nat) (parts : List Part) : Prop :=
  ∀ part ∈ parts, part.closing.Plain ∧ part.Outside p q

theorem Settled.partsAt (h : Settled p q parts) {closing : Closing} (hclosing : closing.Plain)
    (hoffset : Outside p q offset)
    (hlimit : Outside p q (offset + Text.size (cs.take (partLength cs)))) :
    Settled p q (partsAt closing parts offset cs) := by
  intro part hpart
  obtain rfl | hpart := List.mem_cons.mp hpart
  · exact ⟨hclosing, hoffset, hlimit⟩
  · exact h part hpart

theorem Settled.settle (h : Settled p q parts) (hmode : mode.Plain) (piece : Span) :
    (settle mode parts piece).1.Plain ∧ Settled p q (settle mode parts piece).2 := by
  obtain ⟨hplain, hparts⟩ := settle_spec hmode (fun part hpart => (h part hpart).1) piece
  exact ⟨hplain, fun part hpart => h part (hparts part hpart)⟩

theorem failure_lost (h : Settled p q parts) :
    ∀ place ∈ (Lexer.failure parts offset more).lostFrom, Outside p q place := by
  unfold Lexer.failure
  cases hlast : parts.getLast? with
  | none => simp
  | some part =>
    intro place hplace
    cases hplace
    exact (h part (List.mem_of_getLast? hlast)).2.1

theorem before_lost (h : ∀ place ∈ more.lostFrom, Outside p q place) (t : Token) :
    ∀ place ∈ (more.before t).lostFrom, Outside p q place := by
  unfold Reading.before
  split <;> exact h

/-- **The tokens of a text at another place** are moved there. -/
theorem run_shift (hf : Shift f p q q') : ∀ (fuel fuel' : Nat) (mode : Mode) (parts : List Part)
    (offset : Nat) (cs : Text), cs.length < fuel → cs.length < fuel' → mode.Plain →
    Settled p q parts → q ≤ offset →
    run fuel' mode (move f parts) (f offset) cs = move f (run fuel mode parts offset cs) ∧
      ∀ place ∈ (run fuel mode parts offset cs).lostFrom, Outside p q place
  | 0, _, _, _, _, _, hfuel, _, _, _, _ => absurd hfuel (Nat.not_lt_zero _)
  | _ + 1, 0, _, _, _, _, _, hfuel', _, _, _ => absurd hfuel' (Nat.not_lt_zero _)
  | fuel + 1, fuel' + 1, mode, parts, offset, cs, hfuel, hfuel', hmode, hparts, hoffset => by
    have hout : Outside p q offset := .inr hoffset
    have hsum : ∀ n, Outside p q (offset + n) := fun n => .inr (by omega)
    have houtside : ∀ part ∈ parts, part.Outside p q := fun part hpart => (hparts part hpart).2
    by_cases hcs : cs = []
    · subst hcs
      simp only [run]
      have hempty : (move f parts).isEmpty = parts.isEmpty := by cases parts <;> rfl
      rw [hempty]
      split
      · exact ⟨rfl, by simp⟩
      · exact ⟨failure_move parts offset ⟨[], none⟩, failure_lost hparts⟩
    -- a round that takes characters leaves less text than the bounds allow
    have hafter : ∀ {mode : Mode} {parts : List Part} {n : Nat}, 0 < n → mode.Plain →
        Settled p q parts →
        runAfter fuel' mode (move f parts) (f offset) cs n =
          move f (runAfter fuel mode parts offset cs n) ∧
        ∀ place ∈ (runAfter fuel mode parts offset cs n).lostFrom, Outside p q place := by
      intro mode parts n hn hmode hparts
      have hlength : (cs.drop n).length < cs.length := by
        have := List.length_pos_iff.mpr hcs
        simp only [List.length_drop]
        omega
      have hsettle := settle_move hf (fun part hpart => (hparts part hpart).2) mode
        ⟨offset, offset + Text.size (cs.take n)⟩ hout (hsum (Text.size (cs.take n)))
      obtain ⟨hmode', hparts'⟩ := hparts.settle hmode ⟨offset, offset + Text.size (cs.take n)⟩
      obtain ⟨hrun, hlost⟩ := run_shift hf fuel fuel' _ _ (offset + Text.size (cs.take n))
        (cs.drop n) (by omega) (by omega) hmode' hparts' (by omega)
      refine ⟨?_, hlost⟩
      rw [move_span] at hsettle
      simp only [runAfter, ← hf.add hoffset]
      rw [hsettle]
      exact hrun
    obtain hgap | ⟨n, hgap⟩ | hgap := gapIn_cases mode cs
    · rw [run_unclosed hcs hgap, run_unclosed hcs hgap, ← hf.add hoffset]
      exact ⟨failure_move parts _ ⟨[], none⟩, failure_lost hparts⟩
    · rw [run_gap hcs hgap, run_gap hcs hgap]
      exact hafter (Nat.succ_pos n) hmode hparts
    · have hstep := step_shift hf hoffset mode parts cs
      obtain ⟨hproper, hmode', hparts'⟩ := step_spec hmode parts offset hcs
      have hsettled : Settled p q (step mode parts offset cs).parts := by
        obtain heq | ⟨closing, rfl, heq⟩ := hparts'
        · rw [heq]
          exact hparts
        · rw [heq]
          exact hparts.partsAt hmode hout (hsum _)
      by_cases hkind : (step mode parts offset cs).lexeme.kind = .invalid
      · rw [run_invalid hcs hgap hkind, run_invalid hcs hgap (by rw [hstep]; exact hkind), hstep]
        have hlength :
            (cs.drop ((step mode parts offset cs).lexeme.length + 1)).length < cs.length := by
          have := List.length_pos_iff.mpr hcs
          simp only [List.length_drop]
          omega
        obtain ⟨hrun, -⟩ := run_shift hf fuel fuel' .code []
          (offset + Text.size (cs.take ((step mode parts offset cs).lexeme.length + 1)))
          (cs.drop ((step mode parts offset cs).lexeme.length + 1))
          (by omega) (by omega) trivial (by intro part hpart; cases hpart) (by omega)
        refine ⟨?_, failure_lost hsettled⟩
        simp only [← hf.add hoffset]
        rw [← failure_move, ← hrun]
        rfl
      · have hpos := hproper.resolve_left hkind
        obtain ⟨hrun, hlost⟩ := hafter hpos hmode' hsettled
        rw [run_token hcs hgap hkind, run_token hcs hgap (by rw [hstep]; exact hkind), hstep]
        refine ⟨?_, before_lost hlost _⟩
        simp only [hrun, ← hf.add hoffset]
        rw [← before_move hf hlost]
        · rfl
        · exact hout

end

end

/-! ## Section 4: Lost tokens -/

theorem failure_lapse {offset place : Nat}
    (h : (Lexer.failure parts offset more).lostFrom = some place) :
    ∃ rest, (Lexer.failure parts offset more).tokens = ⟨.lapse, "", ⟨place, place⟩⟩ :: rest := by
  unfold Lexer.failure at h ⊢
  split at h
  · cases h
    exact ⟨_, rfl⟩
  · cases h

/-- Where tokens before a text are lost, the text begins with the token that stands for them. -/
theorem run_lost : ∀ (fuel : Nat) (mode : Mode) (parts : List Part) (offset : Nat) (cs : Text)
    {place : Nat}, (run fuel mode parts offset cs).lostFrom = some place → place < offset →
    ∃ rest, (run fuel mode parts offset cs).tokens = ⟨.lapse, "", ⟨place, place⟩⟩ :: rest
  | 0, _, _, _, _, _, hlost, _ => by cases hlost
  | fuel + 1, mode, parts, offset, cs, place, hlost, hplace => by
    have hafter : ∀ mode parts n, (runAfter fuel mode parts offset cs n).lostFrom = some place →
        ∃ rest, (runAfter fuel mode parts offset cs n).tokens =
          ⟨.lapse, "", ⟨place, place⟩⟩ :: rest :=
      fun mode parts n h => run_lost fuel _ _ _ _ h (by omega)
    by_cases hcs : cs = []
    · subst hcs
      simp only [run] at hlost ⊢
      split at hlost
      · cases hlost
      next hparts =>
        rw [if_neg hparts]
        exact failure_lapse hlost
    obtain hgap | ⟨n, hgap⟩ | hgap := gapIn_cases mode cs
    · rw [run_unclosed hcs hgap] at hlost ⊢
      exact failure_lapse hlost
    · rw [run_gap hcs hgap] at hlost ⊢
      exact hafter _ _ _ hlost
    · by_cases hkind : (step mode parts offset cs).lexeme.kind = .invalid
      · rw [run_invalid hcs hgap hkind] at hlost ⊢
        exact failure_lapse hlost
      · rw [run_token hcs hgap hkind] at hlost ⊢
        unfold Reading.before at hlost ⊢
        split at hlost
        next hany =>
          rw [if_pos hany]
          exact hafter _ _ _ hlost
        next hany =>
          -- a token that is kept begins before the place
          simp only at hlost
          rw [hlost, Option.any_some, decide_eq_true_eq] at hany
          exact absurd (Nat.le_of_lt hplace) hany

theorem size_pos (h : cs ≠ []) : 0 < Text.size cs := by
  obtain ⟨c, rest, rfl⟩ := List.exists_cons_of_ne_nil h
  have := c.utf8Size_pos
  simp only [Text.size_cons]
  omega

/-- The first token is the one that was read, unless it stands for tokens that were lost. -/
theorem before_head {fuel n offset : Nat} {z : Token} {zs : List Token} (hcs : cs ≠ []) (hn : 0 < n)
    (ht : t.span.start = offset)
    (h : ((runAfter fuel mode parts offset cs n).before t).tokens = z :: zs)
    (hz : z.kind ≠ .lapse) :
    z = t ∧ (runAfter fuel mode parts offset cs n).tokens = zs ∧
      ¬ ((runAfter fuel mode parts offset cs n).lostFrom.any fun place => place ≤ offset) =
        true := by
  unfold Reading.before at h
  rw [ht] at h
  split at h
  next hany =>
    cases hlost : (runAfter fuel mode parts offset cs n).lostFrom with
    | none =>
      rw [hlost] at hany
      cases hany
    | some place =>
      rw [hlost, Option.any_some, decide_eq_true_eq] at hany
      have hsize : 0 < Text.size (cs.take n) := size_pos (by simp; exact ⟨by omega, hcs⟩)
      obtain ⟨rest, hrest⟩ := run_lost fuel _ _ _ _ hlost (by omega)
      rw [show (runAfter fuel mode parts offset cs n).tokens = _ from hrest] at h
      cases h
      exact absurd rfl hz
  next hany =>
    cases h
    exact ⟨rfl, rfl, hany⟩

end CodeInsight.Grammar
