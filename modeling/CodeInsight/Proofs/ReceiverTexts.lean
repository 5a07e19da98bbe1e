import CodeInsight.Receiver.Chain
import CodeInsight.Receiver.Site
import CodeInsight.Proofs.TextLaws
import Mathlib.Data.List.TakeWhile

/-!
# Receivers as they are written

The expression that a member is fetched from, in the forms in which it is recognised: a variable, a
new object, a static call, a call of a function or anything in parentheses, followed by fetches and
calls. Blanks may stand around operators, and arguments are any texts in which parentheses are
balanced. Reading such a text backwards from its end, a scan meets its links one by one.

## Main Results

- `Expression.text`: the text of a receiver
- `leaveGroups_arguments`, `Chain.group?_arguments`: both directions step over arguments as a whole
- `link?_call`, `link?_word`, `link?_variable`: one link read backwards
- `Fetch.operator?_text`: an operator read backwards
-/

namespace CodeInsight.Receiver

variable {rest : Text} {isPart : Char → Bool} {c : Char} {cs a : Text} {d : Char}

/-! ## Section 1: Runs of characters -/

section

variable {p : Char → Bool} {xs ys : Text}

/-- A run of characters is skipped up to the first character of another kind. -/
theorem dropWhile_run (hxs : ∀ c ∈ xs, p c = true) (hys : ∀ c ∈ ys.head?, p c = false) :
    (xs ++ ys).dropWhile p = ys := by
  rw [List.dropWhile_append_of_pos hxs]
  cases ys with
  | nil => rfl
  | cons c rest => exact List.dropWhile_cons_of_neg (by simp [hys c rfl])

theorem takeWhile_run (hxs : ∀ c ∈ xs, p c = true) (hys : ∀ c ∈ ys.head?, p c = false) :
    (xs ++ ys).takeWhile p = xs := by
  rw [List.takeWhile_append_of_pos hxs]
  cases ys with
  | nil => exact List.append_nil xs
  | cons c rest => rw [List.takeWhile_cons_of_neg (by simp [hys c rfl]), List.append_nil]

end

theorem forall_head?_cons {p : Char → Prop} (h : p d) (rest : Text) :
    ∀ c ∈ (d :: rest).head?, p c := by
  intro c hc
  obtain rfl : d = c := Option.some.inj hc
  exact h

theorem isWordPart_of_isSpace (h : Text.isSpace c = true) : Text.isWordPart c = false := by
  simp only [Text.isSpace, Bool.or_eq_true, beq_iff_eq] at h
  rcases h with (((rfl | rfl) | rfl) | rfl) | rfl <;> decide

theorem ne_of_isSpace (h : Text.isSpace c = true) (hd : Text.isSpace d = false) : c ≠ d := by
  rintro rfl
  rw [h] at hd
  cases hd

section

variable (h : Text.isWordPart c = true)
include h

theorem isSpace_of_isWordPart : Text.isSpace c = false := by
  cases hspace : Text.isSpace c with
  | false => rfl
  | true =>
    rw [isWordPart_of_isSpace hspace] at h
    cases h

theorem ne_of_isWordPart (hd : Text.isWordPart d = false) : c ≠ d := by
  rintro rfl
  rw [h] at hd
  cases hd

theorem isNamePart_of_isWordPart : Text.isNamePart c = true := by
  rw [Text.isNamePart, h, Bool.true_or]

end

theorem isWordPart_of_isNamePart (h : Text.isNamePart c = false) : Text.isWordPart c = false :=
  (Bool.or_eq_false_iff.mp h).1

theorem isNamePart_of_isSpace (h : Text.isSpace c = true) : Text.isNamePart c = false := by
  rw [Text.isNamePart, isWordPart_of_isSpace h, Bool.false_or]
  exact beq_eq_false_iff_ne.mpr (ne_of_isSpace h (by decide))

/-- A text of one kind of characters that is not empty. -/
structure Run (isPart : Char → Bool) where
  chars : Text
  ne_nil : chars ≠ []
  all : chars.all isPart = true
  deriving DecidableEq

/-- The name of a variable, a member or an unqualified class. -/
abbrev Word := Run Text.isWordPart

/-- A name that may be qualified. -/
abbrev QualifiedName := Run Text.isNamePart

theorem Run.of_mem (r : Run isPart) : ∀ c ∈ r.chars, isPart c = true :=
  List.all_eq_true.mp r.all

def Run.reverse {isPart : Char → Bool} (r : Run isPart) : Run isPart :=
  ⟨r.chars.reverse, by simpa using r.ne_nil, by rw [List.all_reverse]; exact r.all⟩

theorem Run.of_mem_reverse (r : Run isPart) : ∀ c ∈ r.chars.reverse, isPart c = true :=
  r.reverse.of_mem

theorem Run.of_head? (r : Run isPart) (h : c ∈ (r.chars ++ rest).head?) : isPart c = true := by
  cases hrun : r.chars with
  | nil => exact absurd hrun r.ne_nil
  | cons d ds =>
    rw [hrun] at h
    obtain rfl : d = c := Option.some.inj h
    exact r.of_mem d (hrun ▸ List.mem_cons_self)

theorem Run.length_pos (r : Run isPart) : 0 < r.chars.reverse.length := by
  rw [List.length_reverse]
  exact List.length_pos_of_ne_nil r.ne_nil

theorem Word.isNamePart_of_mem_reverse (w : Word) :
    ∀ c ∈ w.chars.reverse, Text.isNamePart c = true :=
  fun c hc => isNamePart_of_isWordPart (w.of_mem_reverse c hc)

/-- Blanks, or nothing. -/
structure Blanks where
  chars : Text
  all : chars.all Text.isSpace = true
  deriving DecidableEq

def Blanks.none : Blanks := ⟨[], rfl⟩

/-- The blanks that a text begins with. -/
def Blanks.leading (text : Text) : Blanks := ⟨text.takeWhile Text.isSpace, List.all_takeWhile⟩

theorem Blanks.of_mem (b : Blanks) : ∀ c ∈ b.chars, Text.isSpace c = true :=
  List.all_eq_true.mp b.all

def Blanks.reverse (b : Blanks) : Blanks :=
  ⟨b.chars.reverse, by rw [List.all_reverse]; exact b.all⟩

theorem Blanks.of_mem_reverse (b : Blanks) : ∀ c ∈ b.chars.reverse, Text.isSpace c = true :=
  b.reverse.of_mem

/-- Blanks and what follows them begin with a blank, or as what follows them does. -/
theorem Blanks.head?_append (b : Blanks) (h : c ∈ (b.chars ++ rest).head?) :
    Text.isSpace c = true ∨ c ∈ rest.head? := by
  cases hb : b.chars with
  | nil =>
    rw [hb] at h
    exact .inr h
  | cons d ds =>
    rw [hb] at h
    obtain rfl : d = c := Option.some.inj h
    exact .inl (b.of_mem d (hb ▸ List.mem_cons_self))

/-! ## Section 2: Balanced texts -/

/-- How many parentheses are open behind a character. -/
def depthBehind (depth : Nat) (c : Char) : Nat :=
  if c = '(' then depth + 1 else if c = ')' then depth - 1 else depth

/-- How many parentheses are open behind a text, if none is closed before it is opened. -/
def unclosed : Nat → Text → Option Nat
  | depth, [] => some depth
  | depth, c :: cs => if c = ')' ∧ depth = 0 then none else unclosed (depthBehind depth c) cs

/-- Arguments of a call, or what else stands in parentheses. -/
structure Arguments where
  chars : Text
  balanced : unclosed 0 chars = some 0
  deriving DecidableEq

def Arguments.none : Arguments := ⟨[], rfl⟩

/-- The arguments with the parentheses around them. -/
def Arguments.text (args : Arguments) : Text := '(' :: (args.chars ++ [')'])

theorem unclosed_cons {depth after : Nat} (h : unclosed depth (c :: cs) = some after) :
    (c = ')' → 0 < depth) ∧ unclosed (depthBehind depth c) cs = some after := by
  rw [unclosed] at h
  split at h
  next => cases h
  next hopen => exact ⟨fun hc => Nat.pos_of_ne_zero fun hzero => hopen ⟨hc, hzero⟩, h⟩

/-- A step backwards over one character leaves no group if more groups are open behind the character
than in front of the text. -/
theorem leaveGroups_cons {depth : Nat} (hclose : c = ')' → 0 < depth) (more : Nat) (tail : Text) :
    leaveGroups (depthBehind depth c + more + 1) (c :: tail) =
      leaveGroups (depth + more + 1) tail := by
  unfold depthBehind
  by_cases hopen : c = '('
  · subst hopen
    rw [if_pos rfl, leaveGroups, if_neg (by omega)]
    congr 1
    omega
  · by_cases hc : c = ')'
    · subst hc
      have hpos := hclose rfl
      rw [if_neg (by decide), if_pos rfl, leaveGroups]
      congr 1
      omega
    · rw [if_neg hopen, if_neg hc, leaveGroups]
      · exact hc
      · exact hopen

theorem leaveGroups_reverse {before after : Nat} (h : unclosed before cs = some after) (more : Nat)
    (tail : Text) :
    leaveGroups (after + more + 1) (cs.reverse ++ tail) = leaveGroups (before + more + 1) tail := by
  -- the scan comes to the first character last, so that it is put in front of `tail`
  induction cs generalizing before tail with
  | nil =>
    obtain rfl := Option.some.inj h
    rfl
  | cons c cs ih =>
    obtain ⟨hclose, hrest⟩ := unclosed_cons h
    rw [List.reverse_cons, List.append_assoc, List.singleton_append, ih hrest,
      leaveGroups_cons hclose]

/-- **Backwards over arguments.** -/
theorem leaveGroups_arguments (args : Arguments) (tail : Text) :
    leaveGroups 1 (args.chars.reverse ++ '(' :: tail) = some tail := by
  rw [leaveGroups_reverse args.balanced 0, leaveGroups, if_pos (Nat.le_refl 1)]

namespace Chain

theorem groupRest?_append {before after : Nat} (h : unclosed before cs = some after) (tail : Text) :
    groupRest? (before + 1) (cs ++ tail) =
      (groupRest? (after + 1) tail).map fun found => (cs ++ found.1, found.2) := by
  induction cs generalizing before with
  | nil =>
    obtain rfl := Option.some.inj h
    exact Option.map_id'.symm
  | cons c cs ih =>
    obtain ⟨hclose, hrest⟩ := unclosed_cons h
    -- what is closed within the text has been opened in it, so that the group goes on
    have hinside : ¬(c = ')' && decide (before + 1 ≤ 1)) = true := by
      simp only [Bool.and_eq_true, decide_eq_true_eq, not_and]
      intro hc
      have hpos := hclose hc
      omega
    have hdepth :
      (if c = '(' then before + 1 + 1 else if c = ')' then before + 1 - 1 else before + 1) =
        depthBehind before c + 1 := by
      unfold depthBehind
      split
      next => rfl
      next =>
        split
        next hc =>
          have hpos := hclose hc
          omega
        next => rfl
    rw [List.cons_append, groupRest?, if_neg hinside]
    simp only [hdepth, ih hrest, Option.map_map]
    rfl

/-- **Forwards over arguments.** -/
theorem group?_arguments (args : Arguments) (tail : Text) :
    group? (args.text ++ tail) = some (args.chars, tail) := by
  rw [Arguments.text, List.cons_append, List.append_assoc, group?, groupRest?_append args.balanced,
    List.singleton_append, groupRest?, if_pos (by decide)]
  simp

end Chain

/-! ## Section 3: Receivers -/

/-- An operator that fetches a member, with the blanks around it. -/
structure Fetch where
  before : Blanks
  nullsafe : Bool
  after : Blanks
  deriving DecidableEq

def Fetch.text (f : Fetch) : Text :=
  f.before.chars ++ ((if f.nullsafe then "?->".toList else "->".toList) ++ f.after.chars)

/-- What follows the class name in a static call. -/
structure StaticCall where
  before : Blanks
  after : Blanks
  method : Word
  args : Arguments
  deriving DecidableEq

def StaticCall.text (call : StaticCall) : Text :=
  call.before.chars ++ ("::".toList ++ (call.after.chars ++ (call.method.chars ++ call.args.text)))

/-- What a receiver begins with. -/
inductive Stem where
  | variable (name : Word)
  | new (blanks : Run Text.isSpace) (className : QualifiedName) (args : Arguments)
  | staticCall (className : Word) (call : StaticCall)
  | call (name : QualifiedName) (args : Arguments)
  | group (inside : Arguments)
  deriving DecidableEq

def Stem.text : Stem → Text
  | .variable name => '$' :: name.chars
  | .new blanks className args => "new".toList ++ (blanks.chars ++ (className.chars ++ args.text))
  | .staticCall className tail => className.chars ++ tail.text
  | .call name args => name.chars ++ args.text
  | .group inside => inside.text

/-- A fetch of a property, or a call of a method if there are arguments. -/
structure Step where
  fetch : Fetch
  member : Word
  args : Option Arguments
  deriving DecidableEq

def Step.text (s : Step) : Text :=
  s.fetch.text ++ (s.member.chars ++ (s.args.map Arguments.text).getD [])

/-- A receiver as it is written. -/
structure Expression where
  stem : Stem
  steps : List Step
  deriving DecidableEq

def Expression.text (e : Expression) : Text := e.stem.text ++ e.steps.flatMap Step.text

/-! ## Section 4: Links read backwards -/

/-- A text that neither a blank nor a question mark comes first in. -/
def Firm : Text → Prop
  | [] => False
  | c :: _ => Text.isSpace c = false ∧ c ≠ '?'

theorem Firm.append (h : Firm a) (b : Text) : Firm (a ++ b) := by
  cases a with
  | nil => exact h.elim
  | cons c rest => exact h

theorem Firm.isSpace (h : Firm a) : ∀ c ∈ a.head?, Text.isSpace c = false := by
  cases a with
  | nil => exact h.elim
  | cons c rest =>
    intro d hd
    obtain rfl : c = d := Option.some.inj hd
    exact h.1

theorem firm_of_isWordPart (hne : a ≠ []) (h : ∀ c ∈ a, Text.isWordPart c = true) : Firm a := by
  cases a with
  | nil => exact hne rfl
  | cons c rest =>
    have hc := h c List.mem_cons_self
    exact ⟨isSpace_of_isWordPart hc, ne_of_isWordPart hc (by decide)⟩

theorem Word.firm (w : Word) : Firm w.chars.reverse :=
  firm_of_isWordPart (by simpa using w.ne_nil) w.of_mem_reverse

theorem Arguments.reverse_text (args : Arguments) :
    args.text.reverse = ')' :: (args.chars.reverse ++ ['(']) := by
  simp [Arguments.text]

theorem Arguments.firm (args : Arguments) : Firm args.text.reverse := by
  rw [args.reverse_text]
  exact ⟨by decide, by decide⟩

theorem dollar_eq_self (h : ∀ c ∈ rest.head?, c ≠ '$') : dollar rest = rest := by
  cases rest with
  | nil => rfl
  | cons c rest =>
    unfold dollar
    split
    next heq =>
      obtain ⟨rfl, -⟩ := List.cons.inj heq
      exact absurd rfl (h '$' rfl)
    next => rfl

/-- A group in parentheses is one link with the name before it, if there is one. -/
theorem link?_call {name : Text} (hname : ∀ c ∈ name.reverse, Text.isNamePart c = true)
    (args : Arguments) (hrest : ∀ c ∈ rest.head?, Text.isNamePart c = false ∧ c ≠ '$') :
    link? (args.text.reverse ++ (name.reverse ++ rest)) = some rest := by
  have hnamed : (name.reverse ++ rest).dropWhile Text.isNamePart = rest :=
    dropWhile_run hname fun c hc => (hrest c hc).1
  rw [args.reverse_text, List.cons_append, List.append_assoc, List.singleton_append, link?,
    leaveGroups_arguments]
  simp only [Option.bind_eq_bind, Option.bind_some, hnamed, dollar_eq_self fun c hc =>
    (hrest c hc).2, ite_self]
  rfl

/-- Beyond parentheses, a link goes back over a word and a `$`. -/
theorem link?_of_head {back : Text} (h : ∀ c ∈ back.head?, c ≠ ')') :
    link? back =
      if (dollar (back.dropWhile Text.isWordPart)).length < back.length
      then some (dollar (back.dropWhile Text.isWordPart)) else none := by
  cases back with
  | nil => rfl
  | cons c rest =>
    have hc := h c rfl
    rw [link?]
    exact fun tail heq => hc (List.cons.inj heq).1

theorem Word.ne_of_head? (word : Word) (rest : Text) :
    ∀ c ∈ (word.chars.reverse ++ rest).head?, c ≠ ')' := fun _ hc =>
  ne_of_isWordPart (word.reverse.of_head? hc) (by decide)

/-- A word is one link. -/
theorem link?_word (word : Word) (hrest : ∀ c ∈ rest.head?, Text.isWordPart c = false ∧ c ≠ '$') :
    link? (word.chars.reverse ++ rest) = some rest := by
  have hpos := word.length_pos
  rw [link?_of_head (word.ne_of_head? _),
    dropWhile_run word.of_mem_reverse fun c hc => (hrest c hc).1,
    dollar_eq_self fun c hc => (hrest c hc).2, List.length_append, if_pos (by omega)]

/-- A variable is one link. -/
theorem link?_variable (word : Word) (rest : Text) :
    link? (word.chars.reverse ++ '$' :: rest) = some rest := by
  have hstop : ∀ c ∈ ('$' :: rest).head?, Text.isWordPart c = false :=
    forall_head?_cons (by decide) rest
  rw [link?_of_head (word.ne_of_head? _),
    dropWhile_run word.of_mem_reverse hstop, dollar, List.length_append, List.length_cons,
    if_pos (by omega)]

/-! ## Section 5: Operators read backwards -/

theorem skipSpaces_blanks (b : Blanks) (hrest : ∀ c ∈ rest.head?, Text.isSpace c = false) :
    skipSpaces (b.chars.reverse ++ rest) = rest :=
  dropWhile_run b.of_mem_reverse hrest

theorem skipSpaces_firm (b : Blanks) (h : Firm rest) :
    skipSpaces (b.chars.reverse ++ rest) = rest :=
  skipSpaces_blanks b h.isSpace

theorem operator?_plain (h : ∀ c ∈ rest.head?, c ≠ '?') :
    operator? ('>' :: '-' :: rest) = some (rest, false) := by
  unfold operator?
  split
  next heq =>
    obtain ⟨-, hrest⟩ := List.cons.inj (List.cons.inj heq).2
    exact absurd rfl (h '?' (by rw [hrest]; rfl))
  next heq => rw [(List.cons.inj (List.cons.inj heq).2).2]
  next hnone => exact absurd rfl (hnone rest)

variable {f : Fetch}

namespace Fetch

theorem reverse_text (f : Fetch) :
    f.text.reverse = f.after.chars.reverse ++
      ((if f.nullsafe then ['>', '-', '?'] else ['>', '-']) ++ f.before.chars.reverse) := by
  cases h : f.nullsafe <;> simp [text, h]

/-- In front of an operator stands a blank, or the operator itself. -/
theorem head?_reverse_text (h : c ∈ (f.text.reverse ++ rest).head?) :
    Text.isSpace c = true ∨ c = '>' := by
  rw [reverse_text, List.append_assoc, List.append_assoc] at h
  refine (f.after.reverse.head?_append h).imp_right fun hc => ?_
  cases hnullsafe : f.nullsafe <;> rw [hnullsafe] at hc <;> exact (Option.some.inj hc).symm

theorem isNamePart_of_head? :
    ∀ c ∈ (f.text.reverse ++ rest).head?, Text.isNamePart c = false ∧ c ≠ '$' := by
  intro c hc
  rcases head?_reverse_text hc with hspace | rfl
  · exact ⟨isNamePart_of_isSpace hspace, ne_of_isSpace hspace (by decide)⟩
  · exact ⟨by decide, by decide⟩

/-- **Backwards over an operator.** -/
theorem operator?_text (f : Fetch) (h : Firm rest) :
    operator? (skipSpaces (f.text.reverse ++ rest)) =
      some (f.before.chars.reverse ++ rest, f.nullsafe) := by
  have hnext : ∀ c ∈ (f.before.chars.reverse ++ rest).head?, c ≠ '?' := by
    intro c hc
    rcases f.before.reverse.head?_append hc with hspace | hc
    · exact ne_of_isSpace hspace (by decide)
    · cases rest with
      | nil => exact h.elim
      | cons d ds =>
        obtain rfl : d = c := Option.some.inj hc
        exact h.2
  rw [reverse_text, List.append_assoc, List.append_assoc, skipSpaces_blanks]
  · cases f.nullsafe with
    | false => exact operator?_plain hnext
    | true => rfl
  · intro c hc
    cases hnullsafe : f.nullsafe <;> rw [hnullsafe] at hc <;>
      · obtain rfl : '>' = c := Option.some.inj hc
        decide

theorem continued?_text (f : Fetch) (h : Firm rest) :
    continued? (skipSpaces (f.text.reverse ++ rest)) = some rest := by
  unfold continued?
  rw [f.operator?_text h]
  exact congrArg some (skipSpaces_firm f.before h)

end Fetch

end CodeInsight.Receiver
