import CodeInsight.Proofs.QualifiedReceivers
import Mathlib.Data.Set.List

/-!
# Chains as they are printed

A chain of calls and fetches can be written in many ways: blanks may stand between its tokens,
operators may be `->` or `?->`, arguments are any texts in which parentheses are balanced, and a
chain in parentheses may be continued like any other. Reading gives the same chain for all of them,
and what it reads is always one of these ways.

## Main Results

- `Print`: the ways of printing a chain
- `base?_opening`, `links?_accesses`: what a chain begins with and the steps after it are read back
- `read?_print`: a chain in parentheses, to any depth, is read back
- `exists_print_of_read?`: whatever is read is printed in one of these ways
- `exists_print_iff`: a chain is printed in one of these ways if it consists of names
- `printed_chains_are_read_back`: reading inverts printing
-/

namespace CodeInsight.Receiver

variable {fuel : Nat} {a : Text} {rest cs : Text} {isPart : Char → Bool} {name : QualifiedName}

/-! ## Section 1: The ways of printing a chain -/

def Blanks.append (a b : Blanks) : Blanks :=
  ⟨a.chars ++ b.chars, by rw [List.all_append, a.all, b.all]; rfl⟩

/-- Arguments, with blanks in front of them. -/
structure ArgumentList where
  gap : Blanks
  args : Arguments
  deriving DecidableEq

def ArgumentList.text (list : ArgumentList) : Text := list.gap.chars ++ list.args.text

/-- No arguments: `()`. -/
def ArgumentList.empty : ArgumentList := ⟨Blanks.none, Arguments.none⟩

/-- The text of arguments that may be left out. -/
def optionalText (list : Option ArgumentList) : Text := (list.map ArgumentList.text).getD []

@[simp] theorem optionalText_none : optionalText none = [] := rfl

@[simp] theorem optionalText_some (list : ArgumentList) :
    optionalText (some list) = list.text := rfl

/-- The word `new`, in capital or small letters. -/
def IsNewWord (word : Text) : Prop := (String.ofList word).toLower = "new"

instance (word : Text) : Decidable (IsNewWord word) :=
  inferInstanceAs (Decidable ((String.ofList word).toLower = "new"))

/-- What a chain begins with. -/
inductive Opening where
  | variable (name : Word)
  | new (word : QualifiedName) (isNew : IsNewWord word.chars) (gap : Run Text.isSpace)
      (className : QualifiedName) (list : Option ArgumentList)
  | staticCall (className : QualifiedName) (notNew : ¬IsNewWord className.chars)
      (before after : Blanks) (method : Word) (list : ArgumentList)
  | functionCall (name : QualifiedName) (notNew : ¬IsNewWord name.chars) (list : ArgumentList)

def Opening.text : Opening → Text
  | .variable name => '$' :: name.chars
  | .new word _ gap className list =>
    word.chars ++ (gap.chars ++ (className.chars ++ optionalText list))
  | .staticCall className _ before after method list =>
    className.chars ++
      (before.chars ++ ("::".toList ++ (after.chars ++ (method.chars ++ list.text))))
  | .functionCall name _ list => name.chars ++ list.text

def Opening.base : Opening → Base
  | .variable name => .variable ("$" ++ String.ofList name.chars)
  | .new _ _ _ className _ => .new (String.ofList className.chars)
  | .staticCall className _ _ _ method _ =>
    .staticCall (String.ofList className.chars) (String.ofList method.chars)
  | .functionCall name _ _ => .functionCall (String.ofList name.chars)

/-- A step of a chain: a fetch, or a call if there are arguments. -/
structure Access where
  fetch : Fetch
  member : Word
  list : Option ArgumentList
  deriving DecidableEq

def Access.text (a : Access) : Text := a.fetch.text ++ (a.member.chars ++ optionalText a.list)

def Access.link (a : Access) : Link :=
  match a.list with
  | some _ => .method (String.ofList a.member.chars)
  | none => .property (String.ofList a.member.chars)

/-- A way of printing a chain. Any part from its beginning on may stand in parentheses, and any
number of them. -/
inductive Print where
  | opening (o : Opening)
  | access (object : Print) (a : Access)
  | group (before : Blanks) (inner : Print) (after : Blanks)

namespace Print

def text : Print → Text
  | opening o => o.text
  | access object a => object.text ++ a.text
  | group before inner after => '(' :: (before.chars ++ (inner.text ++ (after.chars ++ [')'])))

def chain : Print → Chain
  | opening o => ⟨o.base, []⟩
  | access object a => ⟨object.chain.base, object.chain.links ++ [a.link]⟩
  | group _ inner _ => inner.chain

/-- More steps behind a chain. -/
def extend (p : Print) (as : List Access) : Print := as.foldl access p

theorem text_extend (p : Print) (as : List Access) :
    (p.extend as).text = p.text ++ as.flatMap Access.text := by
  induction as generalizing p with
  | nil => rw [extend, List.foldl_nil, List.flatMap_nil, List.append_nil]
  | cons a as ih =>
    rw [List.flatMap_cons, ← List.append_assoc]
    exact ih (p.access a)

theorem chain_extend (p : Print) (as : List Access) :
    (p.extend as).chain = ⟨p.chain.base, p.chain.links ++ as.map Access.link⟩ := by
  induction as generalizing p with
  | nil => rw [extend, List.foldl_nil, List.map_nil, List.append_nil]
  | cons a as ih =>
    rw [List.map_cons, List.append_cons]
    exact ih (p.access a)

/-- How many parentheses are nested in one another. -/
def depth : Print → Nat
  | opening _ => 0
  | access object _ => object.depth
  | group _ inner _ => inner.depth + 1

end Print

/-- A name of characters of a kind. -/
def IsRun (isPart : Char → Bool) (name : String) : Prop :=
  name.toList ≠ [] ∧ name.toList.all isPart = true

/-- What a chain begins with consists of names, and none of them is taken for the word `new`. -/
def Base.Named : Base → Prop
  | .variable name => ∃ word, IsRun Text.isWordPart word ∧ name = "$" ++ word
  | .new className => IsRun Text.isNamePart className
  | .staticCall className method =>
    IsRun Text.isNamePart className ∧ className.toLower ≠ "new" ∧ IsRun Text.isWordPart method
  | .functionCall name => IsRun Text.isNamePart name ∧ name.toLower ≠ "new"

def Link.Named : Link → Prop
  | .property name | .method name => IsRun Text.isWordPart name

/-- Every part of a chain is a name. -/
def Chain.Named (chain : Chain) : Prop := chain.base.Named ∧ ∀ link ∈ chain.links, link.Named

/-! ## Section 2: Printed chains are balanced -/

theorem unclosed_append {depth after : Nat} (h : unclosed depth a = some after) (b : Text) :
    unclosed depth (a ++ b) = unclosed after b := by
  induction a generalizing depth with
  | nil =>
    obtain rfl := Option.some.inj h
    rfl
  | cons c cs ih =>
    rw [List.cons_append, unclosed]
    rw [unclosed] at h
    split at h
    next => cases h
    next hopen => rw [if_neg hopen, ih h]

theorem unclosed_succ {depth after : Nat} (h : unclosed depth a = some after) :
    unclosed (depth + 1) a = some (after + 1) := by
  induction a generalizing depth with
  | nil =>
    obtain rfl := Option.some.inj h
    rfl
  | cons c cs ih =>
    obtain ⟨hclose, hrest⟩ := unclosed_cons h
    have hbehind : depthBehind (depth + 1) c = depthBehind depth c + 1 := by
      unfold depthBehind
      split
      next => rfl
      next =>
        split
        next hc =>
          have hpos := hclose hc
          omega
        next => rfl
    rw [unclosed, if_neg (fun hzero => Nat.succ_ne_zero depth hzero.2), hbehind]
    exact ih hrest

/-- Every parenthesis of a text has its partner in it. -/
def Balanced (a : Text) : Prop := ∀ depth, unclosed depth a = some depth

theorem balanced_of_unclosed (h : unclosed 0 a = some 0) : Balanced a := by
  intro depth
  induction depth with
  | zero => exact h
  | succ depth ih => exact unclosed_succ ih

theorem Balanced.append {b : Text} (ha : Balanced a) (hb : Balanced b) :
    Balanced (a ++ b) := fun depth =>
  (unclosed_append (ha depth) b).trans (hb depth)

/-- A text without parentheses is balanced. -/
theorem balanced_of_forall (h : ∀ c ∈ a, c ≠ '(' ∧ c ≠ ')') : Balanced a := by
  intro depth
  induction a with
  | nil => rfl
  | cons c cs ih =>
    obtain ⟨hopen, hclose⟩ := h c List.mem_cons_self
    have hbehind : depthBehind depth c = depth := by rw [depthBehind, if_neg hopen, if_neg hclose]
    rw [unclosed, if_neg (fun hc => hclose hc.1), hbehind]
    exact ih fun d hd => h d (List.mem_cons_of_mem c hd)

/-- A balanced text stays so in parentheses. -/
theorem Balanced.parenthesized (h : Balanced a) : Balanced ('(' :: (a ++ [')'])) := by
  intro depth
  have hopen : unclosed depth ('(' :: (a ++ [')'])) = unclosed (depth + 1) (a ++ [')']) := rfl
  rw [hopen, unclosed_append (h (depth + 1))]
  rfl

theorem Run.balanced (r : Run isPart) (hopen : isPart '(' = false) (hclose : isPart ')' = false) :
    Balanced r.chars := by
  apply balanced_of_forall
  intro c hc
  have hpart := r.of_mem c hc
  constructor
  · rintro rfl
    rw [hpart] at hopen
    cases hopen
  · rintro rfl
    rw [hpart] at hclose
    cases hclose

theorem Blanks.balanced (b : Blanks) : Balanced b.chars := by
  apply balanced_of_forall
  intro c hc
  have hspace := b.of_mem c hc
  exact ⟨ne_of_isSpace hspace (by decide), ne_of_isSpace hspace (by decide)⟩

theorem Word.balanced (w : Word) : Balanced w.chars := Run.balanced w (by decide) (by decide)

theorem QualifiedName.balanced (n : QualifiedName) : Balanced n.chars :=
  Run.balanced n (by decide) (by decide)

theorem Fetch.balanced (f : Fetch) : Balanced f.text := by
  have hoperator : Balanced (if f.nullsafe then "?->".toList else "->".toList) := by
    cases f.nullsafe <;> exact fun _ => rfl
  exact f.before.balanced.append (hoperator.append f.after.balanced)

theorem ArgumentList.balanced (list : ArgumentList) : Balanced list.text :=
  list.gap.balanced.append (balanced_of_unclosed list.args.balanced).parenthesized

theorem balanced_optionalText (list : Option ArgumentList) : Balanced (optionalText list) := by
  cases list with
  | none => exact fun _ => rfl
  | some list => exact list.balanced

theorem Opening.balanced (o : Opening) : Balanced o.text := by
  cases o with
  | «variable» name =>
    have hdollar : Balanced ['$'] := fun _ => rfl
    exact hdollar.append name.balanced
  | new word _ gap className list =>
    have hgap : Balanced gap.chars := gap.balanced (by decide) (by decide)
    exact word.balanced.append
      (hgap.append (className.balanced.append (balanced_optionalText list)))
  | staticCall className _ before after method list =>
    have hcolons : Balanced "::".toList := fun _ => rfl
    exact className.balanced.append (before.balanced.append
      (hcolons.append (after.balanced.append (method.balanced.append list.balanced))))
  | functionCall name _ list => exact name.balanced.append list.balanced

theorem Access.balanced (a : Access) : Balanced a.text :=
  a.fetch.balanced.append (a.member.balanced.append (balanced_optionalText a.list))

/-- What is printed in parentheses is balanced. -/
theorem Print.balanced (p : Print) : Balanced p.text := by
  induction p with
  | opening o => exact o.balanced
  | access object a ih => exact ih.append a.balanced
  | group before inner after ih =>
    have hinside := (before.balanced.append (ih.append after.balanced)).parenthesized
    simpa only [Print.text, List.append_assoc] using hinside

/-! ## Section 3: Steps are read back -/

namespace Chain

theorem skip_skip (cs : Text) : skip (skip cs) = skip cs :=
  List.dropWhile_idempotent _ cs

theorem skip_append_blanks (b : Blanks) (rest : Text) : skip (b.chars ++ rest) = skip rest :=
  List.dropWhile_append_of_pos b.of_mem

/-- Blanks aside, a text begins with an operator that fetches a member, or it is empty. So nothing
that stands before it is continued by it. -/
def Continues (rest : Text) : Prop := ∀ c ∈ (skip rest).head?, c = '-' ∨ c = '?'

theorem Continues.head? (h : Continues rest) :
    ∀ c ∈ rest.head?, Text.isSpace c = true ∨ c = '-' ∨ c = '?' := by
  intro c hc
  cases rest with
  | nil => cases hc
  | cons d rest =>
    obtain rfl : d = c := Option.some.inj hc
    cases hspace : Text.isSpace d with
    | true => exact .inl rfl
    | false =>
      refine .inr (h d ?_)
      rw [skip, List.dropWhile_cons_of_neg (by simp [hspace])]
      rfl

/-- A name ends where a chain goes on behind it. -/
theorem Continues.isNamePart (h : Continues rest) :
    ∀ c ∈ rest.head?, Text.isNamePart c = false := by
  intro c hc
  rcases h.head? c hc with hspace | rfl | rfl
  · exact isNamePart_of_isSpace hspace
  · decide
  · decide

/-- No arguments stand where a chain goes on. -/
theorem Continues.optionalGroup? (h : Continues rest) :
    optionalGroup? (skip rest) = some (skip rest) := by
  unfold Chain.optionalGroup?
  split
  next cs heq =>
    rcases h '(' (by rw [heq]; rfl) with hc | hc
    · exact absurd hc (by decide)
    · exact absurd hc (by decide)
  next => rfl

theorem continues_blanks (b : Blanks) : Continues b.chars := by
  have hskip := skip_append_blanks b []
  rw [List.append_nil] at hskip
  intro c hc
  rw [hskip] at hc
  cases hc

theorem skip_fetch (f : Fetch) (rest : Text) :
    skip (f.text ++ rest) =
      (if f.nullsafe then "?->".toList else "->".toList) ++ (f.after.chars ++ rest) := by
  rw [Fetch.text, List.append_assoc, List.append_assoc]
  apply skip_blanks f.before
  intro c hc
  cases hnullsafe : f.nullsafe <;> rw [hnullsafe] at hc <;>
    · obtain rfl := Option.some.inj hc
      decide

theorem operator?_fetch (f : Fetch) (rest : Text) :
    operator? (skip (f.text ++ rest)) = some (f.after.chars ++ rest) := by
  rw [skip_fetch]
  cases f.nullsafe <;> rfl

theorem continues_fetch (f : Fetch) (rest : Text) : Continues (f.text ++ rest) := by
  intro c hc
  rw [skip_fetch] at hc
  cases hnullsafe : f.nullsafe <;> rw [hnullsafe] at hc
  · exact .inl (Option.some.inj hc).symm
  · exact .inr (Option.some.inj hc).symm

/-- Behind every step but the last one comes an operator, and behind that one blanks. -/
theorem continues_accesses (as : List Access) (trail : Blanks) :
    Continues (as.flatMap Access.text ++ trail.chars) := by
  cases as with
  | nil => exact continues_blanks trail
  | cons a as =>
    rw [List.flatMap_cons, Access.text, List.append_assoc, List.append_assoc]
    exact continues_fetch a.fetch _

/-- The name of a member is read up to its end. -/
theorem word?_member (f : Fetch) (member : Word) (h : ∀ c ∈ rest.head?, Text.isWordPart c = false) :
    word? Text.isWordPart (skip (f.after.chars ++ (member.chars ++ rest))) =
      some (String.ofList member.chars, rest) := by
  have hfirm : Firm (member.chars ++ rest) :=
    (firm_of_isWordPart member.ne_nil member.of_mem).append _
  rw [skip_blanks f.after hfirm.isSpace, word?_run member h]

theorem skip_argumentList (list : ArgumentList) (rest : Text) :
    skip (list.text ++ rest) = list.args.text ++ rest := by
  rw [ArgumentList.text, List.append_assoc]
  exact skip_blanks list.gap (forall_head?_cons (by decide) _)

theorem optionalGroup?_argumentList (list : ArgumentList) (rest : Text) :
    optionalGroup? (skip (list.text ++ rest)) = some rest := by
  have hread := group?_arguments list.args rest
  rw [skip_argumentList, Arguments.text]
  rw [Arguments.text] at hread
  exact congrArg (Option.map Prod.snd) hread

/-- Arguments come behind a name with a blank or a parenthesis. -/
theorem isNamePart_of_argumentList (list : ArgumentList) (rest : Text) :
    ∀ c ∈ (list.text ++ rest).head?, Text.isNamePart c = false := by
  intro c hc
  rw [ArgumentList.text, List.append_assoc] at hc
  rcases list.gap.head?_append hc with hspace | hc
  · exact isNamePart_of_isSpace hspace
  · obtain rfl : '(' = c := Option.some.inj hc
    decide

/-- **A step is read back**, and the rest of the chain is read behind it, with or without the
blanks. -/
theorem links?_access (a : Access) (hrest : Continues rest) (hcs : skip cs = skip (a.text ++ rest))
    (fuel : Nat) :
    ∃ rest', skip rest' = skip rest ∧ rest'.length ≤ rest.length ∧
      links? (fuel + 1) cs = (links? fuel rest').map fun found => (a.link :: found.1, found.2) := by
  obtain ⟨fetch, member, list⟩ := a
  rw [Access.text, List.append_assoc, List.append_assoc] at hcs
  rw [links?, hcs, operator?_fetch]
  cases list with
  | none =>
    have hname : ∀ c ∈ rest.head?, Text.isWordPart c = false := fun c hc =>
      isWordPart_of_isNamePart (hrest.isNamePart c hc)
    have hhead : (skip rest).head? ≠ some '(' := by
      intro hc
      rcases hrest '(' hc with hc | hc <;> exact absurd hc (by decide)
    refine ⟨skip rest, skip_skip rest, (List.dropWhile_sublist _).length_le, ?_⟩
    simp only [optionalText_none, List.nil_append, Option.bind_eq_bind,
      word?_member fetch member hname, Option.bind_some, hrest.optionalGroup?, if_neg hhead]
    cases links? fuel (skip rest) <;> rfl
  | some list =>
    have hname : ∀ c ∈ (list.text ++ rest).head?, Text.isWordPart c = false := fun c hc =>
      isWordPart_of_isNamePart (isNamePart_of_argumentList list rest c hc)
    have hhead : (skip (list.text ++ rest)).head? = some '(' := by
      rw [skip_argumentList]
      rfl
    refine ⟨rest, rfl, Nat.le_refl _, ?_⟩
    simp only [optionalText_some, Option.bind_eq_bind, word?_member fetch member hname,
      Option.bind_some, optionalGroup?_argumentList, if_pos hhead]
    cases links? fuel rest <;> rfl

theorem length_skip_le (cs : Text) : (skip cs).length ≤ cs.length :=
    (List.dropWhile_sublist _).length_le

/-- What follows a step is shorter than the step with it. -/
theorem length_lt_of_access {a : Access} (hcs : skip cs = skip (a.text ++ rest)) :
    rest.length < cs.length := by
  have hle := length_skip_le cs
  have hoperator : 0 < (if a.fetch.nullsafe then "?->".toList else "->".toList).length := by
    cases a.fetch.nullsafe <;> decide
  rw [hcs, Access.text, List.append_assoc, skip_fetch] at hle
  simp only [List.length_append] at hle
  omega

/-- **The steps of a chain are read back**, up to the end of the text. -/
theorem links?_accesses (as : List Access) (trail : Blanks)
    (hcs : skip cs = skip (as.flatMap Access.text ++ trail.chars)) (hfuel : cs.length ≤ fuel) :
    links? fuel cs = some (as.map Access.link, []) := by
  induction as generalizing cs fuel with
  | nil =>
    have hnil : skip cs = [] := by
      have hskip := skip_append_blanks trail []
      rw [List.append_nil] at hskip
      rw [hcs, List.flatMap_nil, List.nil_append, hskip]
      rfl
    cases fuel with
    | zero =>
      obtain rfl := List.eq_nil_of_length_eq_zero (Nat.le_zero.mp hfuel)
      rfl
    | succ fuel =>
      rw [links?, hnil]
      rfl
  | cons a as ih =>
    rw [List.flatMap_cons, List.append_assoc] at hcs
    have hlt := length_lt_of_access hcs
    obtain ⟨fuel, rfl⟩ := Nat.exists_eq_succ_of_ne_zero (n := fuel) (by omega)
    obtain ⟨rest, hrest, hlength, hlinks⟩ := links?_access a (continues_accesses as trail) hcs fuel
    rw [hlinks, ih hrest (by omega)]
    rfl

/-! ## Section 4: Beginnings are read back -/

theorem group?_argumentList (list : ArgumentList) (rest : Text) :
    group? (skip (list.text ++ rest)) = some (list.args.chars, rest) := by
  rw [skip_argumentList, group?_arguments]

theorem base?_new {word : QualifiedName} (hnew : IsNewWord word.chars) (gap : Run Text.isSpace)
    (className : QualifiedName) (list : Option ArgumentList) (h : Continues rest) :
    ∃ rest', skip rest' = skip rest ∧
      base? (word.chars ++ (gap.chars ++ (className.chars ++ (optionalText list ++ rest)))) =
        some (.new (String.ofList className.chars), rest') := by
  have hgap : ∀ c ∈ (gap.chars ++ (className.chars ++ (optionalText list ++ rest))).head?,
      Text.isNamePart c = false := fun c hc => isNamePart_of_isSpace (gap.of_head? hc)
  have hskip : skip (gap.chars ++ (className.chars ++ (optionalText list ++ rest))) =
      className.chars ++ (optionalText list ++ rest) := by
    rw [skip, List.dropWhile_append_of_pos gap.of_mem]
    exact skip_name className _
  have hlower : (String.ofList word.chars).toLower = "new" := hnew
  unfold base?
  split
  next heq => exact absurd rfl (ne_of_head? word (by rw [heq]; rfl) (by decide))
  next =>
    rw [word?_run word hgap]
    simp only [Option.bind_eq_bind, Option.bind_some, hskip, if_pos hlower]
    cases list with
    | none =>
      -- blanks behind the name are skipped before it turns out that no arguments follow
      refine ⟨skip rest, skip_skip rest, ?_⟩
      simp only [optionalText_none, List.nil_append, word?_run className h.isNamePart,
        Option.bind_some, h.optionalGroup?]
      rfl
    | some list =>
      refine ⟨rest, rfl, ?_⟩
      simp only [optionalText_some, word?_run className (isNamePart_of_argumentList list rest),
        Option.bind_some, optionalGroup?_argumentList]
      rfl

theorem base?_static {className : QualifiedName} (hnew : ¬IsNewWord className.chars)
    (before after : Blanks) (method : Word) (list : ArgumentList) (rest : Text) :
    base? (className.chars ++ (before.chars ++ ("::".toList ++ (after.chars ++ (method.chars ++
      (list.text ++ rest)))))) =
      some (.staticCall (String.ofList className.chars) (String.ofList method.chars), rest) := by
  have hname : ∀ c ∈ (before.chars ++ ("::".toList ++ (after.chars ++ (method.chars ++
      (list.text ++ rest))))).head?, Text.isNamePart c = false := by
    intro c hc
    rcases before.head?_append hc with hspace | hc
    · exact isNamePart_of_isSpace hspace
    · obtain rfl : ':' = c := Option.some.inj hc
      decide
  have hskip : skip (before.chars ++ ("::".toList ++ (after.chars ++ (method.chars ++
      (list.text ++ rest))))) =
          ':' :: ':' :: (after.chars ++ (method.chars ++ (list.text ++ rest))) :=
    skip_blanks before (forall_head?_cons (by decide) _)
  have hmethod :
    word? Text.isWordPart (skip (after.chars ++ (method.chars ++ (list.text ++ rest)))) =
      some (String.ofList method.chars, list.text ++ rest) :=
    word?_member ⟨.none, false, after⟩ method fun c hc =>
      isWordPart_of_isNamePart (isNamePart_of_argumentList list rest c hc)
  have hlower : ¬(String.ofList className.chars).toLower = "new" := hnew
  unfold base?
  split
  next heq => exact absurd rfl (ne_of_head? className (by rw [heq]; rfl) (by decide))
  next =>
    rw [word?_run className hname]
    simp only [Option.bind_eq_bind, Option.bind_some, if_neg hlower, hskip, hmethod,
      group?_argumentList]
    rfl

theorem base?_function (hnew : ¬IsNewWord name.chars) (list : ArgumentList) (rest : Text) :
    base? (name.chars ++ (list.text ++ rest)) =
      some (.functionCall (String.ofList name.chars), rest) := by
  have hlower : ¬(String.ofList name.chars).toLower = "new" := hnew
  have hgroup := group?_argumentList list rest
  unfold base?
  split
  next heq => exact absurd rfl (ne_of_head? name (by rw [heq]; rfl) (by decide))
  next =>
    rw [word?_run name (isNamePart_of_argumentList list rest)]
    simp only [Option.bind_eq_bind, Option.bind_some, if_neg hlower]
    rw [skip_argumentList] at hgroup ⊢
    -- the parenthesis tells that no two colons follow
    exact congrArg
      (Option.bind · fun found =>
        some (Base.functionCall (String.ofList name.chars), found.2)) hgroup

/-- **What a chain begins with is read back**, and the rest is read behind it, with or without the
blanks. -/
theorem base?_opening (o : Opening) (h : Continues rest) :
    ∃ rest', skip rest' = skip rest ∧ base? (o.text ++ rest) = some (o.base, rest') := by
  cases o with
  | «variable» name =>
    have hname : ∀ c ∈ rest.head?, Text.isWordPart c = false := fun c hc =>
      isWordPart_of_isNamePart (h.isNamePart c hc)
    refine ⟨rest, rfl, ?_⟩
    rw [Opening.text, List.cons_append, base?, word?_run name hname]
    rfl
  | new word hnew gap className list =>
    obtain ⟨rest', hrest, hbase⟩ := base?_new hnew gap className list h
    refine ⟨rest', hrest, ?_⟩
    simpa only [Opening.text, Opening.base, List.append_assoc] using hbase
  | staticCall className hnew before after method list =>
    refine ⟨rest, rfl, ?_⟩
    simpa only [Opening.text, Opening.base, List.append_assoc] using
      base?_static hnew before after method list rest
  | functionCall name hnew list =>
    refine ⟨rest, rfl, ?_⟩
    simpa only [Opening.text, Opening.base, List.append_assoc] using base?_function hnew list rest

/-! ## Section 5: Chains are read back -/

theorem head?_opening (o : Opening) (rest : Text) :
    ∀ c ∈ (o.text ++ rest).head?, Text.isSpace c = false ∧ c ≠ '(' := by
  -- a chain begins with a `$` or with a name
  have hname : ∀ (name : QualifiedName) (rest : Text), ∀ c ∈ (name.chars ++ rest).head?,
      Text.isSpace c = false ∧ c ≠ '(' := by
    intro name rest c hc
    have hpart := name.of_head? hc
    refine ⟨?_, ne_of_head? name hc (by decide)⟩
    cases hspace : Text.isSpace c with
    | false => rfl
    | true =>
      rw [isNamePart_of_isSpace hspace] at hpart
      cases hpart
  cases o with
  | «variable» name => exact forall_head?_cons ⟨by decide, by decide⟩ _
  | new word hnew gap className list =>
    rw [Opening.text, List.append_assoc]
    exact hname word _
  | staticCall className hnew before after method list =>
    rw [Opening.text, List.append_assoc]
    exact hname className _
  | functionCall name hnew list =>
    rw [Opening.text, List.append_assoc]
    exact hname name _

theorem group?_eq_none (h : ∀ c ∈ cs.head?, c ≠ '(') : group? cs = none := by
  unfold group?
  split
  next => exact absurd rfl (h '(' rfl)
  next => rfl

/-- A chain is its beginning and the steps behind it. -/
theorem read?_of_start {chain : Chain} (as : List Access) (trail : Blanks)
    (hstart : start? (read? fuel) (skip cs) = some (chain, rest))
    (hrest : skip rest = skip (as.flatMap Access.text ++ trail.chars)) :
    read? (fuel + 1) cs = some ⟨chain.base, chain.links ++ as.map Access.link⟩ := by
  rw [read?, hstart]
  simp only [Option.bind_eq_bind, Option.bind_some, links?_accesses as trail hrest (Nat.le_refl _)]
  rfl

/-- **A chain is read back**, whatever parentheses it is printed in. More steps may follow it. -/
theorem read?_print (p : Print) (as : List Access) (lead trail : Blanks) (hfuel : p.depth < fuel) :
    read? fuel (lead.chars ++ (p.text ++ (as.flatMap Access.text ++ trail.chars))) =
      some ⟨p.chain.base, p.chain.links ++ as.map Access.link⟩ := by
  -- Steps are printed behind the chain but read from its front, so those that follow vary with the
  -- chain.
  induction p generalizing as lead trail fuel with
  | opening o =>
    obtain ⟨fuel, rfl⟩ := Nat.exists_eq_succ_of_ne_zero (Nat.ne_zero_of_lt hfuel)
    obtain ⟨rest, hrest, hbase⟩ := base?_opening o (continues_accesses as trail)
    have hhead := head?_opening o (as.flatMap Access.text ++ trail.chars)
    refine read?_of_start as trail ?_ hrest
    rw [Print.text, skip_blanks lead fun c hc => (hhead c hc).1, start?,
      group?_eq_none fun c hc => (hhead c hc).2]
    simp only [hbase]
    rfl
  | access object a ih =>
    -- the last step of the object is the first of those that follow
    have hobject := ih (a :: as) lead trail hfuel
    simpa only [Print.text, Print.chain, List.flatMap_cons, List.map_cons, List.append_assoc,
      List.singleton_append] using hobject
  | group before inner after ih =>
    obtain ⟨fuel, rfl⟩ := Nat.exists_eq_succ_of_ne_zero (Nat.ne_zero_of_lt hfuel)
    -- The parentheses of a printed chain match, so the group ends where the chain in it does.
    let inside : Arguments := ⟨before.chars ++ (inner.text ++ after.chars),
      (before.balanced.append (inner.balanced.append after.balanced)) 0⟩
    have htext : (Print.group before inner after).text = inside.text := by
      simp only [Print.text, Arguments.text, inside, List.append_assoc]
    have hinner : read? fuel inside.chars = some inner.chain := by
      have hread := ih [] before after (Nat.lt_of_succ_lt_succ hfuel)
      simpa only [List.flatMap_nil, List.nil_append, List.map_nil, List.append_nil] using hread
    refine read?_of_start as trail ?_ rfl
    have hskip : skip (lead.chars ++ (inside.text ++ (as.flatMap Access.text ++ trail.chars))) =
        inside.text ++ (as.flatMap Access.text ++ trail.chars) :=
      skip_blanks lead (forall_head?_cons (by decide) _)
    rw [htext, hskip, start?, group?_arguments]
    simp only [hinner]
    rfl

theorem depth_lt_length_text (p : Print) : p.depth < p.text.length + 1 := by
  induction p with
  | opening o => exact Nat.succ_pos _
  | access object a ih =>
    rw [Print.depth, Print.text, List.length_append]
    omega
  | group before inner after ih =>
    rw [Print.depth, Print.text, List.length_cons, List.length_append, List.length_append]
    omega

theorem ofText?_print (lead : Blanks) (p : Print) (trail : Blanks) :
    ofText? (lead.chars ++ (p.text ++ trail.chars)) = some p.chain := by
  have hdepth := depth_lt_length_text p
  have hfuel : p.depth < (lead.chars ++ (p.text ++ trail.chars)).length + 1 := by
    simp only [List.length_append]
    omega
  have hread := read?_print p [] lead trail hfuel
  simpa only [ofText?, List.flatMap_nil, List.nil_append, List.map_nil, List.append_nil] using hread

/-! ## Section 6: What is read is printed so -/

section

variable {inside : Text}

theorem leading_append_skip (cs : Text) : (Blanks.leading cs).chars ++ skip cs = cs :=
  List.takeWhile_append_dropWhile

theorem exists_of_word? {word : String} (h : word? isPart cs = some (word, rest)) :
    ∃ r : Run isPart, word = String.ofList r.chars ∧ cs = r.chars ++ rest ∧
      ∀ c ∈ rest.head?, isPart c = false := by
  unfold word? at h
  dsimp only at h
  split at h
  next => cases h
  next hne =>
    obtain ⟨rfl, rfl⟩ := Prod.mk.inj (Option.some.inj h)
    refine ⟨⟨cs.takeWhile isPart, hne, List.all_takeWhile⟩, rfl,
      List.takeWhile_append_dropWhile.symm, ?_⟩
    intro c hc
    have hnot := List.head?_dropWhile_not isPart cs
    rw [hc] at hnot
    exact hnot

theorem groupRest?_eq_some {depth : Nat} (h : groupRest? (depth + 1) cs = some (inside, rest)) :
    cs = inside ++ ')' :: rest ∧ unclosed depth inside = some 0 := by
  induction cs generalizing depth inside with
  | nil => cases h
  | cons c cs ih =>
    rw [groupRest?] at h
    split at h
    next hlast =>
      obtain ⟨rfl, rfl⟩ := Prod.mk.inj (Option.some.inj h)
      obtain ⟨hc, hdepth⟩ := Bool.and_eq_true_iff.mp hlast
      obtain rfl := of_decide_eq_true hc
      have hzero : depth + 1 ≤ 1 := of_decide_eq_true hdepth
      obtain rfl : depth = 0 := by omega
      exact ⟨rfl, rfl⟩
    next hmore =>
      -- a closing parenthesis has its partner within the group
      have hclose : c = ')' → 0 < depth := by
        intro hc
        have hmany : ¬depth + 1 ≤ 1 := fun hle => hmore (by simp [hc, hle])
        omega
      have hbehind :
        (if c = '(' then depth + 1 + 1 else if c = ')' then depth + 1 - 1 else depth + 1) =
          depthBehind depth c + 1 := by
        unfold depthBehind
        split
        next => rfl
        next =>
          split
          next hc =>
            have hpos := hclose hc
            omega
          next => rfl
      obtain ⟨⟨found, behind⟩, hfound, heq⟩ := Option.map_eq_some_iff.mp h
      obtain ⟨rfl, rfl⟩ := Prod.mk.inj heq
      rw [hbehind] at hfound
      obtain ⟨rfl, hunclosed⟩ := ih hfound
      refine ⟨rfl, ?_⟩
      rw [unclosed, if_neg fun hc => Nat.ne_of_gt (hclose hc.1) hc.2]
      exact hunclosed

theorem exists_of_group? (h : group? cs = some (inside, rest)) :
    ∃ args : Arguments, args.chars = inside ∧ cs = args.text ++ rest := by
  unfold group? at h
  split at h
  next cs =>
    obtain ⟨rfl, hbalanced⟩ := groupRest?_eq_some h
    refine ⟨⟨inside, hbalanced⟩, rfl, ?_⟩
    simp only [Arguments.text, List.cons_append, List.append_assoc, List.nil_append]
  next => cases h

theorem exists_argumentList_of_group? (h : group? (skip cs) = some (inside, rest)) :
    ∃ list : ArgumentList, cs = list.text ++ rest := by
  obtain ⟨args, -, hcs⟩ := exists_of_group? h
  refine ⟨⟨Blanks.leading cs, args⟩, ?_⟩
  rw [ArgumentList.text, List.append_assoc, ← hcs, leading_append_skip]

/-- Arguments are read, or there are none and blanks are skipped. -/
theorem exists_of_optionalGroup? (h : optionalGroup? (skip cs) = some rest) :
    ∃ (list : Option ArgumentList) (gap : Blanks), cs = optionalText list ++ (gap.chars ++ rest) ∧
      (list.isSome ↔ (skip cs).head? = some '(') := by
  unfold optionalGroup? at h
  split at h
  next found heq =>
    obtain ⟨⟨inside, behind⟩, hgroup, rfl⟩ := Option.map_eq_some_iff.mp h
    obtain ⟨list, hcs⟩ := exists_argumentList_of_group? hgroup
    refine ⟨some list, Blanks.none, hcs, ?_⟩
    rw [heq]
    simp
  next hnone =>
    obtain rfl := Option.some.inj h
    refine ⟨none, Blanks.leading cs, (leading_append_skip cs).symm, ?_⟩
    refine ⟨fun hsome => (Bool.false_ne_true hsome).elim, fun hhead => ?_⟩
    obtain ⟨found, heq⟩ := List.head?_eq_some_iff.mp hhead
    exact absurd heq (hnone found)

theorem exists_of_operator? (h : operator? cs = some rest) :
    ∃ nullsafe : Bool, cs = (if nullsafe then "?->".toList else "->".toList) ++ rest := by
  unfold operator? at h
  split at h
  next =>
    obtain rfl := Option.some.inj h
    exact ⟨false, rfl⟩
  next =>
    obtain rfl := Option.some.inj h
    exact ⟨true, rfl⟩
  next => cases h

/-- Blanks that were skipped, and what was read behind them. -/
theorem eq_leading_append {tail : Text} (h : skip cs = tail) :
    cs = (Blanks.leading cs).chars ++ tail := by
  rw [← h, leading_append_skip]

/-- A name ends where no part of a name follows. So what stands between it and another one is not
empty. -/
theorem exists_gap_of_skip {tail : Text} (h : skip cs = name.chars ++ tail)
    (hend : ∀ c ∈ cs.head?, Text.isNamePart c = false) :
    ∃ gap : Run Text.isSpace, cs = gap.chars ++ (name.chars ++ tail) := by
  have hcs := eq_leading_append h
  have hgap : (Blanks.leading cs).chars ≠ [] := by
    intro hnil
    rw [hnil, List.nil_append] at hcs
    obtain ⟨c, hc⟩ := Option.ne_none_iff_exists'.mp (mt List.head?_eq_none_iff.mp name.ne_nil)
    have hhead : c ∈ (name.chars ++ tail).head? := by rw [List.head?_append, hc]; rfl
    have hpart := name.of_head? hhead
    rw [hend c (hcs ▸ hhead)] at hpart
    cases hpart
  exact ⟨⟨(Blanks.leading cs).chars, hgap, List.all_takeWhile⟩, hcs⟩

/-- **What a chain begins with is printed so.** -/
theorem exists_opening_of_base? {base : Base} (h : base? cs = some (base, rest)) :
    ∃ (o : Opening) (gap : Blanks), o.base = base ∧ cs = o.text ++ (gap.chars ++ rest) := by
  unfold base? at h
  split at h
  next cs =>
    obtain ⟨⟨name, behind⟩, hname, heq⟩ := Option.bind_eq_some_iff.mp h
    obtain ⟨rfl, rfl⟩ := Prod.mk.inj (Option.some.inj heq)
    obtain ⟨word, rfl, rfl, -⟩ := exists_of_word? hname
    exact ⟨.variable word, Blanks.none, rfl, rfl⟩
  next =>
    obtain ⟨⟨name, behind⟩, hname, heq⟩ := Option.bind_eq_some_iff.mp h
    obtain ⟨word, rfl, rfl, hend⟩ := exists_of_word? hname
    dsimp only at heq
    split at heq
    -- the word is `new`, in whatever case
    next hnew =>
      obtain ⟨⟨className, behind'⟩, hclass, heq⟩ := Option.bind_eq_some_iff.mp heq
      obtain ⟨found, rfl, hskip, -⟩ := exists_of_word? hclass
      obtain ⟨last, hgroup, heq⟩ := Option.bind_eq_some_iff.mp heq
      obtain ⟨rfl, rfl⟩ := Prod.mk.inj (Option.some.inj heq)
      obtain ⟨list, gap, rfl, -⟩ := exists_of_optionalGroup? hgroup
      obtain ⟨blanks, rfl⟩ := exists_gap_of_skip hskip hend
      exact ⟨.new word hnew blanks found list, gap, rfl,
        by simp only [Opening.text, List.append_assoc]⟩
    next hnew =>
      split at heq
      next colons hskip =>
        obtain ⟨⟨method, behind'⟩, hmethod, heq⟩ := Option.bind_eq_some_iff.mp heq
        obtain ⟨found, rfl, hafter, -⟩ := exists_of_word? hmethod
        obtain ⟨⟨inside, last⟩, hgroup, heq⟩ := Option.bind_eq_some_iff.mp heq
        obtain ⟨rfl, rfl⟩ := Prod.mk.inj (Option.some.inj heq)
        obtain ⟨list, rfl⟩ := exists_argumentList_of_group? hgroup
        refine ⟨.staticCall word hnew (Blanks.leading behind) (Blanks.leading colons) found list,
          Blanks.none, rfl, ?_⟩
        have hcolons := eq_leading_append hskip
        rw [eq_leading_append hafter] at hcolons
        nth_rewrite 1 [hcolons]
        simp only [Opening.text, List.append_assoc]
        rfl
      next =>
        obtain ⟨⟨inside, last⟩, hgroup, heq⟩ := Option.bind_eq_some_iff.mp heq
        obtain ⟨rfl, rfl⟩ := Prod.mk.inj (Option.some.inj heq)
        obtain ⟨list, rfl⟩ := exists_argumentList_of_group? hgroup
        refine ⟨.functionCall word hnew list, Blanks.none, rfl, ?_⟩
        simp only [Opening.text, List.append_assoc]
        rfl

end

/-- Blanks in front of a step, or behind the last one. -/
theorem exists_accesses_of_blanks (gap : Blanks) (as : List Access) (trail : Blanks) (rest : Text) :
    ∃ (as' : List Access) (trail' : Blanks), as'.map Access.link = as.map Access.link ∧
      gap.chars ++ (as.flatMap Access.text ++ (trail.chars ++ rest)) =
        as'.flatMap Access.text ++ (trail'.chars ++ rest) := by
  cases as with
  | nil =>
    refine ⟨[], gap.append trail, rfl, ?_⟩
    simp only [List.flatMap_nil, List.nil_append, Blanks.append, List.append_assoc]
  | cons a as =>
    refine ⟨⟨⟨gap.append a.fetch.before, a.fetch.nullsafe, a.fetch.after⟩, a.member, a.list⟩ ::
      as, trail, rfl, ?_⟩
    simp only [List.flatMap_cons, Access.text, Fetch.text, Blanks.append, List.append_assoc]

/-- **Steps are printed so.** -/
theorem exists_accesses_of_links? {links : List Link} (h : links? fuel cs = some (links, rest)) :
    ∃ (as : List Access) (trail : Blanks), as.map Access.link = links ∧
      cs = as.flatMap Access.text ++ (trail.chars ++ rest) := by
  induction fuel generalizing cs links with
  | zero =>
    obtain ⟨rfl, rfl⟩ := Prod.mk.inj (Option.some.inj h)
    exact ⟨[], Blanks.none, rfl, rfl⟩
  | succ fuel ih =>
    rw [links?] at h
    split at h
    next =>
      obtain ⟨rfl, rfl⟩ := Prod.mk.inj (Option.some.inj h)
      exact ⟨[], Blanks.leading cs, rfl, (leading_append_skip cs).symm⟩
    next behind hoperator =>
      obtain ⟨⟨name, afterName⟩, hname, heq⟩ := Option.bind_eq_some_iff.mp h
      obtain ⟨afterGroup, hgroup, heq⟩ := Option.bind_eq_some_iff.mp heq
      obtain ⟨⟨links', last⟩, hlinks, heq⟩ := Option.bind_eq_some_iff.mp heq
      obtain ⟨rfl, rfl⟩ := Prod.mk.inj (Option.some.inj heq)
      -- what was read gives the signs, the member and its arguments
      obtain ⟨nullsafe, hsign⟩ := exists_of_operator? hoperator
      obtain ⟨member, rfl, hmember, -⟩ := exists_of_word? hname
      obtain ⟨list, gap, rfl, hcall⟩ := exists_of_optionalGroup? hgroup
      obtain ⟨as, trail, rfl, rfl⟩ := ih hlinks
      -- the blanks behind a member belong to the next step, or to the end
      obtain ⟨as', trail', hlinks', hgap⟩ := exists_accesses_of_blanks gap as trail last
      refine ⟨⟨⟨Blanks.leading cs, nullsafe, Blanks.leading behind⟩, member, list⟩ :: as',
        trail', ?_, ?_⟩
      · rw [List.map_cons, hlinks']
        congr 1
        cases list with
        | none => rw [if_neg fun hhead => Bool.false_ne_true (hcall.mpr hhead)]; rfl
        | some list => rw [if_pos (hcall.mp rfl)]; rfl
      · have hbehind := eq_leading_append hmember
        rw [List.flatMap_cons, List.append_assoc, ← hgap]
        simp only [Access.text, Fetch.text, List.append_assoc]
        rw [← hbehind]
        exact eq_leading_append hsign

/-- What is read in parentheses is printed so, if what stands between them is. -/
theorem exists_print_of_start? {inner? : Text → Option Chain} {chain : Chain}
    (hinner : ∀ {inside : Text} {chain : Chain}, inner? inside = some chain →
      ∃ (lead : Blanks) (p : Print) (trail : Blanks), p.chain = chain ∧
        inside = lead.chars ++ (p.text ++ trail.chars))
          (h : start? inner? cs = some (chain, rest)) :
    ∃ (p : Print) (gap : Blanks), p.chain = chain ∧ cs = p.text ++ (gap.chars ++ rest) := by
  unfold start? at h
  split at h
  next inside behind hgroup =>
    obtain ⟨found, hfound, heq⟩ := Option.map_eq_some_iff.mp h
    obtain ⟨rfl, rfl⟩ := Prod.mk.inj heq
    obtain ⟨args, rfl, rfl⟩ := exists_of_group? hgroup
    obtain ⟨lead, p, trail, rfl, hinside⟩ := hinner hfound
    refine ⟨.group lead p trail, Blanks.none, rfl, ?_⟩
    rw [Arguments.text, hinside]
    simp only [Print.text, List.cons_append, List.append_assoc]
    rfl
  next =>
    obtain ⟨⟨base, behind⟩, hbase, heq⟩ := Option.map_eq_some_iff.mp h
    obtain ⟨rfl, rfl⟩ := Prod.mk.inj heq
    obtain ⟨o, gap, rfl, hcs⟩ := exists_opening_of_base? hbase
    exact ⟨.opening o, gap, rfl, hcs⟩

/-- **Whatever is read is printed so**, up to blanks in front of it and behind it. -/
theorem exists_print_of_read? {chain : Chain} (h : read? fuel cs = some chain) :
    ∃ (lead : Blanks) (p : Print) (trail : Blanks), p.chain = chain ∧
      cs = lead.chars ++ (p.text ++ trail.chars) := by
  induction fuel generalizing cs chain with
  | zero => cases h
  | succ fuel ih =>
    rw [read?] at h
    obtain ⟨⟨first, behind⟩, hstart, heq⟩ := Option.bind_eq_some_iff.mp h
    obtain ⟨⟨links, last⟩, hlinks, heq⟩ := Option.bind_eq_some_iff.mp heq
    obtain ⟨_, hguard, heq⟩ := Option.bind_eq_some_iff.mp heq
    obtain rfl := Option.some.inj heq
    -- nothing may be left over
    obtain rfl : last = [] := by
      unfold guard at hguard
      split at hguard
      next hlast => exact hlast
      next => cases hguard
    obtain ⟨p, gap, rfl, hp⟩ := exists_print_of_start? ih hstart
    obtain ⟨as, trail, rfl, rfl⟩ := exists_accesses_of_links? hlinks
    obtain ⟨as', trail', hlinks', hgap⟩ := exists_accesses_of_blanks gap as trail []
    -- Blanks that were skipped before an operator become part of the step that it begins.
    refine ⟨Blanks.leading cs, p.extend as', trail', ?_, ?_⟩
    · rw [p.chain_extend, hlinks']
    · rw [hgap, List.append_nil] at hp
      rw [p.text_extend, List.append_assoc, ← hp, leading_append_skip]

/-! ## Section 7: Which chains are printed -/

theorem exists_run_iff {name : String} :
    (∃ r : Run isPart, String.ofList r.chars = name) ↔ IsRun isPart name := by
  constructor
  · rintro ⟨r, rfl⟩
    rw [IsRun, String.toList_ofList]
    exact ⟨r.ne_nil, r.all⟩
  · rintro ⟨hne, hall⟩
    exact ⟨⟨name.toList, hne, hall⟩, String.ofList_toList⟩

theorem exists_opening_iff {base : Base} : (∃ o : Opening, o.base = base) ↔ base.Named := by
  constructor
  · rintro ⟨o, rfl⟩
    cases o with
    | «variable» name => exact ⟨_, exists_run_iff.mp ⟨name, rfl⟩, rfl⟩
    | new word hnew gap className list => exact exists_run_iff.mp ⟨className, rfl⟩
    | staticCall className hnew before after method list =>
      exact ⟨exists_run_iff.mp ⟨className, rfl⟩, hnew, exists_run_iff.mp ⟨method, rfl⟩⟩
    | functionCall name hnew list => exact ⟨exists_run_iff.mp ⟨name, rfl⟩, hnew⟩
  · intro h
    -- every base that is named is printed with as few blanks as there can be
    cases base with
    | «variable» name =>
      obtain ⟨word, hword, rfl⟩ := h
      obtain ⟨r, rfl⟩ := exists_run_iff.mpr hword
      exact ⟨.variable r, rfl⟩
    | new className =>
      obtain ⟨r, rfl⟩ := exists_run_iff.mpr h
      let word : QualifiedName := ⟨"new".toList, by decide, by decide⟩
      let gap : Run Text.isSpace := ⟨[' '], by decide, by decide⟩
      exact ⟨.new word (by decide +kernel) gap r none, rfl⟩
    | staticCall className method =>
      obtain ⟨hclass, hnew, hmethod⟩ := h
      obtain ⟨r, rfl⟩ := exists_run_iff.mpr hclass
      obtain ⟨m, rfl⟩ := exists_run_iff.mpr hmethod
      exact ⟨.staticCall r hnew Blanks.none Blanks.none m ArgumentList.empty, rfl⟩
    | functionCall name =>
      obtain ⟨hname, hnew⟩ := h
      obtain ⟨r, rfl⟩ := exists_run_iff.mpr hname
      exact ⟨.functionCall r hnew ArgumentList.empty, rfl⟩

theorem exists_access_iff {link : Link} : (∃ a : Access, a.link = link) ↔ link.Named := by
  constructor
  · rintro ⟨⟨fetch, member, list⟩, rfl⟩
    cases list <;> exact exists_run_iff.mp ⟨member, rfl⟩
  · intro h
    cases link with
    | property name =>
      obtain ⟨member, rfl⟩ := exists_run_iff.mpr h
      exact ⟨⟨⟨Blanks.none, false, Blanks.none⟩, member, none⟩, rfl⟩
    | method name =>
      obtain ⟨member, rfl⟩ := exists_run_iff.mpr h
      exact ⟨⟨⟨Blanks.none, false, Blanks.none⟩, member, some ArgumentList.empty⟩, rfl⟩

/-- A printed chain consists of names. -/
theorem named_chain (p : Print) : p.chain.Named := by
  induction p with
  | opening o => exact ⟨exists_opening_iff.mp ⟨o, rfl⟩, List.forall_mem_nil _⟩
  | access object a ih =>
    refine ⟨ih.1, ?_⟩
    rw [Print.chain, List.forall_mem_append]
    exact ⟨ih.2, List.forall_mem_singleton.mpr (exists_access_iff.mp ⟨a, rfl⟩)⟩
  | group before inner after ih => exact ih

/-- **A chain can be printed** if it consists of names, and only then. -/
theorem exists_print_iff {chain : Chain} : (∃ p : Print, p.chain = chain) ↔ chain.Named := by
  constructor
  · rintro ⟨p, rfl⟩
    exact named_chain p
  · rintro ⟨hbase, hlinks⟩
    obtain ⟨o, ho⟩ := exists_opening_iff.mpr hbase
    have hrange : chain.links ∈ Set.range (List.map Access.link) := by
      rw [Set.range_list_map]
      exact fun link hlink => exists_access_iff.mpr (hlinks link hlink)
    obtain ⟨as, has⟩ := hrange
    refine ⟨(Print.opening o).extend as, ?_⟩
    rw [Print.chain_extend, has]
    exact congrArg (Chain.mk · chain.links) ho

/-- **Reading inverts printing.** A text is read as a chain if it prints this chain, in whatever
way, with blanks in front of it and behind it, and only then. The chains that can be printed are
those that consist of names. -/
theorem printed_chains_are_read_back :
    (∀ (text : Text) (chain : Chain), ofText? text = some chain ↔
      ∃ (lead : Blanks) (p : Print) (trail : Blanks),
        p.chain = chain ∧ text = lead.chars ++ (p.text ++ trail.chars)) ∧
    ∀ chain : Chain, (∃ p : Print, p.chain = chain) ↔ chain.Named := by
  refine ⟨fun text chain => ⟨fun h => exists_print_of_read? h, ?_⟩, fun chain => exists_print_iff⟩
  rintro ⟨lead, p, trail, rfl, rfl⟩
  exact ofText?_print lead p trail

-- the outer parentheses end behind a step, and those of the arguments hold others
example : ofText? "( new \\Shop\\Cart () ?-> items )->add ( f(1), (2) ) ".toList =
    some ⟨.new "\\Shop\\Cart", [.property "items", .method "add"]⟩ := by decide +kernel

end Chain

end CodeInsight.Receiver
