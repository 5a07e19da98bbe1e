import CodeInsight.Proofs.NestedReading

/-!
# Expressions are read locally and lie where they are read

An expression that is extended by an operator keeps its beginning and gets a later end, so the
operands lie within the whole, one behind the other. An assignment reaches into the operation before
it and takes the last operand as its target; the ranges around that operand grow with it.

## Main Results

- `Grammar.Parser.lies_assignTo`: an assignment to the last operand lies where its parts do
- `Grammar.Parser.parses_expr`: expressions are read locally and lie where they are read if what is
  nested in them is and does
-/

namespace CodeInsight.Grammar.Parser

open Outline

variable {f : Nat → Nat} {g g' : Recursion} {place start : Nat} (hg : Nested f g g')

/-! ## Section 1: Variables, arrays and strings -/

include hg

/-- One `$` more is one round more, and takes a token. -/
theorem reads_variableRounds (n : Nat) :
    ReadsIn f n 1 (variableRounds g (n + 1)) fun m => variableRounds g' (m + 1) := by
  induction n with
  -- without tokens there is no variable
  | zero =>
    intro ts x rest hts h
    obtain rfl : ts = [] := List.length_eq_zero_iff.mp (Nat.le_zero.mp hts)
    cases h
  | succ n ih =>
    refine .bind (reads_kindAt (by decide)) fun kind => ?_
    simp only [move_kind?]
    split
    · exact .thenPure (reads_anyToken _) fun _ => by simp
    -- the name is told by an expression in braces
    · exact .thenPure (reads_between _ _ (hg.reads.expr 0) _) fun _ => by simp
    -- one more `$`
    · exact .round (reads_symbol _ _) fun _ => .mono (.thenPure ih fun _ => by simp) (Nat.zero_le _)

/-- A `$` in front is a node around the variable behind it. -/
theorem advances_variableRounds (fuel : Nat) :
    ∀ a, Advances a (variableRounds g fuel) fun e next => Lies (ofExpr e) a next := by
  induction fuel with
  | zero => exact fun _ => advances_unexpected
  | succ fuel ih =>
    intro a
    refine (peeks_kindAt 0).bind fun kind => ?_
    split
    · exact (parses_anyToken (f := f)).advances.bind fun t b ht => .pure (.leaf ht.1 ht.2.1 ht.2.2)
    · refine (parses_between _ _ (hg.expr 0)).advances.bind
        fun ⟨braces, inner⟩ b ⟨hbraces, hinner⟩ => .pure ?_
      exact hinner.node hbraces.1 hbraces.2.2
    · refine (parses_symbol (f := f) _).advances.bind fun mark b hmark => ?_
      refine (ih b).bind fun inner c hinner => .pure ?_
      exact (hinner.expr_end.earlier (by omega)).node hmark.1 hinner.expr_fits.2.2

/-- A variable, whose name may be told by another variable or by an expression in braces. -/
theorem parses_variableExpr : Laid f 1 ofExpr (variableExpr g) (variableExpr g') := fun a =>
  ⟨.counted (reads_variableRounds hg), peeks_get.bind fun _ => advances_variableRounds hg _ a⟩

/-- A hole takes no token, but the comma after it is there. -/
theorem parses_element : Laid f 0 ofElement (element g) (element g') := by
  intro a
  refine (looks_atSymbol _).bind fun hole => .ite ?_ ?_
  -- a hole
  · exact .pure rfl (.none (Nat.le_refl a))
  refine (reads_skipSymbol _).parses.seq fun dots b => .ite ?_ ?_
  -- an array whose elements are put here
  · refine (hg.expr 0 b).seq fun spread c => .pure rfl ?_
    intro hspread hb
    exact hspread.earlier hb
  refine (hg.expr 0 b).seq fun first c => ?_
  refine (reads_skipSymbol _).parses.seq fun arrow d => .ite ?_ ?_
  -- a key before its value
  · refine (hg.expr 0 d).seq fun value e => .pure rfl ?_
    intro hvalue hd hkey hb
    have hkey : Lies (ofExpr first) a c := hkey.earlier hb
    exact hkey.seq (hvalue.earlier hd)
  -- a value alone
  · apply Parses.pure rfl
    intro hd hvalue hb
    exact hvalue.widen hb hd

/-- An array begins where its first token does, which may be the word before its brackets. -/
theorem parses_arrayExpr (start : Nat) (style : ArrayStyle) (opening closing : Symbol) :
    Begun f 1 ofExpr start (arrayExpr g start style opening closing)
      (arrayExpr g' (f start) style opening closing) := by
  intro a
  have hlist : Laid f 0 ofElements (list closing (element g)) (list closing (element g')) := by
    intro b
    exact parses_list rows_elements closing (parses_element hg)
  refine (parses_between opening closing hlist).bind fun ⟨span, elements⟩ b => .pure (by simp) ?_
  rintro ⟨hspan, helements⟩ hstart
  have hinside : Lies (ofElements elements) start span.stop :=
    helements.earlier (Nat.le_trans hstart hspan.1)
  exact hinside.node (Nat.le_refl start) hspan.2.2

omit hg in
/-- An expression that is a single token. -/
theorem parses_leaf {make : Span → String → Expr}
    (hmake : ∀ span text, make (move f span) text = move f (make span text))
    (h : ∀ span text, ofExpr (make span text) = Outline.leaf span) :
    Laid f 1 ofExpr (leaf make) (leaf make) := by
  intro a
  refine parses_anyToken.bind fun t b => .pure (hmake t.span t.text) ?_
  intro ht
  rw [h]
  exact .leaf ht.1 ht.2.1 ht.2.2

/-- An index within a string, which may be a bare word. -/
theorem parses_partIndex : Laid f 1 ofExpr (partIndex g) (partIndex g') := by
  intro a
  refine (looks_nextIs byKind_isWord).bind fun _ => .ite ?_ (hg.expr 0 a)
  exact parses_anyToken.bind fun t b => .pure (by simp) fun ht => .leaf ht.1 ht.2.1 ht.2.2

omit hg in
/-- A member within a string. -/
theorem parses_partMember (base : Expr) (a : Nat) : Parses f 0 place
    (do
      let operator ← anyToken
      let word ← identifier
      return Expr.fetch (base.span.through word.span) (operator.isSymbol .nullArrow) base
        (.name word.span word.text))
    (do
      let operator ← anyToken
      let word ← identifier
      return Expr.fetch ((base.moved f).span.through word.span) (operator.isSymbol .nullArrow)
        (base.moved f) (.name word.span word.text))
    fun e next => Lies (ofExpr base) a place → Lies (ofExpr e) a next := by
  refine reads_anyToken.step fun operator c => ?_
  refine parses_identifier.seq fun word d => .pure (by simp) ?_
  intro hword hbase
  have hname : Lies (ofExpr (.name word.span word.text)) c word.span.stop :=
    .leaf hword.1 hword.2.1 (Nat.le_refl _)
  exact (hbase.expr_begin.seq hname.expr_part).node hbase.expr_fits.1 hword.2.2

/-- A variable within a string takes one index or one member at most. -/
theorem parses_plainPart : Laid f 1 ofExpr (plainPart g) (plainPart g') := by
  intro a
  refine (parses_variableExpr hg a).bind fun base b => .atKind (by decide) fun kind => ?_
  split
  -- an index
  · refine (parses_between _ _ (parses_partIndex hg)).seq fun ⟨brackets, index⟩ c =>
      .pure (by simp) ?_
    rintro ⟨hbrackets, hindex⟩ hbase
    exact (hbase.expr_begin.seq (hindex.earlier hbrackets.1)).node hbase.expr_fits.1 hbrackets.2.2
  -- a member behind either arrow
  · exact parses_partMember base a
  · exact parses_partMember base a
  -- the variable alone
  · exact .pure rfl id

/-- A part of a string: text, an expression in braces, or a variable. -/
theorem parses_templatePart : Laid f 1 ofExprs (templatePart g) (templatePart g') := by
  intro a
  refine .atKind (by decide) fun kind => ?_
  split
  -- a piece of text has no outline
  · exact parses_anyToken.bind fun _ b => .pure rfl fun hb => .none (by omega)
  · refine (parses_between _ _ (hg.expr 0)).bind fun ⟨braces, inner⟩ b => .pure (by simp) ?_
    rintro ⟨hbraces, hinner⟩
    exact hinner.widen hbraces.1 hbraces.2.2
  · refine (parses_between _ _ (hg.expr 0)).bind fun ⟨braces, inner⟩ b => .pure (by simp) ?_
    rintro ⟨hbraces, hinner⟩
    exact hinner.widen hbraces.1 hbraces.2.2
  · exact (parses_plainPart hg a).bind fun _ _ => .pure (by simp) id

/-- A string with its parts, from the opening mark to the closing one. -/
theorem parses_template (closing : TokenKind) :
    Laid f 1 ofExpr (template g closing) (template g' closing) := by
  have hstop : ByKind (·.kind == closing) := fun t t' h => by simp only [h]
  intro a
  refine parses_anyToken.bind fun first b => ?_
  refine (parses_many (rows_flatMap id) (looks_nextIs hstop) (parses_templatePart hg)).seq
    fun parts c => ?_
  refine parses_anyToken.seq fun last d => .pure (by simp) ?_
  intro hlast hparts hfirst
  rw [List.flatMap_id] at hparts
  exact (hparts.widen (by omega) (by omega)).node hfirst.1 hlast.2.2

/-! ## Section 2: Functions and other forms that begin with a word -/

omit hg in
/-- The variables that a closure takes along. -/
theorem reads_captures :
    Reads f 1 (Prod.snd <$> between .leftParen .rightParen (list .rightParen capture))
    (Prod.snd <$> between .leftParen .rightParen (list .rightParen capture)) :=
  have hcapture : Reads f 1 capture capture := (reads_skipSymbol _).seq fun _ => reads_variableName
  .map (reads_between _ _ (reads_list _ hcapture)) fun _ => rfl

/-- A closure. Its body is a node of its own, since it opens a scope. -/
theorem parses_closure (start : Nat) : Begun f 1 ofExpr start (closure g start)
    (closure g' (f start)) := by
  intro _
  refine (reads_keyword _).enter fun _ _ => ?_
  refine (reads_skipSymbol _).step fun _ _ => ?_
  refine (reads_params hg.reads).step fun params _ => ?_
  refine (reads_skipKeyword _).step fun _ _ => .ite (reads_captures.step ?_)
    (Reads.step (.pure rfl) ?_)
  all_goals
    intro captures _
    refine reads_returnHint?.step fun _ _ => ?_
    refine (parses_block hg _).seq fun ⟨braces, body⟩ c => .pure (by simp) ?_
    rintro ⟨hbraces, hbody⟩ h
    exact (hbody.node (Nat.le_trans h hbraces.1) (Nat.le_refl _)).node (Nat.le_refl _) hbraces.2.2

/-- An arrow function, whose body is an expression. -/
theorem parses_arrow (start : Nat) : Begun f 1 ofExpr start (arrow g start)
    (arrow g' (f start)) := by
  intro _
  refine (reads_keyword _).enter fun _ _ => ?_
  refine (reads_skipSymbol _).step fun _ _ => ?_
  refine (reads_params hg.reads).step fun _ _ => ?_
  refine reads_returnHint?.step fun _ _ => ?_
  refine (reads_symbol _).step fun _ a => ?_
  refine (hg.expr 0 a).seq fun body b => .pure (by simp) ?_
  intro hbody h
  exact (hbody.expr_end.earlier h).node (Nat.le_refl _) hbody.expr_fits.2.2

/-- Both kinds of functions without a name, whether they are static or not. -/
theorem parses_anonymousFunction (start : Nat) :
    Begun f 1 ofExpr start (anonymousFunction g start) (anonymousFunction g' (f start)) := fun _ =>
  (reads_skipKeyword _).step fun _ _ => (looks_atKeyword _).bind fun _ =>
    .ite (parses_arrow hg start _) (parses_closure hg start _)

/-- An operator in front of its operand. -/
theorem parses_applied (form : Operation) (level : Nat) :
    Laid f 1 ofExpr (applied g form level) (applied g' form level) := by
  intro a
  refine parses_anyToken.bind fun mark b => ?_
  refine (hg.expr level b).seq fun operand c => .pure (by simp) ?_
  intro hoperand hmark
  exact (hoperand.expr_end.earlier (by omega)).node hmark.1 hoperand.expr_fits.2.2

/-- A new object, of a class that is named, computed, or declared in place. -/
theorem parses_creation : Laid f 1 ofExpr (creation g) (creation g') := by
  have hat : Looks f atAnonymousClass atAnonymousClass :=
    looks_nextIs fun t t' h => by simp only [h]
  intro a
  refine (parses_keyword _).bind fun mark b => ?_
  refine hat.bind fun _ => .ite ?_ ?_
  -- An anonymous class goes on in the same way with and without arguments.
  · refine (reads_attributes hg.reads).step fun _ _ => ?_
    refine reads_modifiers.step fun _ _ => ?_
    have hvalues : Laid f 1 ofExprs (Prod.snd <$> arguments g) (Prod.snd <$> arguments g') := by
      intro b
      refine .map ((parses_arguments hg b).imp fun _ c hargs => ?_) fun _ => rfl
      exact hargs.2.widen hargs.1.1 hargs.1.2.2
    refine (reads_keyword _).step fun _ c => ?_
    refine (looks_atSymbol _).bind fun _ => .ite ((hvalues c).seq ?_) ((parses_noExprs c).seq ?_)
    all_goals
      intro args d
      refine (reads_namesAfter _).step fun _ _ => ?_
      refine (reads_namesAfter _).step fun _ _ => ?_
      refine (parses_members hg _).seq fun ⟨braces, members⟩ e => .pure (by simp) ?_
      intro ⟨hbraces, hmembers⟩ hargs hmark
      exact ((hargs.earlier (by omega)).seq (hmembers.earlier hbraces.1)).node hmark.1 hbraces.2.2
  -- The class is an operand, in a node of its own.
  · refine (hg.expr _ b).seq fun of c => ?_
    refine (looks_atSymbol _).bind fun _ => .ite ?_ (.pure (by simp) ?_)
    · refine (parses_arguments hg _).seq fun ⟨parens, args⟩ d => .pure (by simp) ?_
      intro ⟨hparens, hargs⟩ hof hmark
      exact ((hof.earlier (by omega)).expr_part.seq (hargs.earlier hparens.1)).node
        hmark.1 hparens.2.2
    · intro hof hmark
      exact (hof.expr_end.earlier (by omega)).expr_part.node hmark.1 hof.expr_fits.2.2

/-- An arm of `match`: its conditions, none of them for the default, and its value. -/
theorem parses_matchArm : Laid f 1 ofExprs (matchArm g) (matchArm g') := by
  intro a
  refine (reads_skipKeyword _).parses.seq fun _ b => .ite ((parses_noExprs b).seq ?_)
    ((parses_list rows_exprs _ (hg.expr 0)).seq ?_)
  all_goals
    intro conditions c
    refine (reads_symbol _).enter fun _ d => ?_
    refine (hg.expr 0 d).seq fun value e => ?_
    exact .pure (by simp) fun hvalue hconditions hb => (hconditions.earlier hb).exprs_append hvalue

/-- `match` with its subject and its arms. -/
theorem parses_matching : Laid f 1 ofExpr (matching g) (matching g') := by
  intro a
  refine (parses_keyword _).bind fun mark b => ?_
  refine (parses_between _ _ (hg.expr 0)).seq fun ⟨parens, subject⟩ c => ?_
  refine (parses_between _ _ fun _ => parses_list (rows_flatMap id) _ (parses_matchArm hg)).seq
    fun ⟨braces, arms⟩ d => .pure (by simp) ?_
  rintro ⟨hbraces, harms⟩ ⟨hparens, hsubject⟩ hmark
  rw [List.flatMap_id] at harms
  exact ((hsubject.widen (by omega) hparens.2.2).seq (harms.earlier hbraces.1)).node
    hmark.1 hbraces.2.2

omit hg in
theorem byKind_endsYield : ByKind endsYield := fun t t' h => by
  simp only [endsYield, isTerminator, Token.isSymbol, h]

/-- `yield` with nothing behind it, with a value, with a key and a value, or with a source of
values. -/
theorem parses_yielding : Laid f 1 ofExpr (yielding g) (yielding g') := by
  intro a
  refine (parses_keyword _).bind fun mark b => ?_
  refine (looks_nextIs byKind_endsYield).bind fun _ => ?_
  refine .ite (.pure (by simp) fun hmark => (Lies.none hmark.2.1).node hmark.1 hmark.2.2) ?_
  refine (reads_skipKeyword _).step fun _ c => .ite ?_ ?_
  -- all values of a source
  · refine (hg.expr 0 c).seq fun source d => .pure (by simp) ?_
    intro hsource hmark
    exact (hsource.expr_end.earlier (by omega)).node hmark.1 hsource.expr_fits.2.2
  · refine (hg.expr 0 c).seq fun first d => ?_
    refine (reads_skipSymbol _).step fun _ e => .ite ?_ (.pure (by simp) ?_)
    · refine (hg.expr 0 e).seq fun value i => .pure (by simp) ?_
      intro hvalue hfirst hmark
      exact ((hfirst.earlier (by omega)).seq hvalue.expr_end).node hmark.1 hvalue.expr_fits.2.2
    · intro hfirst hmark
      exact (hfirst.expr_end.earlier (by omega)).node hmark.1 hfirst.expr_fits.2.2

/-- `isset` with its variables. -/
theorem parses_presence : Laid f 1 ofExpr (presence g) (presence g') := by
  intro a
  refine (parses_keyword _).bind fun mark b => ?_
  refine (parses_between _ _ fun _ => parses_list rows_exprs _ (hg.expr 0)).seq
    fun ⟨parens, parts⟩ c => .pure (by simp) ?_
  rintro ⟨hparens, hparts⟩ hmark
  exact (hparts.earlier (by omega)).node hmark.1 hparens.2.2

/-- A word with one expression in parentheses. -/
theorem parses_construct : Laid f 1 ofExpr (construct g) (construct g') := by
  intro a
  refine parses_anyToken.bind fun mark b => ?_
  refine (parses_between _ _ (hg.expr 0)).seq fun ⟨parens, part⟩ c => .pure (by simp) ?_
  rintro ⟨hparens, hpart⟩ hmark
  exact (hpart.earlier (by omega)).node hmark.1 hparens.2.2

/-- `exit`, with arguments or without. -/
theorem parses_exiting : Laid f 1 ofExpr (exiting g) (exiting g') := by
  intro a
  refine (parses_keyword _).bind fun mark b => ?_
  refine (looks_atSymbol _).bind fun _ => .ite ?_ ?_
  · refine (parses_arguments hg _).seq fun ⟨parens, parts⟩ c => .pure (by simp) ?_
    rintro ⟨hparens, hparts⟩ hmark
    exact (hparts.earlier (by omega)).node hmark.1 hparens.2.2
  · exact .pure (by simp) fun hmark => (Lies.none hmark.2.1).node hmark.1 hmark.2.2

/-- Another file that is run. -/
theorem parses_including : Laid f 1 ofExpr (including g) (including g') := by
  intro a
  refine (parses_keyword _).bind fun mark b => ?_
  refine (hg.expr 0 b).seq fun path c => .pure (by simp) ?_
  intro hpath hmark
  exact (hpath.expr_end.earlier (by omega)).node hmark.1 hpath.expr_fits.2.2

/-! ## Section 3: Calls -/

omit hg

/-- An argument with other offsets. -/
def Argument.moved (f : Nat → Nat) : Argument → Argument
  | .plain value => .plain (value.moved f)
  | .spread value => .spread (value.moved f)
  | .named value => .named (value.moved f)
  | .placeholder => .placeholder

instance : Placed Argument := ⟨Argument.moved⟩

theorem isOpen_move (a : Argument) : (move f a).isOpen = a.isOpen := by
  cases a <;> rfl

theorem value?_move (a : Argument) : (move f a).value? = move f a.value? := by
  cases a <;> rfl

/-- Whether a call is left open does not depend on offsets. -/
theorem any_isOpen_move (args : List Argument) :
    (move f args).any Argument.isOpen = args.any Argument.isOpen := by
  induction args with
  | nil => rfl
  | cons a rest ih => simp [isOpen_move, ih]

/-- The values of arguments are moved with them. -/
theorem values_move (args : List Argument) :
    (move f args).filterMap Argument.value? = move f (args.filterMap Argument.value?) := by
  induction args with
  | nil => rfl
  | cons a rest ih =>
    rw [move_cons, List.filterMap_cons, List.filterMap_cons, value?_move, ih]
    cases a.value? <;> rfl

/-- Items that are read as at most one expression each. -/
theorem rows_filterMap {α : Type} (f : α → Option Expr) :
    Rows (fun a x b => Lies (ofExprs (f x).toList) a b) fun a xs b =>
      Lies (ofExprs (xs.filterMap f)) a b where
  nil _ := .none (Nat.le_refl _)
  cons {a b b' c x xs} hx hle hxs := by
    have happend := hx.exprs_append (hxs.earlier hle)
    rw [List.filterMap_cons]
    cases hf : f x with
    | none => rwa [hf] at happend
    | some e => rwa [hf] at happend

include hg

/-- An argument of a call that may be left open. A placeholder is no expression. -/
theorem parses_openArgument :
    Laid f 0 (fun x => ofExprs x.value?.toList) (openArgument g) (openArgument g') := by
  have hopen : ∀ {a b}, a ≤ b → Lies (ofExprs Argument.placeholder.value?.toList) a b :=
    fun hb => .none hb
  intro a
  refine looks_atNamedArgument.bind fun _ => .ite ?_ ?_
  -- behind its name
  · refine reads_anyToken.parses.seq fun _ _ => ?_
    refine reads_anyToken.step fun _ _ => ?_
    refine (reads_skipSymbol _).step fun _ b => .ite (.pure rfl hopen) ?_
    exact (hg.expr 0 b).seq fun value c => .pure rfl fun hvalue h => hvalue.earlier h
  refine (reads_skipSymbol _).parses.seq fun _ _ => .ite (.pure rfl hopen) ?_
  refine (reads_skipSymbol _).step fun _ b => .ite ?_ ?_
  -- dots with nothing behind them stand for all arguments
  · refine (looks_atSymbol _).bind fun _ => ?_
    refine (looks_atSymbol _).bind fun _ => .ite (.pure rfl hopen) ?_
    exact (hg.expr 0 b).seq fun value c => .pure rfl fun hvalue h => hvalue.earlier h
  · exact (hg.expr 0 b).seq fun value c => .pure rfl fun hvalue h => hvalue.earlier h

/-- The arguments of such a call. -/
theorem parses_openArguments :
    Enclosed f 1 (fun args => ofExprs (args.filterMap Argument.value?)) (openArguments g)
      (openArguments g') :=
  fun _ => parses_between _ _ fun _ => parses_list (rows_filterMap _) _ (parses_openArgument hg)

/-- What is applied to arguments begins with its own parts. -/
theorem parses_applyTo (parts : List Expr) {make make' : Span → List Expr → Expr} (start : Nat)
    (hmove : ∀ span args, make' (move f span) (move f args) = move f (make span args)) :
    Parses f 1 place (applyTo g parts make start)
      (applyTo g' (move f parts) make' (f start)) fun e next =>
      ∀ a, a ≤ start → Lies (ofExprs parts) start place →
        (∀ {args stop next}, Lies (ofExprs args) place stop → stop ≤ next →
          Lies (ofExpr (make ⟨start, stop⟩ args)) a next) →
        Lies (ofExpr e) a next := by
  refine (parses_openArguments hg _).bind fun ⟨parens, args⟩ b => ?_
  dsimp only
  rw [snd_move, any_isOpen_move, values_move]
  refine .ite (.pure (by simp) ?_) (.pure (hmove ⟨start, parens.stop⟩ _) ?_)
  -- a call that is left open is a node around the parts and the arguments that are there
  · intro ⟨hparens, hargs⟩ a ha hparts _
    exact (hparts.exprs_append (hargs.earlier hparens.1)).node ha hparens.2.2
  · intro ⟨hparens, hargs⟩ a ha hparts hmake
    exact hmake (hargs.earlier hparens.1) hparens.2.2

/-- `clone` before parentheses, which may be the arguments of a call. -/
theorem parses_cloneCall (mark : Token) (a : Nat) :
    Parses f 1 place (cloneCall g mark) (cloneCall g' (move f mark)) fun e next =>
      mark.span.Fits a place → Lies (ofExpr e) a next := by
  refine (parses_openArguments hg _).bind fun ⟨parens, args⟩ b => ?_
  have hmany : ∀ args : List Argument, Parses f 0 b
      (if args.any Argument.isOpen then
        pure (.unscanned (mark.span.through parens) .callable
          (.name mark.span mark.text :: args.filterMap Argument.value?))
      else pure (Expr.call (mark.span.through parens) (.name mark.span mark.text)
        (args.filterMap Argument.value?)))
      (if (move f args).any Argument.isOpen then
        pure (.unscanned ((move f mark).span.through (move f parens)) .callable
          (.name (move f mark).span (move f mark).text :: (move f args).filterMap Argument.value?))
      else pure (Expr.call ((move f mark).span.through (move f parens))
        (.name (move f mark).span (move f mark).text)
        ((move f args).filterMap Argument.value?)))
      fun e next => parens.Fits place b ∧
        Lies (ofExprs (args.filterMap Argument.value?)) parens.start parens.stop →
        mark.span.Fits a place → Lies (ofExpr e) a next := by
    intro args
    have hcallee : mark.span.Fits a place →
        Lies (ofExpr (.name mark.span mark.text)) mark.span.start place :=
      fun hmark => .leaf (Nat.le_refl _) hmark.2.1 hmark.2.2
    rw [any_isOpen_move, values_move]
    refine .ite (.pure (by simp) ?_) (.pure (by simp) ?_)
    · intro ⟨hparens, hargs⟩ hmark
      exact ((hcallee hmark).seq (hargs.earlier hparens.1)).node hmark.1 hparens.2.2
    · intro ⟨hparens, hargs⟩ hmark
      exact ((hcallee hmark).expr_part.seq (hargs.earlier hparens.1)).node hmark.1 hparens.2.2
  -- With a single argument in the parentheses this is no call but the keyword before a group.
  match args with
  | [.plain object] =>
    refine .pure rfl ?_
    rintro ⟨hparens, hobject⟩ hmark
    have hobject : Lies (ofExpr object) parens.start parens.stop := hobject
    have hle := Nat.le_trans hmark.2.1 (Nat.le_trans hmark.2.2 hparens.1)
    exact (hobject.node hle (Nat.le_refl _)).node hmark.1 hparens.2.2
  | [] | [.spread _] | [.named _] | [.placeholder] => exact hmany _
  | first :: _ :: _ => cases first <;> exact hmany _

/-- `clone` with the object that is copied. -/
theorem parses_cloning : Laid f 1 ofExpr (cloning g) (cloning g') := by
  intro a
  refine (parses_keyword _).bind fun mark b => ?_
  refine (looks_atSymbol _).bind fun _ => .ite ?_ ?_
  · exact (parses_cloneCall hg mark a).weak
  · refine (hg.expr _ b).seq fun object c => .pure (by simp) ?_
    intro hobject hmark
    exact (hobject.expr_end.earlier (by omega)).node hmark.1 hobject.expr_fits.2.2

/-! ## Section 4: Operands -/

/-- **Operands that begin with a keyword.** Each keyword has its own form, and most of them have
none. -/
theorem parses_keywordOperand (k : Keyword) : Laid f 1 ofExpr (keywordOperand g k)
    (keywordOperand g' k) := by
  intro a
  refine .next fun t b => .atKind (by decide) fun following => ?_
  have hleaf := fun {make : Span → String → Expr} hmove h =>
    (@parses_leaf f make hmove h b).behind (a := a) (s := t.span.start)
  -- one case for each keyword, and none for those that cannot begin an operand
  cases k
  case functionKw | fnKw => exact (parses_anonymousFunction hg _ _).begun
  case staticKw =>
    exact .ite (parses_anonymousFunction hg _ _).begun (hleaf (fun _ _ => rfl) fun _ _ => rfl)
  case newKw => exact (parses_creation hg b).behind
  case cloneKw => exact (parses_cloning hg b).behind
  case throwKw | printKw => exact (parses_applied hg _ _ b).behind
  case yieldKw => exact (parses_yielding hg b).behind
  case includeKw => exact (parses_including hg b).behind
  case issetKw => exact (parses_presence hg b).behind
  case emptyKw | evalKw => exact (parses_construct hg b).behind
  case exitKw => exact (parses_exiting hg b).behind
  case matchKw => exact .ite (parses_matching hg b).behind (hleaf (fun _ _ => rfl) fun _ _ => rfl)
  case arrayKw =>
    refine .ite parses_unexpected (reads_anyToken.enter fun _ _ => ?_)
    exact (parses_arrayExpr hg _ _ _ _ _).weak.begun
  case listKw =>
    refine .ite (hleaf (fun _ _ => rfl) fun _ _ => rfl) (reads_anyToken.enter fun _ _ => ?_)
    exact (parses_arrayExpr hg _ _ _ _ _).weak.begun
  all_goals first
    | exact hleaf (fun _ _ => rfl) fun _ _ => rfl
    | exact parses_unexpected

/-- **Operands**, by the kind of their first token. -/
theorem parses_operandFrom (t : Token) :
    Begun f 1 ofExpr t.span.start (operandFrom g t) (operandFrom g' (move f t)) := by
  intro place
  refine .atKind (by decide) fun _ => ?_
  have hleaf := fun {make : Span → String → Expr} hmove h =>
    (@parses_leaf f make hmove h place).after (s := t.span.start)
  rw [kind_move]
  generalize t.kind = kind
  cases kind
  case «variable» => exact (parses_variableExpr hg place).after
  case identifier | qualified | fullyQualified => exact hleaf (fun _ _ => rfl) fun _ _ => rfl
  case keyword k => exact (parses_keywordOperand hg k place).after
  case integer | float | string => exact hleaf (fun _ _ => rfl) fun _ _ => rfl
  case quoteMark | documentOpen => exact (parses_template hg _ place).after
  case cast => exact (parses_applied hg _ _ place).after
  case symbol s =>
    cases s
    case dollar | dollarBrace => exact (parses_variableExpr hg place).after
    case leftBracket => exact parses_arrayExpr hg _ _ _ _ _
    -- parentheses are a node of their own
    case leftParen =>
      refine (parses_between _ _ (hg.expr 0)).bind fun ⟨parens, inner⟩ a => .pure rfl ?_
      rintro ⟨hparens, hinner⟩ h
      exact hinner.node (Nat.le_trans h hparens.1) hparens.2.2
    case attributeOpen =>
      exact (reads_attributes hg.reads).step fun _ _ => parses_anonymousFunction hg _ _
    case plus | minus | bang | tilde | atSign | ampersand | doublePlus | doubleMinus =>
      exact (parses_applied hg _ _ place).after
    all_goals exact parses_unexpected
  all_goals exact parses_unexpected

omit hg

/-- Tokens without what stands for missing ones in front of them. -/
def behindLapse : List Token → List Token
  | l :: rest => if l.kind = .lapse then rest else l :: rest
  | [] => []

/-- An operand is read as if no tokens were missing behind its first one. -/
theorem operand_cons (g : Recursion) (t : Token) (others : List Token) :
    operand g (t :: others) = operandFrom g t (t :: behindLapse others) := by
  cases others with
  | nil => rfl
  | cons l rest =>
    change operandFrom g t (if l.kind == .lapse then t :: rest else t :: l :: rest) = _
    by_cases hl : l.kind = .lapse <;> simp [behindLapse, hl]

/-- Either there is something that stands for missing tokens in front, or nothing is left out. -/
theorem behindLapse_cases (ts : List Token) :
    (∃ l, l.kind = .lapse ∧ ts = l :: behindLapse ts) ∨
      (ts = behindLapse ts ∧ ts.head?.map Token.kind ≠ some .lapse) := by
  cases ts with
  | nil => exact .inr ⟨rfl, by simp⟩
  | cons l rest => by_cases hl : l.kind = .lapse <;> simp [behindLapse, hl]

theorem behindLapse_of_head? {ts : List Token} (h : ts.head?.map Token.kind ≠ some .lapse) :
    behindLapse ts = ts := by
  rcases behindLapse_cases ts with ⟨l, hl, hts⟩ | ⟨hts, _⟩
  · rw [hts] at h
    simp [hl] at h
  · exact hts.symm

include hg

/-- An operand is read locally. -/
theorem reads_operand : Reads f 1 (operand g) (operand g') := by
  intro n ts x rest _ h
  cases ts with
  | nil => cases h
  | cons t others =>
    rw [operand_cons] at h
    obtain ⟨u, hu, hk, hv⟩ := (parses_operandFrom hg t 0).reads _ _ x rest (Nat.le_refl _) h
    cases u with
    | nil => simp at hk
    | cons first u =>
      obtain ⟨rfl, hbehind⟩ := List.cons.inj hu
      have hbehind : behindLapse others = u ++ rest := hbehind
      -- the operand is the first token and what it takes behind it, without a lapse between the two
      rcases behindLapse_cases others with ⟨l, hl, hothers⟩ | ⟨hothers, hhead⟩
      · refine ⟨t :: l :: u, by rw [hothers, hbehind]; rfl, by simp, fun v m hrest hm => ?_⟩
        have hdropped : behindLapse (move f l :: (move f u ++ v)) = move f u ++ v := by
          simp [behindLapse, hl]
        change operand g' (move f t :: move f l :: (move f u ++ v)) = _
        rw [operand_cons, hdropped]
        exact hv v m hrest (by simp at hm ⊢; omega)
      · refine ⟨t :: u, by rw [hothers, hbehind]; rfl, by simp, fun v m hrest hm => ?_⟩
        have hnone : behindLapse (move f u ++ v) = move f u ++ v := by
          apply behindLapse_of_head?
          rwa [← (hrest.prepend f u).head, ← hbehind, ← hothers]
        change operand g' (move f t :: (move f u ++ v)) = _
        rw [operand_cons, hnone]
        exact hv v m hrest hm

/-- An operand lies where it is read. -/
theorem advances_operand (a : Nat) : Advances a (operand g) fun e next =>
    Lies (ofExpr e) a next := by
  intro ts e rest stop hts h
  cases ts with
  | nil => cases h
  | cons t others =>
    rw [operand_cons] at h
    -- The token that is dropped stands between two others, and these keep their order without it.
    have hbehind : Along t.span.stop (behindLapse others) stop := by
      rcases behindLapse_cases others with ⟨l, -, hothers⟩ | ⟨hothers, -⟩
      · rw [hothers] at hts
        exact hts.2.2.2.2.earlier (Nat.le_trans hts.2.2.1 hts.2.2.2.1)
      · exact hothers ▸ hts.2.2
    have hfirst : Along t.span.start (t :: behindLapse others) stop :=
      ⟨Nat.le_refl _, hts.2.1, hbehind⟩
    obtain ⟨next, hnext, he⟩ := (parses_operandFrom hg t _).advances _ _ _ _ hfirst h
    exact ⟨next, hnext, (he (Nat.le_refl _)).earlier hts.1⟩

/-! ## Section 5: Calls, member accesses and operators -/

omit hg

/-- What is read behind an expression extends it. -/
abbrev Extends (f : Nat → Nat) (left : Expr) (p p' : Parser Expr) : Prop :=
  ∀ a place, Parses f 1 place p p' fun e next => Lies (ofExpr left) a place → Lies (ofExpr e) a next

variable {left : Expr} {a : Nat}

theorem start_moved (left : Expr) : (left.moved f).span.start = f left.span.start := by simp

include hg

/-- A call of what stands before it. -/
theorem parses_called (left : Expr) :
    Extends f left (called g left) (called g' (left.moved f)) := by
  intro a place
  unfold called
  rw [start_moved]
  refine (parses_applyTo hg [left] _ fun _ _ => by simp).imp fun _ _ h hleft => ?_
  refine h a hleft.expr_fits.1 hleft.expr_begin fun hargs hle => ?_
  exact (hleft.expr_begin.expr_part.seq hargs).node hleft.expr_fits.1 hle

/-- The name of a member, which may be computed. -/
theorem parses_memberExpr : Laid f 1 ofExpr (memberExpr g) (memberExpr g') := by
  intro b
  refine (looks_nextIs byKind_isWord).bind fun _ =>
    .ite (parses_leaf (fun _ _ => rfl) (fun _ _ => rfl) b) ?_
  refine (looks_atSymbol _).bind fun _ => .ite ?_ (parses_variableExpr hg b)
  refine (parses_between _ _ (hg.expr 0)).bind fun ⟨braces, inner⟩ c => .pure (by simp) ?_
  rintro ⟨hbraces, hinner⟩
  exact hinner.node hbraces.1 hbraces.2.2

/-- A member of an object: a method with its arguments, or a property. -/
theorem parses_objectMember (level : Nat) (left : Expr) :
    Extends f left (objectMember g level left) (objectMember g' level (left.moved f)) := by
  intro a _
  refine reads_anyToken.enter fun operator b => ?_
  refine (parses_memberExpr hg b).seq fun member c => ?_
  refine (looks_atSymbol _).bind fun _ => .ite (.ite ?_ ?_) (.pure (by simp) ?_)
  -- a call behind `?->` cannot be left open
  · refine (parses_arguments hg _).seq fun ⟨parens, args⟩ d => .pure (by simp) ?_
    intro ⟨hparens, hargs⟩ hmember hleft
    have hstart := hleft.expr_fits.1
    exact (hleft.expr_begin.seq (hmember.expr_part.seq (hargs.earlier hparens.1))).node
      hstart hparens.2.2
  · rw [start_moved]
    refine (parses_applyTo hg [left, member] _ fun _ _ => by simp).weak.imp
      fun _ _ h hmember hleft => ?_
    refine h a hleft.expr_fits.1 (hleft.expr_begin.seq hmember) fun hargs hle => ?_
    exact (hleft.expr_begin.seq (hmember.expr_part.seq hargs)).node hleft.expr_fits.1 hle
  · intro hmember hleft
    exact (hleft.expr_begin.seq hmember.expr_end.expr_part).node hleft.expr_fits.1
      hmember.expr_fits.2.2

omit hg in
theorem staticForm_moved (e : Expr) : staticForm (e.moved f) = staticForm e := by
  cases e <;> try rfl
  next form _ => cases form <;> rfl

/-- A member of a class: a method with its arguments, a property or a constant. -/
theorem parses_classMember (level : Nat) (left : Expr) :
    Extends f left (classMember g level left) (classMember g' level (left.moved f)) := by
  intro a _
  refine reads_anyToken.enter fun _ b => ?_
  refine (parses_memberExpr hg b).seq fun member c => ?_
  refine (looks_atSymbol _).bind fun _ => .ite ?_ (.pure (by simp [staticForm_moved]) ?_)
  · rw [start_moved]
    refine (parses_applyTo hg [left, member] _ fun _ _ => by simp).weak.imp
      fun _ _ h hmember hleft => ?_
    refine h a hleft.expr_fits.1 (hleft.expr_begin.seq hmember) fun hargs hle => ?_
    exact (hleft.expr_begin.expr_part.seq (hmember.expr_part.seq hargs)).node hleft.expr_fits.1 hle
  · intro hmember hleft
    exact (hleft.expr_begin.seq hmember.expr_end).node hleft.expr_fits.1 hmember.expr_fits.2.2

/-- An element of an array, or a place at its end. -/
theorem parses_indexed (left : Expr) : Extends f left (indexed g left)
    (indexed g' (left.moved f)) := by
  intro a _
  refine .atKind (by decide) fun _ => .ite ?_ ?_
  -- the place behind the last element
  · refine reads_anyToken.enter fun _ b => ?_
    refine parses_anyToken.seq fun close c => .pure (by simp) ?_
    intro hclose hleft
    exact (hleft.expr_begin.widen (Nat.le_refl _) (by omega)).node hleft.expr_fits.1 hclose.2.2
  · refine (parses_between _ _ (hg.expr 0)).bind fun ⟨brackets, index⟩ b => .pure (by simp) ?_
    intro ⟨hbrackets, hindex⟩ hleft
    exact (hleft.expr_begin.seq (hindex.earlier hbrackets.1)).node hleft.expr_fits.1 hbrackets.2.2

omit hg in
/-- The target is found in the same place if offsets are others. -/
theorem assignTo_moved (value target : Expr) :
    assignTo (value.moved f) (target.moved f) = (assignTo value target).moved f := by
  fun_induction assignTo value target with
  | case1 span operand ih => simp [assignTo, ih]
  | case2 span left right ih => simp [assignTo, ih]
  | case3 span condition no ih => simp [assignTo, ih]
  | case4 span condition yes no ih => simp [assignTo, ih]
  -- the last operand is no operation that could hand the assignment on
  | case5 target h₁ h₂ h₃ h₄ =>
    have hplain : assignTo (value.moved f) (target.moved f) = .assign
        ((target.moved f).span.through (value.moved f).span) (target.moved f) (value.moved f) := by
      cases target
      case operation span form operands =>
        cases form <;> rcases operands with _ | ⟨a, _ | ⟨b, _ | ⟨c, _ | ⟨d, rest⟩⟩⟩⟩ <;> first
          | exact (h₁ _ _ rfl).elim
          | exact (h₂ _ _ _ rfl).elim
          | exact (h₃ _ _ _ rfl).elim
          | exact (h₄ _ _ _ _ rfl).elim
          | simp [assignTo]
      all_goals simp [assignTo]
    simp [hplain]

omit hg in
/-- An operation grows with its last operand. -/
theorem lies_grown {span : Span} {form : Operation} (front : List Expr)
    {last grown value : Expr} {b c : Nat}
    (hleft : Lies (ofExpr (.operation span form (front ++ [last]))) a b)
    (hvalue : Lies (ofExpr value) b c)
    (hlast : ∀ {m}, Lies (ofExpr last) m b → Lies (ofExpr grown) m value.span.stop) :
    Lies (ofExpr (.operation (span.through value.span) form (front ++ [grown]))) a c := by
  obtain ⟨hstart, -, hstop⟩ := hleft.expr_fits
  obtain ⟨m, hfront, hback⟩ := hleft.operands.exprs_split
  have hback : Lies (ofExpr last) m span.stop := hback
  have hgrown : Lies (ofExprs [grown]) m value.span.stop :=
    hlast (hback.widen (Nat.le_refl _) hstop)
  exact (hfront.exprs_append hgrown).node hstart hvalue.expr_fits.2.2

omit hg in
/-- **An assignment to the last operand** of what stands before it lies where the two do. -/
theorem lies_assignTo {value : Expr} {b c : Nat} (hleft : Lies (ofExpr left) a b)
    (hvalue : Lies (ofExpr value) b c) : Lies (ofExpr (assignTo value left)) a c := by
  -- The target is the last operand of the last operand, and so on. On the way down the value has to
  -- end where the range around it will end, hence `expr_end`.
  fun_induction assignTo value left generalizing a c with
  | case1 span operand ih => exact lies_grown [] hleft hvalue fun hlast => ih hlast hvalue.expr_end
  | case2 span left right ih =>
    exact lies_grown [left] hleft hvalue fun hlast => ih hlast hvalue.expr_end
  | case3 span condition no ih =>
    exact lies_grown [condition] hleft hvalue fun hlast => ih hlast hvalue.expr_end
  | case4 span condition yes no ih =>
    exact lies_grown [condition, yes] hleft hvalue fun hlast => ih hlast hvalue.expr_end
  | case5 target =>
    exact (hleft.expr_begin.expr_part.seq hvalue.expr_end).node hleft.expr_fits.1
      hvalue.expr_fits.2.2

/-- An assignment, whose target is the last operand before it. -/
theorem parses_assigned (left : Expr) : Extends f left (assigned g left)
    (assigned g' (left.moved f)) := by
  intro a _
  refine reads_anyToken.enter fun _ b => ?_
  refine (looks_atSymbol _).bind fun _ => ?_
  exact (hg.expr _ b).seq fun value c => .pure (assignTo_moved value left) fun hvalue hleft =>
    lies_assignTo hleft hvalue

/-- A condition with both branches, or with the second one only. -/
theorem parses_conditional (left : Expr) :
    Extends f left (conditional g left) (conditional g' (left.moved f)) := by
  intro a _
  refine (reads_symbol _).enter fun _ _ => ?_
  refine (reads_skipSymbol _).step fun _ b => .ite ?_ ?_
  · refine (hg.expr _ b).seq fun no c => .pure (by simp) ?_
    intro hno hleft
    exact (hleft.expr_begin.seq hno.expr_end).node hleft.expr_fits.1 hno.expr_fits.2.2
  · refine (hg.expr 0 b).seq fun yes c => ?_
    refine (reads_symbol _).step fun _ d => ?_
    refine (hg.expr _ d).seq fun no e => ?_
    refine .pure (by simp) ?_
    intro hno hyes hleft
    exact (hleft.expr_begin.seq (hyes.seq hno.expr_end)).node hleft.expr_fits.1 hno.expr_fits.2.2

/-- An operator between two operands. -/
theorem parses_binary (form : Operation) (level : Nat) (left : Expr) :
    Extends f left (binary g form level left) (binary g' form level (left.moved f)) := by
  intro a _
  refine reads_anyToken.enter fun _ b => ?_
  refine (hg.expr level b).seq fun right c => .pure (by simp) ?_
  intro hright hleft
  exact (hleft.expr_begin.seq hright.expr_end).node hleft.expr_fits.1 hright.expr_fits.2.2

omit hg

/-- An increment or a decrement behind its operand. -/
theorem parses_update (left : Expr) : Extends f left
    (do let mark ← anyToken; return Expr.operation (left.span.through mark.span) .update [left])
    (do let mark ← anyToken
        return Expr.operation ((left.moved f).span.through mark.span) .update [left.moved f]) := by
  intro a _
  refine parses_anyToken.bind fun mark b => .pure (by simp) ?_
  intro hmark hleft
  exact (hleft.expr_begin.widen (Nat.le_refl _) (by omega)).node hleft.expr_fits.1 hmark.2.2

/-- A parser that may find nothing takes a token if it finds something. Without an operator that
binds tightly enough, what is read stays as it is. -/
structure MayExtend (f : Nat → Nat) (left : Expr) (p p' : Parser (Option Expr)) : Prop where
  parses : ∀ a place, Parses f 0 place p p' fun more next =>
    Lies (ofExpr left) a place → Lies (ofExpr (more.getD left)) a next
  takes : ∀ {ts x rest}, p ts = .ok (some x, rest) → rest.length < ts.length

/-- Nothing is found, so nothing has to be taken. -/
theorem MayExtend.nothing : MayExtend f left (pure none) (pure none) :=
  ⟨fun _ _ => .pure rfl id, fun h => by cases (pure_eq_ok.mp h).1⟩

/-- An operator that binds tightly enough is read by its own parser. -/
theorem MayExtend.when {level found : Nat} {p p' : Parser Expr} (h : Extends f left p p') :
    MayExtend f left (extended?.when level found p) (extended?.when level found p') := by
  unfold extended?.when
  split
  · refine ⟨fun a place => .weak (.map (h a place) fun _ => rfl), fun {ts x rest} hx => ?_⟩
    rw [map_eq_pure_bind] at hx
    obtain ⟨y, mid, hy, hpure⟩ := bind_eq_ok.mp hx
    obtain ⟨-, rfl⟩ := pure_eq_ok.mp hpure
    obtain ⟨u, rfl, hu, -⟩ := (h 0 0).reads _ ts y mid (Nat.le_refl _) hy
    simp only [List.length_append]
    omega
  · exact .nothing

include hg

/-- **Operators behind an expression.** The kind of the next token tells which one it is. -/
theorem parses_extended? (level : Nat) (left : Expr) :
    MayExtend f left (extended? g level left) (extended? g' level (left.moved f)) := by
  have hkind : ∀ {q q' : Option TokenKind → Parser (Option Expr)},
      (∀ kind, MayExtend f left (q kind) (q' kind)) → MayExtend f left (kindAt 0 >>= q)
          (kindAt 0 >>= q') := by
    intro q q' hq
    refine ⟨fun a place => .atKind (by decide) fun kind => (hq kind).parses a place,
      fun {ts x rest} h => ?_⟩
    obtain ⟨kind, mid, hmid, hx⟩ := bind_eq_ok.mp h
    obtain ⟨-, rfl, -⟩ := kindAt_eq_ok.mp hmid
    exact (hq kind).takes hx
  refine hkind fun kind? => ?_
  split
  · exact .nothing
  next kind =>
    split
    · exact .when (parses_called hg left)
    · exact .when (parses_indexed hg left)
    · exact .when (parses_objectMember hg level left)
    · exact .when (parses_objectMember hg level left)
    · exact .when (parses_classMember hg level left)
    · exact .when (parses_update left)
    · exact .when (parses_update left)
    · exact .when (parses_assigned hg left)
    · exact .when (parses_assigned hg left)
    · exact .when (parses_conditional hg left)
    · split
      · exact .when (parses_binary hg _ _ left)
      · exact .nothing

/-- Each operator takes a token, so the rounds do not run out. The induction is on the rounds
left. -/
theorem reads_continued (level n : Nat) (left : Expr) :
    ReadsIn f n 0 (continued g level (n + 1) left) fun m =>
      continued g' level (m + 1) (left.moved f) := by
  induction n generalizing left with
  | zero =>
    -- nothing follows on either side, so the expression stays as it is
    intro ts x rest hts h
    obtain rfl : ts = [] := List.length_eq_zero_iff.mp (Nat.le_zero.mp hts)
    obtain ⟨rfl, rfl⟩ := Prod.mk.inj (Except.ok.inj h)
    refine ⟨[], rfl, Nat.le_refl 0, fun v m hv _ => ?_⟩
    obtain rfl : v = [] := by simpa using hv.isEmpty
    rfl
  | succ n ih =>
    intro ts x rest hts h
    obtain ⟨more?, mid, hmore, hx⟩ := bind_eq_ok.mp h
    obtain ⟨u, rfl, -, hu⟩ := ((parses_extended? hg level left).parses 0 0).reads _ _ more?
      mid hts hmore
    cases more? with
    | none =>
      obtain ⟨rfl, rfl⟩ := pure_eq_ok.mp hx
      refine ⟨u, rfl, Nat.zero_le _, fun v m hv hm => bind_eq_ok.mpr ⟨none, v, hu v m hv hm, rfl⟩⟩
    | some more =>
      -- the operator has taken a token, so there is a round less to make for the rest
      have htaken := (parses_extended? hg level left).takes hmore
      simp only [List.length_append] at htaken hts
      obtain ⟨w, rfl, -, hw⟩ := ih more mid x rest (by omega) hx
      refine ⟨u ++ w, by simp, Nat.zero_le _, fun v m hv hm => ?_⟩
      simp only [List.length_append] at hm
      rw [move_append, List.append_assoc]
      have hfirst := hu (move f w ++ v) m (hv.prepend f w) (by simp; omega)
      have hrounds : continued g' level m (more.moved f) (move f w ++ v) = .ok (move f x, v) := by
        have hlater : continued g' level (m - 1 + 1) (more.moved f) (move f w ++ v) =
            .ok (move f x, v) := hw v (m - 1) hv (by omega)
        rwa [Nat.sub_add_cancel (by omega)] at hlater
      exact bind_eq_ok.mpr ⟨some (more.moved f), _, hfirst, hrounds⟩

/-- With each operator the expression grows, and still begins where it did. -/
theorem advances_continued (level fuel : Nat) (hleft : Lies (ofExpr left) a place) :
    Advances place (continued g level fuel left) fun e next => Lies (ofExpr e) a next := by
  -- The induction is on the rounds. Each starts from what the last one has read, so the expression
  -- and the place vary.
  induction fuel generalizing left place with
  | zero => exact .pure hleft
  | succ fuel ih =>
    refine ((parses_extended? hg level left).parses a place).advances.bind
      fun more? next hmore => ?_
    cases more? with
    | none => exact .pure (hmore hleft)
    | some more => exact ih (hmore hleft)

/-- **An expression** is read locally and lies where it is read. -/
theorem parses_expr (level : Nat) : Laid f 1 ofExpr (expr g level) (expr g' level) := by
  intro a
  constructor
  · refine (reads_operand hg).bind fun first => ?_
    exact @Reads.counted Expr f 0 _ (fun fuel => continued g' level fuel (first.moved f)) 1
      (fun fuel => continued g level fuel first) fun n => reads_continued hg level n first
  · refine (advances_operand hg a).bind fun first b hfirst => ?_
    refine peeks_get.bind fun ts => ?_
    exact advances_continued hg level _ hfirst

end CodeInsight.Grammar.Parser
