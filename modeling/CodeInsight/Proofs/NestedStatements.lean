import CodeInsight.Grammar.Parse
import CodeInsight.Proofs.NestedExpressions
import CodeInsight.Proofs.TokenOrder

/-!
# Parsed programs are well nested

A statement is read locally, and lies between the offset where its first token begins and the offset
where its last token ends. All that it consists of lies in it, one part behind the other. The tokens
of a text come in the order of the text and end with it, so the outline of a parsed program is
nested in the range of the whole text.

## Main Results

- `Grammar.Parser.parses_stmt`: statements are read locally and lie where they are read if what is
  nested in them is and does
- `Grammar.nested_recursion`: whatever is nested is read locally, at this depth or deeper
- `Grammar.along_tokenize`: the tokens of a text stand one behind the other within it
- `Grammar.nestedIn_of_parse`: the outline of a parsed program is nested in the text
-/

namespace CodeInsight.Grammar

open Outline

variable {program : List Stmt} {text : Text} {ts : List Token} {visit : Visit}

namespace Parser

variable {f : Nat → Nat} {g g' : Recursion} {place : Nat} (hg : Nested f g g')

/-! ## Section 1: Shared pieces -/

/-- The end of some statements is moved with them. -/
theorem stopOf_move (body : List Stmt) (n : Nat) :
    stopOf (move f body) (f n) = f (stopOf body n) := by
  have hlast : (move f body).getLast? = move f body.getLast? := List.getLast?_map
  unfold stopOf
  rw [hlast]
  cases body.getLast? <;> simp

/-- The end of some statements is that of the last one. -/
theorem stopOf_cons (t : Stmt) (body : List Stmt) (n : Nat) :
    stopOf (t :: body) n = stopOf body t.span.stop := by
  unfold stopOf
  rw [List.getLast?_cons]
  cases body.getLast? <;> rfl

/-- Statements end where the last of them does. -/
theorem lies_stopOf {body : List Stmt} {a b : Nat} (h : Lies (ofStmts body) a b) :
    Lies (ofStmts body) a (stopOf body a) ∧ stopOf body a ≤ b := by
  induction body generalizing a with
  | nil => exact ⟨.none (Nat.le_refl _), h.le⟩
  | cons t more ih =>
    obtain ⟨ht, hmore⟩ := h.stmts_cons
    obtain ⟨hlies, hle⟩ := ih hmore
    rw [stopOf_cons]
    exact ⟨ht.seq hlies, hle⟩

include hg

/-- A condition in parentheses. -/
theorem parses_condition : Enclosed f 1 ofExpr (condition g) (condition g') :=
  fun _ => parses_between _ _ (hg.expr 0)

/-- The body of a loop: statements up to a closing word, or one statement. -/
theorem parses_loopBody (closing : Keyword) :
    Parses f 1 place (loopBody g closing) (loopBody g' closing) fun r next =>
      r.2.Fits place next ∧ Lies (ofStmts r.1) r.2.start r.2.stop := by
  refine (looks_atSymbol _).bind fun _ => .ite ?_ ?_
  -- behind a colon the range reaches from the colon to the terminator
  · refine (parses_symbol _).bind fun mark a => ?_
    refine (parses_stmts hg (looks_atKeyword _) _).seq fun body b => ?_
    refine (reads_keyword _).step fun _ c => ?_
    refine parses_terminator.seq fun stop d => .pure (by simp) ?_
    intro hstop hbody hmark
    have hle := hbody.le
    have hspan : mark.span.start ≤ stop := by omega
    have hinside : Lies (ofStmts body) mark.span.start stop := hbody.widen (by omega) hstop.1
    exact ⟨⟨hmark.1, hspan, hstop.2⟩, hinside⟩
  · exact (hg.stmt place).bind fun body a => .pure (by simp) fun hbody =>
      ⟨hbody.stmt_fits, hbody.stmt_self⟩

/-! ## Section 2: Namespaces and imports -/

omit hg in
/-- A namespace without braces ends where the next one begins, or with the text. -/
theorem looks_endsNamespace : Looks f (do return (← atEnd) || (← atKeyword .namespaceKw))
    (do return (← atEnd) || (← atKeyword .namespaceKw)) where
  reads := reads_atEnd.bind fun _ => (reads_atKeyword _).bind fun _ => .pure rfl
  peeks := peeks_atEnd.andThen fun _ => (peeks_atKeyword _).andThen fun _ => .pure _

/-- The statements of a namespace without braces. -/
theorem parses_untilNamespace : Laid f 0 ofStmts (untilNamespace g) (untilNamespace g') :=
  parses_stmts hg looks_endsNamespace

/-- A namespace behind its name. -/
theorem parses_namespaceBody (start : Nat) (name : Option Name) :
    Begun f 1 ofStmt start (namespaceBody g start name)
      (namespaceBody g' (f start) (move f name)) := by
  intro a
  refine (looks_atSymbol _).bind fun _ => .ite ?_ ?_
  · refine (parses_block hg _).bind fun ⟨braces, body⟩ b => .pure (by simp) ?_
    rintro ⟨hbraces, hbody⟩ h
    exact (hbody.earlier (Nat.le_trans h hbraces.1)).node (Nat.le_refl _) hbraces.2.2
  -- Without braces the namespace ends with its last statement, and without statements at its
  -- terminator.
  · refine parses_terminator.bind fun stop b => ?_
    refine (parses_untilNamespace hg _).seq fun body c => ?_
    refine .pure (by simp [stopOf_move]) ?_
    intro hbody hstop h
    obtain ⟨hbody, hle⟩ := lies_stopOf (hbody.earlier hstop.2)
    exact (hbody.earlier (by omega)).node (Nat.le_refl _) hle

/-- A namespace, with a name or without. -/
theorem parses_namespaceDecl : Laid f 1 ofStmt (namespaceDecl g) (namespaceDecl g') := by
  intro a
  refine (parses_keyword _).bind fun mark b => ?_
  refine looks_atTerminator.bind fun _ => ?_
  refine (looks_atSymbol _).bind fun _ => .ite ?_ (reads_qualifiedName.step fun name c => ?_)
  · refine (parses_namespaceBody hg _ none _).weak.imp fun _ _ h hmark => ?_
    exact (h (by omega)).earlier hmark.1
  · refine (parses_namespaceBody hg _ (some name) _).weak.imp fun _ _ h hmark => ?_
    exact (h (by omega)).earlier hmark.1

omit hg

/-- A word tells what is imported: functions, constants, or else classes. -/
theorem reads_importKind : Reads f 0 importKind importKind :=
  (reads_skipKeyword _).bind fun _ => .ite (fun _ => .pure rfl) fun _ =>
    (reads_skipKeyword _).bind fun _ => .ite (fun _ => .pure rfl) fun _ => .pure rfl

/-- A name of its own for what is imported. -/
theorem reads_rename? : Reads f 0 rename? rename? :=
  (reads_skipKeyword _).bind fun _ => .ite (fun _ => reads_identifier.seq fun _ => .pure rfl)
    fun _ => .pure rfl

theorem reads_importItem (kind : ImportKind) (group : Option String) :
    Reads f 1 (importItem kind group) (importItem kind group) :=
  reads_qualifiedName.bind fun _ => reads_rename?.bind fun rename => .pure (by cases rename <;> rfl)

/-- In a group, each item may tell its kind. -/
theorem reads_groupItem (kind : Option ImportKind) (group : String) :
    Reads f 1 (groupItem kind group) (groupItem kind group) := by
  cases kind with
  | some kind => exact Reads.seq (.pure rfl) fun _ => reads_importItem _ _
  | none =>
    exact Reads.seq (.map reads_importKind fun kind => by cases kind <;> rfl) fun _ =>
      reads_importItem _ _

/-- Imports are one node, with a common namespace or without. -/
theorem parses_importDecl : Laid f 1 ofStmt importDecl importDecl := by
  intro a
  refine (parses_keyword _).bind fun mark b => ?_
  refine reads_importKind.step fun kind _ => ?_
  rw [move_importKind?]
  refine .atKind (by decide) fun _ => .ite ?_ ?_
  -- a group behind a common namespace
  · refine reads_qualifiedName.step fun common _ => ?_
    refine (reads_symbol _).step fun _ _ => ?_
    have hgroup := reads_list (f := f) .rightBrace (reads_groupItem kind common.text)
    refine (reads_between _ _ hgroup).step fun names _ => ?_
    refine parses_terminator.seq fun stop c => ?_
    exact .pure (by simp) fun hstop hmark => .leaf hmark.1 (by omega) hstop.2
  · refine (reads_items (reads_importItem _ _)).step fun names _ => ?_
    refine parses_terminator.seq fun stop c => ?_
    exact .pure (by simp) fun hstop hmark => .leaf hmark.1 (by omega) hstop.2

/-! ## Section 3: Declarations -/

theorem reads_backingType (form : ClassForm) : Reads f 0 (backingType form) (backingType form) :=
  .ite (fun _ => reads_returnHint?) fun _ => .pure rfl

theorem reads_basesOf (form : ClassForm) : Reads f 0 (basesOf form) (basesOf form) :=
  .ite (fun _ => reads_namesAfter _) fun _ => .pure rfl

theorem reads_contractsOf (form : ClassForm) : Reads f 0 (contractsOf form) (contractsOf form) :=
  .ite (fun _ => reads_namesAfter _) fun _ => .pure rfl

include hg

/-- A class behind its name: what it extends and implements, and its members. -/
theorem parses_classBody (form : ClassForm) (start : Nat) (modifiers : List Modifier)
    (name : Name) :
    Begun f 1 ofStmt start (classBody g form start modifiers name)
      (classBody g' form (f start) modifiers (move f name)) := by
  intro _
  refine (reads_backingType _).step fun _ _ => ?_
  refine (reads_basesOf _).step fun _ _ => ?_
  refine (reads_contractsOf _).step fun _ a => ?_
  refine (parses_members hg _).bind fun ⟨braces, members⟩ b => ?_
  refine .pure (by simp) ?_
  rintro ⟨hbraces, hmembers⟩ h
  exact (hmembers.earlier (Nat.le_trans h hbraces.1)).node (Nat.le_refl _) hbraces.2.2

/-- A class, interface, trait or enumeration. -/
theorem parses_classDecl (form : ClassForm) (start : Nat) (modifiers : List Modifier) :
    Begun f 1 ofStmt start (classDecl g form start modifiers)
      (classDecl g' form (f start) modifiers) :=
  fun _ => (reads_keyword _).enter fun _ _ => reads_identifier.step fun name _ =>
    (parses_classBody hg form start modifiers name _).weak

/-- A class behind its modifiers. -/
theorem parses_modifiedClass (start : Nat) :
    Begun f 1 ofStmt start (modifiedClass g start) (modifiedClass g' (f start)) := by
  intro _
  refine reads_modifiers.step fun modifiers _ => ?_
  rw [move_modifiers]
  exact parses_classDecl hg _ start modifiers _

/-- A function. Its body is a node of its own, since it opens a scope. -/
theorem parses_functionDecl (start : Nat) :
    Begun f 1 ofStmt start (functionDecl g start) (functionDecl g' (f start)) := by
  intro _
  refine (reads_keyword _).enter fun _ _ => ?_
  refine (reads_skipSymbol _).step fun _ _ => ?_
  refine reads_identifier.step fun _ _ => ?_
  refine (reads_params hg.reads).step fun _ _ => ?_
  refine reads_returnHint?.step fun _ a => ?_
  refine (parses_block hg _).seq fun ⟨braces, body⟩ b => ?_
  refine .pure (by simp) ?_
  rintro ⟨hbraces, hbody⟩ h
  exact (hbody.node (Nat.le_trans h hbraces.1) (Nat.le_refl _)).node (Nat.le_refl _) hbraces.2.2

omit hg in
/-- Two tokens behind the word `function` tell a closure from a declaration. -/
theorem looks_atClosure : Looks f atClosure atClosure where
  reads := (reads_kindAt (by decide)).bind fun _ => (reads_kindAt (by decide)).bind fun _ =>
    .pure (by simp)
  peeks := (peeks_kindAt 1).andThen fun _ => (peeks_kindAt 2).andThen fun _ => .pure _

/-- Constants and their values. -/
theorem parses_constantDecl (start : Nat) :
    Begun f 1 ofStmt start (constantDecl g start) (constantDecl g' (f start)) := by
  intro _
  refine (reads_keyword _).enter fun _ a => ?_
  refine (parses_items rows_exprs (parses_constantItem hg)).seq fun values b => ?_
  refine parses_terminator.seq fun stop c => .pure (by simp) ?_
  intro hstop hvalues h
  exact (hvalues.widen h hstop.1).node (Nat.le_refl _) hstop.2

/-- `declare` with its directives, and with the statements that they are for. -/
theorem parses_declaration : Laid f 1 ofStmt (declaration g) (declaration g') := by
  intro a
  refine (parses_keyword _).bind fun mark b => ?_
  refine (parses_between _ _ fun _ => parses_list rows_exprs _ (parses_constantItem hg)).seq
    fun ⟨parens, values⟩ c => ?_
  refine (parses_loopBody hg _).seq fun ⟨body, span⟩ d => .pure (by simp) ?_
  intro ⟨hspan, hbody⟩ ⟨hparens, hvalues⟩ hmark
  exact ((hvalues.widen (by omega) hparens.2.2).seq (hbody.earlier hspan.1)).node hmark.1 hspan.2.2

/-! ## Section 4: Branches -/

/-- Branches behind an `if`. The induction is on the rounds left, and each branch takes a token. -/
theorem reads_otherwise (n : Nat) :
    ReadsIn f n 0 (otherwise g n) (otherwise g') := by
  refine .silent (x := []) (fun n => by cases n <;> rfl) (fun n => by cases n <;> rfl)
    (fun n ih => ?_) n
  refine .bind (reads_atKeyword _) fun _ => .ite (fun _ => ?_) fun _ => ?_
  -- another condition, then `else` or nothing
  · refine .mono (.round (reads_keyword _ _) fun _ => ?_) (Nat.zero_le _)
    refine .bind (parses_condition hg 0).reads fun _ => .bind hg.reads.stmt fun _ =>
      .thenPure ih fun _ => ?_
    simp [stopOf_move]
  · refine .bind (reads_skipKeyword _) fun _ => .ite (fun _ => ?_) fun _ => .pure fun _ => rfl
    exact .mono (.thenPure (hg.reads.stmt _) fun _ => rfl) (Nat.zero_le _)

omit hg in
theorem byKind_endsBranch : ByKind endsBranch := fun t t' h => by
  simp only [endsBranch, Token.isKeyword, h]

/-- The same with colons instead of braces. -/
theorem reads_otherwiseColon (n : Nat) :
    ReadsIn f n 0 (otherwiseColon g n) (otherwiseColon g') := by
  refine .silent (x := []) (fun n => by cases n <;> rfl) (fun n => by cases n <;> rfl)
    (fun n ih => ?_) n
  refine .bind (reads_atKeyword _) fun _ => .ite (fun _ => ?_) fun _ => ?_
  · refine .mono (.round (reads_keyword _ _) fun _ => ?_) (Nat.zero_le _)
    refine .bind (parses_condition hg 0).reads fun _ => .bind (reads_symbol _) fun _ => ?_
    refine .bind (reads_many (reads_nextIs byKind_endsBranch) hg.reads.stmt) fun _ =>
      .thenPure ih fun _ => ?_
    simp [stopOf_move]
  · refine .bind (reads_skipKeyword _) fun _ => .ite (fun _ => ?_) fun _ => .pure fun _ => rfl
    exact .bind (reads_symbol _) fun _ => reads_many (reads_atKeyword _) hg.reads.stmt _

/-- Each branch lies around those behind it, so a range ends with the last branch. -/
theorem advances_otherwise (fuel : Nat) :
    ∀ a, Advances a (otherwise g fuel) fun ts next => Lies (ofStmts ts) a next := by
  induction fuel with
  | zero => exact fun a => .pure (.none (Nat.le_refl a))
  | succ fuel ih =>
    intro a
    refine (peeks_atKeyword _).bind fun _ => .ite ?_ ?_
    · refine (parses_keyword (f := f) _).advances.bind fun mark b hmark => ?_
      refine (parses_condition hg _).advances.bind fun ⟨parens, test⟩ c ⟨hparens, htest⟩ => ?_
      refine (hg.stmt c).advances.bind fun yes d hyes => ?_
      refine (ih d).bind fun no e hno => .pure ?_
      -- The range ends with the last branch that is there.
      have hends := hyes.stmt_fits
      obtain ⟨hno, hle⟩ := lies_stopOf (hno.earlier hends.2.2)
      have hyes := hyes.stmt_self.earlier hends.1
      exact ((htest.widen (by omega) hparens.2.2).seq (hyes.seq hno)).node hmark.1 hle
    · refine ((reads_skipKeyword (f := f) _).forward a).bind fun _ b hb =>
        .ite ?_ (.pure (.none hb))
      exact (hg.stmt b).advances.bind fun no c hno => .pure (hno.earlier hb)

/-- The same with colons, where a branch has several statements. -/
theorem advances_otherwiseColon (fuel : Nat) :
    ∀ a, Advances a (otherwiseColon g fuel) fun ts next => Lies (ofStmts ts) a next := by
  induction fuel with
  | zero => exact fun a => .pure (.none (Nat.le_refl a))
  | succ fuel ih =>
    intro a
    refine (peeks_atKeyword _).bind fun _ => .ite ?_ ?_
    · refine (parses_keyword (f := f) _).advances.bind fun mark b hmark => ?_
      refine (parses_condition hg _).advances.bind fun ⟨parens, test⟩ c ⟨hparens, htest⟩ => ?_
      refine (parses_symbol (f := f) _).advances.bind fun colon d hcolon => ?_
      refine (parses_stmts hg (looks_nextIs byKind_endsBranch) _).advances.bind fun yes e hyes => ?_
      refine (ih e).bind fun no f hno => .pure ?_
      obtain ⟨hyes, hend⟩ := lies_stopOf (hyes.earlier hcolon.2.2)
      obtain ⟨hno, hle⟩ := lies_stopOf (hno.earlier hend)
      have htest : Lies (ofExpr test) mark.span.start colon.span.stop :=
        htest.widen (by omega) (by omega)
      exact (htest.seq (hyes.seq hno)).node hmark.1 hle
    · refine ((reads_skipKeyword (f := f) _).forward a).bind fun _ b hb =>
        .ite ?_ (.pure (.none hb))
      refine ((reads_symbol (f := f) _).forward b).bind fun _ c hc => ?_
      exact (parses_stmts hg (looks_atKeyword _) c).advances.mono fun _ _ h =>
        h.earlier (Nat.le_trans hb hc)

/-- `if` with all its branches, in either syntax. -/
theorem parses_branch : Laid f 1 ofStmt (branch g) (branch g') := by
  intro a
  refine (parses_keyword _).bind fun mark b => ?_
  refine (parses_condition hg _).seq fun ⟨parens, test⟩ c => ?_
  have htest : parens.Fits b c ∧ Lies (ofExpr test) parens.start parens.stop → mark.span.Fits a b →
      Lies (ofExpr test) mark.span.start c := fun h hmark => h.2.widen (by omega) h.1.2.2
  refine (reads_skipSymbol _).parses.seq fun _ d => .ite ?_ ?_
  -- with a colon the statement ends behind its closing word
  · refine (parses_stmts hg (looks_nextIs byKind_endsBranch) _).seq fun yes e => ?_
    refine .countedAllThen (reads_otherwiseColon hg) (fun fuel => advances_otherwiseColon hg fuel e)
      fun no i => ?_
    refine (reads_keyword _).step fun _ _ => ?_
    refine parses_terminator.seq fun stop j => .pure (by simp) ?_
    intro hstop hno hyes hd hparens hmark
    have hno : Lies (ofStmts no) e stop := hno.widen (Nat.le_refl _) hstop.1
    exact ((htest hparens hmark).seq ((hyes.earlier hd).seq hno)).node hmark.1 hstop.2
  -- without one it ends with its last branch
  · refine (hg.stmt d).seq fun yes e => ?_
    refine .countedAllThen (reads_otherwise hg) (fun fuel => advances_otherwise hg fuel e)
      fun no i => ?_
    refine .pure (by simp [stopOf_move]) ?_
    intro hno hyes hd hparens hmark
    have hends := hyes.stmt_fits
    obtain ⟨hno, hle⟩ := lies_stopOf (hno.earlier hends.2.2)
    have hyes := hyes.stmt_self.earlier (Nat.le_trans hd hends.1)
    exact ((htest hparens hmark).seq (hyes.seq hno)).node hmark.1 hle

omit hg in
theorem byKind_endsCase : ByKind endsCase := fun t t' h => by
  simp only [endsCase, Token.isKeyword, Token.isSymbol, h]

/-- A case of `switch` ends with its last statement. -/
theorem parses_switchCase : Laid f 1 ofStmt (switchCase g) (switchCase g') := by
  have hcolon : ByKind fun t => t.isSymbol .colon || t.isSymbol .semicolon := fun t t' h => by
    simp only [Token.isSymbol, h]
  have hvalue : Laid f 1 (fun value => ofExprs value.toList) (some <$> g.expr 0)
      (some <$> g'.expr 0) := fun c =>
    .map (hg.expr 0 c) fun _ => rfl
  have hnone : Laid f 0 (fun value : Option Expr => ofExprs value.toList) (pure none)
      (pure none) := fun _ =>
    .pure rfl (.none (Nat.le_refl _))
  intro a
  refine .next fun mark b => ?_
  refine (reads_skipKeyword _).step fun _ c => .ite ((hvalue c).seq ?_)
    ((reads_keyword _).step fun _ d => (hnone d).seq ?_)
  -- With a value and without one, a case goes on in the same way.
  all_goals
    intro value e
    refine (parses_token hcolon).bind fun colon i => ?_
    refine (parses_stmts hg (looks_nextIs byKind_endsCase) _).seq fun body j =>
      .pure (by simp [stopOf_move]) ?_
    intro hbody hcolon hvalue hmark
    obtain ⟨hbody, hle⟩ := lies_stopOf (hbody.earlier hcolon.2.2)
    have hvalue := hvalue.widen hmark.2 (Nat.le_trans hcolon.1 hcolon.2.1)
    cases value with
    | none => exact (hbody.earlier hvalue.le).node hmark.1 hle
    | some value =>
      have hvalue : Lies (ofExpr value) mark.span.start colon.span.stop := hvalue
      exact (hvalue.expr_part.seq hbody).node hmark.1 hle

/-- `switch` with its cases, in either syntax. A stray semicolon may stand before them. -/
theorem parses_switch : Laid f 1 ofStmt (switch g) (switch g') := by
  have hclauses : ∀ {ends : Parser Bool}, Looks f ends ends →
      Laid f 0 ofStmts (many ends (switchCase g)) (many ends (switchCase g')) := fun hends _ =>
    parses_many rows_stmts hends (parses_switchCase hg)
  intro a
  refine (parses_keyword _).bind fun mark b => ?_
  refine (parses_condition hg _).seq fun ⟨parens, subject⟩ c => ?_
  have hsubject : parens.Fits b c ∧ Lies (ofExpr subject) parens.start parens.stop →
    mark.span.Fits a b →
      Lies (ofExpr subject) mark.span.start c := fun h hmark => h.2.widen (by omega) h.1.2.2
  refine (reads_skipSymbol _).parses.seq fun _ d => .ite ?_ ?_
  -- with a colon
  · refine looks_atTerminator.bind fun _ => .ite (reads_terminator.step fun _ e => ?_) ?_
    all_goals
      refine (hclauses (looks_atKeyword _) _).seq fun cases i => ?_
      refine (reads_keyword _).step fun _ _ => ?_
      refine parses_terminator.seq fun stop j => .pure (by simp) ?_
      intro hstop hcases hd hparens hmark
      exact ((hsubject hparens hmark).seq (hcases.widen hd hstop.1)).node hmark.1 hstop.2
  -- with braces, within which the terminator may stand
  · have hinside : Laid f 0 ofStmts
        (do if ← atTerminator then let _ ← terminator
            many (atSymbol .rightBrace) (switchCase g))
        (do if ← atTerminator then let _ ← terminator
            many (atSymbol .rightBrace) (switchCase g')) := by
      intro e
      refine looks_atTerminator.bind fun _ => .ite ?_ (hclauses (looks_atSymbol _) e)
      exact reads_terminator.parses.seq fun _ i => (hclauses (looks_atSymbol _) i).imp
        fun _ _ h he => h.earlier he
    refine (parses_between _ _ hinside).seq fun ⟨braces, cases⟩ e => .pure (by simp) ?_
    intro ⟨hbraces, hcases⟩ hd hparens hmark
    exact ((hsubject hparens hmark).seq (hcases.earlier (Nat.le_trans hd hbraces.1))).node
      hmark.1 hbraces.2.2

/-! ## Section 5: Loops and exceptions -/

omit hg in
/-- The expressions in the header of `foreach`, in the order they are written. -/
def headerExprs (header : Expr × Option Expr × Expr) : List Expr :=
  header.1 :: (header.2.1.toList ++ [header.2.2])

/-- `foreach`: what is gone through, the key if there is one, the value, and the body. -/
theorem parses_foreach : Laid f 1 ofStmt (foreach g) (foreach g') := by
  have hheader : Laid f 1 (fun header => ofExprs (headerExprs header))
      (do let subject ← g.expr 0
          let _ ← keyword .asKw
          let first ← g.expr 0
          if ← skipSymbol .doubleArrow then return (subject, some first, ← g.expr 0)
          return (subject, none, first))
      (do let subject ← g'.expr 0
          let _ ← keyword .asKw
          let first ← g'.expr 0
          if ← skipSymbol .doubleArrow then return (subject, some first, ← g'.expr 0)
          return (subject, none, first)) := by
    intro b
    refine (hg.expr 0 b).bind fun subject c => ?_
    refine (reads_keyword _).step fun _ d => ?_
    refine (hg.expr 0 d).seq fun first e => ?_
    refine (reads_skipSymbol _).step fun _ i => .ite ?_ (.pure rfl ?_)
    · exact (hg.expr 0 i).seq fun value j => .pure rfl fun hvalue hfirst hsubject =>
        hsubject.seq (hfirst.seq hvalue)
    · intro hfirst hsubject
      exact hsubject.seq hfirst
  intro a
  refine (parses_keyword _).bind fun mark b => ?_
  refine (parses_between _ _ hheader).seq fun ⟨parens, subject, key, value⟩ c => ?_
  refine (parses_loopBody hg _).seq fun ⟨body, span⟩ d => .pure (by simp) ?_
  intro ⟨hspan, hbody⟩ ⟨hparens, hheader⟩ hmark
  have hbody : Lies (node span .passed (ofStmts body done)) parens.stop span.stop :=
    hbody.node (Nat.le_trans hparens.2.2 hspan.1) (Nat.le_refl _)
  -- In the outline key and value are nodes of their own around what is read, so the header is taken
  -- apart.
  obtain ⟨hfirst, hothers⟩ := Lies.exprs_cons hheader
  have hsubject : Lies (ofExpr subject) mark.span.start subject.span.stop :=
    hfirst.earlier (by omega)
  cases key with
  | none =>
    have hvalue : Lies (ofExpr value) subject.span.stop parens.stop := hothers
    exact (hsubject.seq (hvalue.expr_part.seq hbody)).node hmark.1 hspan.2.2
  | some key =>
    obtain ⟨hkey, hvalue⟩ := Lies.exprs_cons hothers
    have hvalue : Lies (ofExpr value) key.span.stop parens.stop := hvalue
    exact (hsubject.seq (hkey.expr_part.seq (hvalue.expr_part.seq hbody))).node hmark.1 hspan.2.2

/-- `for` with three lists of expressions, and the body. -/
theorem parses_forLoop : Laid f 1 ofStmt (forLoop g) (forLoop g') := by
  have hlist : ∀ close, Laid f 0 ofExprs (list close (g.expr 0)) (list close (g'.expr 0)) := by
    intro close a
    exact parses_list rows_exprs close (hg.expr 0)
  -- three lists with semicolons between them
  have hheader : Laid f 0 ofExprs
      (do let initial ← list .semicolon (g.expr 0)
          let _ ← symbol .semicolon
          let tests ← list .semicolon (g.expr 0)
          let _ ← symbol .semicolon
          let steps ← list .rightParen (g.expr 0)
          return initial ++ tests ++ steps)
      (do let initial ← list .semicolon (g'.expr 0)
          let _ ← symbol .semicolon
          let tests ← list .semicolon (g'.expr 0)
          let _ ← symbol .semicolon
          let steps ← list .rightParen (g'.expr 0)
          return initial ++ tests ++ steps) := by
    intro b
    refine (hlist _ b).seq fun initial c => ?_
    refine (reads_symbol _).step fun _ d => ?_
    refine (hlist _ d).seq fun tests e => ?_
    refine (reads_symbol _).step fun _ i => ?_
    refine (hlist _ i).seq fun steps j => ?_
    exact .pure (by simp) fun hsteps htests hinitial =>
      (hinitial.exprs_append htests).exprs_append hsteps
  intro a
  refine (parses_keyword _).bind fun mark b => ?_
  refine (parses_between _ _ hheader).seq fun ⟨parens, header⟩ c => ?_
  refine (parses_loopBody hg _).seq fun ⟨body, span⟩ d => .pure (by simp) ?_
  intro ⟨hspan, hbody⟩ ⟨hparens, hheader⟩ hmark
  exact ((hheader.widen (by omega) hparens.2.2).seq (hbody.earlier hspan.1)).node hmark.1 hspan.2.2

/-- `while` with its condition before the body. -/
theorem parses_whileLoop : Laid f 1 ofStmt (whileLoop g) (whileLoop g') := by
  intro a
  refine (parses_keyword _).bind fun mark b => ?_
  refine (parses_condition hg _).seq fun ⟨parens, test⟩ c => ?_
  refine (parses_loopBody hg _).seq fun ⟨body, span⟩ d => .pure (by simp) ?_
  intro ⟨hspan, hbody⟩ ⟨hparens, htest⟩ hmark
  exact ((htest.widen (by omega) hparens.2.2).seq (hbody.earlier hspan.1)).node hmark.1 hspan.2.2

/-- `do` with its condition behind the body. -/
theorem parses_doLoop : Laid f 1 ofStmt (doLoop g) (doLoop g') := by
  intro a
  refine (parses_keyword _).bind fun mark b => ?_
  refine (hg.stmt b).seq fun body c => ?_
  refine (reads_keyword _).step fun _ d => ?_
  refine (parses_condition hg _).seq fun ⟨parens, test⟩ e => ?_
  refine parses_terminator.seq fun stop i => .pure (by simp) ?_
  rintro hstop ⟨hparens, htest⟩ hbody hmark
  have htest : Lies (ofExpr test) d stop := htest.widen hparens.1 (Nat.le_trans hparens.2.2 hstop.1)
  exact ((hbody.earlier (by omega)).seq htest).node hmark.1 hstop.2

omit hg in
/-- What a handler catches. -/
theorem reads_caught : Reads f 0
    (do let hint ← hint
        if (← kindAt 0) = some .variable then return (hint, some (← variableName))
        return (hint, none))
    (do let hint ← hint
        if (← kindAt 0) = some .variable then return (hint, some (← variableName))
        return (hint, none)) := by
  refine reads_hint.seq fun _ => ?_
  refine (reads_kindAt (by decide)).seq fun kind => ?_
  rw [move_kind?]
  exact .ite (fun _ => reads_variableName.seq fun _ => .pure rfl) fun _ => .pure rfl

/-- A handler for exceptions. Its body is a node of its own, since a variable is bound there. -/
theorem parses_handler : Laid f 1 ofStmt (handler g) (handler g') := by
  intro a
  refine (parses_keyword _).bind fun mark b => ?_
  refine (reads_between _ _ reads_caught).step fun _ c => ?_
  refine (parses_block hg _).seq fun ⟨braces, body⟩ d => .pure (by simp) ?_
  rintro ⟨hbraces, hbody⟩ hmark
  exact (hbody.node (by omega) (Nat.le_refl _)).node hmark.1 hbraces.2.2

/-- Handlers one behind the other, each of which takes a token. -/
theorem reads_handlers (n : Nat) :
    ReadsIn f n 0 (handlers g n) (handlers g') := by
  refine .silent (x := []) (fun n => by cases n <;> rfl) (fun n => by cases n <;> rfl)
    (fun n ih => ?_) n
  refine .bind (reads_atKeyword _) fun _ => .ite (fun _ => ?_) fun _ => .pure fun _ => rfl
  exact .mono (.round ((parses_handler hg 0).reads _) fun _ => .thenPure ih fun _ => rfl)
    (Nat.zero_le _)

/-- They lie one behind the other. -/
theorem advances_handlers (fuel : Nat) :
    ∀ a, Advances a (handlers g fuel) fun ts next => Lies (ofStmts ts) a next := by
  induction fuel with
  | zero => exact fun a => .pure (.none (Nat.le_refl a))
  | succ fuel ih =>
    intro a
    refine (peeks_atKeyword _).bind fun _ => .ite ?_ (.pure (.none (Nat.le_refl a)))
    exact (parses_handler hg a).advances.bind fun t b ht => (ih b).bind fun ts c hts =>
      .pure (ht.seq hts)

/-- `try` with its handlers, and with what is done in the end. There may be none of either. -/
theorem parses_attempt : Laid f 1 ofStmt (attempt g) (attempt g') := by
  intro a
  refine (parses_keyword _).bind fun mark b => ?_
  refine (parses_block hg _).seq fun ⟨braces, body⟩ c => ?_
  refine .countedAllThen (reads_handlers hg) (fun fuel => advances_handlers hg fuel c)
    fun handlers d => ?_
  have hboth : Lies (ofStmts handlers) c d → braces.Fits b c ∧
    Lies (ofStmts body) braces.start braces.stop →
      mark.span.Fits a b → Lies (ofStmts body) mark.span.start braces.stop ∧
          Lies (ofStmts handlers) braces.stop d :=
    fun h hbody hmark => ⟨hbody.2.earlier (by omega), h.earlier hbody.1.2.2⟩
  refine (reads_skipKeyword _).parses.seq fun _ e => .ite ?_ (.pure (by simp [stopOf_move]) ?_)
  -- The statement ends with its last block, or else with its last handler.
  · refine (parses_block hg _).seq fun ⟨last, cleanup⟩ i => .pure (by simp) ?_
    intro ⟨hlast, hcleanup⟩ he hhandlers hbody hmark
    obtain ⟨hbody, hhandlers⟩ := hboth hhandlers hbody hmark
    have hcleanup := hcleanup.earlier (Nat.le_trans he hlast.1)
    exact (hbody.seq (hhandlers.seq hcleanup)).node hmark.1 hlast.2.2
  · intro he hhandlers hbody hmark
    obtain ⟨hbody, hhandlers⟩ := hboth hhandlers hbody hmark
    obtain ⟨hhandlers, hle⟩ := lies_stopOf hhandlers
    exact (hbody.seq hhandlers).node hmark.1 (Nat.le_trans hle he)

/-! ## Section 6: Simple statements -/

omit hg in
/-- Expressions after a word, up to the end of the statement. -/
theorem parses_closed (mark : Span) (values : List Expr) (a b : Nat) : Parses f 1 place
    (do return ((⟨mark.start, ← terminator⟩ : Span), values))
    (do return ((⟨(move f mark).start, ← terminator⟩ : Span), move f values)) fun r next =>
      Lies (ofExprs values) b place → mark.Fits a b →
        r.1.Fits a next ∧ Lies (ofExprs r.2) r.1.start r.1.stop := by
  refine parses_terminator.bind fun stop c => .pure (by simp) ?_
  intro hstop hvalues hmark
  have hle := hvalues.le
  have hspan : mark.start ≤ stop := by omega
  have hinside : Lies (ofExprs values) mark.start stop := hvalues.widen (by omega) hstop.1
  exact ⟨⟨hmark.1, hspan, hstop.2⟩, hinside⟩

/-- A word with a value behind it, or without one. -/
theorem parses_withValue? : Enclosed f 1 ofExprs (withValue? g) (withValue? g') := by
  have hvalue : Laid f 1 ofExprs ((fun e => [e]) <$> g.expr 0) ((fun e => [e]) <$> g'.expr 0) := by
    intro b
    exact .map (hg.expr 0 b) fun _ => rfl
  intro a
  refine parses_anyToken.bind fun mark b => ?_
  refine looks_atTerminator.bind fun _ => .ite ((parses_noExprs b).seq ?_) ((hvalue b).seq ?_)
  all_goals exact fun values c => (parses_closed mark.span values a b).weak

/-- A word with several values behind it. -/
theorem parses_echo : Enclosed f 1 ofExprs (echo g) (echo g') := fun a =>
  parses_anyToken.bind fun mark b => (parses_items rows_exprs (hg.expr 0)).seq fun values _ =>
    (parses_closed mark.span values a b).weak

omit hg in
/-- A range with expressions in it, made into a statement. -/
theorem parses_filled (make : Span → List Expr → Stmt)
    (hmake : ∀ span es, ofStmt (make span es) = node span visit (ofExprs es done))
    (hmove : ∀ span es, make (move f span) (move f es) = move f (make span es))
    {p p' : Parser (Span × List Expr)} (hp : Enclosed f 1 ofExprs p p') :
    Laid f 1 ofStmt ((fun r => make r.1 r.2) <$> p) ((fun r => make r.1 r.2) <$> p') := by
  intro a
  refine .map ((hp a).imp fun ⟨span, values⟩ next ⟨hspan, hvalues⟩ => ?_) fun r => hmove r.1 r.2
  rw [hmake]
  exact hvalues.node hspan.1 hspan.2.2

/-- `unset` with its variables. -/
theorem parses_unset : Laid f 1 ofStmt (unset g) (unset g') := by
  intro a
  refine (parses_keyword _).bind fun mark b => ?_
  refine (parses_between _ _ fun _ => parses_list rows_exprs _ (hg.expr 0)).seq
    fun ⟨parens, values⟩ c => ?_
  refine parses_terminator.seq fun stop d => .pure (by simp) ?_
  rintro hstop ⟨hparens, hvalues⟩ hmark
  exact (hvalues.widen (by omega) (Nat.le_trans hparens.2.2 hstop.1)).node hmark.1 hstop.2

/-- `global` with its variables. -/
theorem parses_globals : Laid f 1 ofStmt (globals g) (globals g') := by
  intro a
  refine (parses_keyword _).bind fun mark b => ?_
  refine (parses_items rows_exprs (parses_variableExpr hg)).seq fun named c => ?_
  refine parses_terminator.seq fun stop d => .pure (by simp) ?_
  intro hstop hnamed hmark
  exact (hnamed.widen (by omega) hstop.1).node hmark.1 hstop.2

/-- A static variable and its value, if it has one. -/
theorem parses_staticItem : Laid f 1 (fun r => ofExprs r.2) (staticItem g) (staticItem g') := by
  intro a
  refine reads_variableName.parses.bind fun _ b => ?_
  refine (reads_skipSymbol _).step fun _ c => .ite ?_ ?_
  · exact (hg.expr 0 c).seq fun value d => .pure rfl fun hvalue h => hvalue.earlier h
  · exact .pure rfl fun h => .none h

/-- Static variables. In the statement, their names and values are lists of their own. -/
theorem parses_statics : Laid f 1 ofStmt (statics g) (statics g') := by
  intro a
  refine (parses_keyword _).bind fun mark b => ?_
  refine (parses_items (rows_flatMap Prod.snd) (parses_staticItem hg)).seq fun declared c => ?_
  refine parses_terminator.seq fun stop d => .pure ?_ fun hstop hdeclared hmark => ?_
  · have hnames : (move f declared).map Prod.fst = move f (declared.map Prod.fst) := by
      simp [move, Placed.move, Function.comp_def]
    have hvalues : (move f declared).map Prod.snd = move f (declared.map Prod.snd) := by
      simp [move, Placed.move, Function.comp_def]
    simp [hnames, hvalues]
  · rw [List.flatMap_def] at hdeclared
    exact (hdeclared.widen (by omega) hstop.1).node hmark.1 hstop.2

omit hg

/-- The end of the program before the end of the text. -/
theorem parses_halt : Laid f 1 ofStmt halt halt := by
  intro a
  refine (parses_keyword _).bind fun mark b => ?_
  refine (reads_symbol _).step fun _ _ => ?_
  refine (reads_symbol _).step fun _ _ => ?_
  refine parses_terminator.seq fun stop c => .pure (by simp) ?_
  intro hstop hmark
  exact (Lies.none (by omega)).node hmark.1 hstop.2

/-- A jump to a label. -/
theorem parses_jump : Laid f 1 ofStmt jump jump := by
  intro a
  refine (parses_keyword _).bind fun mark b => ?_
  refine reads_identifier.step fun _ _ => ?_
  refine parses_terminator.seq fun stop c => .pure (by simp) ?_
  intro hstop hmark
  exact (Lies.none (by omega)).node hmark.1 hstop.2

/-- A statement that is a single token. -/
theorem parses_single (make : Span → Stmt)
    (hmake : ∀ span, ofStmt (make span) = node span visit done)
    (hmove : ∀ span, make (move f span) = move f (make span)) :
    Laid f 1 ofStmt (single make) (single make) := by
  intro a
  refine parses_anyToken.bind fun t b => .pure (hmove t.span) ?_
  intro ht
  rw [hmake]
  exact (Lies.none ht.2.1).node ht.1 ht.2.2

include hg

/-- An expression with a terminator. -/
theorem parses_expressionStmt : Laid f 1 ofStmt (expressionStmt g) (expressionStmt g') := by
  intro a
  refine (hg.expr 0 a).bind fun value b => ?_
  refine parses_terminator.seq fun stop c => .pure (by simp) ?_
  intro hstop hvalue
  exact (hvalue.expr_begin.widen (Nat.le_refl _) hstop.1).node hvalue.expr_fits.1 hstop.2

/-- A closure that is a statement, whose first tokens have been read. -/
theorem parses_functionStmt (start : Nat) :
    Begun f 1 ofStmt start (functionStmt g start) (functionStmt g' (f start)) := by
  intro a
  refine (parses_anonymousFunction hg start _).bind fun value b => ?_
  refine parses_terminator.seq fun stop c => .pure (by simp) ?_
  intro hstop hvalue h
  exact ((hvalue h).widen (Nat.le_refl _) hstop.1).node (Nat.le_refl _) hstop.2

/-- A word with a colon behind it is a label. -/
theorem parses_labelOrExpression : Laid f 1 ofStmt (labelOrExpression g)
    (labelOrExpression g') := by
  intro a
  refine .atKind (by decide) fun _ => .ite ?_ (parses_expressionStmt hg a)
  refine parses_anyToken.bind fun word b => ?_
  refine parses_anyToken.seq fun colon c => .pure (by simp) ?_
  intro hcolon hword
  exact (Lies.none (by omega)).node hword.1 hcolon.2.2

/-! ## Section 7: All statements -/

/-- A declaration if a name follows, and an expression otherwise. -/
theorem parses_functionOrClosure (start : Nat) :
    Begun f 1 ofStmt start (do if ← atClosure then functionStmt g start else functionDecl g start)
      (do if ← atClosure then functionStmt g' (f start) else functionDecl g' (f start)) := fun _ =>
  looks_atClosure.bind fun _ => .ite (parses_functionStmt hg start _)
    (parses_functionDecl hg start _)

/-- What may stand behind attributes. -/
theorem parses_attributed (start : Nat) :
    Begun f 1 ofStmt start (attributed g start) (attributed g' (f start)) := by
  intro _
  refine .atKind (by decide) fun kind => ?_
  split
  · exact parses_classDecl hg _ start _ _
  · exact parses_classDecl hg _ start _ _
  · exact parses_classDecl hg _ start _ _
  · exact parses_constantDecl hg start _
  · exact parses_functionOrClosure hg start _
  · exact parses_functionStmt hg start _
  · refine .atKind (by decide) fun following => ?_
    split
    · exact parses_functionStmt hg start _
    · exact parses_functionStmt hg start _
    · exact parses_modifiedClass hg start _
  · exact parses_modifiedClass hg start _

/-- Some modifiers are also the first word of an expression. -/
theorem parses_modifiedStmt (start : Nat) :
    Begun f 1 ofStmt start (modifiedStmt g start) (modifiedStmt g' (f start)) := fun a =>
  .atKind (by decide) fun _ =>
    .ite (parses_expressionStmt hg a).after (parses_modifiedClass hg start _)

/-- **Statements that begin with a keyword.** Each keyword has its own form. The others begin an
expression. -/
theorem parses_keywordStmt (k : Keyword) : Laid f 1 ofStmt (keywordStmt g k)
    (keywordStmt g' k) := by
  intro a
  refine .next fun t b => ?_
  -- one case for each keyword that begins a statement of its own
  cases k
  case declareKw => exact (parses_declaration hg b).behind
  case namespaceKw => exact (parses_namespaceDecl hg b).behind
  case useKw => exact (parses_importDecl b).behind
  case interfaceKw | traitKw | enumKw | classKw => exact (parses_classDecl hg _ _ _ _).begun
  case constKw => exact (parses_constantDecl hg _ _).begun
  case functionKw => exact (parses_functionOrClosure hg _ _).begun
  case staticKw =>
    exact .atKind (by decide) fun _ =>
      .ite (parses_statics hg b).behind (parses_modifiedStmt hg _ _).begun
  case globalKw => exact (parses_globals hg b).behind
  case haltKw => exact (parses_halt b).behind
  case ifKw => exact (parses_branch hg b).behind
  case switchKw => exact (parses_switch hg b).behind
  case foreachKw => exact (parses_foreach hg b).behind
  case forKw => exact (parses_forLoop hg b).behind
  case whileKw => exact (parses_whileLoop hg b).behind
  case doKw => exact (parses_doLoop hg b).behind
  case continueKw | breakKw =>
    exact (parses_filled .inert (fun _ _ => rfl) (fun _ _ => by simp)
      (parses_withValue? hg) b).behind
  case returnKw =>
    have hreturn := parses_filled (.evaluate · .returned) (fun _ _ => rfl) (fun _ _ => by simp)
      (parses_withValue? hg)
    exact (hreturn b).behind
  case echoKw =>
    exact (parses_filled (.evaluate · .echo) (fun _ _ => rfl) (fun _ _ => by simp)
      (parses_echo hg) b).behind
  case tryKw => exact (parses_attempt hg b).behind
  case gotoKw => exact (parses_jump b).behind
  case unsetKw => exact (parses_unset hg b).behind
  all_goals first
    | exact (parses_modifiedStmt hg _ _).begun
    | exact (parses_labelOrExpression hg b).behind

/-- **A statement** is read locally and lies where it is read. -/
theorem parses_stmt : Laid f 1 ofStmt (stmt g) (stmt g') := by
  intro a
  refine .next fun t b => ?_
  rw [kind_move]
  split
  · exact (parses_single _ (fun _ => rfl) (fun _ => by simp) b).behind
  · exact (parses_single _ (fun _ => rfl) (fun _ => by simp) b).behind
  · exact (parses_single _ (fun _ => rfl) (fun _ => by simp) b).behind
  · exact (parses_filled .inert (fun _ _ => rfl) (fun _ _ => by simp) (parses_echo hg) b).behind
  · exact (parses_keywordStmt hg _ b).behind
  · exact (parses_single _ (fun _ => rfl) (fun _ => by simp) b).behind
  · have hblock : Laid f 1 ofStmt ((fun r => Stmt.block r.1 r.2) <$> block g)
        ((fun r => Stmt.block r.1 r.2) <$> block g') := fun b =>
      .map ((parses_block hg b).imp fun _ _ hr => hr.2.node hr.1.1 hr.1.2.2) fun _ => by simp
    exact (hblock b).behind
  · exact (reads_attributes hg.reads).step fun _ _ => (parses_attributed hg _ _).begun
  · exact (parses_labelOrExpression hg b).behind
  · exact (parses_expressionStmt hg b).behind

end Parser

/-! ## Section 8: Whole programs -/

open CodeInsight.Grammar.Parser

/-- A text is parsed if its tokens are. -/
theorem parse_eq_ok : parse text = .ok program ↔ parseTokens (tokenize text) = .ok program := by
  unfold parse
  dsimp only
  cases parseTokens (tokenize text) with
  | ok found => simp only [Except.ok.injEq]
  | error left => cases left <;> simp only [reduceCtorEq]

/-- The program of a text that can be parsed. -/
theorem parse_eq_ok_of_isSome (h : (parse text).toOption.isSome = true) :
    parse text = .ok ((parse text).toOption.getD []) := by
  cases hparse : parse text with
  | error place =>
    rw [hparse] at h
    cases h
  | ok program => rfl

/-- Whatever is nested is read locally and lies where it is read, and deeper nesting may be allowed
for. -/
theorem nested_recursion (f : Nat → Nat) {d d' : Nat} (h : d ≤ d') :
    Nested f (recursion d) (recursion d') := by
  induction d generalizing d' with
  -- At depth zero nothing is read, so nothing lies anywhere.
  | zero =>
    exact ⟨fun _ _ => parses_unexpected, fun _ => parses_unexpected, fun _ => parses_unexpected⟩
  | succ d ih =>
    obtain ⟨d', rfl⟩ := Nat.exists_eq_add_of_le h
    have hinner := ih (Nat.le_add_right d d')
    rw [Nat.add_right_comm]
    exact ⟨parses_expr hinner, parses_stmt hinner, fun _ => parses_hooks hinner⟩

/-- Tokens in order stand one behind the other. -/
theorem along_of_ordered {place stop : Nat} (hordered : Ordered ts)
    (hlow : ∀ t ∈ ts, place ≤ t.span.start) (hhigh : ∀ t ∈ ts, t.span.stop ≤ stop)
    (hle : place ≤ stop) : Along place ts stop := by
  induction ts generalizing place with
  | nil => exact hle
  | cons t rest ih =>
    obtain ⟨hbehind, hapart⟩ := List.pairwise_cons.mp hordered.apart
    obtain ⟨hupright, huprights⟩ := List.forall_mem_cons.mp hordered.upright
    obtain ⟨hend, hends⟩ := List.forall_mem_cons.mp hhigh
    refine ⟨hlow t List.mem_cons_self, hupright, ih ⟨huprights, hapart, ?_⟩ hbehind hends hend⟩
    exact (List.forall_mem_cons.mp hordered.spelled).2

/-- The tokens of a text stand one behind the other within it. -/
theorem along_tokenize (text : Text) : Along 0 (tokenize text) (Text.size text) :=
  along_of_ordered (tokenize_ordered text) (fun _ _ => Nat.zero_le _) (tokenize_within text)
    (Nat.zero_le _)

/-- The statements of a program are read from all its tokens. What follows the last one is not
looked at. -/
theorem parseTokens_eq_ok (h : parseTokens ts = .ok program) :
    ∃ rest, statements (recursion (2 * ts.length + 2)) ts = .ok (program, rest) := by
  unfold parseTokens at h
  cases hrun : (statements (recursion (2 * ts.length + 2))).run ts with
  | error left =>
    rw [hrun] at h
    cases h
  | ok r =>
    rw [hrun] at h
    obtain rfl := Except.ok.inj h
    exact ⟨r.2, hrun⟩

/-- **The outline of a parsed program** is nested in the range of the text. -/
theorem nestedIn_of_parse (h : parse text = .ok program) :
    (ofStmts program done).nestedIn ⟨0, Text.size text⟩ = true := by
  obtain ⟨rest, hrun⟩ := parseTokens_eq_ok (parse_eq_ok.mp h)
  have hnested := nested_recursion id (Nat.le_refl (2 * (tokenize text).length + 2))
  have hstmts := (parses_stmts hnested ⟨reads_atEnd, peeks_atEnd⟩ 0).advances
  obtain ⟨last, hrest, hlies⟩ := hstmts _ _ _ _ (along_tokenize text) hrun
  exact (hlies.widen (Nat.le_refl _) hrest.le).nestedIn

end CodeInsight.Grammar
