import CodeInsight.Grammar.Parser.Statement

/-!
# Trees at other places

Tokens and trees speak about a text by offsets. When text is put in or taken out, everything behind
that place keeps its form and gets other offsets. `move f` changes every offset by `f`, and changes
nothing else.

## Main Results

- `Grammar.Placed`: what offsets can be changed in
- `Grammar.Expr.moved`, `Grammar.Stmt.moved`, `Grammar.Member.moved`: trees with other offsets
-/

namespace CodeInsight.Grammar

/-- Things that hold offsets into a text. -/
class Placed (α : Type) where
  /-- The same with every offset changed. -/
  move : (Nat → Nat) → α → α

export Placed (move)

/-! ## Section 1: Offsets in tokens and in small things -/

/-- A number that a parser answers with is an offset. -/
instance : Placed Nat := ⟨fun f n => f n⟩

instance : Placed Unit := ⟨fun _ x => x⟩
instance : Placed Bool := ⟨fun _ x => x⟩
instance : Placed String := ⟨fun _ x => x⟩
instance : Placed TokenKind := ⟨fun _ x => x⟩
instance : Placed Modifier := ⟨fun _ x => x⟩
instance : Placed Import := ⟨fun _ x => x⟩
instance : Placed ImportKind := ⟨fun _ x => x⟩

instance {α : Type} [Placed α] : Placed (Option α) := ⟨fun f => Option.map (move f)⟩
instance {α : Type} [Placed α] : Placed (List α) := ⟨fun f => List.map (move f)⟩
instance {α β : Type} [Placed α] [Placed β] : Placed (α × β) :=
  ⟨fun f x => (move f x.1, move f x.2)⟩

instance : Placed Span := ⟨fun f s => ⟨f s.start, f s.stop⟩⟩
instance : Placed Name := ⟨fun f n => ⟨n.text, move f n.span⟩⟩
instance : Placed Token := ⟨fun f t => ⟨t.kind, t.text, move f t.span⟩⟩

instance : Placed Param :=
  ⟨fun f p => { p with hint := move f p.hint, initial := move f p.initial }⟩

instance : Placed ClassHead :=
  ⟨fun f h => { h with name := move f h.name, bases := move f h.bases,
                       implements := move f h.implements, braces := move f h.braces }⟩

section

variable (f : Nat → Nat)
variable {α β : Type}

@[simp] theorem move_nat (n : Nat) : move f n = f n := rfl
@[simp] theorem move_bool (b : Bool) : move f b = b := rfl
@[simp] theorem move_string (s : String) : move f s = s := rfl
@[simp] theorem move_kind (k : TokenKind) : move f k = k := rfl
@[simp] theorem move_modifier (m : Modifier) : move f m = m := rfl
@[simp] theorem move_import (i : Import) : move f i = i := rfl
@[simp] theorem move_importKind (k : ImportKind) : move f k = k := rfl

@[simp] theorem move_none [Placed α] : move f (none : Option α) = none := rfl

@[simp] theorem move_some [Placed α] (x : α) : move f (some x) = some (move f x) := rfl

@[simp] theorem move_kind? (k : Option TokenKind) : move f k = k := by
  cases k <;> rfl

@[simp] theorem move_modifier? (m : Option Modifier) : move f m = m := by
  cases m <;> rfl

@[simp] theorem move_importKind? (k : Option ImportKind) : move f k = k := by
  cases k <;> rfl

@[simp] theorem move_nil [Placed α] : move f ([] : List α) = [] := rfl

@[simp] theorem move_cons [Placed α] (x : α) (xs : List α) :
    move f (x :: xs) = move f x :: move f xs := rfl

@[simp] theorem move_append [Placed α] (xs ys : List α) :
    move f (xs ++ ys) = move f xs ++ move f ys := List.map_append

@[simp] theorem move_pair [Placed α] [Placed β] (x : α) (y : β) :
    move f (x, y) = (move f x, move f y) := rfl

@[simp] theorem fst_move [Placed α] [Placed β] (x : α × β) :
    (move f x).1 = move f x.1 := rfl
@[simp] theorem snd_move [Placed α] [Placed β] (x : α × β) :
    (move f x).2 = move f x.2 := rfl

@[simp] theorem move_span (s t : Nat) : move f (⟨s, t⟩ : Span) = ⟨f s, f t⟩ := rfl
@[simp] theorem move_through (a b : Span) :
    move f (a.through b) = (move f a).through (move f b) := rfl
@[simp] theorem start_move (s : Span) : (move f s).start = f s.start := rfl
@[simp] theorem stop_move (s : Span) : (move f s).stop = f s.stop := rfl

@[simp] theorem move_name (text : String) (span : Span) :
    move f (⟨text, span⟩ : Name) = ⟨text, move f span⟩ := rfl
@[simp] theorem text_move_name (n : Name) : (move f n).text = n.text := rfl
@[simp] theorem span_move_name (n : Name) : (move f n).span = move f n.span := rfl

@[simp] theorem move_param (name : String) (hint initial : Option Span) (modifiers : List Modifier)
    (hooked variadic byReference : Bool) :
    move f (⟨name, hint, initial, modifiers, hooked, variadic, byReference⟩ : Param) =
      ⟨name, move f hint, move f initial, modifiers, hooked, variadic, byReference⟩ := rfl

@[simp] theorem move_head (form : ClassForm) (modifiers : List Modifier) (name : Name)
    (bases implements : List Name) (braces : Span) :
    move f (⟨form, modifiers, name, bases, implements, braces⟩ : ClassHead) =
      ⟨form, modifiers, move f name, move f bases, move f implements, move f braces⟩ := rfl

@[simp] theorem kind_move (t : Token) : (move f t).kind = t.kind := rfl
@[simp] theorem text_move (t : Token) : (move f t).text = t.text := rfl
@[simp] theorem span_move (t : Token) : (move f t).span = move f t.span := rfl
@[simp] theorem isSymbol_move (t : Token) (s : Symbol) : (move f t).isSymbol s = t.isSymbol s := rfl

@[simp] theorem length_move [Placed α] (xs : List α) :
    (move f xs).length = xs.length := List.length_map _

@[simp] theorem move_flatten [Placed α] (xs : List (List α)) :
    move f xs.flatten = (move f xs).flatten := List.map_flatten

/-- A list whose elements have no offsets stays as it is. -/
theorem move_list_of_fixed [Placed α] (h : ∀ x : α, move f x = x) (xs : List α) :
    move f xs = xs := by
  induction xs with
  | nil => rfl
  | cons x rest ih => rw [move_cons, h, ih]

@[simp] theorem move_modifiers (ms : List Modifier) : move f ms = ms :=
  move_list_of_fixed f (fun _ => rfl) ms

@[simp] theorem move_imports (is : List Import) : move f is = is :=
  move_list_of_fixed f (fun _ => rfl) is

end

/-! ## Section 2: Offsets in trees

Trees hold lists of trees, so every sort of tree comes with the function for its lists. -/

mutual

/-- An expression with other offsets. -/
def Expr.moved (f : Nat → Nat) : Expr → Expr
  | .variable s name => .variable (move f s) name
  | .name s text => .name (move f s) text
  | .classWord s word => .classWord (move f s) word
  | .literal s kind => .literal (move f s) kind
  | .array s style elements => .array (move f s) style (movedElements f elements)
  | .assign s target value => .assign (move f s) (target.moved f) (value.moved f)
  | .closure s params captures braces body =>
    .closure (move f s) (move f params) (move f captures) (move f braces) (movedStmts f body)
  | .arrow s params body => .arrow (move f s) (move f params) (body.moved f)
  | .group s inner => .group (move f s) (inner.moved f)
  | .call s callee args => .call (move f s) (callee.moved f) (movedExprs f args)
  | .methodCall s object member args =>
    .methodCall (move f s) (object.moved f) (member.moved f) (movedExprs f args)
  | .staticCall s scope member args =>
    .staticCall (move f s) (scope.moved f) (member.moved f) (movedExprs f args)
  | .fetch s nullsafe object member =>
    .fetch (move f s) nullsafe (object.moved f) (member.moved f)
  | .new s of args => .new (move f s) (of.moved f) (movedExprs f args)
  | .anonymousClass s args members =>
    .anonymousClass (move f s) (movedExprs f args) (movedMembers f members)
  | .clone s object => .clone (move f s) (object.moved f)
  | .operation s form operands => .operation (move f s) form (movedExprs f operands)
  | .unscanned s form parts => .unscanned (move f s) form (movedExprs f parts)

/-- Expressions with other offsets. -/
def movedExprs (f : Nat → Nat) : List Expr → List Expr
  | [] => []
  | e :: rest => e.moved f :: movedExprs f rest

/-- An element with other offsets. -/
def Element.moved (f : Nat → Nat) : Element → Element
  | .item value => .item (value.moved f)
  | .pair key value => .pair (key.moved f) (value.moved f)
  | .spread value => .spread (value.moved f)
  | .hole => .hole

/-- Elements with other offsets. -/
def movedElements (f : Nat → Nat) : List Element → List Element
  | [] => []
  | e :: rest => e.moved f :: movedElements f rest

/-- A statement with other offsets. -/
def Stmt.moved (f : Nat → Nat) : Stmt → Stmt
  | .openTag s => .openTag (move f s)
  | .declare s values body => .declare (move f s) (movedExprs f values) (movedStmts f body)
  | .namespaceDecl s name braced body =>
    .namespaceDecl (move f s) (move f name) braced (movedStmts f body)
  | .imports s items => .imports (move f s) items
  | .classLike s head members => .classLike (move f s) (move f head) (movedMembers f members)
  | .function s name params braces body =>
    .function (move f s) (move f name) (move f params) (move f braces) (movedStmts f body)
  | .expression s value => .expression (move f s) (value.moved f)
  | .block s body => .block (move f s) (movedStmts f body)
  | .branch s condition yes no =>
    .branch (move f s) (condition.moved f) (movedStmts f yes) (movedStmts f no)
  | .foreach s subject key value bodyStart body =>
    .foreach (move f s) (subject.moved f) (movedOption f key) (value.moved f) (f bodyStart)
      (movedStmts f body)
  | .loop s kind header body footer =>
    .loop (move f s) kind (movedExprs f header) (movedStmts f body) (movedExprs f footer)
  | .evaluate s form values => .evaluate (move f s) form (movedExprs f values)
  | .attempt s body handlers cleanup =>
    .attempt (move f s) (movedStmts f body) (movedStmts f handlers) (movedStmts f cleanup)
  | .handler s hint bound braces body =>
    .handler (move f s) (move f hint) (move f bound) (move f braces) (movedStmts f body)
  | .switch s subject cases => .switch (move f s) (subject.moved f) (movedStmts f cases)
  | .switchCase s value body => .switchCase (move f s) (movedOption f value) (movedStmts f body)
  | .globals s named => .globals (move f s) (movedExprs f named)
  | .statics s names values => .statics (move f s) (move f names) (movedExprs f values)
  | .inert s parts => .inert (move f s) (movedExprs f parts)

/-- An expression that may be absent, with other offsets. -/
def movedOption (f : Nat → Nat) : Option Expr → Option Expr
  | none => none
  | some e => some (e.moved f)

/-- Statements with other offsets. -/
def movedStmts (f : Nat → Nat) : List Stmt → List Stmt
  | [] => []
  | s :: rest => s.moved f :: movedStmts f rest

/-- A member with other offsets. -/
def Member.moved (f : Nat → Nat) : Member → Member
  | .method s modifiers name params returns braces body =>
    .method (move f s) modifiers (move f name) (move f params) (move f returns) (move f braces)
      (movedStmts f body)
  | .property s modifiers hint names =>
    .property (move f s) modifiers (move f hint) (move f names)
  | .traitUse s names => .traitUse (move f s) (move f names)
  | .constant s => .constant (move f s)

/-- Members with other offsets. -/
def movedMembers (f : Nat → Nat) : List Member → List Member
  | [] => []
  | m :: rest => m.moved f :: movedMembers f rest

end

instance : Placed Expr := ⟨Expr.moved⟩
instance : Placed Element := ⟨Element.moved⟩
instance : Placed Stmt := ⟨Stmt.moved⟩
instance : Placed Member := ⟨Member.moved⟩

attribute [simp] Expr.moved Element.moved Stmt.moved Member.moved

section

variable (f : Nat → Nat)

@[simp] theorem move_expr (e : Expr) : move f e = e.moved f := rfl
@[simp] theorem move_element (e : Element) : move f e = e.moved f := rfl
@[simp] theorem move_stmt (s : Stmt) : move f s = s.moved f := rfl
@[simp] theorem move_member (m : Member) : move f m = m.moved f := rfl

@[simp] theorem movedExprs_eq_move (es : List Expr) : movedExprs f es = move f es := by
  induction es with
  | nil => rfl
  | cons e rest ih => simp [movedExprs, ih]

@[simp] theorem movedElements_eq_move (es : List Element) : movedElements f es = move f es := by
  induction es with
  | nil => rfl
  | cons e rest ih => simp [movedElements, ih]

@[simp] theorem movedStmts_eq_move (ss : List Stmt) : movedStmts f ss = move f ss := by
  induction ss with
  | nil => rfl
  | cons s rest ih => simp [movedStmts, ih]

@[simp] theorem movedMembers_eq_move (ms : List Member) : movedMembers f ms = move f ms := by
  induction ms with
  | nil => rfl
  | cons m rest ih => simp [movedMembers, ih]

@[simp] theorem movedOption_eq_move (e : Option Expr) : movedOption f e = move f e := by
  cases e <;> rfl

@[simp] theorem span_moved_expr (e : Expr) : (e.moved f).span = move f e.span := by
  cases e <;> rfl

@[simp] theorem span_moved_stmt (s : Stmt) : (s.moved f).span = move f s.span := by
  cases s <;> rfl

end

end CodeInsight.Grammar
