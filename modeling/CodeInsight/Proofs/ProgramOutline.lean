import CodeInsight.Scope.Forest
import CodeInsight.Grammar.Tree

/-!
# The outline of a program

A parse tree reduced to places: every node with its span, what a walk for scopes does there, and the
nodes within it in source order. A program is well nested if every node lies within its parent and
siblings come one behind the other; the outline says so once for all kinds of nodes.

## Main Results

- `Outline.nestedIn`: the nodes lie within a span, one behind the other, and so on within each
- `Outline.solid`: no node is empty
- `Outline.ofStmts`: the outline of a program
- `Outline.start_le_stop`: a span with an outline in it has its ends in order
- `Forest.bodies`: the scopes that an outline asks for
-/

namespace CodeInsight

open Grammar

/-- What a walk for scopes does at a node. -/
inductive Visit where
  /-- It goes on into the node. -/
  | passed
  /-- The node is the body of a scope of its own. -/
  | opened (kind : ScopeKind)
  /-- The walk leaves the node out. -/
  | skipped
  deriving DecidableEq, Repr

/-- Nodes in source order: a node, the nodes within it, and those that follow it in the same
parent. -/
inductive Outline where
  | done
  | node (span : Span) (visit : Visit) (inner rest : Outline)
  deriving DecidableEq, Repr

variable {visit : Visit}

namespace Outline

/-! ## Section 1: Nesting -/

/-- Each node begins where the one before it has ended or later, its inner nodes are nested in it,
and the last one ends before the parent does. -/
def nestedIn (outer : Span) : Outline → Bool
  | done => outer.start ≤ outer.stop
  | node span _ inner rest =>
    outer.start ≤ span.start && inner.nestedIn span && rest.nestedIn ⟨span.stop, outer.stop⟩

theorem start_le_stop {o : Outline} {outer : Span} (h : o.nestedIn outer = true) :
    outer.start ≤ outer.stop := by
  induction o generalizing outer with
  | done => simpa [nestedIn] using h
  | node span visit inner rest ihInner ihRest =>
    simp only [nestedIn, Bool.and_eq_true, decide_eq_true_eq] at h
    have hspan := ihInner h.1.2
    have hrest : span.stop ≤ outer.stop := ihRest h.2
    omega

/-- A node of an outline, the nodes within it and those behind it. -/
theorem nestedIn_node {span outer : Span} {inner rest : Outline}
    (h : (node span visit inner rest).nestedIn outer = true) :
    outer.encloses span = true ∧ inner.nestedIn span = true ∧
      rest.nestedIn ⟨span.stop, outer.stop⟩ = true := by
  simp only [nestedIn, Bool.and_eq_true, decide_eq_true_eq] at h
  have hrest : span.stop ≤ outer.stop := start_le_stop h.2
  exact ⟨by simp [Span.encloses, h.1.1, hrest], h.1.2, h.2⟩

/-- No node has an empty span. -/
def solid : Outline → Bool
  | done => true
  | node span _ inner rest => span.start < span.stop && inner.solid && rest.solid

theorem solid_node {span : Span} {inner rest : Outline}
    (h : (node span visit inner rest).solid = true) :
    span.start < span.stop ∧ inner.solid = true ∧ rest.solid = true := by
  simp only [solid, Bool.and_eq_true, decide_eq_true_eq] at h
  exact ⟨h.1.1, h.1.2, h.2⟩

/-! ## Section 2: The outline of a parse tree

A node is put before the nodes that follow it. Bodies in braces are nodes of their own. -/

/-- A node without nodes in it. -/
def leaf (span : Span) (rest : Outline) : Outline := node span .passed done rest

mutual

/-- Puts an expression before what follows it. -/
def ofExpr : Expr → Outline → Outline
  | .variable span _, rest => leaf span rest
  | .name span _, rest => leaf span rest
  | .classWord span _, rest => leaf span rest
  | .literal span _, rest => leaf span rest
  | .array span style elements, rest =>
    node span (match style with | .listWord => .skipped | _ => .passed) (ofElements elements done)
      rest
  | .assign span target value, rest =>
    node span .passed (node target.span .skipped (ofExpr target done) (ofExpr value done)) rest
  | .closure span _ _ braces body, rest =>
    node span .passed (node braces (.opened .closure) (ofStmts body done) done) rest
  | .arrow span _ body, rest => node span (.opened .arrowFunction) (ofExpr body done) rest
  | .group span inner, rest => node span .passed (ofExpr inner done) rest
  | .call span callee args, rest =>
    node span .passed (node callee.span .skipped (ofExpr callee done) (ofExprs args done)) rest
  | .methodCall span object member args, rest =>
    node span .passed
      (ofExpr object (node member.span .skipped (ofExpr member done) (ofExprs args done))) rest
  | .staticCall span owner member args, rest =>
    node span .passed
      (node owner.span .skipped (ofExpr owner done)
        (node member.span .skipped (ofExpr member done) (ofExprs args done))) rest
  | .fetch span _ object member, rest =>
    node span .passed (ofExpr object (node member.span .skipped (ofExpr member done) done)) rest
  | .new span of args, rest =>
    node span .passed (node of.span .skipped (ofExpr of done) (ofExprs args done)) rest
  | .anonymousClass span args members, rest =>
    node span .skipped (ofExprs args (ofMembers members done)) rest
  | .clone span object, rest => node span .passed (ofExpr object done) rest
  | .operation span _ operands, rest => node span .passed (ofExprs operands done) rest
  | .unscanned span _ parts, rest => node span .skipped (ofExprs parts done) rest

/-- Puts expressions before what follows them. -/
def ofExprs : List Expr → Outline → Outline
  | [], rest => rest
  | e :: more, rest => ofExpr e (ofExprs more rest)

/-- Puts the elements of an array before what follows them. -/
def ofElements : List Element → Outline → Outline
  | [], rest => rest
  | e :: more, rest => ofElement e (ofElements more rest)

/-- Puts an element of an array before what follows it. -/
def ofElement : Element → Outline → Outline
  | .item value, rest => ofExpr value rest
  | .pair key value, rest => ofExpr key (ofExpr value rest)
  | .spread value, rest => ofExpr value rest
  | .hole, rest => rest

/-- Puts a statement before what follows it. -/
def ofStmt : Stmt → Outline → Outline
  | .openTag span, rest => leaf span rest
  | .declare span values body, rest =>
    node span .skipped (ofExprs values (ofStmts body done)) rest
  | .namespaceDecl span _ _ body, rest => node span .passed (ofStmts body done) rest
  | .imports span _, rest => leaf span rest
  | .classLike span _ members, rest => node span .passed (ofMembers members done) rest
  | .function span _ _ braces body, rest =>
    node span .passed (node braces (.opened .function) (ofStmts body done) done) rest
  | .expression span value, rest => node span .passed (ofExpr value done) rest
  | .block span body, rest => node span .passed (ofStmts body done) rest
  | .branch span condition yes no, rest =>
    node span .passed (ofExpr condition (ofStmts yes (ofStmts no done))) rest
  | .foreach span subject key value bodyStart body, rest =>
    node span .passed
      (ofExpr subject
        (match key with
        | some key => node key.span .skipped (ofExpr key done)
            (node value.span .skipped (ofExpr value done)
              (node ⟨bodyStart, span.stop⟩ .passed (ofStmts body done) done))
        | none => node value.span .skipped (ofExpr value done)
            (node ⟨bodyStart, span.stop⟩ .passed (ofStmts body done) done))) rest
  | .loop span _ header body footer, rest =>
    node span .passed (ofExprs header (ofStmts body (ofExprs footer done))) rest
  | .evaluate span _ values, rest => node span .passed (ofExprs values done) rest
  | .attempt span body handlers cleanup, rest =>
    node span .passed (ofStmts body (ofStmts handlers (ofStmts cleanup done))) rest
  | .handler span _ _ braces body, rest =>
    node span .passed (node braces .passed (ofStmts body done) done) rest
  | .switch span subject cases, rest =>
    node span .passed (ofExpr subject (ofStmts cases done)) rest
  | .switchCase span value body, rest =>
    node span .passed
      (match value with
      | some value => node value.span .skipped (ofExpr value done) (ofStmts body done)
      | none => ofStmts body done) rest
  | .globals span named, rest => node span .skipped (ofExprs named done) rest
  | .statics span _ values, rest => node span .skipped (ofExprs values done) rest
  | .inert span parts, rest => node span .skipped (ofExprs parts done) rest

/-- Puts statements before what follows them. -/
def ofStmts : List Stmt → Outline → Outline
  | [], rest => rest
  | t :: more, rest => ofStmt t (ofStmts more rest)

/-- Puts a member of a class before what follows it. -/
def ofMember : Member → Outline → Outline
  | .method span _ _ _ _ (some braces) body, rest =>
    node span .passed (node braces (.opened .method) (ofStmts body done) done) rest
  | .method span _ _ _ _ none body, rest => node span .skipped (ofStmts body done) rest
  | .property span _ _ _, rest => leaf span rest
  | .traitUse span _, rest => leaf span rest
  | .constant span, rest => leaf span rest

/-- Puts the members of a class before what follows them. -/
def ofMembers : List Member → Outline → Outline
  | [], rest => rest
  | m :: more, rest => ofMember m (ofMembers more rest)

end

end Outline

/-! ## Section 3: Scopes -/

/-- The scopes that an outline asks for, in source order, if the first of them gets the position
`first`: each one with the kind and the span of its node and the position of the scope around it. -/
def Forest.bodies (outer first : Nat) : Outline → List Scope
  | .done => []
  | .node _ .skipped _ rest => bodies outer first rest
  | .node _ .passed inner rest =>
    let found := bodies outer first inner
    found ++ bodies outer (first + found.length) rest
  | .node span (.opened kind) inner rest =>
    let found := ⟨kind, span, some outer, []⟩ :: bodies first (first + 1) inner
    found ++ bodies outer (first + found.length) rest

end CodeInsight
