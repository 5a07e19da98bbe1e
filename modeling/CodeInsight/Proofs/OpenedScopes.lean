import CodeInsight.Proofs.NestedStatements
import CodeInsight.Proofs.ScopeLayout
import CodeInsight.Proofs.WalkRecord
import Mathlib.Logic.Relation

/-!
# Which bodies open scopes

A walk does not go into every part of a program: what stands in the place of the function in a call,
after `new` or before `::`, the targets of assignments, the values of cases and all that stands in
forms without scopes of their own are left out. The bodies that the walk comes to, be they of
functions, methods, closures or arrow functions, open a scope each, with their parameters bound from
its beginning on. The bodies in the parts that are left out open none.

## Main Results

- `Node.parts`: the parts of every kind of node that a walk goes into, and those that it leaves out
- `Node.walked`: what a walk does at a node
- `contains_part`: the acts of a part are among those of the whole
- `hasScope_of_reached`: every body that the walk comes to has a scope
- `exists_reached_of_scope`: every scope is that of a body that the walk comes to
-/

namespace CodeInsight.Scope

open Grammar Forest

variable {program : List Stmt} {reading : Reading} {depth : Nat} {kind : ScopeKind} {range : Span}
  {α : Type} {i : Nat}

/-! ## Section 1: Parts -/

/-- A node of a parse tree. -/
inductive Node where
  | expr (e : Expr)
  | stmt (t : Stmt)
  | member (m : Member)

/-- The nodes directly below a node. -/
structure Subnodes where
  /-- A walk goes into them. -/
  walked : List Node
  /-- A walk leaves them out. -/
  skipped : List Node

def elementNodes (es : List Element) : List Node :=
  es.flatMap fun
    | .item value => [.expr value]
    | .pair key value => [.expr key, .expr value]
    | .spread value => [.expr value]
    | .hole => []

namespace Node

/-- What is directly below a node, and what of it a walk goes into. -/
def parts : Node → Subnodes
  | expr (.variable _ _) | expr (.name _ _) | expr (.classWord _ _) | expr (.literal _ _) =>
    ⟨[], []⟩
  | expr (.array _ .listWord elements) => ⟨[], elementNodes elements⟩
  | expr (.array _ _ elements) => ⟨elementNodes elements, []⟩
  | expr (.assign _ target value) => ⟨[expr value], [expr target]⟩
  | expr (.closure _ _ _ _ body) => ⟨body.map stmt, []⟩
  | expr (.arrow _ _ body) => ⟨[expr body], []⟩
  | expr (.group _ inner) => ⟨[expr inner], []⟩
  | expr (.call _ callee args) => ⟨args.map expr, [expr callee]⟩
  | expr (.methodCall _ object selector args) => ⟨expr object :: args.map expr, [expr selector]⟩
  | expr (.staticCall _ owner selector args) => ⟨args.map expr, [expr owner, expr selector]⟩
  | expr (.fetch _ _ object selector) => ⟨[expr object], [expr selector]⟩
  | expr (.new _ of args) => ⟨args.map expr, [expr of]⟩
  | expr (.anonymousClass _ args members) => ⟨[], args.map expr ++ members.map member⟩
  | expr (.clone _ object) => ⟨[expr object], []⟩
  | expr (.operation _ _ operands) => ⟨operands.map expr, []⟩
  | expr (.unscanned _ _ parts) => ⟨[], parts.map expr⟩
  | stmt (.openTag _) | stmt (.imports _ _) => ⟨[], []⟩
  | stmt (.declare _ values body) => ⟨[], values.map expr ++ body.map stmt⟩
  | stmt (.namespaceDecl _ _ _ body) => ⟨body.map stmt, []⟩
  | stmt (.classLike _ _ members) => ⟨members.map member, []⟩
  | stmt (.function _ _ _ _ body) => ⟨body.map stmt, []⟩
  | stmt (.expression _ value) => ⟨[expr value], []⟩
  | stmt (.block _ body) => ⟨body.map stmt, []⟩
  | stmt (.branch _ condition yes no) => ⟨expr condition :: (yes.map stmt ++ no.map stmt), []⟩
  | stmt (.foreach _ subject key value _ body) =>
    ⟨expr subject :: body.map stmt, key.toList.map expr ++ [expr value]⟩
  | stmt (.loop _ _ header body footer) =>
    ⟨header.map expr ++ (body.map stmt ++ footer.map expr), []⟩
  | stmt (.evaluate _ _ values) => ⟨values.map expr, []⟩
  | stmt (.attempt _ body handlers cleanup) =>
    ⟨body.map stmt ++ (handlers.map stmt ++ cleanup.map stmt), []⟩
  | stmt (.handler _ _ _ _ body) => ⟨body.map stmt, []⟩
  | stmt (.switch _ subject cases) => ⟨expr subject :: cases.map stmt, []⟩
  | stmt (.switchCase _ value body) => ⟨body.map stmt, value.toList.map expr⟩
  | stmt (.globals _ named) => ⟨[], named.map expr⟩
  | stmt (.statics _ _ values) => ⟨[], values.map expr⟩
  | stmt (.inert _ parts) => ⟨[], parts.map expr⟩
  | member (.method _ _ _ _ _ (some _) body) => ⟨body.map stmt, []⟩
  | member (.method _ _ _ _ _ none body) => ⟨[], body.map stmt⟩
  | member (.property _ _ _ _) | member (.traitUse _ _) | member (.constant _) => ⟨[], []⟩

/-- The class whose code the parts of a node are, if the node itself is code of the class
`frame`. -/
def frameWithin (reading : Reading) (frame : Frame) : Node → Frame
  | stmt (.namespaceDecl _ _ _ _) => none
  | stmt (.classLike _ head _) =>
    match head.form with
    | .isEnum => none
    | _ => reading.classNamed? head.name.span
  | _ => frame

/-- The acts of a walk through a node. -/
def acts (reading : Reading) (scope : Nat) (frame : Frame) : Node → Nat → List Act
  | expr e => actsByExpr reading scope frame e
  | stmt t => actsByStmt reading scope frame t
  | member m => actsByMember reading scope frame m

end Node

/-- What opens a scope: its kind, the range of the scope and the parameters that are bound in it. -/
structure Body where
  kind : ScopeKind
  range : Span
  params : List Param
  deriving DecidableEq

/-- The body of a function, a method, a closure or an arrow function. -/
def Node.body? : Node → Option Body
  | .expr (.closure _ params _ braces _) => some ⟨.closure, braces, params⟩
  | .expr (.arrow span params _) => some ⟨.arrowFunction, span, params⟩
  | .stmt (.function _ _ params braces _) => some ⟨.function, braces, params⟩
  | .member (.method _ _ _ params _ (some braces) _) => some ⟨.method, braces, params⟩
  | _ => none

/-! ## Section 2: The acts of a part -/

/-- Acts are those of a walk through a node in some scope, if the next scope gets the position
`next`. -/
def Node.Performs (reading : Reading) (frame : Frame) (n : Node) (next : Nat) (acts : List Act) :
    Prop :=
  ∃ scope, acts = n.acts reading scope frame next

/-- Among some acts are those of a part, which begin when all acts before them have opened their
scopes. -/
def Contains (next : Nat) (acts : List Act) (part : Nat → List Act → Prop) : Prop :=
  ∃ before found after, acts = before ++ (found ++ after) ∧ part (next + opens before) found

namespace Contains

variable {next : Nat} {acts : List Act} {part inner : Nat → List Act → Prop}

theorem refl (h : part next acts) : Contains next acts part :=
  ⟨[], acts, [], by simp, by simpa [opens] using h⟩

theorem trans (h : Contains next acts part)
    (hpart : ∀ {next found}, part next found → Contains next found inner) :
    Contains next acts inner := by
  obtain ⟨before, found, after, rfl, hfound⟩ := h
  obtain ⟨before', found', after', rfl, hfound'⟩ := hpart hfound
  refine ⟨before ++ before', found', after' ++ after, by simp only [List.append_assoc], ?_⟩
  rwa [opens_append, ← Nat.add_assoc]

/-- More acts follow. -/
theorem left (h : Contains next acts part) (more : List Act) :
    Contains next (acts ++ more) part := by
  obtain ⟨before, found, after, rfl, hfound⟩ := h
  exact ⟨before, found, after ++ more, by simp only [List.append_assoc], hfound⟩

/-- Other acts come first. -/
theorem right {first : List Act} (h : Contains (next + opens first) acts part) :
    Contains next (first ++ acts) part := by
  obtain ⟨before, found, after, rfl, hfound⟩ := h
  refine ⟨first ++ before, found, after, by simp only [List.append_assoc], ?_⟩
  rwa [opens_append, ← Nat.add_assoc]

end Contains

/-- Acts are those of some nodes, one after the other, with variables bound before, between and
behind them. -/
inductive Consists (reading : Reading) (frame : Frame) : Nat → List Act → List Node → Prop
  | bound {next : Nat} {acts : List Act} (h : opens acts = 0) : Consists reading frame next acts []
  | node {next : Nat} {acts : List Act} {n : Node} (h : n.Performs reading frame next acts) :
      Consists reading frame next acts [n]
  | seq {next : Nat} {acts more : List Act} {ns ms : List Node}
      (h : Consists reading frame next acts ns)
      (hmore : Consists reading frame (next + opens acts) more ms) :
      Consists reading frame next (acts ++ more) (ns ++ ms)

section

variable {b : Body} {scope : Nat} {frame : Frame} {next : Nat} {acts : List Act} {n m : Node}
  {ns : List Node}

namespace Consists

/-- Variables are bound first. -/
theorem behind {front : List Act} (hfront : opens front = 0)
    (h : Consists reading frame next acts ns) :
    Consists reading frame next (front ++ acts) ns :=
  (Consists.bound hfront).seq (by rwa [hfront])

theorem seq_seq {more last : List Act} {ms ls : List Node} (h : Consists reading frame next acts ns)
    (hmore : Consists reading frame (next + opens acts) more ms)
    (hlast : Consists reading frame (next + opens (acts ++ more)) last ls) :
    Consists reading frame next (acts ++ more ++ last) (ns ++ (ms ++ ls)) := by
  rw [← List.append_assoc ns]
  exact (h.seq hmore).seq hlast

/-- Lists are walked through one item after the other. -/
theorem list {one : α → Nat → List Act} {many : List α → Nat → List Act} {nodes : α → List Node}
    (hnil : ∀ next, many [] next = [])
    (hcons : ∀ x rest next, many (x :: rest) next = one x next ++
      many rest (next + opens (one x next)))
    (hone : ∀ x next, Consists reading frame next (one x next) (nodes x)) (xs : List α)
    (next : Nat) :
    Consists reading frame next (many xs next) (xs.flatMap nodes) := by
  -- The items before open scopes of their own, so the position varies along the list.
  induction xs generalizing next with
  | nil =>
    rw [hnil]
    exact .bound rfl
  | cons x rest ih =>
    rw [hcons]
    exact (hone x next).seq (ih _)

theorem expr (e : Expr) (next : Nat) :
    Consists reading frame next (actsByExpr reading scope frame e next) [Node.expr e] :=
  .node ⟨scope, rfl⟩

theorem exprs (es : List Expr) (next : Nat) :
    Consists reading frame next (actsByExprs reading scope frame es next) (es.map Node.expr) := by
  rw [List.map_eq_flatMap]
  exact list (fun _ => rfl) (fun _ _ _ => rfl) expr es next

theorem stmts (ts : List Stmt) (next : Nat) :
    Consists reading frame next (actsIn reading scope frame ts next) (ts.map Node.stmt) := by
  rw [List.map_eq_flatMap]
  exact list (fun _ => rfl) (fun _ _ _ => rfl) (fun _ _ => .node ⟨scope, rfl⟩) ts next

theorem members (ms : List Member) (next : Nat) :
    Consists reading frame next (actsByMembers reading scope frame ms next)
      (ms.map Node.member) := by
  rw [List.map_eq_flatMap]
  exact list (fun _ => rfl) (fun _ _ _ => rfl) (fun _ _ => .node ⟨scope, rfl⟩) ms next

theorem elements (es : List Element) (next : Nat) :
    Consists reading frame next (actsByElements reading scope frame es next) (elementNodes es) := by
  refine list (fun _ => rfl) (fun _ _ _ => rfl) (fun e next => ?_) es next
  cases e with
  | item value => exact .expr value next
  | pair key value => exact (Consists.expr key next).seq (.expr value _)
  | spread value => exact .expr value next
  | hole => exact .bound rfl

/-- The acts of every one of the nodes are among them. -/
theorem contains (h : Consists reading frame next acts ns) (hm : m ∈ ns) :
    Contains next acts (m.Performs reading frame) := by
  induction h with
  | bound => cases hm
  | node hn =>
    obtain rfl := List.mem_singleton.mp hm
    exact .refl hn
  | seq _ _ ihFirst ihMore =>
    rcases List.mem_append.mp hm with hm | hm
    · exact (ihFirst hm).left _
    · exact (ihMore hm).right

/-- A scope is opened by one of the nodes. -/
theorem exists_of_opened (h : Consists reading frame next acts ns) {outer : Nat}
    (hopened : .opened outer kind range ∈ acts) :
    ∃ m ∈ ns, ∃ next found, m.Performs reading frame next found ∧
      .opened outer kind range ∈ found := by
  induction h with
  | bound hopens =>
    have hnone := List.filterMap_eq_nil_iff.mp (filterMap_opened?_eq_nil hopens) _ hopened
    cases hnone
  | node hn => exact ⟨_, List.mem_cons_self, _, _, hn, hopened⟩
  | seq _ _ ihFirst ihMore =>
    rcases List.mem_append.mp hopened with hopened | hopened
    · obtain ⟨m, hm, hfound⟩ := ihFirst hopened
      exact ⟨m, List.mem_append_left _ hm, hfound⟩
    · obtain ⟨m, hm, hfound⟩ := ihMore hopened
      exact ⟨m, List.mem_append_right _ hm, hfound⟩

end Consists

theorem opens_givenNames (scope offset : Nat) (names : List String) :
    opens (givenNames scope offset names) = 0 :=
  opens_eq_zero fun a ha => (givenAt_of_mem_givenNames a ha).opens_eq_zero

theorem opens_givenParams (scope offset : Nat) (params : List Param) :
    opens (givenParams reading scope offset frame params) = 0 :=
  opens_eq_zero fun a ha => (givenAt_of_mem_givenParams a ha).opens_eq_zero

/-- What a walk does at a node. If the node is a body, a scope is opened and its parameters are
bound in it. The rest are the acts of the parts that are walked through. -/
def Node.Walked (reading : Reading) (scope : Nat) (frame : Frame) (n : Node) (next : Nat) : Prop :=
  match n.body? with
  | none =>
    Consists reading (n.frameWithin reading frame) next (n.acts reading scope frame next)
      n.parts.walked
  | some b => ∃ rest, n.acts reading scope frame next = .opened scope b.kind b.range :: rest ∧
      (∀ a ∈ givenParams reading next b.range.start frame b.params, a ∈ rest) ∧
      Consists reading (n.frameWithin reading frame) (next + 1) rest n.parts.walked

theorem walked_expr (e : Expr) (next : Nat) : (Node.expr e).Walked reading scope frame next := by
  cases e with
  | array span style elements =>
    cases style with
    | listWord => exact .bound rfl
    | brackets | arrayWord => exact .elements elements next
  | assign span target value =>
    refine (Consists.expr value next).seq (.bound ?_)
    cases target with
    | «variable» => rfl
    | _ => exact opens_givenNames _ _ _
  | closure span params captures braces body =>
    -- binding the captures opens no scope
    have hcaptures : opens (takenCaptures scope next span.start braces.start captures) = 0 := by
      apply opens_eq_zero
      intro a ha
      obtain ⟨c, _, rfl⟩ := List.mem_map.mp ha
      rfl
    refine ⟨_, rfl, fun a ha => List.mem_append_left _ (List.mem_append_left _ ha),
      .behind ?_ (.stmts body _)⟩
    rw [opens_append, opens_givenParams, hcaptures]
  | arrow span params body =>
    exact ⟨_, rfl, fun a ha => List.mem_append_left _ ha,
      .behind (opens_givenParams _ _ _) (.expr body _)⟩
  | group span inner => exact .expr inner next
  | call span callee args => exact .exprs args next
  | methodCall span object selector args => exact (Consists.expr object next).seq (.exprs args _)
  | staticCall span owner selector args => exact .exprs args next
  | fetch span nullsafe object selector => exact .expr object next
  | new span of args => exact .exprs args next
  | clone span object => exact .expr object next
  | operation span form operands => exact .exprs operands next
  | _ => exact .bound rfl

theorem walked_stmt (t : Stmt) (next : Nat) : (Node.stmt t).Walked reading scope frame next := by
  cases t with
  | namespaceDecl span name braced body => exact .stmts body next
  | classLike span head members => exact .members members next
  | function span name params braces body =>
    exact ⟨_, rfl, fun a ha => List.mem_append_left _ ha,
      .behind (opens_givenParams _ _ _) (.stmts body _)⟩
  | expression span value => exact .expr value next
  | block span body => exact .stmts body next
  | branch span condition yes no =>
    exact ((Consists.expr condition next).seq (.stmts yes _)).seq (.stmts no _)
  | foreach span subject key value bodyStart body =>
    exact (Consists.expr subject next).seq (.behind (opens_givenNames _ _ _) (.stmts body _))
  | loop span kind header body footer =>
    exact (Consists.exprs header next).seq_seq (.stmts body _) (.exprs footer _)
  | evaluate span form values => exact .exprs values next
  | attempt span body handlers cleanup =>
    exact (Consists.stmts body next).seq_seq (.stmts handlers _) (.stmts cleanup _)
  | handler span hint bound braces body =>
    exact .behind (opens_eq_zero fun a ha => (givenAt_of_mem_givenException a ha).opens_eq_zero)
      (.stmts body _)
  | switch span subject cases => exact (Consists.expr subject next).seq (.stmts cases _)
  | switchCase span value body => exact .stmts body next
  | globals span named | statics span names values => exact .bound (opens_givenNames _ _ _)
  | _ => exact .bound rfl

theorem walked_member (m : Member) (next : Nat) :
    (Node.member m).Walked reading scope frame next := by
  cases m with
  | method span modifiers name params returns braces body =>
    cases braces with
    | none => exact .bound rfl
    | some braces =>
      have hthis : opens (givenThis next braces.start modifiers frame) = 0 :=
        opens_eq_zero fun a ha => (givenAt_of_mem_givenThis a ha).opens_eq_zero
      refine ⟨_, rfl, fun a ha => List.mem_append_left _ (List.mem_append_right _ ha),
        .behind ?_ (.stmts body _)⟩
      rw [opens_append, hthis, opens_givenParams]
  | _ => exact .bound rfl

/-- **What a walk does at a node.** -/
theorem Node.walked (n : Node) (next : Nat) : n.Walked reading scope frame next := by
  cases n with
  | expr e => exact walked_expr e next
  | stmt t => exact walked_stmt t next
  | member m => exact walked_member m next

/-- The first act at a body opens its scope. -/
theorem exists_acts_of_body (hbody : n.body? = some b) (next : Nat) :
    ∃ rest, n.acts reading scope frame next = .opened scope b.kind b.range :: rest ∧
      (∀ a ∈ givenParams reading next b.range.start frame b.params, a ∈ rest) ∧
      Consists reading (n.frameWithin reading frame) (next + 1) rest n.parts.walked := by
  have hwalked : n.Walked reading scope frame next := n.walked next
  rwa [Node.Walked, hbody] at hwalked

theorem consists_of_no_body (hbody : n.body? = none) (next : Nat) :
    Consists reading (n.frameWithin reading frame) next (n.acts reading scope frame next)
      n.parts.walked := by
  have hwalked : n.Walked reading scope frame next := n.walked next
  rwa [Node.Walked, hbody] at hwalked

/-- **The acts of a part** that is walked through are among those of the whole. -/
theorem contains_part (h : m ∈ n.parts.walked) (hacts : n.Performs reading frame next acts) :
    Contains next acts (m.Performs reading (n.frameWithin reading frame)) := by
  obtain ⟨scope, rfl⟩ := hacts
  cases hbody : n.body? with
  | none => exact (consists_of_no_body hbody next).contains h
  | some b =>
    obtain ⟨rest, hrest, _, hparts⟩ := exists_acts_of_body hbody next
    rw [hrest]
    show Contains next ([.opened scope b.kind b.range] ++ rest) _
    exact (hparts.contains h).right

end

/-- What a walk comes to from a node in the code of a class. -/
def Node.steps (reading : Reading) (a : Frame × Node) : List (Frame × Node) :=
  a.2.parts.walked.map fun m => (a.2.frameWithin reading a.1, m)

/-- A walk comes from one node to another, in one step or in many. -/
def Node.Leads (reading : Reading) : Frame × Node → Frame × Node → Prop :=
  Relation.ReflTransGen fun a b => b ∈ Node.steps reading a

/-- A walk through a program comes to a node, which is code of the class `frame`. -/
def Reached (reading : Reading) (program : List Stmt) (frame : Frame) (n : Node) : Prop :=
  ∃ t ∈ program, Node.Leads reading (none, .stmt t) (frame, n)

variable {n : Node}

/-- **The acts of a node that a walk comes to** are among those of the program. -/
theorem contains_of_reached {frame : Frame} (h : Reached reading program frame n)
    (scope next : Nat) :
    Contains next (actsIn reading scope none program next) (n.Performs reading frame) := by
  obtain ⟨t, ht, hleads⟩ := h
  have hfirst : Contains next (actsIn reading scope none program next)
      ((Node.stmt t).Performs reading none) :=
        (Consists.stmts program next).contains (List.mem_map_of_mem ht)
  -- along the way from the statement to the node
  generalize hend : (frame, n) = last at hleads
  induction hleads generalizing frame n with
  | refl =>
    cases hend
    exact hfirst
  | @tail middle last _ hstep ih =>
    subst hend
    obtain ⟨m, hpart, heq⟩ := List.mem_map.mp hstep
    cases heq
    exact (ih rfl).trans (contains_part hpart)

/-! ## Section 3: Bodies and their scopes -/

section

variable {b : Binding} {s : Setting} {forest : Forest} {acts : List Act}

theorem mem_insertBinding {k : Binding} {bindings : List Binding} :
    k ∈ insertBinding b bindings ↔ k = b ∨ k ∈ bindings := by
  have hsplit : bindings.takeWhile (fun k => k.offset ≤ b.offset) ++
      bindings.dropWhile (fun k => k.offset ≤ b.offset) = bindings :=
        List.takeWhile_append_dropWhile
  rw [insertBinding, List.mem_append, List.mem_cons, or_left_comm, ← List.mem_append, hsplit]

/-- What is bound stays bound. -/
theorem mem_bindingsOf_act {act : Act} (h : b ∈ forest.bindingsOf i) :
    b ∈ (forest.apply (act.call s forest)).bindingsOf i := by
  cases act.call s forest with
  | nest outer kind range =>
    rw [apply, bindingsOf_nest]
    exact h
  -- A binding of a scope that is not there has no effect.
  | bind scope name offset type =>
    rcases Nat.lt_or_ge scope forest.next with hscope | hscope
    · rw [apply, bindingsOf_bind forest hscope]
      split
      next => exact mem_insertBinding.mpr (.inr h)
      next => exact h
    · rw [apply, Forest.bind, List.modify_eq_self hscope]
      exact h

theorem mem_bindingsOf_run (h : b ∈ forest.bindingsOf i) :
    b ∈ (run s acts forest).bindingsOf i := by
  induction acts generalizing forest with
  | nil => exact h
  | cons act rest ih => exact ih (mem_bindingsOf_act h)

/-- A variable that is bound by the place is found where it was bound. -/
theorem mem_bindingsOf_of_given {scope offset : Nat} {name : String} {type : InferredType}
    (hscope : scope < forest.next) (h : .given scope name offset type ∈ acts) :
    ⟨name, offset, type⟩ ∈ (run s acts forest).bindingsOf scope := by
  induction acts generalizing forest with
  | nil => cases h
  | cons act rest ih =>
    rcases List.mem_cons.mp h with rfl | h
    · have hbound :
          ⟨name, offset, type⟩ ∈ (forest.bind scope name offset type).bindingsOf scope := by
        rw [bindingsOf_bind forest hscope, if_pos rfl]
        exact mem_insertBinding.mpr (.inl rfl)
      have hrest :
          ⟨name, offset, type⟩ ∈
          (run s rest (forest.bind scope name offset type)).bindingsOf scope :=
        mem_bindingsOf_run hbound
      exact hrest
    · apply ih _ h
      rw [next_act]
      exact Nat.lt_add_right _ hscope

/-- Acts that open a scope are followed by acts that bind parameters in it. -/
theorem mem_bindingsOf_body {b : Body} (hbody : n.body? = some b) {frame : Frame}
    (hacts : n.Performs s.reading frame forest.next acts) {p : Param} (hp : p ∈ b.params) :
    ⟨p.name, b.range.start, s.reading.param frame b.range.start p⟩ ∈
      (run s acts forest).bindingsOf forest.next := by
  obtain ⟨scope, rfl⟩ := hacts
  obtain ⟨rest, hacts, hparams, _⟩ := exists_acts_of_body hbody forest.next
  rw [hacts]
  show _ ∈ (run s rest (forest.nest scope b.kind b.range)).bindingsOf forest.next
  apply mem_bindingsOf_of_given
  · rw [next_nest]
    exact Nat.lt_succ_self _
  · exact hparams _ (List.mem_map_of_mem hp)

/-- A forest has a scope for a body in the code of a class: of its kind, with its range, and with
its parameters bound from its beginning on. -/
def HasScope (reading : Reading) (forest : Forest) (frame : Frame) (b : Body) : Prop :=
  ∃ scope ∈ forest.scopes, scope.kind = b.kind ∧ scope.range = b.range ∧
    ∀ p ∈ b.params, ⟨p.name, b.range.start, reading.param frame b.range.start p⟩ ∈ scope.bindings

/-- **Every body that a walk comes to has a scope** in a well-nested program. -/
theorem hasScope_of_reached
    (hnested : (Outline.ofStmts program .done).nestedIn ⟨0, Text.size s.text⟩ = true)
    {frame : Frame} (hreached : Reached s.reading program frame n) {b : Body}
    (hbody : n.body? = some b) : HasScope s.reading (ofProgram s program) frame b := by
  obtain ⟨before, found, after, hacts, hfound⟩ := contains_of_reached hreached fileScope 1
  have hwalk : ofProgram s program = run s (before ++ (found ++ after))
      (Forest.ofSize (Text.size s.text)) :=
    hacts ▸ (recorded_stmts s fileScope none program).walk_eq _
  -- the scope gets the position behind those that were opened before
  have hnext : (run s before (Forest.ofSize (Text.size s.text))).next = 1 + opens before :=
    next_run s before _
  have hscope : (ofProgram s program).shape[1 + opens before]?.map
    (fun scope => (scope.kind, scope.range)) =
      some (b.kind, b.range) := by
    -- In a well-nested program no range is cut off, so the scopes are those that the acts ask for.
    obtain ⟨outer, rfl⟩ := hfound
    obtain ⟨rest, hrest, _⟩ := exists_acts_of_body hbody (1 + opens before)
    rw [(grew_ofProgram hnested).2, (recorded_stmts s fileScope none program).bodies_eq, hacts,
      hrest, Nat.add_comm, List.getElem?_cons_succ, List.filterMap_append, List.cons_append,
      ← length_filterMap_opened?, List.getElem?_append_right (Nat.le_refl _), Nat.sub_self]
    rfl
  rw [shape, List.getElem?_map, Option.map_map, Option.map_eq_some_iff] at hscope
  obtain ⟨scope, hat, heq⟩ := hscope
  obtain ⟨hkind, hrange⟩ := Prod.mk.inj heq
  refine ⟨scope, List.mem_of_getElem? hat, hkind, hrange, fun p hp => ?_⟩
  -- The acts of the body bind the parameters, and what comes behind the body removes nothing.
  have hbound : ⟨p.name, b.range.start, s.reading.param frame b.range.start p⟩ ∈
      (ofProgram s program).bindingsOf (1 + opens before) := by
    rw [hwalk, run_append, run_append]
    apply mem_bindingsOf_run
    rw [← hnext] at hfound ⊢
    exact mem_bindingsOf_body hbody hfound hp
  rwa [bindingsOf, hat] at hbound

end

/-! ## Section 4: Every scope comes from a body -/

/-- A walk comes from a node to a body of a kind with a range. -/
def Node.Holds (reading : Reading) (frame : Frame) (n : Node) (kind : ScopeKind) (range : Span) :
    Prop :=
  ∃ frame' m b, Node.Leads reading (frame, n) (frame', m) ∧ m.body? = some b ∧ b.kind = kind ∧
    b.range = range

section

variable {frame : Frame} {outer : Nat}

theorem Node.Holds.self {params : List Param} (h : n.body? = some ⟨kind, range, params⟩) :
    n.Holds reading frame kind range :=
  ⟨frame, n, _, .refl, h, rfl, rfl⟩

/-- A part holds a body. -/
theorem Node.Holds.of_part {m : Node} (h : m.Holds reading (n.frameWithin reading frame) kind range)
    (hpart : m ∈ n.parts.walked) : n.Holds reading frame kind range := by
  obtain ⟨frame', last, b, hleads, hbody⟩ := h
  exact ⟨frame', last, b, .head (List.mem_map_of_mem hpart) hleads, hbody⟩

end

section

variable {m : Node}

theorem sizeOf_le_of_mem_exprs {es : List Expr} (h : m ∈ es.map Node.expr) :
    sizeOf m ≤ sizeOf es := by
  obtain ⟨e, he, rfl⟩ := List.mem_map.mp h
  have hlt := List.sizeOf_lt_of_mem he
  rw [Node.expr.sizeOf_spec]
  omega

theorem sizeOf_le_of_mem_stmts {ts : List Stmt} (h : m ∈ ts.map Node.stmt) :
    sizeOf m ≤ sizeOf ts := by
  obtain ⟨t, ht, rfl⟩ := List.mem_map.mp h
  have hlt := List.sizeOf_lt_of_mem ht
  rw [Node.stmt.sizeOf_spec]
  omega

theorem sizeOf_le_of_mem_members {ms : List Member} (h : m ∈ ms.map Node.member) :
    sizeOf m ≤ sizeOf ms := by
  obtain ⟨m, hm, rfl⟩ := List.mem_map.mp h
  have hlt := List.sizeOf_lt_of_mem hm
  rw [Node.member.sizeOf_spec]
  omega

theorem sizeOf_le_of_mem_elements {es : List Element} (h : m ∈ elementNodes es) :
    sizeOf m ≤ sizeOf es := by
  obtain ⟨e, he, hm⟩ := List.mem_flatMap.mp h
  have hlt := List.sizeOf_lt_of_mem he
  cases e with
  | hole => cases hm
  | _ =>
    simp only [List.mem_cons, List.not_mem_nil, or_false] at hm
    grind [Node.expr.sizeOf_spec, Element.item.sizeOf_spec, Element.pair.sizeOf_spec,
      Element.spread.sizeOf_spec]

/-- The parts of a node are smaller. -/
theorem sizeOf_lt_of_part (h : m ∈ n.parts.walked) : sizeOf m < sizeOf n := by
  have hexprs := @sizeOf_le_of_mem_exprs m
  have hstmts := @sizeOf_le_of_mem_stmts m
  have hmembers := @sizeOf_le_of_mem_members m
  cases n with
  | expr e =>
    cases e with
    | array span style elements =>
      have hle : sizeOf m ≤ sizeOf elements := by
        cases style with
        | listWord => cases h
        | _ => exact sizeOf_le_of_mem_elements h
      rw [Node.expr.sizeOf_spec, Expr.array.sizeOf_spec]
      omega
    | _ =>
      simp only [Node.parts] at h
      grind
  | stmt t =>
    cases t with
    | _ =>
      simp only [Node.parts] at h
      grind
  | member member =>
    cases member with
    | method span modifiers name params returns braces body =>
      cases braces with
      | none => cases h
      | some braces =>
        simp only [Node.parts] at h
        grind
    | _ => cases h

end

/-- **Where a scope is opened, a walk comes to a body.** The induction is on the size of the
node. -/
theorem holds_of_opened {scope outer next : Nat} {frame : Frame} (n : Node)
    (h : .opened outer kind range ∈ n.acts reading scope frame next) :
    n.Holds reading frame kind range := by
  have hparts : ∀ next acts, .opened outer kind range ∈ acts →
      Consists reading (n.frameWithin reading frame) next acts n.parts.walked →
          n.Holds reading frame kind range := by
    intro next acts hopened hacts
    obtain ⟨m, hm, _, _, ⟨scope, rfl⟩, hfound⟩ := hacts.exists_of_opened hopened
    have hsize := sizeOf_lt_of_part hm
    exact (holds_of_opened m hfound).of_part hm
  cases hbody : n.body? with
  | none => exact hparts _ _ h (consists_of_no_body hbody next)
  | some b =>
    obtain ⟨rest, hrest, _, hacts⟩ := exists_acts_of_body hbody next
    rw [hrest] at h
    rcases List.mem_cons.mp h with heq | h
    · cases heq
      exact .self hbody
    · exact hparts _ _ h hacts
termination_by sizeOf n

/-- **Every scope is that of a body that the walk comes to**, the scope of the file apart. -/
theorem exists_reached_of_scope {s : Setting}
    (hnested : (Outline.ofStmts program .done).nestedIn ⟨0, Text.size s.text⟩ = true)
    {scope : Scope} (hscope : scope ∈ (ofProgram s program).scopes) (hkind : scope.kind ≠ .file) :
    ∃ frame n b, Reached s.reading program frame n ∧ n.body? = some b ∧
      b.kind = scope.kind ∧ b.range = scope.range := by
  have hshape : { scope with bindings := [] } ∈ (ofProgram s program).shape :=
    List.mem_map_of_mem hscope
  rw [(grew_ofProgram hnested).2, (recorded_stmts s fileScope none program).bodies_eq] at hshape
  -- The first scope is that of the file, and the others were asked for by some act.
  rcases List.mem_cons.mp hshape with heq | hmem
  · exact absurd (congrArg Scope.kind heq) hkind
  · obtain ⟨act, hact, hopened⟩ := List.mem_filterMap.mp hmem
    cases act with
    | opened outer kind range =>
      obtain ⟨m, hm, _, _, ⟨scope, rfl⟩, hfound⟩ := (Consists.stmts program 1).exists_of_opened hact
      obtain ⟨t, ht, rfl⟩ := List.mem_map.mp hm
      obtain ⟨frame, n, b, hleads, hbody, rfl, rfl⟩ := holds_of_opened _ hfound
      have heq := Option.some.inj hopened
      exact ⟨frame, n, b, ⟨t, ht, hleads⟩, hbody, congrArg Scope.kind heq, congrArg Scope.range heq⟩
    | _ => cases hopened

/-! ## Section 5: Which bodies open scopes -/

/-- **The bodies that a walk comes to open scopes, and no others do.** In a parsed program every
body that is reached through parts that are walked through has a scope of its kind with its range,
in which its parameters are bound, and every scope but that of the file comes from such a body. -/
theorem walked_bodies_open_scopes (s : Setting) (program : List Stmt)
    (hparse : Grammar.parse s.text = .ok program) :
    (∀ frame n b, Reached s.reading program frame n → n.body? = some b →
      HasScope s.reading (ofProgram s program) frame b) ∧
    ∀ scope ∈ (ofProgram s program).scopes, scope.kind ≠ .file →
      ∃ frame n b, Reached s.reading program frame n ∧ n.body? = some b ∧
        b.kind = scope.kind ∧ b.range = scope.range := by
  have hnested := nestedIn_of_parse hparse
  constructor
  · intro frame n b hreached hbody
    exact hasScope_of_reached hnested hreached hbody
  · intro scope hscope hkind
    exact exists_reached_of_scope hnested hscope hkind

/-- Every node directly below a node. -/
def Node.below (n : Node) : List Node := n.parts.walked ++ n.parts.skipped

/-- A node of a program, in a part that is walked through or in one that is not. -/
def Occurs (program : List Stmt) (n : Node) : Prop :=
  ∃ t ∈ program, Relation.ReflTransGen (fun a b => b ∈ Node.below a) (.stmt t) n

/-- What is reached in at most some number of steps. -/
def reach {α : Type} (step : α → List α) : Nat → α → List α
  | 0, a => [a]
  | depth + 1, a => a :: (step a).flatMap (reach step depth)

theorem reflTransGen_of_mem_reach {step : α → List α} {a b : α} (h : b ∈ reach step depth a) :
    Relation.ReflTransGen (fun a b => b ∈ step a) a b := by
  induction depth generalizing a with
  | zero =>
    obtain rfl := List.mem_singleton.mp h
    exact .refl
  | succ depth ih =>
    rcases List.mem_cons.mp h with rfl | h
    · exact .refl
    · obtain ⟨c, hc, hb⟩ := List.mem_flatMap.mp h
      exact .head hc (ih hb)

/-- A body is searched for in all parts of a program. -/
theorem exists_occurs_of_mem
    (h : b ∈ (program.flatMap fun t => reach Node.below depth (.stmt t)).filterMap Node.body?) :
    ∃ n, Occurs program n ∧ n.body? = some b := by
  obtain ⟨n, hn, hbody⟩ := List.mem_filterMap.mp h
  obtain ⟨t, ht, hreach⟩ := List.mem_flatMap.mp hn
  exact ⟨n, ⟨t, ht, reflTransGen_of_mem_reach hreach⟩, hbody⟩

/-- A body is searched for in the parts of a program that are walked through. -/
theorem exists_reached_of_mem {frame : Frame}
    (h : (frame, b) ∈
      (program.flatMap fun t => reach (Node.steps reading) depth (none, .stmt t)).filterMap
      fun a => a.2.body?.map (a.1, ·)) :
    ∃ n, Reached reading program frame n ∧ n.body? = some b := by
  obtain ⟨⟨frame', n⟩, hn, heq⟩ := List.mem_filterMap.mp h
  obtain ⟨b', hbody, heq⟩ := Option.map_eq_some_iff.mp heq
  obtain ⟨rfl, rfl⟩ := Prod.mk.inj heq
  obtain ⟨t, ht, hreach⟩ := List.mem_flatMap.mp hn
  exact ⟨n, ⟨t, ht, reflTransGen_of_mem_reach hreach⟩, hbody⟩

/-- A closure among the arguments of a call, and an arrow function in the closure. -/
def passedText : Text := "<?php map(function (Foo $a) \x7b return fn($b) => $a; \x7d);".toList

def passedProgram : List Stmt := (Grammar.parse passedText).toOption.getD []

def passedSetting : Setting :=
  ⟨fun _ => none, FileModel.ofProgram "f.php" passedText passedProgram, passedText⟩

theorem passed_closure_opens_scope :
    Grammar.parse passedSetting.text = .ok passedProgram ∧
      HasScope passedSetting.reading (ofProgram passedSetting passedProgram) none
        ⟨.closure, ⟨28, 52⟩, [⟨"$a", some ⟨20, 23⟩, none, [], false, false, false⟩]⟩ ∧
      HasScope passedSetting.reading (ofProgram passedSetting passedProgram) none
        ⟨.arrowFunction, ⟨37, 49⟩, [⟨"$b", none, none, [], false, false, false⟩]⟩ := by
  have hparse : Grammar.parse passedSetting.text = .ok passedProgram :=
    parse_eq_ok_of_isSome (by decide +kernel)
  have hopen := (walked_bodies_open_scopes passedSetting passedProgram hparse).1
  have hbodies : ((passedProgram.flatMap fun t => reach (Node.steps passedSetting.reading) 4
      (none, .stmt t)).filterMap fun a => a.2.body?.map (a.1, ·)) =
        [(none, ⟨.closure, ⟨28, 52⟩, [⟨"$a", some ⟨20, 23⟩, none, [], false, false, false⟩]⟩),
          (none, ⟨.arrowFunction, ⟨37, 49⟩, [⟨"$b", none, none, [], false, false, false⟩]⟩)] := by
    decide +kernel
  obtain ⟨closure, hclosure, hbody⟩ := exists_reached_of_mem (hbodies ▸ List.mem_cons_self)
  obtain ⟨arrow, harrow, hbody'⟩ :=
    exists_reached_of_mem (hbodies ▸ List.mem_cons_of_mem _ List.mem_cons_self)
  exact ⟨hparse, hopen _ _ _ hclosure hbody, hopen _ _ _ harrow hbody'⟩

/-- A closure that is called where it stands. -/
def calledText : Text := "<?php (function ($a) \x7b return $a; \x7d)();".toList

def calledProgram : List Stmt := (Grammar.parse calledText).toOption.getD []

def calledSetting : Setting :=
  ⟨fun _ => none, FileModel.ofProgram "f.php" calledText calledProgram, calledText⟩

/-- The closure stands in a part that is left out, and so it has no scope. -/
theorem called_closure_opens_no_scope :
    Grammar.parse calledSetting.text = .ok calledProgram ∧
      (∃ n b, Occurs calledProgram n ∧ n.body? = some b ∧ b.kind = .closure) ∧
      ∀ scope ∈ (ofProgram calledSetting calledProgram).scopes, scope.kind ≠ .closure := by
  have hmem : ⟨.closure, ⟨21, 35⟩, [⟨"$a", none, none, [], false, false, false⟩]⟩ ∈
      (calledProgram.flatMap fun t => reach Node.below 3 (.stmt t)).filterMap Node.body? :=
        by decide +kernel
  obtain ⟨n, hoccurs, hbody⟩ := exists_occurs_of_mem hmem
  exact ⟨parse_eq_ok_of_isSome (by decide +kernel), ⟨n, _, hoccurs, hbody, rfl⟩, by decide +kernel⟩

end CodeInsight.Scope
