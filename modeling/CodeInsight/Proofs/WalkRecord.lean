import CodeInsight.Proofs.ActWindows
import CodeInsight.Proofs.ProgramOutline
import CodeInsight.Scope.Receivers

/-!
# The record of a walk

The acts that a parse tree tells are those of the walk: acting them out gives the forest of the
walk, the values that they assign are all that the program assigns, and the scopes that they open
are those that its outline asks for. In a well-nested program whose nodes are not empty, the acts of
every node keep to the window of the node. Records of parts are put together in the ways in which
nodes are built from parts.

## Main Results

- `recorded_stmts`: the record of a walk through statements
- `confined_actsIn`: the acts of a whole program
-/

namespace CodeInsight.Scope

open Grammar Forest

/-! ## Section 1: Records and how they are put together -/

/-- The acts of a part of a program keep to a window that begins where the part may begin, and that
ends before what follows it. `put` puts the part before what follows. -/
def Placed (scope next : Nat) (put : Outline → Outline) (acts : List Act) : Prop :=
  ∀ rest window, (put rest).nestedIn window = true → (put rest).solid = true →
    ∃ stop, window.start ≤ stop ∧ rest.nestedIn ⟨stop, window.stop⟩ = true ∧ rest.solid = true ∧
      Confined scope next ⟨window.start, stop⟩ acts

/-- What is left of a nested outline behind its first node. -/
theorem behind_node {span window : Span} {visit : Visit} {inner rest : Outline}
    (hnested : (Outline.node span visit inner rest).nestedIn window = true)
    (hsolid : (Outline.node span visit inner rest).solid = true) :
    window.start ≤ span.start ∧ window.start ≤ span.stop ∧
      rest.nestedIn ⟨span.stop, window.stop⟩ = true ∧ rest.solid = true := by
  obtain ⟨hspan, hinner, hrest⟩ := Outline.nestedIn_node hnested
  obtain ⟨hproper, _, hsolid⟩ := Outline.solid_node hsolid
  have hstart := (Span.encloses_iff.mp hspan).1
  exact ⟨hstart, by omega, hrest, hsolid⟩

/-- The record of a walk through a part of a program. -/
structure Recorded (s : Setting) (scope : Nat) (walk : Forest → Forest) (acts : Nat → List Act)
    (put : Outline → Outline) (values : List Expr) : Prop where
  walk_eq : ∀ forest, walk forest = run s (acts forest.next) forest
  values_eq : ∀ next, (acts next).filterMap Act.value? = values
  opened_eq : ∀ next rest, bodies scope next (put rest) =
    (acts next).filterMap Act.opened? ++ bodies scope (next + opens (acts next)) rest
  placed : ∀ next, scope < next → Placed scope next put (acts next)

namespace Recorded

variable {s : Setting} {scope : Nat} {walk walk' : Forest → Forest} {acts acts' : Nat → List Act}
  {put put' : Outline → Outline} {values values' : List Expr}

section

variable {span : Span} {visit : Visit} {givens : List Act} {bound : Forest → Forest}

/-- Nothing. -/
theorem idle : Recorded s scope id (fun _ => []) id [] where
  walk_eq _ := rfl
  values_eq _ := rfl
  opened_eq _ _ := rfl
  placed _ _ _ window hnested hsolid :=
    ⟨window.start, Nat.le_refl _, hnested, hsolid, Confined.nil _ _ _⟩

section

variable (h : Recorded s scope walk acts put values)
include h

/-- One part after the other. -/
theorem seq (h' : Recorded s scope walk' acts' put' values') :
    Recorded s scope (fun forest => walk' (walk forest))
      (fun next => acts next ++ acts' (next + opens (acts next))) (fun rest => put (put' rest))
      (values ++ values') where
  walk_eq forest := by
    rw [run_append, h'.walk_eq, h.walk_eq, next_run]
  values_eq next := by rw [List.filterMap_append, h.values_eq, h'.values_eq]
  opened_eq next rest := by
    rw [h.opened_eq, h'.opened_eq, List.filterMap_append, opens_append, List.append_assoc,
      Nat.add_assoc]
  placed next hscope rest window hnested hsolid := by
    obtain ⟨middle, hmiddle, hnested, hsolid, hfirst⟩ := h.placed next hscope _ _ hnested hsolid
    obtain ⟨stop, hstop, hnested, hsolid, hsecond⟩ :=
      h'.placed _ (Nat.lt_add_right _ hscope) _ _ hnested hsolid
    exact ⟨stop, Nat.le_trans hmiddle hstop, hnested, hsolid, hfirst.seq hsecond hmiddle hstop⟩

theorem bodies_eq (next : Nat) :
    bodies scope next (put .done) = (acts next).filterMap Act.opened? := by
  rw [h.opened_eq, bodies, List.append_nil]

/-- What is walked through within a node keeps to the node. -/
theorem inner {next : Nat} (hscope : scope < next) {window : Span} {rest : Outline}
    (hnested : (Outline.node span visit (put .done) rest).nestedIn window = true)
    (hsolid : (Outline.node span visit (put .done) rest).solid = true) :
    ∃ stop, span.start ≤ stop ∧ stop ≤ span.stop ∧
      Confined scope next ⟨span.start, stop⟩ (acts next) := by
  obtain ⟨_, hinner, _⟩ := Outline.nestedIn_node hnested
  obtain ⟨_, hsolid, _⟩ := Outline.solid_node hsolid
  obtain ⟨stop, hstart, hdone, _, hconfined⟩ := h.placed next hscope _ _ hinner hsolid
  exact ⟨stop, hstart, Outline.start_le_stop hdone, hconfined⟩

end

/-- A node that is not walked through; variables may be bound where it ends. -/
theorem skipped {inner : Outline} (hbound : ∀ forest, bound forest = run s givens forest)
    (hgivens : ∀ a ∈ givens, a.GivenAt scope span.stop)
    (hbodies : ∀ next rest, bodies scope next (.node span visit inner rest) =
      bodies scope next rest) :
    Recorded s scope bound (fun _ => givens) (Outline.node span visit inner) [] where
  walk_eq := hbound
  values_eq _ := List.filterMap_eq_nil_iff.mpr fun a ha => (hgivens a ha).value?_eq_none
  opened_eq next rest := by
    have hopens := opens_eq_zero fun a ha => (hgivens a ha).opens_eq_zero
    rw [hbodies, filterMap_opened?_eq_nil hopens, hopens, List.nil_append, Nat.add_zero]
  placed next hscope rest window hnested hsolid := by
    obtain ⟨_, hstop, hrest, hsolid⟩ := behind_node hnested hsolid
    exact ⟨span.stop, hstop, hrest, hsolid, Confined.givens hgivens hscope hstop⟩

theorem leaf {inner : Outline}
    (hbodies : ∀ next rest, bodies scope next (.node span visit inner rest) =
      bodies scope next rest) :
    Recorded s scope id (fun _ => []) (Outline.node span visit inner) [] :=
  skipped (fun _ => rfl) (by simp) hbodies

variable (h : Recorded s scope walk acts put values)
include h

/-- A part behind a node that is not walked through. -/
theorem behind (span : Span) (inner : Outline) :
    Recorded s scope walk acts (fun rest => .node span .skipped inner (put rest)) values :=
  (leaf fun _ _ => rfl).seq h

/-- A part before a node that is not walked through. -/
theorem before (span : Span) (inner : Outline) :
    Recorded s scope walk acts (fun rest => put (.node span .skipped inner rest)) values := by
  have hseq := h.seq
    (leaf fun next rest => (rfl : bodies scope next (.node span .skipped inner rest) = _))
  simp only [List.append_nil] at hseq
  exact hseq

/-- A node that is walked through after variables were bound where it begins. -/
theorem fronted (span : Span) (hbound : ∀ forest, bound forest = run s givens forest)
    (hgivens : ∀ a ∈ givens, a.GivenAt scope span.start) :
    Recorded s scope (fun forest => walk (bound forest)) (fun next => givens ++ acts next)
      (fun rest => .node span .passed (put .done) rest) values := by
  have hopens : opens givens = 0 :=
    opens_eq_zero fun a ha => (hgivens a ha).opens_eq_zero
  have hvalues : givens.filterMap Act.value? = [] :=
    List.filterMap_eq_nil_iff.mpr fun a ha => (hgivens a ha).value?_eq_none
  constructor
  · intro forest
    rw [run_append, ← hbound, h.walk_eq, hbound, next_run, hopens, Nat.add_zero]
  · intro next
    rw [List.filterMap_append, h.values_eq, hvalues, List.nil_append]
  · intro next rest
    rw [bodies, h.bodies_eq, length_filterMap_opened?, List.filterMap_append,
      filterMap_opened?_eq_nil hopens, opens_append, hopens, List.nil_append, Nat.zero_add]
  · intro next hscope rest window hnested hsolid
    obtain ⟨stop, hstart, hstop, hconfined⟩ := h.inner hscope hnested hsolid
    obtain ⟨hbegin, hend, hrest, hsolid⟩ := behind_node hnested hsolid
    have hfront : Confined scope next ⟨span.start, span.start⟩ givens :=
      Confined.givens hgivens hscope (Nat.le_refl _)
    have hback : Confined scope (next + opens givens) ⟨span.start, stop⟩ (acts next) := by
      rwa [hopens]
    have hwhole := hfront.seq hback (Nat.le_refl _) hstart
    exact ⟨span.stop, hend, hrest, hsolid, hwhole.widen (Span.encloses_iff.mpr ⟨hbegin, hstop⟩)⟩

/-- A node that is walked through before something is done where it ends. -/
theorem followed {last : List Act} (hbound : ∀ forest, bound forest = run s last forest)
    (hvalues : last.filterMap Act.value? = values') (hopens : opens last = 0)
    (hlast : (put .done).nestedIn span = true → (put .done).solid = true →
      ∀ next stop, scope < next → stop ≤ span.stop → Confined scope next ⟨stop, span.stop⟩ last) :
    Recorded s scope (fun forest => bound (walk forest)) (fun next => acts next ++ last)
      (fun rest => .node span .passed (put .done) rest) (values ++ values') := by
  constructor
  · intro forest
    rw [run_append, ← h.walk_eq, hbound]
  · intro next
    rw [List.filterMap_append, h.values_eq, hvalues]
  · intro next rest
    rw [bodies, h.bodies_eq, length_filterMap_opened?, List.filterMap_append,
      filterMap_opened?_eq_nil hopens, opens_append, hopens, List.append_nil, Nat.add_zero]
  · intro next hscope rest window hnested hsolid
    obtain ⟨stop, hstart, hstop, hconfined⟩ := h.inner hscope hnested hsolid
    obtain ⟨hbegin, hend, hrest, hsolid'⟩ := behind_node hnested hsolid
    have hback : Confined scope (next + opens (acts next)) ⟨stop, span.stop⟩ last :=
      hlast (Outline.nestedIn_node hnested).2.1 (Outline.solid_node hsolid).2.1 _ stop
        (Nat.lt_add_right _ hscope) hstop
    have hwhole := hconfined.seq hback hstart hstop
    exact ⟨span.stop, hend, hrest, hsolid',
      hwhole.widen (Span.encloses_iff.mpr ⟨hbegin, Nat.le_refl _⟩)⟩

/-- A node that is walked through. -/
theorem within (span : Span) :
    Recorded s scope walk acts (fun rest => .node span .passed (put .done) rest) values := by
  have hidle : ∀ forest, id forest = run s [] forest := fun _ => rfl
  have hnode := h.followed hidle List.filterMap_nil rfl fun _ _ _ stop _ _ =>
    Confined.nil _ _ ⟨stop, span.stop⟩
  simp only [List.append_nil] at hnode
  exact hnode

/-- A node that is walked through before variables are bound where it ends. -/
theorem ended (hbound : ∀ forest, bound forest = run s givens forest)
    (hgivens : ∀ a ∈ givens, a.GivenAt scope span.stop) :
    Recorded s scope (fun forest => bound (walk forest)) (fun next => acts next ++ givens)
      (fun rest => .node span .passed (put .done) rest) (values ++ []) := by
  apply h.followed hbound
  · exact List.filterMap_eq_nil_iff.mpr fun a ha => (hgivens a ha).value?_eq_none
  · exact opens_eq_zero fun a ha => (hgivens a ha).opens_eq_zero
  · intro _ _ next stop hscope hstop
    exact Confined.givens hgivens hscope hstop

/-- A value that is walked through before it is assigned to a variable. -/
theorem assigned (frame : Frame) (name : String) {value : Expr}
    (hbase : ∀ window, (put .done).nestedIn window = true → (put .done).solid = true →
      ∀ name r, base? value = some (name, r) → r < window.stop) :
    Recorded s scope
      (fun forest => (walk forest).bind scope name span.stop
        (s.infer (walk forest) scope frame value))
      (fun next => acts next ++ [.assigned scope frame name span.stop value])
      (fun rest => .node span .passed (put .done) rest) (values ++ [value]) := by
  have hbound : ∀ forest : Forest,
      forest.bind scope name span.stop (s.infer forest scope frame value) =
        run s [.assigned scope frame name span.stop value] forest := fun _ => rfl
  apply h.followed hbound rfl rfl
  intro hnested hsolid next stop hscope hstop
  exact Confined.assigned hscope hstop (Nat.le_refl _) (hbase span hnested hsolid)

end

section entered

variable {body : Nat → Forest → Forest} {inside : Nat → Nat → List Act} {kind : ScopeKind}
  {range : Span} {front : Nat → List Act} {bound : Nat → Forest → Forest} {outside : Nat}
  (h : ∀ inner, Recorded s inner (body inner) (inside inner) put values)
include h

variable (hbound : ∀ inner forest, bound inner forest = run s (front inner) forest)
include hbound

/-- A scope is opened, variables come into it, and its body is walked through. -/
theorem of_entered (hfront : ∀ inner, ∀ a ∈ front inner, a.Enters scope inner outside range.start)
    (hbodies : ∀ next rest, bodies scope next (put' rest) =
      bodies scope next (.node range (.opened kind) (put .done) rest))
    (hplaced : ∀ next, scope < next → Placed scope next put'
      (.opened scope kind range :: (front next ++ inside next (next + 1)))) :
    Recorded s scope
      (fun forest => body forest.next (bound forest.next (forest.nest scope kind range)))
      (fun next => .opened scope kind range :: (front next ++ inside next (next + 1)))
      put' values := by
  have hopens : ∀ inner, opens (front inner) = 0 := fun inner =>
    opens_eq_zero fun a ha => (hfront inner a ha).opens_eq_zero
  refine ⟨fun forest => ?_, fun next => ?_, fun next rest => ?_, hplaced⟩
  · have hnext : (bound forest.next (forest.nest scope kind range)).next = forest.next + 1 := by
      rw [hbound, next_run, hopens, next_nest, Nat.add_zero]
    rw [(h forest.next).walk_eq, hnext, hbound]
    exact (run_append s (front forest.next) _ (forest.nest scope kind range)).symm
  · have hvalues : (front next).filterMap Act.value? = [] :=
      List.filterMap_eq_nil_iff.mpr fun a ha => (hfront next a ha).value?_eq_none
    have hinside := (h next).values_eq (next + 1)
    simp only [List.filterMap_cons, Act.value?, List.filterMap_append, hvalues, List.nil_append]
    exact hinside
  · have hall : opens (.opened scope kind range :: (front next ++ inside next (next + 1))) =
        opens (inside next (next + 1)) + 1 := by
      rw [opens, opens_append, hopens, Nat.zero_add, Nat.add_comm]
      rfl
    rw [hbodies, bodies, (h next).bodies_eq, hall, List.length_cons, length_filterMap_opened?]
    simp only [List.filterMap_cons, Act.opened?, List.filterMap_append,
      filterMap_opened?_eq_nil (hopens next), List.nil_append]

/-- A scope whose range is a node of its own. -/
theorem entered
    (hfront : ∀ inner, ∀ a ∈ front inner, a.Enters scope inner range.start range.start) :
    Recorded s scope
      (fun forest => body forest.next (bound forest.next (forest.nest scope kind range)))
      (fun next => .opened scope kind range :: (front next ++ inside next (next + 1)))
      (fun rest => .node range (.opened kind) (put .done) rest) values := by
  apply of_entered h hbound hfront fun _ _ => rfl
  intro next hscope rest window hnested hsolid
  obtain ⟨stop, hstart, hstop, hconfined⟩ := (h next).inner (Nat.lt_succ_self next) hnested hsolid
  obtain ⟨hbegin, hend, hrest, hsolid'⟩ := behind_node hnested hsolid
  have hproper := (Outline.solid_node hsolid).1
  have hbody : Confined next (next + 1) ⟨window.start, range.stop⟩ (inside next (next + 1)) :=
    hconfined.widen (Span.encloses_iff.mpr ⟨hbegin, hstop⟩)
  exact ⟨range.stop, hend, hrest, hsolid',
    Confined.entered hscope (hfront next) hproper hbegin hbody⟩

/-- A scope whose range is a node within another one, outside of which variables may be taken
from. -/
theorem enteredWithin {span : Span}
    (hfront : ∀ inner, ∀ a ∈ front inner, a.Enters scope inner span.start range.start) :
    Recorded s scope
      (fun forest => body forest.next (bound forest.next (forest.nest scope kind range)))
      (fun next => .opened scope kind range :: (front next ++ inside next (next + 1)))
      (fun rest => .node span .passed (.node range (.opened kind) (put .done) .done) rest)
      values := by
  apply of_entered h hbound hfront fun _ _ => by simp only [bodies, List.append_nil]
  intro next hscope rest window hnested hsolid
  obtain ⟨hbegin, hend, hrest, hsolid'⟩ := behind_node hnested hsolid
  obtain ⟨_, hinner, _⟩ := Outline.nestedIn_node hnested
  obtain ⟨hproper, hinnerSolid, _⟩ := Outline.solid_node hsolid
  obtain ⟨stop, hstart, hstop, hconfined⟩ :=
    (h next).inner (Nat.lt_succ_self next) hinner hinnerSolid
  obtain ⟨hrange, _, _⟩ := Outline.nestedIn_node hinner
  obtain ⟨hstart', hstop'⟩ := Span.encloses_iff.mp hrange
  have hbody : Confined next (next + 1) ⟨window.start, span.stop⟩ (inside next (next + 1)) :=
    hconfined.widen (Span.encloses_iff.mpr ⟨by dsimp only; omega, by dsimp only; omega⟩)
  exact ⟨span.stop, hend, hrest, hsolid',
    Confined.entered hscope (hfront next) hproper (Nat.le_trans hbegin hstart') hbody⟩

end entered

end Recorded

/-! ## Section 2: The record of a program -/

/-- The variable that the type of an expression is read off stands before the end of the window. -/
theorem base_lt {e : Expr} {rest : Outline} {window : Span}
    (hnested : (Outline.ofExpr e rest).nestedIn window = true)
    (hsolid : (Outline.ofExpr e rest).solid = true) {name : String} {r : Nat}
    (h : base? e = some (name, r)) : r < window.stop := by
  match e with
  | .variable span _ =>
    cases h
    have hproper := (Outline.solid_node hsolid).1
    have hspan := Span.encloses_iff.mp (Outline.nestedIn_node hnested).1
    omega
  | .fetch span _ object _ | .methodCall span object _ _ | .group span object
  | .clone span object =>
    obtain ⟨hspan, hinner, _⟩ := Outline.nestedIn_node hnested
    have hlt : r < span.stop := base_lt hinner (Outline.solid_node hsolid).2.1 h
    exact Nat.lt_of_lt_of_le hlt (Span.encloses_iff.mp hspan).2

mutual

theorem recorded_expr (s : Setting) (scope : Nat) (frame : Frame) (e : Expr) :
    Recorded s scope (walkExpr s scope frame e) (actsByExpr s.reading scope frame e)
      (Outline.ofExpr e) (assignedByExpr e) := by
  cases e with
  | assign span target value =>
    have hvalue := (recorded_expr s scope frame value).behind target.span
      (Outline.ofExpr target .done)
    -- only a variable is given the type of the value
    cases target with
    | «variable» =>
      apply hvalue.assigned
      intro window hnested hsolid name r hbase
      exact base_lt (Outline.nestedIn_node hnested).2.2 (Outline.solid_node hsolid).2.2 hbase
    | _ =>
      exact hvalue.ended (bindTarget_eq_run s scope span.stop _) givenAt_of_mem_givenNames
  | closure span params captures braces body =>
    -- parameters are bound before the captures
    have hbound : ∀ inner forest, bindCaptures scope inner span.start braces.start captures
        (s.bindParams inner braces.start frame params forest) =
        run s (givenParams s.reading inner braces.start frame params ++
          takenCaptures scope inner span.start braces.start captures) forest := by
      intro inner forest
      rw [run_append, ← bindParams_eq_run, ← bindCaptures_eq_run]
    apply Recorded.enteredWithin (fun inner => recorded_stmts s inner frame body) hbound
    intro inner a ha
    rcases List.mem_append.mp ha with ha | ha
    · exact Or.inl (givenAt_of_mem_givenParams a ha)
    · obtain ⟨c, _, rfl⟩ := List.mem_map.mp ha
      exact Or.inr ⟨c.text, rfl⟩
  | arrow span params body =>
    exact Recorded.entered (fun inner => recorded_expr s inner frame body)
      (fun inner => bindParams_eq_run s inner span.start frame params)
      fun inner a ha => Or.inl (givenAt_of_mem_givenParams a ha)
  | group span inner => exact (recorded_expr s scope frame inner).within span
  | call span callee args =>
    exact ((recorded_exprs s scope frame args).behind callee.span _).within span
  | methodCall span object member args =>
    have hargs := (recorded_exprs s scope frame args).behind member.span
      (Outline.ofExpr member .done)
    exact ((recorded_expr s scope frame object).seq hargs).within span
  | staticCall span owner member args =>
    have hargs := (recorded_exprs s scope frame args).behind member.span
      (Outline.ofExpr member .done)
    exact (hargs.behind owner.span _).within span
  | new span of args =>
    exact ((recorded_exprs s scope frame args).behind of.span _).within span
  | array span style elements =>
    cases style with
    | listWord => exact Recorded.leaf fun _ _ => rfl
    | brackets | arrayWord => exact (recorded_elements s scope frame elements).within span
  | fetch span nullsafe object member =>
    exact ((recorded_expr s scope frame object).before member.span _).within span
  | clone span object => exact (recorded_expr s scope frame object).within span
  | operation span form operands =>
    exact (recorded_exprs s scope frame operands).within span
  | _ => exact Recorded.leaf fun _ _ => rfl

theorem recorded_exprs (s : Setting) (scope : Nat) (frame : Frame) (es : List Expr) :
    Recorded s scope (walkExprs s scope frame es) (actsByExprs s.reading scope frame es)
      (Outline.ofExprs es) (assignedByExprs es) := by
  cases es with
  | nil => exact Recorded.idle
  | cons e rest => exact (recorded_expr s scope frame e).seq (recorded_exprs s scope frame rest)

theorem recorded_elements (s : Setting) (scope : Nat) (frame : Frame) (es : List Element) :
    Recorded s scope (walkElements s scope frame es) (actsByElements s.reading scope frame es)
      (Outline.ofElements es) (assignedByElements es) := by
  cases es with
  | nil => exact Recorded.idle
  | cons e rest =>
    exact (recorded_element s scope frame e).seq (recorded_elements s scope frame rest)

theorem recorded_element (s : Setting) (scope : Nat) (frame : Frame) (e : Element) :
    Recorded s scope (walkElement s scope frame e) (actsByElement s.reading scope frame e)
      (Outline.ofElement e) (assignedByElement e) := by
  cases e with
  | item value => exact recorded_expr s scope frame value
  | pair key value =>
    exact (recorded_expr s scope frame key).seq (recorded_expr s scope frame value)
  | spread value => exact recorded_expr s scope frame value
  | hole => exact Recorded.idle

theorem recorded_stmt (s : Setting) (scope : Nat) (frame : Frame) (t : Stmt) :
    Recorded s scope (walkStmt s scope frame t) (actsByStmt s.reading scope frame t)
      (Outline.ofStmt t) (assignedByStmt t) := by
  cases t with
  | namespaceDecl span name braced body =>
    exact (recorded_stmts s scope none body).within span
  | classLike span head members =>
    exact (recorded_members s scope _ members).within span
  | function span name params braces body =>
    exact Recorded.enteredWithin (fun inner => recorded_stmts s inner frame body)
      (fun inner => bindParams_eq_run s inner braces.start frame params)
      fun inner a ha => Or.inl (givenAt_of_mem_givenParams a ha)
  | expression span value => exact (recorded_expr s scope frame value).within span
  | block span body => exact (recorded_stmts s scope frame body).within span
  | branch span condition yes no =>
    have hyes := (recorded_expr s scope frame condition).seq (recorded_stmts s scope frame yes)
    exact (hyes.seq (recorded_stmts s scope frame no)).within span
  | foreach span subject key value bodyStart body =>
    -- the variables of the loop are bound where its body begins
    have hbody := recorded_stmts s scope frame body
    cases key with
    | none =>
      have hloop := hbody.fronted ⟨bodyStart, span.stop⟩
        (bindTarget_eq_run s scope bodyStart value) givenAt_of_mem_givenNames
      exact ((recorded_expr s scope frame subject).seq
        (hloop.behind value.span _)).within span
    | some key =>
      have hbound : ∀ forest, bindTarget scope bodyStart value
          (bindTarget scope bodyStart key forest) =
          run s (givenNames scope bodyStart (targetNames key ++ targetNames value)) forest := by
        intro forest
        rw [givenNames_append, run_append, ← bindTarget_eq_run, ← bindTarget_eq_run]
      have hloop := (hbody.fronted ⟨bodyStart, span.stop⟩ hbound
        givenAt_of_mem_givenNames).behind value.span (Outline.ofExpr value .done)
      exact ((recorded_expr s scope frame subject).seq
        (hloop.behind key.span _)).within span
  | loop span kind header body footer =>
    have hbody := (recorded_exprs s scope frame header).seq (recorded_stmts s scope frame body)
    exact (hbody.seq (recorded_exprs s scope frame footer)).within span
  | evaluate span form values => exact (recorded_exprs s scope frame values).within span
  | attempt span body handlers cleanup =>
    have hbody := recorded_stmts s scope frame body
    have hhandlers := hbody.seq (recorded_stmts s scope frame handlers)
    exact (hhandlers.seq (recorded_stmts s scope frame cleanup)).within span
  | handler span hint bound braces body =>
    have hbody := recorded_stmts s scope frame body
    have hgivens : ∀ a ∈ givenException s.reading scope braces.start frame hint bound,
        a.GivenAt scope braces.start := givenAt_of_mem_givenException
    cases bound with
    | none => exact (hbody.fronted braces (fun _ => rfl) hgivens).within span
    | some name =>
      have hbound := bindException_eq_run s scope braces.start frame hint name
      exact (hbody.fronted braces hbound hgivens).within span
  | switch span subject cases =>
    exact ((recorded_expr s scope frame subject).seq (recorded_stmts s scope frame cases)).within
      span
  | switchCase span value body =>
    have hbody := recorded_stmts s scope frame body
    cases value with
    | none => exact hbody.within span
    | some value => exact (hbody.behind value.span _).within span
  | globals span named =>
    exact Recorded.skipped (bindNames_eq_run s scope span.stop _) givenAt_of_mem_givenNames
      fun _ _ => rfl
  | statics span names values =>
    exact Recorded.skipped (bindNames_eq_run s scope span.stop names) givenAt_of_mem_givenNames
      fun _ _ => rfl
  | _ => exact Recorded.leaf fun _ _ => rfl

theorem recorded_stmts (s : Setting) (scope : Nat) (frame : Frame) (ts : List Stmt) :
    Recorded s scope (walkStmts s scope frame ts) (actsIn s.reading scope frame ts)
      (Outline.ofStmts ts) (assignedIn ts) := by
  cases ts with
  | nil => exact Recorded.idle
  | cons t rest => exact (recorded_stmt s scope frame t).seq (recorded_stmts s scope frame rest)

theorem recorded_member (s : Setting) (scope : Nat) (frame : Frame) (m : Member) :
    Recorded s scope (walkMember s scope frame m) (actsByMember s.reading scope frame m)
      (Outline.ofMember m) (assignedByMember m) := by
  cases m with
  | method span modifiers name params returns braces body =>
    cases braces with
    | none => exact Recorded.leaf fun _ _ => rfl
    | some braces =>
      have hbound : ∀ inner forest, s.bindParams inner braces.start frame params
          (bindThis inner braces.start modifiers frame forest) =
          run s (givenThis inner braces.start modifiers frame ++
            givenParams s.reading inner braces.start frame params) forest := by
        intro inner forest
        rw [run_append, ← bindThis_eq_run, ← bindParams_eq_run]
      apply Recorded.enteredWithin (fun inner => recorded_stmts s inner frame body) hbound
      intro inner a ha
      rcases List.mem_append.mp ha with ha | ha
      · exact Or.inl (givenAt_of_mem_givenThis a ha)
      · exact Or.inl (givenAt_of_mem_givenParams a ha)
  | _ => exact Recorded.leaf fun _ _ => rfl

theorem recorded_members (s : Setting) (scope : Nat) (frame : Frame) (ms : List Member) :
    Recorded s scope (walkMembers s scope frame ms) (actsByMembers s.reading scope frame ms)
      (Outline.ofMembers ms) (assignedByMembers ms) := by
  cases ms with
  | nil => exact Recorded.idle
  | cons m rest =>
    exact (recorded_member s scope frame m).seq (recorded_members s scope frame rest)

end

/-- **The acts of a whole program**: nothing that is bound later is visible where an earlier act
asks. -/
theorem confined_actsIn {s : Setting} {program : List Stmt}
    (hnested : (Outline.ofStmts program .done).nestedIn ⟨0, Text.size s.text⟩ = true)
    (hsolid : (Outline.ofStmts program .done).solid = true) :
    ∃ window, Confined fileScope 1 window (actsIn s.reading fileScope none program 1) := by
  obtain ⟨stop, _, _, _, hconfined⟩ :=
    (recorded_stmts s fileScope none program).placed 1 Nat.one_pos _ _ hnested hsolid
  exact ⟨_, hconfined⟩

end CodeInsight.Scope
