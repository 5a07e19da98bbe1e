import CodeInsight.Proofs.WalkRecord
import CodeInsight.Grammar.Parse

/-!
# What a right-hand side sees

The type of an assigned value is inferred on a forest that is only half built, and so is the type of
a variable that a closure takes from outside. In a well-nested program whose nodes are not empty
this makes no difference: whatever is bound later is not visible where the value or the closure
stands, so the finished forest would have told the same type.

## Main Results

- `lookup_apply`: what one more call changes in what is seen elsewhere
- `lookup_run`: what the acts of the rest of a walk change
- `run_eq_replay`: acts that see what a forest tells
- `values_see_what_precedes`: every inference of a walk against the finished forest
-/

namespace CodeInsight

variable {forest : Forest} {s : Setting} {acts : List Act} {act : Act} {scope : Nat}

namespace Forest

/-! ## Section 1: Calls that are not seen -/

theorem filter_insertBinding {b : Binding} {r : Nat} (h : r < b.offset) (bindings : List Binding) :
    (insertBinding b bindings).filter (fun k => k.offset ≤ r) =
      bindings.filter fun k => k.offset ≤ r := by
  have hb : ¬ b.offset ≤ r := Nat.not_le_of_lt h
  unfold insertBinding
  rw [List.filter_append, List.filter_cons_of_neg (by simpa using hb), ← List.filter_append,
    List.takeWhile_append_dropWhile]

theorem bindingsAt_bind {t o i r : Nat} (h : t = i → r < o) (name : String) (type : InferredType) :
    (forest.bind t name o type).bindingsAt i r = forest.bindingsAt i r := by
  unfold bindingsAt bind
  rw [List.getElem?_modify]
  by_cases hi : t = i
  · cases forest.scopes[i]? with
    | none => simp
    | some scope => simpa [hi] using filter_insertBinding (h hi) scope.bindings
  · simp [hi]

theorem bindingsAt_nest (forest : Forest) (outer : Nat) (kind : ScopeKind) (range : Span)
    (i r : Nat) : (forest.nest outer kind range).bindingsAt i r = forest.bindingsAt i r :=
  congrArg (List.filter _) (bindingsOf_nest forest outer kind range i)

theorem parentOf?_apply {i : Nat} (h : i < forest.next) (call : Call) :
    (forest.apply call).parentOf? i = forest.parentOf? i := by
  cases call with
  | nest outer kind range => rw [apply, parentOf?_nest, if_neg (Nat.ne_of_lt h)]
  | bind scope name offset type => exact parentOf?_bind forest scope name offset type i

theorem WellFormed.chainFrom_apply (h : WellFormed forest) (call : Call) (fuel : Nat) {q : Nat}
    (hq : q < forest.next) : (forest.apply call).chainFrom fuel q = forest.chainFrom fuel q := by
  induction fuel generalizing q with
  | zero => rfl
  | succ fuel ih =>
    rw [chainFrom_succ, chainFrom_succ, parentOf?_apply hq]
    cases hparent : forest.parentOf? q with
    | none => rfl
    | some outer =>
      have hlt := h.parent_lt q outer hparent
      exact congrArg (q :: ·) (ih (Nat.lt_trans hlt hq))

/-- **A call is not seen** in a scope at an offset if it binds in scopes opened after it only, or
from a later offset on. -/
theorem lookup_apply (h : WellFormed forest) {call : Call} {q r : Nat} (hq : q < forest.next)
    (hcall : ∀ t name o type, call = .bind t name o type → t ≤ q → r < o) (name : String) :
    (forest.apply call).lookup q name r = forest.lookup q name r := by
  have hchain : (forest.apply call).chain q = forest.chain q := h.chainFrom_apply call (q + 1) hq
  -- the way out from a scope leads through scopes that were opened before it
  have hsame : ∀ i ∈ forest.chain q,
      (forest.apply call).bindingIn? i name r = forest.bindingIn? i name r := by
    intro i hi
    have hle := h.le_of_mem_chain hi
    unfold bindingIn?
    cases call with
    | nest outer kind range => rw [apply, bindingsAt_nest]
    | bind t name' o type =>
      have hlater : t = i → r < o := by
        rintro rfl
        exact hcall t name' o type rfl hle
      rw [apply, bindingsAt_bind hlater]
  unfold lookup
  rw [hchain, ← List.head?_filterMap, ← List.head?_filterMap, List.filterMap_congr hsame]

end Forest

namespace Scope

open Grammar Forest

/-! ## Section 2: The rest of a walk -/

theorem binds_of_call {t o : Nat} {name : String} {type : InferredType}
    (h : act.call s forest = .bind t name o type) : act.Binds t o := by
  cases act with
  | opened outer kind range => cases h
  | _ =>
    cases h
    exact ⟨rfl, rfl⟩

theorem wellFormed_act (h : WellFormed forest) (hscopes : ∀ i ∈ act.scopes, i < forest.next) :
    WellFormed (forest.apply (act.call s forest)) := by
  cases act with
  | opened outer kind range => exact h.nest (hscopes outer List.mem_cons_self) kind range
  | _ => exact h.bind _ _ _ _

theorem wellFormed_run (h : WellFormed forest) (hgrounded : Grounded forest.next acts) :
    WellFormed (run s acts forest) := by
  induction acts generalizing forest with
  | nil => exact h
  | cons act rest ih =>
    obtain ⟨hscopes, hrest⟩ := hgrounded
    rw [← next_act s act forest] at hrest
    exact ih (wellFormed_act h hscopes) hrest

/-- **What is seen stays** if nothing that the rest of a walk binds is visible there. -/
theorem lookup_run {q r : Nat} (h : WellFormed forest) (hgrounded : Grounded forest.next acts)
    (hq : q < forest.next) (hacts : ∀ a ∈ acts, ∀ t o, a.Binds t o → t ≤ q → r < o)
    (name : String) :
    (run s acts forest).lookup q name r = forest.lookup q name r := by
  induction acts generalizing forest with
  | nil => rfl
  | cons act rest ih =>
    obtain ⟨hscopes, hrest⟩ := hgrounded
    have hnext := next_act s act forest
    rw [← hnext] at hrest
    calc (run s rest (forest.apply (act.call s forest))).lookup q name r
        = (forest.apply (act.call s forest)).lookup q name r :=
          ih (wellFormed_act h hscopes) hrest (by omega)
            fun a ha => hacts a (List.mem_cons_of_mem _ ha)
      _ = forest.lookup q name r :=
          lookup_apply h hq (fun t name o type hcall =>
            hacts act List.mem_cons_self t o (binds_of_call hcall)) name

theorem infer_eq_of_base (s : Setting) {a b : Forest} (frame : Frame) (e : Expr)
    (h : ∀ name r, base? e = some (name, r) → a.lookup scope name r = b.lookup scope name r) :
    s.infer a scope frame e = s.infer b scope frame e := by
  match e with
  | .variable span name => exact h name span.start rfl
  | .fetch _ _ object member =>
    exact congrArg (s.fetched · member) (infer_eq_of_base s frame object h)
  | .methodCall _ object member _ =>
    exact congrArg (s.called · member) (infer_eq_of_base s frame object h)
  | .group _ inner => exact infer_eq_of_base s frame inner h
  | .clone _ object => exact infer_eq_of_base s frame object h
  | .literal _ kind => cases kind <;> rfl
  | .array _ style _ => cases style <;> rfl
  | .name _ _ | .classWord _ _ | .assign _ _ _ | .closure _ _ _ _ _ | .arrow _ _ _
  | .call _ _ _ | .staticCall _ _ _ _ | .new _ _ _ | .anonymousClass _ _ _ | .operation _ _ _
  | .unscanned _ _ _ => rfl

/-- Acts that are confined to a window, seen from one of them: it comes to the same call on the
forest that it finds and on any later one. -/
theorem Confined.call_eq {window : Span} {before later : List Act} (hwf : WellFormed forest)
    (h : Confined scope forest.next window (before ++ act :: later)) :
    act.call s (run s before forest) = act.call s (run s (before ++ act :: later) forest) := by
  obtain ⟨hbefore, hafter⟩ := grounded_append.mp h.grounded
  rw [← next_run s before forest] at hafter
  have hlater := (List.pairwise_append.mp h.later).2.1
  have hself := h.self act (by simp)
  -- what an act asks for is seen by all that follows, itself included
  have hseen : ∀ q r, act.Asks q r → q ∈ act.scopes → ∀ name,
      (run s (before ++ act :: later) forest).lookup q name r =
        (run s before forest).lookup q name r := by
    intro q r hask hq name
    rw [run_append]
    apply lookup_run (wellFormed_run hwf hbefore) hafter (hafter.1 q hq)
    intro b hb t o hbind
    rcases List.mem_cons.mp hb with rfl | hb
    · exact hself q r t o hask hbind
    · exact (List.pairwise_cons.mp hlater).1 b hb q r t o hask hbind
  cases act with
  | opened outer kind range => rfl
  | given scope name offset type => rfl
  | assigned scope frame name offset value =>
    apply congrArg (Call.bind scope name offset)
    apply infer_eq_of_base
    intro name r hbase
    exact (hseen scope r ⟨rfl, name, hbase⟩ List.mem_cons_self name).symm
  | captured outer inner name outside offset =>
    apply congrArg (Call.bind inner name offset)
    exact (hseen outer outside ⟨rfl, rfl⟩ List.mem_cons_self name).symm

/-- Acts that see on the way what a forest tells are the calls that this forest tells. -/
theorem run_eq_replay {told : Forest} {start : Forest}
    (h : ∀ before act after, acts = before ++ act :: after →
      act.call s (run s before start) = act.call s told) :
    run s acts start = replay (acts.map (Act.call s told)) start := by
  induction acts generalizing start with
  | nil => rfl
  | cons act rest ih =>
    have hfirst : act.call s start = act.call s told := h [] act rest rfl
    have hrest : ∀ before later after, rest = before ++ later :: after →
        later.call s (run s before (start.apply (act.call s start))) = later.call s told := by
      intro before later after hsplit
      exact h (act :: before) later after (by rw [hsplit]; rfl)
    calc run s (act :: rest) start
        = run s rest (start.apply (act.call s start)) := rfl
      _ = replay (rest.map (Act.call s told)) (start.apply (act.call s start)) := ih hrest
      _ = replay ((act :: rest).map (Act.call s told)) start := by
          rw [hfirst]
          rfl

/-! ## Section 3: Every inference of a walk -/

/-- The acts of a walk through a program see what they would see on the finished forest. -/
structure Foreseen (s : Setting) (program : List Stmt) (start : Forest) (acts : List Act) :
    Prop where
  /-- The acts make the forest of the program. -/
  walk : ofProgram s program = run s acts start
  /-- They assign every value that the program assigns to a variable where the walk comes by. -/
  values : acts.filterMap Act.value? = assignedIn program
  /-- A variable is assigned the type that the finished forest tells for the value. -/
  assigned : ∀ before scope frame name offset value after,
    acts = before ++ .assigned scope frame name offset value :: after →
      s.infer (run s before start) scope frame value =
        s.infer (ofProgram s program) scope frame value
  /-- A variable of a closure gets the type that it has outside in the finished forest. -/
  captured : ∀ before outer inner name outside offset after,
    acts = before ++ .captured outer inner name outside offset :: after →
      (run s before start).lookup outer name outside =
        (ofProgram s program).lookup outer name outside
  /-- The bindings of the finished forest have the types that it tells itself. -/
  rebuilt : ofProgram s program = replay (acts.map (Act.call s (ofProgram s program))) start
  /-- What an act has seen does not change at any later moment of the walk. -/
  settled : ∀ before act later rest, acts = before ++ act :: later ++ rest →
    act.call s (run s before start) = act.call s (run s (before ++ act :: later) start)

/-- **Right-hand sides see what precedes them.** In a well-nested program without empty nodes, every
type that is inferred for an assigned value on the way is the one that the finished forest tells,
and so is every type that a closure takes from outside. -/
theorem values_see_what_precedes (s : Setting) (program : List Stmt)
    (hnested : (Outline.ofStmts program .done).nestedIn ⟨0, Text.size s.text⟩ = true)
    (hsolid : (Outline.ofStmts program .done).solid = true) :
    Foreseen s program (ofSize (Text.size s.text)) (actsIn s.reading fileScope none program 1) := by
  have hrecorded := recorded_stmts s fileScope none program
  have hwalk : ofProgram s program =
      run s (actsIn s.reading fileScope none program 1) (ofSize (Text.size s.text)) :=
    hrecorded.walk_eq (ofSize (Text.size s.text))
  obtain ⟨window, hconfined⟩ := confined_actsIn hnested hsolid
  have hsettled : ∀ before act later rest,
      actsIn s.reading fileScope none program 1 = before ++ act :: later ++ rest →
      act.call s (run s before (ofSize (Text.size s.text))) =
        act.call s (run s (before ++ act :: later) (ofSize (Text.size s.text))) := by
    intro before act later rest hacts
    rw [hacts] at hconfined
    exact Confined.call_eq (WellFormed.ofSize _) hconfined.of_append
  -- the last of the later moments is the end of the walk
  have hfinished : ∀ before act after,
      actsIn s.reading fileScope none program 1 = before ++ act :: after →
      act.call s (run s before (ofSize (Text.size s.text))) =
        act.call s (ofProgram s program) := by
    intro before act after hacts
    rw [hwalk, hacts]
    exact hsettled before act after [] (by rw [hacts, List.append_nil])
  refine ⟨hwalk, hrecorded.values_eq 1, ?_, ?_, ?_, hsettled⟩
  · intro before scope frame name offset value after hacts
    exact (Call.bind.inj (hfinished before _ after hacts)).2.2.2
  · intro before outer inner name outside offset after hacts
    exact (Call.bind.inj (hfinished before _ after hacts)).2.2.2
  · rw [← run_eq_replay hfinished]
    exact hwalk

/-- A variable that a closure takes along before it gets another value. -/
def capturingText : Text :=
  "<?php $a = new A; $f = function () use ($a) \x7b $b = $a; \x7d; $a = 1;".toList

def capturingProgram : List Stmt := (Grammar.parse capturingText).toOption.getD []

def capturingSetting : Setting :=
  ⟨fun _ => none, FileModel.ofProgram "f.php" capturingText capturingProgram, capturingText⟩

theorem values_see_what_a_closure_takes :
    ((ofProgram capturingSetting capturingProgram).lookup 1 "$b" 55,
        (ofProgram capturingSetting capturingProgram).lookup 0 "$a" 66) =
      (.ofClass ⟨"", "A"⟩, .scalar "int") ∧
      Foreseen capturingSetting capturingProgram (ofSize (Text.size capturingText))
        (actsIn capturingSetting.reading fileScope none capturingProgram 1) :=
  ⟨by decide +kernel,
    values_see_what_precedes capturingSetting capturingProgram (by decide +kernel)
      (by decide +kernel)⟩

end Scope

end CodeInsight
