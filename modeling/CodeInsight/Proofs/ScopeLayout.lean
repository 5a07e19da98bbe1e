import CodeInsight.Proofs.ForestShape
import CodeInsight.Proofs.WalkRecord
import CodeInsight.Grammar.Parse

/-!
# Where the scopes of a program lie

The walk through a program opens the scopes that its outline asks for: bindings and inferred types
have no part in it. In a well-nested program every scope gets exactly the range of its body, scopes
on different branches are disjoint, and so the innermost scope around an offset is unique and the
search finds it.

## Main Results

- `shape_run`: the scopes after some acts are those that the acts open
- `Ready.grew_open`: the scopes of a nested outline fit where they are put
- `scopes_of_nested_program`: ranges, disjointness and the innermost scope
-/

namespace CodeInsight.Forest

open Grammar Scope

variable {forest grown : Forest} {scope : Nat} {found : List Scope} {outer : Span} {offset i : Nat}

/-! ## Section 1: Shapes -/

/-- The scopes of a forest without their bindings. -/
def shape (forest : Forest) : List Scope := forest.scopes.map fun s => { s with bindings := [] }

theorem length_shape (forest : Forest) : forest.shape.length = forest.next := List.length_map _

theorem parentOf?_eq_shape (forest : Forest) (i : Nat) :
    forest.parentOf? i = forest.shape[i]?.bind Scope.parent := by
  unfold parentOf? shape
  rw [List.getElem?_map]
  cases forest.scopes[i]? <;> rfl

theorem rangeOf_eq_shape (forest : Forest) (i : Nat) :
    forest.rangeOf i = (forest.shape[i]?.map Scope.range).getD ⟨0, 0⟩ := by
  unfold rangeOf shape
  rw [List.getElem?_map]
  cases forest.scopes[i]? <;> rfl

theorem shape_bind (forest : Forest) (scope : Nat) (name : String) (offset : Nat)
    (type : InferredType) : (forest.bind scope name offset type).shape = forest.shape := by
  apply List.ext_getElem?
  intro i
  simp only [shape, Forest.bind, List.getElem?_map, List.getElem?_modify]
  by_cases h : scope = i <;> cases forest.scopes[i]? <;> simp [h]

theorem shape_nest (forest : Forest) (outer : Nat) (kind : ScopeKind) (range : Span) :
    (forest.nest outer kind range).shape =
      forest.shape ++ [⟨kind, fit (forest.rangeOf outer) range, some outer, []⟩] := by
  simp [shape, nest, rangeOf]

theorem next_congr {a b : Forest} (h : a.shape = b.shape) : a.next = b.next := by
  rw [← length_shape, ← length_shape, h]

theorem shape_nest_congr {a b : Forest} (h : a.shape = b.shape) (outer : Nat) (kind : ScopeKind)
    (range : Span) : (a.nest outer kind range).shape = (b.nest outer kind range).shape := by
  rw [shape_nest, shape_nest, rangeOf_eq_shape, rangeOf_eq_shape b, h]

/-- Being tidy is a matter of shape. -/
theorem Tidy.of_shape {a b : Forest} (h : a.shape = b.shape) (ha : Tidy a) : Tidy b := by
  have hparent : ∀ i, b.parentOf? i = a.parentOf? i := fun i => by
    rw [parentOf?_eq_shape, parentOf?_eq_shape a, h]
  have hrange : ∀ i, b.rangeOf i = a.rangeOf i := fun i => by
    rw [rangeOf_eq_shape, rangeOf_eq_shape a, h]
  have hnext : b.next = a.next := next_congr h.symm
  refine ⟨⟨?_, ?_, ?_, ?_, ?_, ?_⟩, ?_⟩ <;> simp only [hparent, hrange, hnext]
  · exact ha.nonempty
  · exact ha.file
  · exact ha.parent
  · exact ha.parent_lt
  · exact ha.inside
  · exact ha.proper
  · exact ha.siblings

/-! ## Section 2: Opening scopes -/

/-- Opens scopes one after the other, as they are asked for. -/
def openAll (found : List Scope) (forest : Forest) : Forest :=
  found.foldl (fun forest s => forest.nest (s.parent.getD fileScope) s.kind s.range) forest

theorem openAll_append (found more : List Scope) (forest : Forest) :
    openAll (found ++ more) forest = openAll more (openAll found forest) :=
  List.foldl_append

/-- The scopes after some acts are those that the acts open: bindings leave the shape alone. -/
theorem shape_run (s : Setting) {a b : Forest} (h : a.shape = b.shape) (acts : List Act) :
    (run s acts a).shape = (openAll (acts.filterMap Act.opened?) b).shape := by
  induction acts generalizing a b with
  | nil => exact h
  | cons act rest ih =>
    cases act with
    | opened outer kind range => exact ih (shape_nest_congr h outer kind range)
    | _ => exact ih ((shape_bind _ _ _ _ _).trans h)

/-! ## Section 3: The scopes of a nested outline -/

section

variable {span window : Span}

/-- A scope has room for further scopes in a window: the window lies within it, behind the scopes
that it already has. -/
structure Ready (forest : Forest) (scope : Nat) (window : Span) : Prop where
  lt : scope < forest.next
  inside : (forest.rangeOf scope).encloses window = true
  before : ∀ c, forest.parentOf? c = some scope → (forest.rangeOf c).stop ≤ window.start

/-- What opening scopes in a window makes of a forest: the scopes `found` are added, in the scope or
in one another, and those in the scope end within the window. -/
structure Grew (forest grown : Forest) (scope : Nat) (window : Span) (found : List Scope) :
    Prop where
  tidy : Tidy grown
  shape : grown.shape = forest.shape ++ found
  parents : ∀ c p, forest.next ≤ c → grown.parentOf? c = some p → p = scope ∨ forest.next ≤ p
  within : ∀ c, forest.next ≤ c → grown.parentOf? c = some scope →
    (grown.rangeOf c).stop ≤ window.stop

section

variable (h : Grew forest grown scope window found)
include h

theorem Grew.next_eq : grown.next = forest.next + found.length := by
  rw [← length_shape, ← length_shape, h.shape, List.length_append]

theorem Grew.parentOf?_eq (hi : i < forest.next) : grown.parentOf? i = forest.parentOf? i := by
  rw [← length_shape] at hi
  rw [parentOf?_eq_shape, parentOf?_eq_shape forest, h.shape, List.getElem?_append_left hi]

theorem Grew.rangeOf_eq (hi : i < forest.next) : grown.rangeOf i = forest.rangeOf i := by
  rw [← length_shape] at hi
  rw [rangeOf_eq_shape, rangeOf_eq_shape forest, h.shape, List.getElem?_append_left hi]

end

theorem Grew.refl (h : Tidy forest) (scope : Nat) (window : Span) :
    Grew forest forest scope window [] := by
  refine ⟨h, by simp, fun c p hc hp => ?_, fun c hc hp => ?_⟩
  · rw [parentOf?_eq_none_of_le hc] at hp
    cases hp
  · rw [parentOf?_eq_none_of_le hc] at hp
    cases hp

/-- After scopes have been opened in one window, there is room in the next one. -/
theorem Grew.ready (h : Grew forest grown scope span found) (hready : Ready forest scope outer)
    (hspan : outer.encloses span = true) (hproper : span.start ≤ span.stop) :
    Ready grown scope ⟨span.stop, outer.stop⟩ := by
  obtain ⟨hstart, hstop⟩ := Span.encloses_iff.mp hspan
  refine ⟨?_, ?_, fun c hc => ?_⟩
  · rw [h.next_eq]
    exact Nat.lt_add_right _ hready.lt
  · rw [h.rangeOf_eq hready.lt]
    have hinside := Span.encloses_iff.mp hready.inside
    exact Span.encloses_iff.mpr ⟨by dsimp only; omega, hinside.2⟩
  · dsimp only
    rcases Nat.lt_or_ge c forest.next with hlt | hge
    · rw [h.rangeOf_eq hlt]
      rw [h.parentOf?_eq hlt] at hc
      have hbefore := hready.before c hc
      omega
    · exact h.within c hge hc

theorem Grew.trans {middle : Forest} {more : List Scope} (h : Grew forest middle scope span found)
    (hmore : Grew middle grown scope ⟨span.stop, outer.stop⟩ more)
    (hspan : outer.encloses span = true) : Grew forest grown scope outer (found ++ more) := by
  obtain ⟨_, hstop⟩ := Span.encloses_iff.mp hspan
  have hnext := h.next_eq
  refine ⟨hmore.tidy, ?_, fun c p hc hp => ?_, fun c hc hp => ?_⟩
  · rw [hmore.shape, h.shape, List.append_assoc]
  · rcases Nat.lt_or_ge c middle.next with hlt | hge
    · rw [hmore.parentOf?_eq hlt] at hp
      exact h.parents c p hc hp
    · rcases hmore.parents c p hge hp with rfl | hp
      · exact Or.inl rfl
      · exact Or.inr (by omega)
  · rcases Nat.lt_or_ge c middle.next with hlt | hge
    · rw [hmore.parentOf?_eq hlt] at hp
      rw [hmore.rangeOf_eq hlt]
      exact Nat.le_trans (h.within c hc hp) hstop
    · exact hmore.within c hge hp

variable (htidy : Tidy forest)
include htidy

/-- **A scope opened where there is room** gets its span uncut and keeps the forest tidy. -/
theorem Ready.nest (h : Ready forest scope span) (hproper : span.start ≤ span.stop)
    (kind : ScopeKind) :
    Tidy (forest.nest scope kind span) ∧
      (forest.nest scope kind span).rangeOf forest.next = span ∧
      (forest.nest scope kind span).shape = forest.shape ++ [⟨kind, span, some scope, []⟩] := by
  have hfit : fit (forest.rangeOf scope) span = span := fit_eq_self h.inside hproper
  have hrange : (forest.nest scope kind span).rangeOf forest.next = span := by
    rw [rangeOf_nest_self, hfit]
  refine ⟨⟨htidy.toWellFormed.nest h.lt kind span, ?_⟩, hrange, by rw [shape_nest, hfit]⟩
  intro i j p hij hi hj
  rw [parentOf?_nest] at hi hj
  by_cases hnew : j = forest.next
  · -- the new scope comes behind the other children of its parent
    rw [if_neg (by omega)] at hi
    rw [if_pos hnew] at hj
    cases hj
    rw [hnew, hrange, rangeOf_nest_of_lt _ _ _ _ (lt_next_of_parentOf? hi)]
    exact h.before i hi
  · rw [if_neg hnew] at hj
    have hjlt := lt_next_of_parentOf? hj
    rw [if_neg (by omega)] at hi
    rw [rangeOf_nest_of_lt _ _ _ _ hjlt, rangeOf_nest_of_lt _ _ _ _ (lt_next_of_parentOf? hi)]
    exact htidy.siblings i j p hij hi hj

/-- A new scope and what is opened in it. -/
theorem Grew.opened (hready : Ready forest scope span) (hproper : span.start ≤ span.stop)
    {kind : ScopeKind} (h : Grew (forest.nest scope kind span) grown forest.next span found) :
    Grew forest grown scope span (⟨kind, span, some scope, []⟩ :: found) := by
  obtain ⟨_, hrange, hshape⟩ := hready.nest htidy hproper kind
  have hnext := next_nest forest scope kind span
  have hlt : forest.next < (forest.nest scope kind span).next := by omega
  refine ⟨h.tidy, ?_, fun c p hc hp => ?_, fun c hc hp => ?_⟩
  · rw [h.shape, hshape, List.append_assoc, List.singleton_append]
  · rcases Nat.eq_or_lt_of_le hc with rfl | hgt
    · rw [h.parentOf?_eq hlt, parentOf?_nest, if_pos rfl] at hp
      exact Or.inl (Option.some.inj hp).symm
    · rcases h.parents c p (by omega) hp with rfl | hp
      · exact Or.inr (Nat.le_refl _)
      · exact Or.inr (by omega)
  · rcases Nat.eq_or_lt_of_le hc with rfl | hgt
    · exact Nat.le_of_eq (by rw [h.rangeOf_eq hlt, hrange])
    · -- a scope opened later lies in the new one or deeper, not in `scope`
      have hscope := hready.lt
      rcases h.parents c scope (by omega) hp with heq | hge
      · omega
      · omega

/-- The new scope has room for what lies within its span. -/
theorem Ready.inner (h : Ready forest scope span) (hproper : span.start ≤ span.stop)
    (kind : ScopeKind) : Ready (forest.nest scope kind span) forest.next span := by
  obtain ⟨hgrown, hrange, _⟩ := h.nest htidy hproper kind
  have hnext := next_nest forest scope kind span
  refine ⟨by omega, by rw [hrange]; exact Span.encloses_refl span, fun c hc => ?_⟩
  have hlt := lt_next_of_parentOf? hc
  have hgt := hgrown.parent_lt c _ hc
  omega

/-- **The scopes of a nested outline fit.** Where a scope has room for the outline, its scopes are
opened with exactly the spans that it names. -/
theorem Ready.grew_open {o : Outline} (hready : Ready forest scope window)
    (ho : o.nestedIn window = true) :
    Grew forest (openAll (bodies scope forest.next o) forest) scope window
      (bodies scope forest.next o) := by
  induction o generalizing forest scope window with
  | done => exact Grew.refl htidy scope window
  | node span visit inner rest ihInner ihRest =>
    obtain ⟨hspan, hinner, hrest⟩ := Outline.nestedIn_node ho
    have hproper := Outline.start_le_stop hinner
    have hready' : Ready forest scope span :=
      ⟨hready.lt, Span.encloses_trans hready.inside hspan, fun c hc =>
        Nat.le_trans (hready.before c hc) (Span.encloses_iff.mp hspan).1⟩
    cases visit with
    | skipped =>
      have hnone := Grew.refl htidy scope span
      exact hnone.trans (ihRest htidy (hnone.ready hready hspan hproper) hrest) hspan
    -- what is within comes before what follows, and takes the first numbers
    | passed =>
      have hfirst := ihInner htidy hready' hinner
      have hsecond := ihRest hfirst.tidy (hfirst.ready hready hspan hproper) hrest
      rw [hfirst.next_eq] at hsecond
      rw [bodies, openAll_append]
      exact hfirst.trans hsecond hspan
    -- a new scope takes the next number, and what is within comes into it
    | opened kind =>
      have hnew := (hready'.nest htidy hproper kind).1
      have hbody := ihInner hnew (hready'.inner htidy hproper kind) hinner
      rw [next_nest] at hbody
      have hfirst := hbody.opened htidy hready' hproper
      have hsecond := ihRest hfirst.tidy (hfirst.ready hready hspan hproper) hrest
      rw [hfirst.next_eq] at hsecond
      rw [bodies, openAll_append]
      exact hfirst.trans hsecond hspan

end

/-! ## Section 4: The scopes of a nested program -/

/-- A scope holds an offset, and every other scope that does lies around it. -/
def Innermost (forest : Forest) (offset scope : Nat) : Prop :=
  scope < forest.next ∧ (forest.rangeOf scope).contains offset = true ∧
    ∀ i, i < forest.next → (forest.rangeOf i).contains offset = true → i ∈ forest.chain scope

/-- The search finds the one innermost scope around an offset of the file. -/
theorem Tidy.innermost_iff (h : Tidy forest)
    (hfile : (forest.rangeOf fileScope).contains offset = true) (scope : Nat) :
    Innermost forest offset scope ↔ scope = forest.scopeAt offset := by
  have hreached := h.toWellFormed.scopeAt_spec offset
  have hfound : (forest.rangeOf (forest.scopeAt offset)).contains offset = true := by
    by_cases hzero : forest.scopeAt offset = fileScope
    · rwa [hzero]
    · exact hreached.holds _ (mem_chain_self forest _) hzero
  constructor
  · rintro ⟨hlt, hcontains, hall⟩
    have hle := h.toWellFormed.le_of_mem_chain (h.mem_chain_scopeAt hlt hcontains)
    have hge := h.toWellFormed.le_of_mem_chain (hall _ hreached.lt hfound)
    exact Nat.le_antisymm hle hge
  · rintro rfl
    exact ⟨hreached.lt, hfound, fun i hi hcontains => h.mem_chain_scopeAt hi hcontains⟩

theorem Tidy.ofSize (size : Nat) : Tidy (Forest.ofSize size) := by
  refine ⟨WellFormed.ofSize size, fun i j p _ hi => ?_⟩
  have hpos := lt_next_of_parentOf? hi
  obtain rfl : i = fileScope := Nat.lt_one_iff.mp hpos
  rw [(WellFormed.ofSize size).file] at hi
  cases hi

theorem Ready.ofSize (size : Nat) : Ready (Forest.ofSize size) fileScope ⟨0, size⟩ := by
  refine ⟨Nat.one_pos, Span.encloses_refl _, fun c hc => ?_⟩
  obtain rfl : c = fileScope := Nat.lt_one_iff.mp (lt_next_of_parentOf? hc)
  rw [(WellFormed.ofSize size).file] at hc
  cases hc

/-- A nested program makes a tidy forest, with a scope for every body. -/
theorem grew_ofProgram {s : Setting} {program : List Stmt}
    (h : (Outline.ofStmts program .done).nestedIn ⟨0, Text.size s.text⟩ = true) :
    Tidy (ofProgram s program) ∧
      (ofProgram s program).shape =
        ⟨.file, ⟨0, Text.size s.text⟩, none, []⟩ ::
          bodies fileScope 1 (Outline.ofStmts program .done) := by
  have hrecorded := recorded_stmts s fileScope none program
  have hwalk : (ofProgram s program).shape =
      (openAll (bodies fileScope 1 (Outline.ofStmts program .done))
        (Forest.ofSize (Text.size s.text))).shape := by
    rw [hrecorded.bodies_eq, ← shape_run s rfl]
    exact congrArg shape (hrecorded.walk_eq _)
  have hgrew := (Ready.ofSize (Text.size s.text)).grew_open (Tidy.ofSize _) h
  exact ⟨hgrew.tidy.of_shape hwalk.symm, hwalk.trans hgrew.shape⟩

/-- The scopes of a file of some size lie where the outline of its program asks for them. -/
structure LaidOut (forest : Forest) (size : Nat) (o : Outline) : Prop where
  /-- Every scope has exactly the span of its body, and the scope around the body as its parent. -/
  spans : forest.shape = ⟨.file, ⟨0, size⟩, none, []⟩ :: bodies fileScope 1 o
  /-- Scopes of which neither is around the other do not overlap. -/
  apart : ∀ i j, i < forest.next → j < forest.next → i ∉ forest.chain j → j ∉ forest.chain i →
    (forest.rangeOf i).overlaps (forest.rangeOf j) = false
  /-- Every scope that holds an offset is on the chain of the one that the search finds. -/
  holders : ∀ offset i, i < forest.next → (forest.rangeOf i).contains offset = true →
    i ∈ forest.chain (forest.scopeAt offset)
  /-- For an offset of the file, that one is the only innermost scope. -/
  innermost : ∀ offset, offset < size → ∀ scope,
    Innermost forest offset scope ↔ scope = forest.scopeAt offset
  /-- Behind the end, it is the file. -/
  outside : ∀ offset, size ≤ offset → forest.scopeAt offset = fileScope

theorem Tidy.scopeAt_outside (h : Tidy forest)
    (hoffset : (forest.rangeOf fileScope).stop ≤ offset) :
    forest.scopeAt offset = fileScope := by
  have hreached := h.toWellFormed.scopeAt_spec offset
  by_contra hne
  -- the scope found would hold the offset, and so would the file around it
  have hholds := hreached.holds _ (mem_chain_self forest _) hne
  have hfile := h.toWellFormed.encloses_of_mem_chain (h.toWellFormed.file_mem_chain hreached.lt)
  have hcontains := Span.contains_iff.mp (Span.contains_of_encloses hfile hholds)
  omega

/-- **The scopes of a nested program** lie where its outline asks for them: each with exactly the
span of its body, disjoint unless one is around the other, and found from every offset within
them. -/
theorem scopes_of_nested_program (s : Setting) (program : List Stmt)
    (h : (Outline.ofStmts program .done).nestedIn ⟨0, Text.size s.text⟩ = true) :
    LaidOut (ofProgram s program) (Text.size s.text) (Outline.ofStmts program .done) := by
  obtain ⟨htidy, hshape⟩ := grew_ofProgram h
  have hfile : (ofProgram s program).rangeOf fileScope = ⟨0, Text.size s.text⟩ := by
    rw [rangeOf_eq_shape, hshape]
    rfl
  refine ⟨hshape, fun i j hi hj hij hji => htidy.overlaps_eq_false hi hj hij hji,
    fun offset i hi hcontains => htidy.mem_chain_scopeAt hi hcontains, fun offset hoffset => ?_,
    fun offset hoffset => ?_⟩
  · refine htidy.innermost_iff ?_
    rw [hfile, Span.contains_iff]
    exact ⟨Nat.zero_le _, hoffset⟩
  · refine htidy.scopeAt_outside ?_
    rw [hfile]
    exact hoffset

/-- A function with a closure that holds an arrow function, and an arrow function behind it. -/
def closuresText : Text :=
  "<?php function f() \x7b $g = function () \x7b return fn() => 1; \x7d; \x7d $h = fn() => 2;"
    |>.toList

def closuresProgram : List Stmt := (Grammar.parse closuresText).toOption.getD []

def closuresSetting : Setting :=
  ⟨fun _ => none, FileModel.ofProgram "f.php" closuresText closuresProgram, closuresText⟩

theorem scopes_of_closures :
    (Outline.ofStmts closuresProgram .done).nestedIn ⟨0, Text.size closuresSetting.text⟩ = true ∧
      (ofProgram closuresSetting closuresProgram).shape =
        [⟨.file, ⟨0, 78⟩, none, []⟩, ⟨.function, ⟨19, 62⟩, some 0, []⟩,
          ⟨.closure, ⟨38, 59⟩, some 1, []⟩, ⟨.arrowFunction, ⟨47, 56⟩, some 2, []⟩,
          ⟨.arrowFunction, ⟨68, 77⟩, some 0, []⟩] ∧
      Innermost (ofProgram closuresSetting closuresProgram) 50 3 := by
  have hnested : (Outline.ofStmts closuresProgram .done).nestedIn
      ⟨0, Text.size closuresSetting.text⟩ = true := by
    decide +kernel
  have hlaid := scopes_of_nested_program closuresSetting closuresProgram hnested
  have hfound : 3 = (ofProgram closuresSetting closuresProgram).scopeAt 50 := by decide +kernel
  exact ⟨hnested, by decide +kernel, (hlaid.innermost 50 (by decide +kernel) 3).mpr hfound⟩

end CodeInsight.Forest
