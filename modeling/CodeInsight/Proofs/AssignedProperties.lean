import CodeInsight.Proofs.DeclarationTokens
import CodeInsight.Proofs.FirstOfEach

/-!
# Properties assigned in methods

A method may give its object a property that the class does not declare, by assigning to it through
`$this`. The search for such assignments enters blocks, branches, `foreach` loops and exception
handlers, one within the other to any depth, and does not enter loops of other kinds. Every property
that it comes to is recorded once, with the type of the assignment that stands first in the text.

## Main Results

- `Extract.Inside`: a statement within others that may be entered
- `Extract.Assigns`: a statement in a method that assigns a property
- `Extract.reachedIn`, `Extract.mem_reached_iff`: the statements that the search comes to
- `Extract.successive_reached`: they are found in source order
- `Extract.first_assignments_recorded`: which properties are recorded, and with which type
-/

namespace CodeInsight.Extract

open Grammar Outline

variable {all : List Member} {body : List Stmt} {loops : Bool} {s u : Stmt}

/-! ## Section 1: Statements within statements -/

/-- The statements directly within a block, a branch, a `foreach` loop or an exception handler. With
`loops`, those within other loops too. -/
def contents (loops : Bool) : Stmt → List Stmt
  | .block _ body => body
  | .branch _ _ yes no => yes ++ no
  | .foreach _ _ _ _ _ body => body
  | .loop _ _ _ body _ => if loops then body else []
  | .attempt _ body handlers cleanup => body ++ handlers ++ cleanup
  | .handler _ _ _ _ body => body
  | _ => []

/-- A statement is another one or stands in it, to any depth. -/
inductive Inside (loops : Bool) : Stmt → Stmt → Prop
  | self (s : Stmt) : Inside loops s s
  | enter {s t u : Stmt} (ht : t ∈ contents loops s) (hu : Inside loops t u) : Inside loops s u

def isExpression : Stmt → Bool
  | .expression _ _ => true
  | _ => false

mutual

/-- The expression statements in a statement, to any depth and in order. -/
def reached (loops : Bool) : Stmt → List Stmt
  | .expression span e => [.expression span e]
  | .block _ body => reachedIn loops body
  | .branch _ _ yes no => reachedIn loops yes ++ reachedIn loops no
  | .foreach _ _ _ _ _ body => reachedIn loops body
  | .loop _ _ _ body _ => if loops then reachedIn loops body else []
  | .attempt _ body handlers cleanup =>
    reachedIn loops body ++ reachedIn loops handlers ++ reachedIn loops cleanup
  | .handler _ _ _ _ body => reachedIn loops body
  | _ => []

/-- The expression statements in a list of statements. -/
def reachedIn (loops : Bool) : List Stmt → List Stmt
  | [] => []
  | s :: rest => reached loops s ++ reachedIn loops rest

end

/-- The assignment of an expression statement. -/
def found? : Stmt → Option (String × Expr)
  | .expression _ e => assignment? e
  | _ => none

mutual

/-- The search for assignments comes to expression statements, and leaves out loops but
`foreach`. -/
theorem assignments_eq : ∀ s : Stmt, assignments s = (reached false s).filterMap found?
  | .expression _ e => by
    cases h : assignment? e <;> simp [assignments, reached, found?, h]
  | .block _ body | .foreach _ _ _ _ _ body | .handler _ _ _ _ body => assignmentsIn_eq body
  | .branch _ _ yes no => by
    rw [assignments, reached, List.filterMap_append, assignmentsIn_eq yes, assignmentsIn_eq no]
  | .attempt _ body handlers cleanup => by
    rw [assignments, reached, List.filterMap_append, List.filterMap_append, assignmentsIn_eq body,
      assignmentsIn_eq handlers, assignmentsIn_eq cleanup]
  | .openTag _ | .declare _ _ _ | .namespaceDecl _ _ _ _ | .imports _ _ | .classLike _ _ _
  | .function _ _ _ _ _ | .loop _ _ _ _ _ | .evaluate _ _ _ | .switch _ _ _ | .switchCase _ _ _
  | .globals _ _ | .statics _ _ _ | .inert _ _ => rfl

theorem assignmentsIn_eq : ∀ body : List Stmt, assignmentsIn body =
    (reachedIn false body).filterMap found?
  | [] => rfl
  | s :: rest => by
    rw [assignmentsIn, reachedIn, List.filterMap_append, assignments_eq s, assignmentsIn_eq rest]

end

section

variable {t : Stmt}

theorem reachedIn_eq (loops : Bool) (body : List Stmt) :
    reachedIn loops body = body.flatMap (reached loops) := by
  induction body with
  | nil => rfl
  | cons s rest ih => rw [reachedIn, ih, List.flatMap_cons]

/-- What is reached is the statement itself or stands in a part of it. -/
theorem reached_eq (loops : Bool) (s : Stmt) :
    reached loops s = if isExpression s then [s] else (contents loops s).flatMap
      (reached loops) := by
  cases s with
  | loop span form header body footer =>
    cases loops <;> simp [reached, isExpression, contents, reachedIn_eq]
  | _ => simp [reached, isExpression, contents, reachedIn_eq]

theorem mem_reachedIn_iff : u ∈ reachedIn loops body ↔ ∃ t ∈ body, u ∈ reached loops t := by
  rw [reachedIn_eq, List.mem_flatMap]

theorem sizeOf_lt_of_mem_contents (h : t ∈ contents loops s) : sizeOf t < sizeOf s := by
  have hin : ∀ body : List Stmt, t ∈ body → sizeOf t < sizeOf body := fun _ => List.sizeOf_lt_of_mem
  cases s with
  | block _ body | foreach _ _ _ _ _ body | handler _ _ _ _ body =>
    have hlt := hin body h
    simp only [Stmt.block.sizeOf_spec, Stmt.foreach.sizeOf_spec, Stmt.handler.sizeOf_spec]
    omega
  | branch span condition yes no =>
    rw [Stmt.branch.sizeOf_spec]
    rcases List.mem_append.mp h with h | h <;> have hlt := hin _ h <;> omega
  | attempt span body handlers cleanup =>
    rw [Stmt.attempt.sizeOf_spec]
    simp only [contents, List.mem_append] at h
    rcases h with (h | h) | h <;> have hlt := hin _ h <;> omega
  | loop span form header body footer =>
    cases loops with
    | false => cases h
    | true =>
      have hlt := hin body h
      rw [Stmt.loop.sizeOf_spec]
      omega
  | _ => cases h

/-- From the statements within a statement to the statement. -/
theorem induction_contents (loops : Bool) {P : Stmt → Prop}
    (h : ∀ s, (∀ t ∈ contents loops s, P t) → P s) (s : Stmt) : P s :=
  h s fun t _ => induction_contents loops h t
termination_by sizeOf s
decreasing_by exact sizeOf_lt_of_mem_contents ‹_›

end

/-- **The expression statements reached** are those that stand in the statement. -/
theorem mem_reached_iff : u ∈ reached loops s ↔ Inside loops s u ∧ isExpression u = true := by
  constructor
  · induction s using induction_contents loops with
    | h s ih =>
      intro hu
      rw [reached_eq] at hu
      split at hu
      next hs =>
        obtain rfl := List.mem_singleton.mp hu
        exact ⟨.self _, hs⟩
      next =>
        obtain ⟨t, ht, hu⟩ := List.mem_flatMap.mp hu
        exact ⟨.enter ht (ih t ht hu).1, (ih t ht hu).2⟩
  · rintro ⟨hinside, hu⟩
    induction hinside with
    | self s =>
      rw [reached_eq, if_pos hu]
      exact List.mem_singleton.mpr rfl
    | @enter s t u ht _ ih =>
      have hs : isExpression s = false := by cases s <;> first | rfl | cases ht
      rw [reached_eq, if_neg (by simp [hs])]
      exact List.mem_flatMap.mpr ⟨t, ht, ih hu⟩

/-! ## Section 2: Source order -/

/-- Statements between two offsets, one behind the other. -/
structure Successive (a b : Nat) (us : List Stmt) : Prop where
  apart : us.Pairwise fun s t => s.span.stop ≤ t.span.start
  within : ∀ u ∈ us, a ≤ u.span.start ∧ u.span.stop ≤ b

namespace Successive

variable {a a' b b' c : Nat} {us vs : List Stmt}

theorem nil (a b : Nat) : Successive a b [] := ⟨.nil, List.forall_mem_nil _⟩

variable (h : Successive a b us)
include h

theorem widen (ha : a' ≤ a) (hb : b ≤ b') : Successive a' b' us :=
  ⟨h.apart, fun u hu => ⟨Nat.le_trans ha (h.within u hu).1, Nat.le_trans (h.within u hu).2 hb⟩⟩

theorem sublist (hsublist : vs.Sublist us) : Successive a b vs :=
  ⟨h.apart.sublist hsublist, fun u hu => h.within u (hsublist.subset hu)⟩

theorem append (h' : Successive b c vs) (ha : a ≤ b) (hb : b ≤ c) : Successive a c (us ++ vs) := by
  refine ⟨List.pairwise_append.mpr ⟨h.apart, h'.apart, fun s hs t ht => ?_⟩, fun u hu => ?_⟩
  · exact Nat.le_trans (h.within s hs).2 (h'.within t ht).1
  · rcases List.mem_append.mp hu with hu | hu
    · exact (h.widen (Nat.le_refl _) hb).within u hu
    · exact (h'.widen ha (Nat.le_refl _)).within u hu

end Successive

/-- What stands in a statement lies where the statement does. -/
theorem lies_contents {a b : Nat} (h : Lies (ofStmt s) a b) :
    Lies (ofStmts (contents false s)) a b := by
  have hle := h.le
  cases s with
  | block span body =>
    obtain ⟨ha, hbody, hb⟩ := lies_node_iff.mp h
    exact (lies_of_nestedIn_stmts hbody).widen ha hb
  | branch span condition yes no =>
    obtain ⟨ha, hinner, hb⟩ := lies_node_iff.mp h
    obtain ⟨hcondition, hbranches⟩ := (single_ofExpr condition).first hinner
    obtain ⟨mid, hyes, hno⟩ := nestedIn_ofStmts hbranches
    exact (hyes.stmts_append (lies_of_nestedIn_stmts hno)).widen (Nat.le_trans ha hcondition.le) hb
  | foreach span subject key value bodyStart body =>
    -- The outline has a node for the key if there is one, and then the rest is behind it.
    obtain ⟨mid, hmid, hvalues, hb⟩ : ∃ mid, a ≤ mid ∧ (node value.span .skipped (ofExpr value done)
        (node ⟨bodyStart, span.stop⟩ .passed (ofStmts body done) done)).nestedIn
          ⟨mid, span.stop⟩ = true ∧
        span.stop ≤ b := by
      cases key with
      | none =>
        obtain ⟨ha, hinner, hb⟩ := lies_node_iff.mp h
        obtain ⟨hsubject, hvalues⟩ := (single_ofExpr subject).first hinner
        exact ⟨_, Nat.le_trans ha hsubject.le, hvalues, hb⟩
      | some key =>
        obtain ⟨ha, hinner, hb⟩ := lies_node_iff.mp h
        obtain ⟨hsubject, hkeys⟩ := (single_ofExpr subject).first hinner
        obtain ⟨hkey, hvalues⟩ := Single.first ⟨_, _, rfl⟩ hkeys
        exact ⟨_, Nat.le_trans ha (Nat.le_trans hsubject.le hkey.le), hvalues, hb⟩
    obtain ⟨hvalue, hlast⟩ := Single.first ⟨_, _, rfl⟩ hvalues
    obtain ⟨hstart, hbody, -⟩ := lies_node_iff.mp (Single.first ⟨_, _, rfl⟩ hlast).1
    exact (lies_of_nestedIn_stmts hbody).widen
      (Nat.le_trans hmid (Nat.le_trans hvalue.le hstart)) hb
  | attempt span body handlers cleanup =>
    obtain ⟨ha, hinner, hb⟩ := lies_node_iff.mp h
    obtain ⟨mid, hbody, hinner⟩ := nestedIn_ofStmts hinner
    obtain ⟨last, hhandlers, hcleanup⟩ := nestedIn_ofStmts hinner
    exact ((hbody.stmts_append hhandlers).stmts_append
      (lies_of_nestedIn_stmts hcleanup)).widen ha hb
  | handler span caught name braces body =>
    obtain ⟨ha, hinner, hb⟩ := lies_node_iff.mp h
    obtain ⟨hbraces, hend⟩ := Single.first ⟨_, _, rfl⟩ hinner
    obtain ⟨hstart, hbody, -⟩ := lies_node_iff.mp hbraces
    exact (lies_of_nestedIn_stmts hbody).widen (Nat.le_trans ha hstart)
      (Nat.le_trans (start_le_stop hend) hb)
  | _ => exact .none hle

/-- What is reached in statements stands in source order if it does so in each of them. -/
theorem successive_flatMap (hbody : ∀ t ∈ body, ∀ {a b : Nat}, Lies (ofStmt t) a b →
    Successive a b (reached false t)) {a b : Nat} (h : Lies (ofStmts body) a b) :
    Successive a b (body.flatMap (reached false)) := by
  induction body generalizing a with
  | nil => exact .nil _ _
  | cons s rest ih =>
    obtain ⟨hs, hrest⟩ := Lies.stmts_cons h
    obtain ⟨hfirst, hothers⟩ := List.forall_mem_cons.mp hbody
    exact (hfirst hs).append (ih hothers hrest) hs.le hrest.le

/-- What is reached in a statement stands in source order. -/
theorem successive_reached (s : Stmt) : ∀ {a b : Nat}, Lies (ofStmt s) a b →
    Successive a b (reached false s) := by
  induction s using induction_contents false with
  | h s ih =>
    intro a b h
    rw [reached_eq]
    split
    · have hfits := h.stmt_fits
      refine ⟨List.pairwise_singleton _ _, fun u hu => ?_⟩
      obtain rfl := List.mem_singleton.mp hu
      exact ⟨hfits.1, hfits.2.2⟩
    · exact successive_flatMap ih (lies_contents h)

theorem successive_reachedIn {a b : Nat} (h : Lies (ofStmts body) a b) :
    Successive a b (reachedIn false body) := by
  rw [reachedIn_eq]
  exact successive_flatMap (fun t _ => successive_reached t) h

/-! ## Section 3: Assigned properties -/

/-- The property that an assignment calls for. -/
def assignedProperty (parameters : List ParameterModel) (found : String × Expr) : PropertyModel :=
  { name := found.1, visibility := .isPrivate, declaredType := assignedType parameters found.2,
    isStatic := false, isAbstract := false }

/-- A statement of the form `$this->name = value` in the body of a method, and the property that it
calls for. -/
inductive Assigns (text : Text) (loops : Bool) (all : List Member) : Stmt → PropertyModel → Prop
  | intro {span : Span} {modifiers : List Modifier} {name : Name} {params : List Param}
      {returns braces : Option Span} {body : List Stmt} {t : Stmt} {s s₁ s₂ s₃ s₄ : Span}
      {property : String}
      {value : Expr}
      (hmethod : Member.method span modifiers name params returns braces body ∈ all) (ht : t ∈ body)
      (hinside : Inside loops t
        (.expression s
          (.assign s₁ (.fetch s₂ false (.variable s₃ "$this") (.name s₄ property)) value))) :
      Assigns text loops all
        (.expression s
          (.assign s₁ (.fetch s₂ false (.variable s₃ "$this") (.name s₄ property)) value))
        (assignedProperty (params.map (parameter text)) (property, value))

theorem found?_eq_some_iff {found : String × Expr} :
    found? u = some found ↔ ∃ s s₁ s₂ s₃ s₄ property value, found = (property, value) ∧
      u = .expression s
        (.assign s₁ (.fetch s₂ false (.variable s₃ "$this") (.name s₄ property)) value) := by
  constructor
  · intro h
    unfold found? at h
    split at h
    · unfold assignment? at h
      split at h
      · split at h
        next hthis =>
          obtain rfl := Option.some.inj h
          subst hthis
          exact ⟨_, _, _, _, _, _, _, rfl, rfl⟩
        next => cases h
      · cases h
    · cases h
  · rintro ⟨s, s₁, s₂, s₃, s₄, property, value, rfl, rfl⟩
    simp [found?, assignment?]

/-- The assignments in the body of a method, each with its property. -/
def written (text : Text) (loops : Bool) : Member → List (Stmt × PropertyModel)
  | .method _ _ _ params _ _ body =>
    (reachedIn loops body).filterMap fun u =>
      (found? u).map fun found => (u, assignedProperty (params.map (parameter text)) found)
  | _ => []

theorem mem_written_iff {text : Text} {p : PropertyModel} :
    (s, p) ∈ all.flatMap (written text loops) ↔ Assigns text loops all s p := by
  constructor
  · intro h
    obtain ⟨m, hm, h⟩ := List.mem_flatMap.mp h
    cases m with
    | method span modifiers name params returns braces body =>
      obtain ⟨u, hu, h⟩ := List.mem_filterMap.mp h
      obtain ⟨found, hfound, h⟩ := Option.map_eq_some_iff.mp h
      obtain ⟨rfl, rfl⟩ := Prod.mk.inj h
      obtain ⟨s, s₁, s₂, s₃, s₄, property, value, rfl, rfl⟩ := found?_eq_some_iff.mp hfound
      obtain ⟨t, ht, hu⟩ := mem_reachedIn_iff.mp hu
      exact .intro hm ht (mem_reached_iff.mp hu).1
    | _ => cases h
  · intro h
    cases h with
    | intro hmethod ht hinside =>
      refine List.mem_flatMap.mpr ⟨_, hmethod, ?_⟩
      have hreached := mem_reachedIn_iff.mpr ⟨_, ht, mem_reached_iff.mpr ⟨hinside, rfl⟩⟩
      refine List.mem_filterMap.mpr ⟨_, hreached, ?_⟩
      rw [found?_eq_some_iff.mpr ⟨_, _, _, _, _, _, _, rfl, rfl⟩]
      rfl

/-- Adds a property unless one of its name is there. -/
def addProperty (known : List PropertyModel) (p : PropertyModel) : List PropertyModel :=
  if p.name ∈ known.map PropertyModel.name then known else known ++ [p]

theorem assignedAfter_eq (text : Text) (known : List PropertyModel) (m : Member) :
    assignedAfter text known m = ((written text false m).map Prod.snd).foldl addProperty known := by
  cases m with
  | method span modifiers name params returns braces body =>
    have hrecord : recordAssignment (params.map (parameter text)) =
        fun known found =>
            addProperty known (assignedProperty (params.map (parameter text)) found) := by
      funext known found
      simp [recordAssignment, addProperty, assignedProperty]
    have hwritten :
      (written text false (.method span modifiers name params returns braces body)).map Prod.snd =
        (assignmentsIn body).map (assignedProperty (params.map (parameter text))) := by
      rw [written, List.map_filterMap, assignmentsIn_eq, List.map_filterMap]
      simp only [Option.map_map]
      rfl
    rw [assignedAfter, hrecord, hwritten, List.foldl_map]
  | _ => rfl

/-- The properties recorded are the first ones of their names. -/
theorem assigned_eq (text : Text) (kind : ClassKind) (ns : Option String) (imports : Imports)
    (all : List Member) : (members text kind ns imports all).assigned =
      (firstFree (fun w => w.2.name) [] (all.flatMap (written text false))).map Prod.snd := by
  have hfold : (members text kind ns imports all).assigned =
      ((all.flatMap (written text false)).map Prod.snd).foldl addProperty [] := by
    rw [List.map_flatMap, List.foldl_flatMap]
    exact congrArg (all.foldl · []) (funext₂ (assignedAfter_eq text))
  have hadd : ∀ known p, addProperty known p =
      if p.name ∈ known.map PropertyModel.name then known else known ++ [p] := fun _ _ => rfl
  rw [hfold, foldl_eq_append_firstFree hadd, firstFree_map]
  rfl

theorem written_sublist (text : Text) (span : Span) (modifiers : List Modifier) (name : Name)
    (params : List Param) (returns braces : Option Span) (body : List Stmt) :
    ((written text false (.method span modifiers name params returns braces body)).map
      Prod.fst).Sublist (reachedIn false body) := by
  rw [written, List.map_filterMap]
  induction reachedIn false body with
  | nil => exact .slnil
  | cons u rest ih =>
    cases hfound : found? u with
    | none =>
      rw [List.filterMap_cons_none (by rw [hfound]; rfl)]
      exact ih.cons u
    | some found =>
      rw [List.filterMap_cons_some (b := u) (by rw [hfound]; rfl)]
      exact ih.cons_cons u

/-- The assignments in a member stand in source order, and before what follows the member. -/
theorem successive_written (text : Text) {m : Member} {rest : Outline} {a c : Nat}
    (h : (ofMember m rest).nestedIn ⟨a, c⟩ = true) :
    ∃ b, a ≤ b ∧ rest.nestedIn ⟨b, c⟩ = true ∧
      Successive a b ((written text false m).map Prod.fst) := by
  cases m with
  | method span modifiers name params returns braces body =>
    have hbody : Lies (ofStmts body) a span.stop ∧ rest.nestedIn ⟨span.stop, c⟩ = true := by
      cases braces with
      | none =>
        obtain ⟨hmethod, hrest⟩ := Single.first ⟨_, _, rfl⟩ h
        obtain ⟨ha, hbody, -⟩ := lies_node_iff.mp hmethod
        exact ⟨(lies_of_nestedIn_stmts hbody).earlier ha, hrest⟩
      | some braces =>
        obtain ⟨hmethod, hrest⟩ := Single.first ⟨_, _, rfl⟩ h
        obtain ⟨ha, hinner, -⟩ := lies_node_iff.mp hmethod
        obtain ⟨hbraces, hend⟩ := Single.first ⟨_, _, rfl⟩ hinner
        obtain ⟨hstart, hbody, -⟩ := lies_node_iff.mp hbraces
        exact ⟨(lies_of_nestedIn_stmts hbody).widen (Nat.le_trans ha hstart)
          (start_le_stop hend), hrest⟩
    have hsublist := written_sublist text span modifiers name params returns braces body
    exact ⟨span.stop, hbody.1.le, hbody.2, (successive_reachedIn hbody.1).sublist hsublist⟩
  | property span modifiers hint names | traitUse span names | constant span =>
    obtain ⟨hmember, hrest⟩ := Single.first ⟨_, _, rfl⟩ h
    exact ⟨_, hmember.le, hrest, .nil _ _⟩

theorem successive_allWritten (text : Text) {a b : Nat}
    (h : (ofMembers all done).nestedIn ⟨a, b⟩ = true) :
    Successive a b ((all.flatMap (written text false)).map Prod.fst) := by
  induction all generalizing a with
  | nil => exact .nil a b
  | cons m rest ih =>
    obtain ⟨mid, ha, hrest, hfirst⟩ := successive_written text h
    rw [List.flatMap_cons, List.map_append]
    exact hfirst.append (ih hrest) ha (start_le_stop hrest)

/-- **Assigned properties are recorded** once each. Whatever the search comes to has its property
recorded, and a property recorded is that of the assignment to it that stands first. -/
theorem first_assignments_recorded {text : Text} {program : List Stmt}
    (h : parse text = .ok program)
    {span : Span} {head : ClassHead} {all : List Member}
    (hclass : OnSurface program (.classLike span head all))
    (kind : ClassKind) (ns : Option String) (imports : Imports) :
    ((members text kind ns imports all).assigned.map PropertyModel.name).Nodup ∧
      (∀ s p, Assigns text false all s p →
        p.name ∈ (members text kind ns imports all).assigned.map PropertyModel.name) ∧
      ∀ q ∈ (members text kind ns imports all).assigned, ∃ s, Assigns text false all s q ∧
        ∀ t p, Assigns text false all t p → p.name = q.name → p = q ∨
          s.span.stop ≤ t.span.start := by
  obtain ⟨-, hmembers, -⟩ := lies_node_iff.mp (hclass.lies (nestedIn_of_parse h))
  have horder := List.pairwise_map.mp (successive_allWritten text hmembers).apart
  have hfirst := firstOfEach_firstFree (fun w => w.2.name) [] (all.flatMap (written text false))
  rw [assigned_eq, List.map_map]
  refine ⟨hfirst.nodup, fun s p hassigns => ?_, fun q hq => ?_⟩
  · refine (hfirst.mem_iff _).mpr ⟨?_, List.not_mem_nil⟩
    exact List.mem_map.mpr ⟨(s, p), mem_written_iff.mpr hassigns, rfl⟩
  · obtain ⟨⟨s, p⟩, hmem, rfl⟩ := List.mem_map.mp hq
    obtain ⟨before, behind, hsplit, hbefore⟩ := hfirst.split hmem
    rw [hsplit] at horder
    refine ⟨s, mem_written_iff.mp (hsplit ▸ List.mem_append_right _ List.mem_cons_self),
      fun t p' ht hname => ?_⟩
    -- an assignment of the name is this one or stands behind it
    have hplace := mem_written_iff.mpr ht
    rw [hsplit] at hplace
    rcases List.mem_append.mp hplace with hplace | hplace
    · exact absurd hname (hbefore _ hplace)
    · rcases List.mem_cons.mp hplace with hsame | hplace
      · exact .inl (Prod.mk.inj hsame).2
      · exact .inr ((List.pairwise_cons.mp (List.pairwise_append.mp horder).2.1).1 _ hplace)

/-- The statement declares a class with members of some kind. -/
def declaresClass (test : List Member → Bool) : Stmt → Bool
  | .classLike _ _ all => test all
  | _ => false

theorem exists_class_of_any {program : List Stmt} {test : List Member → Bool}
    (h : program.any (declaresClass test) = true) :
    ∃ span head all, OnSurface program (.classLike span head all) ∧ test all = true := by
  obtain ⟨s, hs, htest⟩ := List.any_eq_true.mp h
  cases s with
  | classLike span head all => exact ⟨span, head, all, .top hs, htest⟩
  | _ => cases htest

/-- Assignments in a branch, a loop and exception handlers. -/
def nestedText : Text :=
  ["<?php class A \x7b function m(T $x) \x7b if ($x) \x7b foreach ($x as $y) \x7b try \x7b ",
    "$this->a = $x; \x7d catch (E $e) \x7b $this->b = new B(); \x7d finally \x7b ",
    "$this->a = new C(); \x7d \x7d \x7d else $this->c = 1; \x7d \x7d"].flatMap String.toList

def nestedProgram : List Stmt := (parse nestedText).toOption.getD []

/-- The property `a`, of the type of the parameter that is assigned first. -/
def propertyOfParameter : PropertyModel := ⟨"a", .isPrivate, some "T", false, false⟩

theorem nested_assignments_recorded :
    parse nestedText = .ok nestedProgram ∧ ∃ span head all,
      OnSurface nestedProgram (.classLike span head all) ∧
      (members nestedText .isClass none [] all).assigned =
        [propertyOfParameter, ⟨"b", .isPrivate, some "B", false, false⟩,
          ⟨"c", .isPrivate, none, false, false⟩] ∧
      ∃ s, Assigns nestedText false all s propertyOfParameter ∧
        ∀ t p, Assigns nestedText false all t p →
        p.name = "a" → p = propertyOfParameter ∨ s.span.stop ≤ t.span.start := by
  obtain ⟨hsome, hany⟩ : (parse nestedText).toOption.isSome = true ∧
      nestedProgram.any (declaresClass fun all =>
        decide ((members nestedText .isClass none [] all).assigned =
          [propertyOfParameter, ⟨"b", .isPrivate, some "B", false, false⟩,
            ⟨"c", .isPrivate, none, false, false⟩])) = true := by
    decide +kernel
  have hparse : parse nestedText = .ok nestedProgram := parse_eq_ok_of_isSome hsome
  obtain ⟨span, head, all, hclass, hassigned⟩ := exists_class_of_any hany
  have hassigned := of_decide_eq_true hassigned
  obtain ⟨-, -, hfirst⟩ := first_assignments_recorded hparse hclass .isClass none []
  exact ⟨hparse, span, head, all, hclass, hassigned,
    hfirst propertyOfParameter (hassigned ▸ List.mem_cons_self)⟩

/-- An assignment in a `while` loop. -/
def loopText : Text :=
  "<?php\nclass A \x7b function m() \x7b while (true) \x7b $this->a = new B(); \x7d \x7d \x7d".toList

def loopProgram : List Stmt := (parse loopText).toOption.getD []

/-- The assignment stands in a loop that is not searched, and so nothing is recorded. -/
theorem assignment_in_while_missed :
    parse loopText = .ok loopProgram ∧ ∃ span head all,
      OnSurface loopProgram (.classLike span head all) ∧
      (∃ s, Assigns loopText true all s ⟨"a", .isPrivate, some "B", false, false⟩) ∧
      (members loopText .isClass none [] all).assigned = [] := by
  obtain ⟨hsome, hany⟩ : (parse loopText).toOption.isSome = true ∧
      loopProgram.any (declaresClass fun all =>
        decide ((all.flatMap (written loopText true)).map Prod.snd =
            [⟨"a", .isPrivate, some "B", false, false⟩] ∧
          (members loopText .isClass none [] all).assigned = [])) = true := by
    decide +kernel
  obtain ⟨span, head, all, hclass, htest⟩ := exists_class_of_any hany
  obtain ⟨hwritten, hassigned⟩ := of_decide_eq_true htest
  obtain ⟨⟨s, p⟩, hmem, hp⟩ := List.mem_map.mp (hwritten ▸ List.mem_cons_self)
  exact ⟨parse_eq_ok_of_isSome hsome, span, head, all, hclass,
    ⟨s, hp ▸ mem_written_iff.mp hmem⟩, hassigned⟩

end CodeInsight.Extract
