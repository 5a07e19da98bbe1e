import CodeInsight.Proofs.WalkActs
import Mathlib.Data.List.Pairwise

/-!
# Acts within windows

Some acts ask for the type of a variable at an offset, and most bind a variable that is visible from
an offset on. Acts are confined to a window of offsets if what they ask for lies before its end and
what they bind is not visible before its beginning. So of two windows one behind the other, nothing
that is bound in the second is visible where an act in the first one asked. Within a window, acts
that ask outside of a new scope do not see what is bound inside of it.

## Main Results

- `Confined.seq`: acts in one window and then in the next
- `Confined.entered`: a new scope and what comes into it
-/

namespace CodeInsight.Scope

open Grammar Forest

variable {acts : List Act} {window : Span} {offset : Nat} {next : Nat}

/-! ## Section 1: Asking and binding -/

/-- The variable that the type of an expression is read off, and where it stands. -/
def base? : Expr → Option (String × Nat)
  | .variable span name => some (name, span.start)
  | .fetch _ _ object _ => base? object
  | .methodCall _ object _ _ => base? object
  | .group _ inner => base? inner
  | .clone _ object => base? object
  | _ => none

namespace Act

/-- An act asks for a variable in the scope `q`, as it is at the offset `r`. -/
def Asks (q r : Nat) : Act → Prop
  | assigned scope _ _ _ value => scope = q ∧ ∃ name, base? value = some (name, r)
  | captured outer _ _ outside _ => outer = q ∧ outside = r
  | _ => False

/-- An act binds a variable in the scope `t`, visible from the offset `o` on. -/
def Binds (t o : Nat) : Act → Prop
  | opened _ _ _ => False
  | given scope _ offset _ => scope = t ∧ offset = o
  | assigned scope _ _ offset _ => scope = t ∧ offset = o
  | captured _ inner _ _ offset => inner = t ∧ offset = o

/-- What one act binds is not visible where another one asks. A scope sees no scope opened after
it. -/
def Unseen (asking binding : Act) : Prop :=
  ∀ q r t o, asking.Asks q r → binding.Binds t o → t ≤ q → r < o

end Act

/-! ## Section 2: Confined acts -/

/-- Every act finds the scopes that it needs. -/
def Grounded : Nat → List Act → Prop
  | _, [] => True
  | next, act :: rest => (∀ i ∈ act.scopes, i < next) ∧ Grounded (next + act.opens) rest

theorem grounded_append {more : List Act} :
    Grounded next (acts ++ more) ↔ Grounded next acts ∧ Grounded (next + opens acts) more := by
  induction acts generalizing next with
  | nil => simp [Grounded, opens]
  | cons act rest ih =>
    simp only [List.cons_append, Grounded, ih, opens, and_assoc, Nat.add_assoc]

/-- Acts in a scope, or in scopes that they open, keep to a window. -/
structure Confined (scope next : Nat) (window : Span) (acts : List Act) : Prop where
  grounded : Grounded next acts
  asks : ∀ a ∈ acts, ∀ q r, a.Asks q r → r < window.stop
  binds : ∀ a ∈ acts, ∀ t o, a.Binds t o → window.start ≤ o ∧ (t = scope ∨ next ≤ t)
  self : ∀ a ∈ acts, a.Unseen a
  later : acts.Pairwise Act.Unseen

namespace Confined

variable {scope : Nat} {more : List Act}

theorem nil (scope next : Nat) (window : Span) : Confined scope next window [] := by
  constructor <;> simp [Grounded]

theorem widen {wide : Span} (h : Confined scope next window acts)
    (hwide : wide.encloses window = true) : Confined scope next wide acts := by
  obtain ⟨hstart, hstop⟩ := Span.encloses_iff.mp hwide
  refine ⟨h.grounded, fun a ha q r hask => ?_, fun a ha t o hbind => ?_, h.self, h.later⟩
  · exact Nat.lt_of_lt_of_le (h.asks a ha q r hask) hstop
  · obtain ⟨hoffset, hscope⟩ := h.binds a ha t o hbind
    exact ⟨Nat.le_trans hstart hoffset, hscope⟩

theorem append (h : Confined scope next window acts)
    (hmore : Confined scope (next + opens acts) window more)
    (hunseen : ∀ a ∈ acts, ∀ b ∈ more, a.Unseen b) : Confined scope next window (acts ++ more) := by
  refine ⟨grounded_append.mpr ⟨h.grounded, hmore.grounded⟩, fun a ha q r hask => ?_,
    fun a ha t o hbind => ?_, fun a ha => ?_,
    List.pairwise_append.mpr ⟨h.later, hmore.later, hunseen⟩⟩
  · rcases List.mem_append.mp ha with ha | ha
    · exact h.asks a ha q r hask
    · exact hmore.asks a ha q r hask
  · rcases List.mem_append.mp ha with ha | ha
    · exact h.binds a ha t o hbind
    · -- scopes opened by the first acts are new ones as well
      obtain ⟨hoffset, hscope⟩ := hmore.binds a ha t o hbind
      exact ⟨hoffset, by omega⟩
  · rcases List.mem_append.mp ha with ha | ha
    · exact h.self a ha
    · exact hmore.self a ha

theorem of_append (h : Confined scope next window (acts ++ more)) :
    Confined scope next window acts where
  grounded := (grounded_append.mp h.grounded).1
  asks a ha := h.asks a (List.mem_append_left _ ha)
  binds a ha := h.binds a (List.mem_append_left _ ha)
  self a ha := h.self a (List.mem_append_left _ ha)
  later := (List.pairwise_append.mp h.later).1

/-- **Acts in one window and then in the next.** -/
theorem seq {start middle stop : Nat} (h : Confined scope next ⟨start, middle⟩ acts)
    (hmore : Confined scope (next + opens acts) ⟨middle, stop⟩ more) (hstart : start ≤ middle)
    (hstop : middle ≤ stop) : Confined scope next ⟨start, stop⟩ (acts ++ more) := by
  have hfirst : Confined scope next ⟨start, stop⟩ acts :=
    h.widen (Span.encloses_iff.mpr ⟨Nat.le_refl _, hstop⟩)
  have hsecond : Confined scope (next + opens acts) ⟨start, stop⟩ more :=
    hmore.widen (Span.encloses_iff.mpr ⟨hstart, Nat.le_refl _⟩)
  apply hfirst.append hsecond
  -- whoever asks in the first window asks before the second one begins
  intro a ha b hb q r t o hask hbind _
  exact Nat.lt_of_lt_of_le (h.asks a ha q r hask) (hmore.binds b hb t o hbind).1

end Confined

theorem opens_eq_zero (h : ∀ a ∈ acts, a.opens = 0) : opens acts = 0 := by
  induction acts with
  | nil => rfl
  | cons act rest ih =>
    have hact := h act List.mem_cons_self
    have hrest := ih fun a ha => h a (List.mem_cons_of_mem _ ha)
    rw [opens, hact, hrest]

theorem grounded_of_opens (hopens : ∀ a ∈ acts, a.opens = 0)
    (hscopes : ∀ a ∈ acts, ∀ i ∈ a.scopes, i < next) : Grounded next acts := by
  induction acts with
  | nil => trivial
  | cons act rest ih =>
    refine ⟨hscopes act List.mem_cons_self, ?_⟩
    rw [hopens act List.mem_cons_self, Nat.add_zero]
    exact ih (fun a ha => hopens a (List.mem_cons_of_mem _ ha))
      fun a ha => hscopes a (List.mem_cons_of_mem _ ha)

namespace Confined

variable {scope : Nat}

/-- Acts that open no scopes and do not see one another. -/
theorem of_unseen (hopens : ∀ a ∈ acts, a.opens = 0)
    (hscopes : ∀ a ∈ acts, ∀ i ∈ a.scopes, i < next)
    (hasks : ∀ a ∈ acts, ∀ q r, a.Asks q r → r < window.stop)
    (hbinds : ∀ a ∈ acts, ∀ t o, a.Binds t o → window.start ≤ o ∧ t = scope)
    (hunseen : ∀ a ∈ acts, ∀ b ∈ acts, a.Unseen b) : Confined scope next window acts := by
  refine ⟨grounded_of_opens hopens hscopes, hasks, fun a ha t o hbind => ?_,
    fun a ha => hunseen a ha a ha, ?_⟩
  · obtain ⟨hoffset, hscope⟩ := hbinds a ha t o hbind
    exact ⟨hoffset, Or.inl hscope⟩
  · exact List.pairwise_of_forall_mem_list hunseen

theorem givens (h : ∀ a ∈ acts, a.GivenAt scope offset) (hscope : scope < next)
    (hoffset : window.start ≤ offset) : Confined scope next window acts := by
  apply of_unseen
  · exact fun a ha => (h a ha).opens_eq_zero
  · intro a ha
    obtain ⟨name, type, rfl⟩ := h a ha
    simpa [Act.scopes] using hscope
  · intro a ha q r hask
    obtain ⟨name, type, rfl⟩ := h a ha
    exact hask.elim
  · intro a ha t o hbind
    obtain ⟨name, type, rfl⟩ := h a ha
    obtain ⟨rfl, rfl⟩ := hbind
    exact ⟨hoffset, rfl⟩
  · intro a ha b hb q r t o hask
    obtain ⟨name, type, rfl⟩ := h a ha
    exact hask.elim

/-- A variable is assigned a value whose type is read off before the variable is visible. -/
theorem assigned {frame : Frame} {name : String} {value : Expr} (hscope : scope < next)
    (hstart : window.start ≤ offset) (hstop : offset ≤ window.stop)
    (hbase : ∀ name r, base? value = some (name, r) → r < offset) :
    Confined scope next window [.assigned scope frame name offset value] := by
  apply of_unseen
  · simp [Act.opens]
  · simpa [Act.scopes] using hscope
  · intro a ha q r hask
    obtain rfl := List.mem_singleton.mp ha
    obtain ⟨_, name, hname⟩ := hask
    exact Nat.lt_of_lt_of_le (hbase name r hname) hstop
  · intro a ha t o hbind
    obtain rfl := List.mem_singleton.mp ha
    obtain ⟨rfl, rfl⟩ := hbind
    exact ⟨hstart, rfl⟩
  · intro a ha b hb q r t o hask hbind _
    obtain rfl := List.mem_singleton.mp ha
    obtain rfl := List.mem_singleton.mp hb
    obtain ⟨_, name, hname⟩ := hask
    obtain ⟨_, rfl⟩ := hbind
    exact hbase name r hname

/-- **A new scope** and what comes into it. What lies outside does not see the bindings within. -/
theorem entered {outside : Nat} {kind : ScopeKind} {range : Span} {front : List Act}
    (hscope : scope < next) (hfront : ∀ a ∈ front, a.Enters scope next outside offset)
    (houtside : outside < window.stop) (hoffset : window.start ≤ offset)
    (h : Confined next (next + 1) window acts) :
    Confined scope next window (.opened scope kind range :: (front ++ acts)) := by
  have hopens : ∀ a ∈ front, a.opens = 0 := fun a ha => (hfront a ha).opens_eq_zero
  -- whoever asks in front asks outside, and everything is bound inside
  have hasks : ∀ a ∈ front, ∀ q r, a.Asks q r → q = scope ∧ r = outside := by
    intro a ha q r hask
    rcases hfront a ha with ⟨name, type, rfl⟩ | ⟨name, rfl⟩
    · exact hask.elim
    · exact ⟨hask.1.symm, hask.2.symm⟩
  have hbinds : ∀ a ∈ front, ∀ t o, a.Binds t o → window.start ≤ o ∧ t = next := by
    intro a ha t o hbind
    rcases hfront a ha with ⟨name, type, rfl⟩ | ⟨name, rfl⟩ <;>
    · obtain ⟨rfl, rfl⟩ := hbind
      exact ⟨hoffset, rfl⟩
  have hinner : Confined next (next + 1) window (front ++ acts) := by
    apply append
    · apply of_unseen hopens
      · intro a ha
        rcases hfront a ha with ⟨name, type, rfl⟩ | ⟨name, rfl⟩
        · simp [Act.scopes]
        · simpa [Act.scopes] using Nat.lt_succ_of_lt hscope
      · intro a ha q r hask
        rwa [(hasks a ha q r hask).2]
      · exact hbinds
      · intro a ha b hb q r t o hask hbind hle
        have hq := (hasks a ha q r hask).1
        have ht := (hbinds b hb t o hbind).2
        omega
    · rwa [opens_eq_zero hopens]
    · -- no binding in the new scope or below is visible outside
      intro a ha b hb q r t o hask hbind hle
      have hq := (hasks a ha q r hask).1
      have ht := (h.binds b hb t o hbind).2
      omega
  refine ⟨⟨by simpa [Act.scopes] using hscope, hinner.grounded⟩, ?_, ?_, ?_, ?_⟩
  · intro a ha q r hask
    rcases List.mem_cons.mp ha with rfl | ha
    · exact hask.elim
    · exact hinner.asks a ha q r hask
  · intro a ha t o hbind
    rcases List.mem_cons.mp ha with rfl | ha
    · exact hbind.elim
    · obtain ⟨hstart, hwhere⟩ := hinner.binds a ha t o hbind
      exact ⟨hstart, by omega⟩
  · intro a ha
    rcases List.mem_cons.mp ha with rfl | ha
    · exact fun q r t o hask => hask.elim
    · exact hinner.self a ha
  · exact List.pairwise_cons.mpr ⟨fun b _ q r t o hask => hask.elim, hinner.later⟩

end Confined

end CodeInsight.Scope
