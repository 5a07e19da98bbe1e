import CodeInsight.Proofs.FirstOfEach
import CodeInsight.Proofs.ForestShape
import Mathlib.Data.List.Basic
import Mathlib.Data.List.Induction

/-!
# Bindings against the history of calls

A forest is made by opening scopes and binding variables, in any order of offsets. What a variable
is at an offset depends on that history alone: of the calls that bind it in a scope from an offset
at or before the one asked for, the one with the greatest offset counts, and of equal ones the
latest. Looking up one variable and listing all of them read the history in the same way.

## Main Results

- `latest_insertBinding`: what one more binding changes in one scope
- `represents_replay`: the bindings of a forest represent the calls that made it
- `mem_visible_iff`, `nodup_visible`: the list of visible bindings, name by name
- `replay_answers_history`: looking up and listing agree with the history
-/

namespace CodeInsight.Forest

variable {scopes : List Nat} {type : InferredType} {o : Nat}

/-! ## Section 1: Calls and their replay -/

/-- A call that changes a forest. -/
inductive Call where
  | nest (outer : Nat) (kind : ScopeKind) (range : Span)
  | bind (scope : Nat) (name : String) (offset : Nat) (type : InferredType)
  deriving DecidableEq, Repr

/-- The scope that a call refers to. -/
def Call.scope : Call → Nat
  | .nest outer _ _ => outer
  | .bind scope _ _ _ => scope

/-- The forest after a call. -/
def apply (forest : Forest) : Call → Forest
  | .nest outer kind range => forest.nest outer kind range
  | .bind scope name offset type => forest.bind scope name offset type

/-- The forest after a list of calls. -/
def replay (calls : List Call) (forest : Forest) : Forest := calls.foldl apply forest

/-- Every call refers to a scope that is there when the call is made. -/
def Admissible : List Call → Forest → Prop
  | [], _ => True
  | call :: rest, forest => call.scope < forest.next ∧ Admissible rest (forest.apply call)

instance decidableAdmissible : (calls : List Call) → (forest : Forest) →
    Decidable (Admissible calls forest)
  | [], _ => isTrue trivial
  | call :: rest, forest =>
    have := decidableAdmissible rest (forest.apply call)
    inferInstanceAs (Decidable (call.scope < forest.next ∧ Admissible rest (forest.apply call)))

variable {calls : List Call} {forest : Forest} {bindings : List Binding} {name : String}
  {offset scope : Nat} {b : Binding}

theorem WellFormed.replay (h : WellFormed forest) (hcalls : Admissible calls forest) :
    WellFormed (replay calls forest) := by
  induction calls generalizing forest with
  | nil => exact h
  | cons call rest ih =>
    obtain ⟨hscope, hrest⟩ := hcalls
    refine ih ?_ hrest
    cases call with
    | nest outer kind range => exact h.nest hscope kind range
    | bind scope name offset type => exact h.bind scope name offset type

/-- The scopes in which calls open further ones, call by call. -/
def nestedIn (calls : List Call) : List Nat :=
  calls.filterMap fun
    | .nest outer _ _ => some outer
    | .bind _ _ _ _ => none

/-- The scope around a scope, as the calls say: the file has none, and every other one is opened by
the call of its turn. -/
def openedIn? (calls : List Call) : Nat → Option Nat
  | 0 => none
  | k + 1 => (nestedIn calls)[k]?

theorem parentOf?_replay (calls : List Call) (forest : Forest) (i : Nat) :
    (replay calls forest).parentOf? i =
      if i < forest.next then forest.parentOf? i else (nestedIn calls)[i - forest.next]? := by
  induction calls generalizing forest with
  | nil =>
    split
    next => rfl
    next hge => exact parentOf?_eq_none_of_le (Nat.le_of_not_lt hge)
  | cons call rest ih =>
    have hstep : replay (call :: rest) forest = replay rest (forest.apply call) := rfl
    rw [hstep, ih]
    cases call with
    | nest outer kind range =>
      have hnested : nestedIn (Call.nest outer kind range :: rest) = outer :: nestedIn rest := rfl
      rw [Forest.apply, next_nest, parentOf?_nest, hnested]
      rcases Nat.lt_trichotomy i forest.next with hlt | rfl | hgt
      · rw [if_pos (Nat.lt_succ_of_lt hlt), if_neg (Nat.ne_of_lt hlt), if_pos hlt]
      · simp
      · obtain ⟨more, rfl⟩ : ∃ more, i = forest.next + 1 + more := ⟨i - forest.next - 1, by omega⟩
        rw [if_neg (by omega), if_neg (by omega), Nat.add_sub_cancel_left,
          show forest.next + 1 + more - forest.next = more + 1 by omega]
        rfl
    | bind scope name offset type => rw [Forest.apply, next_bind, parentOf?_bind]; rfl

/-- The parents of the scopes are those of the calls. -/
theorem parentOf?_replay_ofSize (size : Nat) (calls : List Call) (i : Nat) :
    (replay calls (ofSize size)).parentOf? i = openedIn? calls i := by
  rw [parentOf?_replay]
  cases i with
  | zero => rfl
  | succ k => rfl

/-! ## Section 2: The binding that counts in one scope -/

/-- The last binding of a name that is visible at an offset. -/
def latest (bindings : List Binding) (name : String) (offset : Nat) : Option Binding :=
  (bindings.filter fun b => b.offset ≤ offset).reverse.find? fun b => b.name = name

/-- The bindings of a scope. -/
def bindingsOf (forest : Forest) (scope : Nat) : List Binding :=
  (forest.scopes[scope]?.map Scope.bindings).getD []

theorem bindingIn?_eq_latest (forest : Forest) (scope : Nat) (name : String) (offset : Nat) :
    forest.bindingIn? scope name offset = latest (forest.bindingsOf scope) name offset := rfl

/-- Bindings in the order of their offsets. -/
def Ordered (bindings : List Binding) : Prop := bindings.Pairwise fun a b => a.offset ≤ b.offset

theorem latest_append (front back : List Binding) (name : String) (offset : Nat) :
    latest (front ++ back) name offset =
      (latest back name offset).or (latest front name offset) := by
  unfold latest
  rw [List.filter_append, List.reverse_append, List.find?_append]

theorem latest_singleton (b : Binding) (name : String) (offset : Nat) :
    latest [b] name offset = if b.offset ≤ offset ∧ b.name = name then some b else none := by
  by_cases hoffset : b.offset ≤ offset
  · by_cases hname : b.name = name <;> simp [latest, hoffset, hname]
  · simp [latest, hoffset]

/-- The binding that counts is one of the list, of that name, at or before the offset. -/
theorem latest_eq_some (h : latest bindings name offset = some b) :
    b ∈ bindings ∧ b.name = name ∧ b.offset ≤ offset := by
  have hmem := List.mem_of_find?_eq_some h
  have hname := List.find?_some h
  rw [List.mem_reverse, List.mem_filter] at hmem
  exact ⟨hmem.1, by simpa using hname, by simpa using hmem.2⟩

theorem Ordered.dropWhile_gt (h : Ordered bindings) (offset : Nat) :
    ∀ b ∈ bindings.dropWhile (fun k => k.offset ≤ offset), offset < b.offset := by
  induction bindings with
  | nil => simp
  | cons first rest ih =>
    by_cases hle : first.offset ≤ offset
    · -- still within the front part
      rw [List.dropWhile_cons_of_pos (by simpa using hle)]
      exact ih h.of_cons
    · rw [List.dropWhile_cons_of_neg (by simpa using hle)]
      intro b hb
      rcases List.mem_cons.mp hb with rfl | hb
      · exact Nat.lt_of_not_le hle
      · exact Nat.lt_of_lt_of_le (Nat.lt_of_not_le hle) (List.rel_of_pairwise_cons h hb)

theorem takeWhile_le (bindings : List Binding) (offset : Nat) :
    ∀ b ∈ bindings.takeWhile (fun k => k.offset ≤ offset), b.offset ≤ offset := by
  intro b hb
  simpa using List.all_eq_true.mp List.all_takeWhile b hb

/-- A binding is put in its place. -/
theorem Ordered.insertBinding (h : Ordered bindings) (b : Binding) :
    Ordered (insertBinding b bindings) := by
  have hfront := takeWhile_le bindings b.offset
  have hback := h.dropWhile_gt b.offset
  unfold Ordered Forest.insertBinding
  rw [List.pairwise_append, List.pairwise_cons]
  refine ⟨h.sublist (List.takeWhile_sublist _), ⟨fun k hk => Nat.le_of_lt (hback k hk),
    h.sublist (List.dropWhile_sublist _)⟩, ?_⟩
  intro a ha k hk
  rcases List.mem_cons.mp hk with rfl | hk
  · exact hfront a ha
  · exact Nat.le_trans (hfront a ha) (Nat.le_of_lt (hback k hk))

/-- **One more binding** counts from now on if it is of the name and at or before the offset, unless
one with a greater offset counted before. -/
theorem latest_insertBinding (h : Ordered bindings) (b : Binding) (name : String) (offset : Nat) :
    latest (insertBinding b bindings) name offset =
      if (b.offset ≤ offset ∧ b.name = name) ∧
          ∀ old, latest bindings name offset = some old → old.offset ≤ b.offset
      then some b else latest bindings name offset := by
  have hfront := takeWhile_le bindings b.offset
  have hback := h.dropWhile_gt b.offset
  have hold := latest_append (bindings.takeWhile fun k => k.offset ≤ b.offset)
    (bindings.dropWhile fun k => k.offset ≤ b.offset) name offset
  rw [List.takeWhile_append_dropWhile] at hold
  unfold Forest.insertBinding
  rw [List.append_cons, latest_append, latest_append, latest_singleton, hold]
  cases hlater : latest (bindings.dropWhile fun k => k.offset ≤ b.offset) name offset with
  | some later =>
    -- a binding behind `b` has a greater offset and goes on counting
    have hgt := hback later (latest_eq_some hlater).1
    rw [Option.some_or, Option.some_or, if_neg]
    rintro ⟨_, hall⟩
    exact absurd (hall later rfl) (Nat.not_le_of_lt hgt)
  | none =>
    have hle : ∀ old, latest (bindings.takeWhile fun k => k.offset ≤ b.offset) name offset =
        some old → old.offset ≤ b.offset :=
      fun old hsome => hfront old (latest_eq_some hsome).1
    rw [Option.none_or, Option.none_or]
    by_cases hcounts : b.offset ≤ offset ∧ b.name = name
    · rw [if_pos hcounts, if_pos ⟨hcounts, hle⟩, Option.some_or]
    · rw [if_neg hcounts, if_neg (fun h => hcounts h.1), Option.none_or]

/-! ## Section 3: What the history says -/

/-- Some call binds a name in a scope from an offset at or before the given one. -/
def HasBind (calls : List Call) (scope : Nat) (name : String) (offset : Nat) : Prop :=
  ∃ o type, Call.bind scope name o type ∈ calls ∧ o ≤ offset

/-- `b` is made by the call that binds a name in a scope from the greatest offset at or before the
given one, and of several such calls with that offset by the latest. -/
def Counts (calls : List Call) (scope : Nat) (name : String) (offset : Nat) (b : Binding) : Prop :=
  b.name = name ∧ b.offset ≤ offset ∧
    ∃ k : Nat, calls[k]? = some (Call.bind scope name b.offset b.type) ∧
      ∀ (j o : Nat) (type : InferredType), calls[j]? = some (Call.bind scope name o type) →
        o ≤ offset → o < b.offset ∨ o = b.offset ∧ j ≤ k

theorem Counts.hasBind (h : Counts calls scope name offset b) :
    HasBind calls scope name offset := by
  obtain ⟨_, hoffset, k, hcall, _⟩ := h
  exact ⟨b.offset, b.type, List.mem_of_getElem? hcall, hoffset⟩

/-- At most one binding counts. -/
theorem Counts.unique {a : Binding} (ha : Counts calls scope name offset a)
    (hb : Counts calls scope name offset b) : a = b := by
  obtain ⟨hname, hoffset, k, hcall, hgreatest⟩ := ha
  obtain ⟨hname', hoffset', k', hcall', hgreatest'⟩ := hb
  have hle := hgreatest k' b.offset b.type hcall' hoffset'
  have hge := hgreatest' k a.offset a.type hcall hoffset
  -- each offset is at most the other, and then so is each position in the history
  have heq : a.offset = b.offset := by omega
  have hk : k = k' := by omega
  rw [hk, hcall'] at hcall
  have htype : b.type = a.type := by
    injection hcall with hcall
    injection hcall
  cases a
  cases b
  simp_all

variable {call : Call}

theorem getElem?_concat_eq_some {found : Call} {k : Nat} :
    (calls ++ [call])[k]? = some found ↔
      calls[k]? = some found ∨ k = calls.length ∧ call = found := by
  rcases Nat.lt_trichotomy k calls.length with hlt | rfl | hgt
  · rw [List.getElem?_append_left hlt]
    simp [Nat.ne_of_lt hlt]
  · simp
  · have hnone : calls[k]? = none := List.getElem?_eq_none (Nat.le_of_lt hgt)
    rw [List.getElem?_eq_none (by rw [List.length_append]; exact hgt)]
    simp [hnone, Nat.ne_of_gt hgt]

/-- A later call matters to a name in a scope at an offset. -/
def Call.Touches (call : Call) (scope : Nat) (name : String) (offset : Nat) : Prop :=
  ∃ o type, call = Call.bind scope name o type ∧ o ≤ offset

/-- What counted goes on counting if a later call does not matter or binds from an earlier
offset. -/
theorem Counts.concat (h : Counts calls scope name offset b)
    (hearlier : ∀ o type, call = Call.bind scope name o type → o ≤ offset → o < b.offset) :
    Counts (calls ++ [call]) scope name offset b := by
  obtain ⟨hname, hoffset, k, hcall, hgreatest⟩ := h
  refine ⟨hname, hoffset, k, getElem?_concat_eq_some.mpr (Or.inl hcall), ?_⟩
  intro j o type hj ho
  rcases getElem?_concat_eq_some.mp hj with hj | ⟨_, heq⟩
  · exact hgreatest j o type hj ho
  · exact Or.inl (hearlier o type heq ho)

theorem hasBind_concat_of_not_touches (hcall : ¬ call.Touches scope name offset) :
    HasBind (calls ++ [call]) scope name offset ↔ HasBind calls scope name offset := by
  constructor
  · rintro ⟨o, type, hmem, ho⟩
    rcases List.mem_append.mp hmem with hmem | hmem
    · exact ⟨o, type, hmem, ho⟩
    · exact absurd ⟨o, type, (List.mem_singleton.mp hmem).symm, ho⟩ hcall
  · rintro ⟨o, type, hmem, ho⟩
    exact ⟨o, type, List.mem_append_left _ hmem, ho⟩

/-- A call counts itself if nothing that counted before it has a greater offset. -/
theorem counts_concat_self (ho : o ≤ offset) (hbefore : ∀ (j o' : Nat) (type' : InferredType),
      calls[j]? = some (Call.bind scope name o' type') → o' ≤ offset → o' ≤ o) :
    Counts (calls ++ [Call.bind scope name o type]) scope name offset ⟨name, o, type⟩ := by
  refine ⟨rfl, ho, calls.length, by simp, ?_⟩
  intro j o' type' hj ho'
  change o' < o ∨ o' = o ∧ j ≤ calls.length
  rcases getElem?_concat_eq_some.mp hj with hj | ⟨rfl, heq⟩
  · have hlt : j < calls.length := (List.getElem?_eq_some_iff.mp hj).1
    have hle := hbefore j o' type' hj ho'
    omega
  · injection heq with _ _ heq _
    omega

/-! ## Section 4: The bindings of a forest represent its history -/

/-- The bindings of a scope are ordered, and the ones that count are those of the history. -/
structure Reflects (calls : List Call) (scope : Nat) (bindings : List Binding) : Prop where
  ordered : Ordered bindings
  counts : ∀ name offset b, latest bindings name offset = some b → Counts calls scope name offset b
  absent : ∀ name offset, latest bindings name offset = none → ¬ HasBind calls scope name offset

/-- The bindings of every scope reflect the history. -/
def Represents (calls : List Call) (forest : Forest) : Prop :=
  ∀ scope, Reflects calls scope (forest.bindingsOf scope)

theorem bindingsOf_nest (forest : Forest) (outer : Nat) (kind : ScopeKind) (range : Span)
    (scope : Nat) : (forest.nest outer kind range).bindingsOf scope = forest.bindingsOf scope := by
  unfold bindingsOf nest
  rcases Nat.lt_or_ge scope forest.scopes.length with hlt | hge
  · simp [List.getElem?_append_left hlt]
  · -- the new scope is the only one that may stand there, and it has no bindings
    rw [List.getElem?_append_right hge, List.getElem?_eq_none hge]
    cases scope - forest.scopes.length <;> simp

theorem bindingsOf_bind (forest : Forest) (hscope : scope < forest.next) (name : String)
    (offset : Nat) (type : InferredType) (s : Nat) :
    (forest.bind scope name offset type).bindingsOf s =
      if s = scope then insertBinding ⟨name, offset, type⟩ (forest.bindingsOf s)
      else forest.bindingsOf s := by
  unfold bindingsOf bind
  by_cases hs : s = scope
  · subst hs
    obtain ⟨found, hfound⟩ : ∃ found, forest.scopes[s]? = some found :=
      ⟨_, List.getElem?_eq_getElem hscope⟩
    simp [hfound]
  · simp [Ne.symm hs, hs]

theorem reflects_nil (scope : Nat) : Reflects [] scope [] := by
  refine ⟨List.Pairwise.nil, by simp [latest], ?_⟩
  rintro name offset _ ⟨_, _, hmem, _⟩
  cases hmem

theorem represents_ofSize (size : Nat) : Represents [] (ofSize size) := by
  intro scope
  have hnil : (ofSize size).bindingsOf scope = [] := by cases scope <;> simp [bindingsOf, ofSize]
  rw [hnil]
  exact reflects_nil scope

section

variable (h : Reflects calls scope bindings)
include h

/-- A call that binds nothing in a scope leaves its bindings as they are. -/
theorem Reflects.concat (hcall : ∀ name offset, ¬ call.Touches scope name offset) :
    Reflects (calls ++ [call]) scope bindings := by
  refine ⟨h.ordered, fun name offset b hb => ?_, fun name offset hnone => ?_⟩
  · exact (h.counts name offset b hb).concat fun o type heq ho =>
      absurd ⟨o, type, heq, ho⟩ (hcall name offset)
  · rw [hasBind_concat_of_not_touches (hcall name offset)]
    exact h.absent name offset hnone

/-- If the new binding counts, it is the one that the history makes count: whatever counted before
has no greater offset. -/
theorem Reflects.counts_self (ho : o ≤ offset)
    (hgreatest : ∀ old, latest bindings name offset = some old → old.offset ≤ o) :
    Counts (calls ++ [Call.bind scope name o type]) scope name offset ⟨name, o, type⟩ := by
  refine counts_concat_self ho ?_
  intro j o' type' hj ho'
  cases hold : latest bindings name offset with
  | none => exact absurd ⟨o', type', List.mem_of_getElem? hj, ho'⟩ (h.absent name offset hold)
  | some old =>
    -- the earlier call comes at or before the one that counted, which comes at or before this one
    obtain ⟨_, _, k, _, hall⟩ := h.counts name offset old hold
    have hle := hall j o' type' hj ho'
    have holdLe := hgreatest old hold
    omega

/-- In the scope that a call binds in, the bindings with the new one reflect the longer history. -/
theorem Reflects.bind (name : String) (o : Nat) (type : InferredType) :
    Reflects (calls ++ [Call.bind scope name o type]) scope
      (insertBinding ⟨name, o, type⟩ bindings) := by
  refine ⟨h.ordered.insertBinding _, fun n offset b hb => ?_, fun n offset hnone => ?_⟩
  · rw [latest_insertBinding h.ordered] at hb
    split at hb
    next hcond =>
      obtain ⟨⟨hoffset, rfl⟩, hgreatest⟩ := hcond
      cases hb
      exact h.counts_self hoffset hgreatest
    next hcond =>
      -- what counted before goes on counting, since the new call comes from an earlier offset
      refine (h.counts n offset b hb).concat ?_
      intro o' type' heq ho'
      obtain ⟨_, rfl, rfl, _⟩ := Call.bind.inj heq
      refine Nat.lt_of_not_le fun hle => hcond ⟨⟨ho', rfl⟩, ?_⟩
      intro old hold
      rwa [← Option.some.inj (hb.symm.trans hold)]
  · rw [latest_insertBinding h.ordered] at hnone
    split at hnone
    next => cases hnone
    next hcond =>
      rintro ⟨o', type', hmem, ho'⟩
      rcases List.mem_append.mp hmem with hmem | hmem
      · exact h.absent n offset hnone ⟨o', type', hmem, ho'⟩
      · obtain ⟨_, rfl, rfl, _⟩ := Call.bind.inj (List.mem_singleton.mp hmem)
        exact hcond ⟨⟨ho', rfl⟩, by simp [hnone]⟩

end

/-- **One call more** is represented. -/
theorem Represents.apply (h : Represents calls forest) (hscope : call.scope < forest.next) :
    Represents (calls ++ [call]) (forest.apply call) := by
  intro s
  cases call with
  | nest outer kind range =>
    rw [Forest.apply, bindingsOf_nest]
    refine (h s).concat ?_
    rintro name offset ⟨_, _, heq, _⟩
    cases heq
  | bind scope name offset type =>
    have hscope' : scope < forest.next := hscope
    rw [Forest.apply, bindingsOf_bind forest hscope']
    by_cases hs : s = scope
    · rw [if_pos hs, hs]
      exact (h scope).bind name offset type
    · rw [if_neg hs]
      refine (h s).concat ?_
      rintro n o ⟨_, _, heq, _⟩
      exact hs (Call.bind.inj heq).1.symm

/-- **A whole history** is represented by the forest that it makes. -/
theorem represents_replay {before : List Call} (hbefore : Represents before forest)
    (hcalls : Admissible calls forest) : Represents (before ++ calls) (replay calls forest) := by
  induction calls generalizing before forest with
  | nil => simpa [replay] using hbefore
  | cons call rest ih =>
    obtain ⟨hscope, hrest⟩ := hcalls
    have hstep := ih (hbefore.apply hscope) hrest
    rwa [List.append_assoc, List.singleton_append] at hstep

/-! ## Section 5: The list of visible bindings -/

/-- The names of bindings. -/
def names (bindings : List Binding) : List String := bindings.map Binding.name

theorem mem_names : name ∈ names bindings ↔ ∃ b ∈ bindings, b.name = name :=
  List.mem_map

theorem find?_supersede (b : Binding) (known : List Binding) (name : String) :
    (supersede b known).find? (fun k => k.name = name) =
      if b.name = name then some b else known.find? fun k => k.name = name := by
  induction known with
  | nil => by_cases hb : b.name = name <;> simp [supersede, hb]
  | cons k rest ih =>
    by_cases hk : k.name = b.name
    · by_cases hb : b.name = name <;> simp [supersede, hk, hb]
    · by_cases hname : k.name = name
      · have hb : b.name ≠ name := fun hb => hk (hname.trans hb.symm)
        simp [supersede, hname, hb, hb.symm]
      · simp [supersede, hk, hname, ih]

/-- The binding of a name that is listed in a scope is the one that counts there. -/
theorem find?_localAt (forest : Forest) (scope offset : Nat) (name : String) :
    (forest.localAt scope offset).find? (fun b => b.name = name) =
      forest.bindingIn? scope name offset := by
  unfold localAt bindingIn?
  -- from the end: the binding put in last is the one that a search from the back meets first
  induction forest.bindingsAt scope offset using List.reverseRecOn with
  | nil => rfl
  | append_singleton front b ih =>
    rw [List.foldl_concat, List.reverse_concat, find?_supersede, ih]
    by_cases hb : b.name = name <;> simp [hb]

/-- The binding of a name that counts in the first of some scopes that has one. -/
def firstBinding? (forest : Forest) (scopes : List Nat) (name : String) (offset : Nat) :
    Option Binding :=
  scopes.findSome? fun s => forest.bindingIn? s name offset

theorem name_of_firstBinding? (h : forest.firstBinding? scopes name offset = some b) :
    b.name = name := by
  obtain ⟨s, _, hs⟩ := List.exists_of_findSome?_eq_some h
  exact (latest_eq_some hs).2.1

/-- Scope after scope, the first binding of every name is listed. -/
theorem visible_eq_firstFree (forest : Forest) (scope offset : Nat) :
    forest.visible scope offset =
      firstFree Binding.name [] ((forest.chain scope).flatMap (forest.localAt · offset)) := by
  refine List.foldl_flatMap.symm.trans (foldl_eq_append_firstFree (fun known b => ?_) _ [])
  simp

theorem firstOfEach_visible (forest : Forest) (scope offset : Nat) :
    FirstOfEach Binding.name (· ∈ [])
      ((forest.chain scope).flatMap (forest.localAt · offset)) (forest.visible scope offset) := by
  rw [visible_eq_firstFree]
  exact firstOfEach_firstFree _ _ _

theorem nodup_visible (forest : Forest) (scope offset : Nat) :
    (names (forest.visible scope offset)).Nodup :=
  (forest.firstOfEach_visible scope offset).nodup

/-- **Listing** the visible bindings gives those that looking up their names finds. -/
theorem mem_visible_iff :
    b ∈ forest.visible scope offset ↔
      forest.firstBinding? (forest.chain scope) b.name offset = some b := by
  rw [(forest.firstOfEach_visible scope offset).mem_iff_find?, List.find?_flatMap]
  simp only [find?_localAt, List.not_mem_nil, not_false_eq_true, and_true]
  rfl

theorem lookup_eq_firstBinding? (forest : Forest) (scope : Nat) (name : String) (offset : Nat) :
    forest.lookup scope name offset =
      ((forest.firstBinding? (forest.chain scope) name offset).map Binding.type).getD .unknown :=
  rfl

/-- The list holds one binding of a name at most, which looking the name up finds. -/
theorem find?_visible (forest : Forest) (scope : Nat) (name : String) (offset : Nat) :
    (forest.visible scope offset).find? (fun b => b.name = name) =
      forest.firstBinding? (forest.chain scope) name offset := by
  cases hfound : (forest.visible scope offset).find? (fun b => b.name = name) with
  | some b =>
    have hname : b.name = name := by simpa using List.find?_some hfound
    have hb := mem_visible_iff.mp (List.mem_of_find?_eq_some hfound)
    rw [← hname, hb]
  | none =>
    cases hfirst : forest.firstBinding? (forest.chain scope) name offset with
    | none => rfl
    | some b =>
      have hname : b.name = name := name_of_firstBinding? hfirst
      have hb : b ∈ forest.visible scope offset := mem_visible_iff.mpr (hname ▸ hfirst)
      exact absurd hname (by simpa using List.find?_eq_none.mp hfound b hb)

/-! ## Section 6: Looking up and listing against the history -/

/-- `b` is what the history makes of a name at an offset, seen from a scope: it counts in a scope of
the chain, and no scope further in binds the name at or before the offset. -/
def Governs (calls : List Call) (chain : List Nat) (name : String) (offset : Nat) (b : Binding) :
    Prop :=
  ∃ inner s outer, chain = inner ++ s :: outer ∧ (∀ t ∈ inner, ¬ HasBind calls t name offset) ∧
    Counts calls s name offset b

section

variable (h : Represents calls forest)
include h

theorem Represents.bindingIn?_eq_some_iff :
    forest.bindingIn? scope name offset = some b ↔ Counts calls scope name offset b := by
  rw [bindingIn?_eq_latest]
  constructor
  · exact (h scope).counts name offset b
  · intro hcounts
    cases hlatest : latest (forest.bindingsOf scope) name offset with
    | none => exact absurd hcounts.hasBind ((h scope).absent name offset hlatest)
    | some a => rw [((h scope).counts name offset a hlatest).unique hcounts]

theorem Represents.bindingIn?_eq_none_iff :
    forest.bindingIn? scope name offset = none ↔ ¬ HasBind calls scope name offset := by
  rw [bindingIn?_eq_latest]
  constructor
  · exact (h scope).absent name offset
  · intro hnone
    cases hlatest : latest (forest.bindingsOf scope) name offset with
    | none => rfl
    | some a => exact absurd ((h scope).counts name offset a hlatest).hasBind hnone

theorem Represents.firstBinding?_eq_some_iff :
    forest.firstBinding? scopes name offset = some b ↔ Governs calls scopes name offset b := by
  unfold firstBinding? Governs
  rw [List.findSome?_eq_some_iff]
  simp only [h.bindingIn?_eq_some_iff, h.bindingIn?_eq_none_iff]
  constructor
  · rintro ⟨inner, s, outer, hchain, hcounts, hinner⟩
    exact ⟨inner, s, outer, hchain, hinner, hcounts⟩
  · rintro ⟨inner, s, outer, hchain, hinner, hcounts⟩
    exact ⟨inner, s, outer, hchain, hcounts, hinner⟩

theorem Represents.firstBinding?_eq_none_iff :
    forest.firstBinding? scopes name offset = none ↔
      ∀ s ∈ scopes, ¬ HasBind calls s name offset := by
  unfold firstBinding?
  rw [List.findSome?_eq_none_iff]
  simp only [h.bindingIn?_eq_none_iff]

/-- What a forest answers at a scope and an offset is what the history of calls says. -/
structure Answers (calls : List Call) (forest : Forest) (scope offset : Nat) : Prop where
  /-- The way out leads through the scopes in which the calls opened the scopes. -/
  chain : ∀ s, forest.chain s = s :: ((openedIn? calls s).map forest.chain).getD []
  /-- A name that some scope of the chain binds has the type of the binding that counts in the
  innermost one. -/
  bound : ∀ name b, Governs calls (forest.chain scope) name offset b →
    forest.lookup scope name offset = b.type
  /-- A name that no scope of the chain binds has no known type. -/
  unbound : ∀ name, (∀ s ∈ forest.chain scope, ¬ HasBind calls s name offset) →
    forest.lookup scope name offset = .unknown
  /-- The visible bindings are those that count in the innermost scope. -/
  listed : ∀ b, b ∈ forest.visible scope offset ↔
    Governs calls (forest.chain scope) b.name offset b
  /-- The names listed are those that some scope of the chain binds, -/
  covers : ∀ name, name ∈ names (forest.visible scope offset) ↔
    ∃ s ∈ forest.chain scope, HasBind calls s name offset
  /-- each of them once. -/
  once : (names (forest.visible scope offset)).Nodup
  /-- Looking up a name gives the type under which it is listed. -/
  agree : ∀ name, forest.lookup scope name offset =
    (((forest.visible scope offset).find? fun b => b.name = name).map Binding.type).getD .unknown

theorem Represents.mem_names_visible :
    name ∈ names (forest.visible scope offset) ↔
      ∃ s ∈ forest.chain scope, HasBind calls s name offset := by
  constructor
  · intro hmem
    obtain ⟨b, hb, hname⟩ := mem_names.mp hmem
    obtain ⟨inner, s, outer, hchain, _, hcounts⟩ :=
      h.firstBinding?_eq_some_iff.mp (mem_visible_iff.mp hb)
    exact ⟨s, by rw [hchain]; simp, hname ▸ hcounts.hasBind⟩
  · rintro ⟨s, hs, hbind⟩
    cases hfirst : forest.firstBinding? (forest.chain scope) name offset with
    | none => exact absurd hbind (h.firstBinding?_eq_none_iff.mp hfirst s hs)
    | some b =>
      have hname : b.name = name := name_of_firstBinding? hfirst
      exact mem_names.mpr ⟨b, mem_visible_iff.mpr (hname ▸ hfirst), hname⟩

end

/-- **Looking up and listing follow the history.** After any calls that open scopes and bind
variables, in any order of offsets, a name has the type of the call with the greatest offset at or
before the one asked for, the latest of equal ones, in the innermost scope of the chain that has
such a call; and the visible bindings are exactly these, one for each name. -/
theorem replay_answers_history (size : Nat) (calls : List Call)
    (h : Admissible calls (ofSize size)) (scope offset : Nat) :
    Answers calls (replay calls (ofSize size)) scope offset := by
  have hrep : Represents calls (replay calls (ofSize size)) :=
    represents_replay (represents_ofSize size) h
  have hwf := (WellFormed.ofSize size).replay h
  refine ⟨fun s => ?_, fun name b hb => ?_, fun name hnone => ?_, fun b => ?_, fun name => ?_,
    nodup_visible _ _ _, fun name => ?_⟩
  · rw [← parentOf?_replay_ofSize size]
    exact hwf.chain_eq s
  · rw [lookup_eq_firstBinding?, hrep.firstBinding?_eq_some_iff.mpr hb]
    rfl
  · rw [lookup_eq_firstBinding?, hrep.firstBinding?_eq_none_iff.mpr hnone]
    rfl
  · rw [mem_visible_iff, hrep.firstBinding?_eq_some_iff]
  · exact hrep.mem_names_visible
  · rw [find?_visible, lookup_eq_firstBinding?]

/-- A history with offsets out of order, two calls at one offset and a name bound in two scopes. -/
def shadowing : List Call :=
  [.bind 0 "$a" 5 (.scalar "int"), .nest 0 .function ⟨10, 50⟩, .bind 1 "$a" 30 (.scalar "bool"),
    .bind 1 "$a" 20 (.scalar "string"), .bind 0 "$b" 60 (.scalar "int"),
    .bind 1 "$a" 20 (.scalar "float"), .bind 0 "$b" 7 (.scalar "array")]

theorem replay_answers_shadowing :
    Admissible shadowing (ofSize 100) ∧
      (replay shadowing (ofSize 100)).visible 1 25 =
        [⟨"$a", 20, .scalar "float"⟩, ⟨"$b", 7, .scalar "array"⟩] ∧
      Answers shadowing (replay shadowing (ofSize 100)) 1 25 :=
  ⟨by decide, by decide, replay_answers_history 100 shadowing (by decide) 1 25⟩

end CodeInsight.Forest
