import CodeInsight.Proofs.WalkRecord

/-!
# Two walks side by side

Two settings that read the same text may find different classes and so infer different types. A
`view` of types says how much of a type is looked at: all of it, or nothing. If the two settings
infer types that look alike, then two walks through one program that start from forests that look
alike end in forests that look alike. Scopes and their ranges, and the names, offsets and order of
the bindings, are the same in both.

## Main Results

- `retype_bind`, `retype_nest`: one call on two forests that look alike
- `visible_retype`: the list of visible bindings, types apart
- `act_alike`, `run_alike`: one act of a walk, and many of them
- `retype_ofProgram`: two walks through one program
- `parallel_blind`: other classes change nothing but types
- `parallel_id`: another spelling of the path changes nothing
-/

namespace CodeInsight

open Grammar Scope

/-- A binding with its type seen through a view. -/
def Binding.retype (view : InferredType → InferredType) (b : Binding) : Binding :=
  { b with type := view b.type }

namespace Forest

/-- A forest with all types seen through a view. -/
def retype (view : InferredType → InferredType) (forest : Forest) : Forest :=
  ⟨forest.scopes.map fun s => { s with bindings := s.bindings.map (Binding.retype view) }⟩

variable {view : InferredType → InferredType}

/-! ## Section 1: Calls -/

theorem map_insertBinding (b : Binding) (bindings : List Binding) :
    (insertBinding b bindings).map (Binding.retype view) =
      insertBinding (b.retype view) (bindings.map (Binding.retype view)) := by
  unfold insertBinding
  rw [List.takeWhile_map, List.dropWhile_map, List.map_append, List.map_cons]
  -- the place of a binding depends on offsets alone, and a view keeps these
  rfl

theorem retype_bind (forest : Forest) (scope : Nat) (name : String) (offset : Nat)
    (type : InferredType) :
    (forest.bind scope name offset type).retype view =
      (forest.retype view).bind scope name offset (view type) := by
  unfold retype Forest.bind
  congr 1
  apply List.ext_getElem?
  intro i
  simp only [List.getElem?_map, List.getElem?_modify]
  by_cases hi : scope = i
  · cases forest.scopes[i]? <;> simp [hi, map_insertBinding, Binding.retype]
  · cases forest.scopes[i]? <;> simp [hi]

theorem retype_nest (forest : Forest) (outer : Nat) (kind : ScopeKind) (range : Span) :
    (forest.nest outer kind range).retype view = (forest.retype view).nest outer kind range := by
  unfold retype nest
  simp only [List.map_append, List.map_cons, List.map_nil, List.getElem?_map]
  cases forest.scopes[outer]? <;> rfl

theorem bind_alike {a b : Forest} (h : a.retype view = b.retype view) (scope : Nat)
    (name : String) (offset : Nat) {type type' : InferredType} (htype : view type = view type') :
    (a.bind scope name offset type).retype view = (b.bind scope name offset type').retype view := by
  rw [retype_bind, retype_bind, h, htype]

theorem nest_alike {a b : Forest} (h : a.retype view = b.retype view) (outer : Nat)
    (kind : ScopeKind) (range : Span) :
    (a.nest outer kind range).retype view = (b.nest outer kind range).retype view := by
  rw [retype_nest, retype_nest, h]

/-! ## Section 2: Questions -/

theorem parentOf?_retype (forest : Forest) (scope : Nat) :
    (forest.retype view).parentOf? scope = forest.parentOf? scope := by
  unfold parentOf? retype
  rw [List.getElem?_map]
  cases forest.scopes[scope]? <;> rfl

theorem chain_retype (forest : Forest) (scope : Nat) :
    (forest.retype view).chain scope = forest.chain scope := by
  have hfrom : ∀ fuel scope, (forest.retype view).chainFrom fuel scope =
      forest.chainFrom fuel scope := by
    intro fuel
    induction fuel with
    | zero => intro scope; rfl
    | succ fuel ih =>
      intro scope
      rw [chainFrom_succ, chainFrom_succ, parentOf?_retype]
      cases forest.parentOf? scope with
      | none => rfl
      | some outer => simp only [ih]
  exact hfrom (scope + 1) scope

theorem scopeAt_retype (forest : Forest) (offset : Nat) :
    (forest.retype view).scopeAt offset = forest.scopeAt offset := by
  unfold scopeAt retype
  rw [List.zipIdx_map, List.foldl_map]
  rfl

theorem bindingsAt_retype (forest : Forest) (scope offset : Nat) :
    (forest.retype view).bindingsAt scope offset =
      (forest.bindingsAt scope offset).map (Binding.retype view) := by
  unfold bindingsAt retype
  rw [List.getElem?_map]
  cases forest.scopes[scope]? with
  | none => rfl
  | some s =>
    simp only [Option.map_some, Option.getD_some]
    rw [List.filter_map]
    rfl

theorem bindingIn?_retype (forest : Forest) (scope : Nat) (name : String) (offset : Nat) :
    (forest.retype view).bindingIn? scope name offset =
      (forest.bindingIn? scope name offset).map (Binding.retype view) := by
  unfold bindingIn?
  rw [bindingsAt_retype, ← List.map_reverse, List.find?_map]
  rfl

theorem firstBinding?_retype (forest : Forest) (scopes : List Nat) (name : String) (offset : Nat) :
    (forest.retype view).firstBinding? scopes name offset =
      (forest.firstBinding? scopes name offset).map (Binding.retype view) := by
  unfold firstBinding?
  rw [List.map_findSome?]
  congr 1
  funext s
  exact bindingIn?_retype forest s name offset

/-- Looking up a variable in two forests that look alike gives types that look alike. -/
theorem lookup_alike {a b : Forest} (h : a.retype view = b.retype view) (scope : Nat)
    (name : String) (offset : Nat) :
    view (a.lookup scope name offset) = view (b.lookup scope name offset) := by
  have hseen : ∀ f : Forest, view (f.lookup scope name offset) =
      (((f.retype view).firstBinding? ((f.retype view).chain scope) name offset).map
        Binding.type).getD (view .unknown) := by
    intro f
    rw [lookup_eq_firstBinding?, firstBinding?_retype, chain_retype]
    cases f.firstBinding? (f.chain scope) name offset <;> rfl
  rw [hseen, hseen, h]

theorem map_supersede (b : Binding) (known : List Binding) :
    (supersede b known).map (Binding.retype view) =
      supersede (b.retype view) (known.map (Binding.retype view)) := by
  induction known with
  | nil => rfl
  | cons k rest ih =>
    by_cases hk : k.name = b.name
    · simp [supersede, Binding.retype, hk]
    · simpa [supersede, Binding.retype, hk] using ih

theorem localAt_retype (forest : Forest) (scope offset : Nat) :
    (forest.retype view).localAt scope offset =
      (forest.localAt scope offset).map (Binding.retype view) := by
  unfold localAt
  rw [bindingsAt_retype, List.foldl_map]
  exact @List.foldl_hom _ _ _ (List.map (Binding.retype view)) _ _ _ []
    fun known b => (map_supersede b known).symm

/-- **The visible bindings**, types apart, are those of a forest that looks alike. -/
theorem visible_retype (forest : Forest) (scope offset : Nat) :
    (forest.retype view).visible scope offset =
      (forest.visible scope offset).map (Binding.retype view) := by
  simp only [visible_eq_firstFree, chain_retype, localAt_retype, ← List.map_flatMap]
  exact firstFree_map (Binding.retype view) [] _

/-! ## Section 3: Two walks

A walk through a program acts out what is told by the program and by the reading of its text. Two
settings with one reading act out the same. -/

/-- Two settings read one text in the same way, and the types that they infer look alike. -/
structure Parallel (view : InferredType → InferredType) (a b : Setting) : Prop where
  text : a.text = b.text
  reading : a.reading = b.reading
  infer : ∀ {f g : Forest}, f.retype view = g.retype view → ∀ scope frame e,
    view (a.infer f scope frame e) = view (b.infer g scope frame e)

theorem act_alike {a b : Setting} (hab : Parallel view a b) (act : Act) {f g : Forest}
    (h : f.retype view = g.retype view) :
    (f.apply (act.call a f)).retype view = (g.apply (act.call b g)).retype view := by
  cases act with
  | opened outer kind range => exact nest_alike h outer kind range
  | given scope name offset type => exact bind_alike h scope name offset rfl
  | assigned scope frame name offset value =>
    exact bind_alike h scope name offset (hab.infer h scope frame value)
  | captured outer inner name outside offset =>
    exact bind_alike h inner name offset (lookup_alike h outer name outside)

theorem run_alike {a b : Setting} (hab : Parallel view a b) (acts : List Act) {f g : Forest}
    (h : f.retype view = g.retype view) :
    (run a acts f).retype view = (run b acts g).retype view := by
  induction acts generalizing f g with
  | nil => exact h
  | cons act rest ih => exact ih (act_alike hab act h)

/-- **Two walks through one program** end in forests that look alike. -/
theorem retype_ofProgram {a b : Setting} (hab : Parallel view a b) (program : List Stmt) :
    (ofProgram a program).retype view = (ofProgram b program).retype view := by
  unfold ofProgram
  rw [(recorded_stmts a fileScope none program).walk_eq,
    (recorded_stmts b fileScope none program).walk_eq, hab.reading, hab.text]
  exact run_alike hab _ rfl

/-! ## Section 4: Settings of one file

The path of a file has no part in a walk, whatever its spelling. -/

/-- Nothing of a type is looked at. -/
def blind (_ : InferredType) : InferredType := .unknown

theorem context_respelled (lookup lookup' : Lookup) (file : FileModel) (path : String)
    (text : Text) (frame : Frame) (offset : Nat) :
    Setting.context ⟨lookup, file, text⟩ frame offset =
      Setting.context ⟨lookup', { file with path }, text⟩ frame offset := by
  cases frame <;> rfl

theorem reading_respelled (lookup lookup' : Lookup) (file : FileModel) (path : String)
    (text : Text) :
    Setting.reading ⟨lookup, file, text⟩ = Setting.reading ⟨lookup', { file with path }, text⟩ := by
  simp only [Setting.reading, context_respelled lookup lookup' file path text]
  rfl

/-- Whatever classes are found, two walks through one file are alike but for the types. -/
theorem parallel_blind (lookup lookup' : Lookup) (file : FileModel) (path : String) (text : Text) :
    Parallel blind ⟨lookup, file, text⟩ ⟨lookup', { file with path }, text⟩ where
  text := rfl
  reading := reading_respelled lookup lookup' file path text
  infer := fun _ _ _ _ => rfl

theorem infer_congr {a b : Setting} (hlookup : a.lookup = b.lookup)
    (hcontext : ∀ frame offset, a.context frame offset = b.context frame offset)
    (forest : Forest) (scope : Nat) (frame : Frame) (e : Expr) :
    a.infer forest scope frame e = b.infer forest scope frame e := by
  have hreference : ∀ offset e,
      a.classReference frame offset e = b.classReference frame offset e := by
    intro offset e
    cases e with
    | name => simp only [Setting.classReference, hcontext]
    | classWord span word => cases word <;> simp only [Setting.classReference, hcontext]
    | _ => rfl
  have hfetched : ∀ type e, a.fetched type e = b.fetched type e := by
    intro type e
    cases e <;> simp only [Setting.fetched, hlookup]
  have hcalled : ∀ type e, a.called type e = b.called type e := by
    intro type e
    cases e <;> simp only [Setting.called, hlookup]
  fun_induction Setting.infer a forest scope frame e <;> simp_all [Setting.infer]

theorem retype_id (forest : Forest) : forest.retype id = forest := by
  have hid : Binding.retype id = id := rfl
  simp [retype, hid]

/-- Two walks that find the same classes are the same. -/
theorem parallel_id (lookup : Lookup) (file : FileModel) (path : String) (text : Text) :
    Parallel id ⟨lookup, file, text⟩ ⟨lookup, { file with path }, text⟩ where
  text := rfl
  reading := reading_respelled lookup lookup file path text
  infer := by
    intro f g h scope frame e
    rw [retype_id, retype_id] at h
    rw [h]
    apply congrArg id
    apply infer_congr
    · rfl
    · exact context_respelled lookup lookup file path text

end Forest

end CodeInsight
