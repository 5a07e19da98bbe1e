import CodeInsight.Proofs.ForestHistory
import CodeInsight.Scope.Build

/-!
# The acts of a walk

A walk through a program does a few things only: it opens scopes and binds variables, some to types
that are told by the place, some to types that are read off the bindings made so far. The acts of a
walk follow from the parse tree alone. Acting them out one after the other, each on the forest that
the ones before it have made, is what the walk does.

## Main Results

- `actsIn`: the acts of a walk through statements
- `next_run`: how many scopes there are after some acts
- `bindParams_eq_run`, `bindTarget_eq_run` and the like: variables bound by the place
-/

namespace CodeInsight.Scope

open Grammar Forest

/-! ## Section 1: Acts -/

/-- What a walk does to a forest at a time. Scopes are known by their positions. -/
inductive Act where
  | opened (outer : Nat) (kind : ScopeKind) (range : Span)
  /-- A variable is bound to a type that the place tells. -/
  | given (scope : Nat) (name : String) (offset : Nat) (type : InferredType)
  /-- A variable is bound to the type of a value. -/
  | assigned (scope : Nat) (frame : Frame) (name : String) (offset : Nat) (value : Expr)
  /-- A variable of a closure is bound to the type that it has outside. -/
  | captured (outer inner : Nat) (name : String) (outside offset : Nat)

namespace Act

/-- The call that an act comes to if a forest tells the types. -/
def call (s : Setting) (forest : Forest) : Act → Call
  | opened outer kind range => .nest outer kind range
  | given scope name offset type => .bind scope name offset type
  | assigned scope frame name offset value =>
    .bind scope name offset (s.infer forest scope frame value)
  | captured outer inner name outside offset =>
    .bind inner name offset (forest.lookup outer name outside)

/-- The number of scopes that an act opens. -/
def opens : Act → Nat
  | opened _ _ _ => 1
  | _ => 0

/-- The scope that an act opens, with its range as it is asked for. -/
def opened? : Act → Option Scope
  | opened outer kind range => some ⟨kind, range, some outer, []⟩
  | _ => none

/-- The value that an act assigns to a variable. -/
def value? : Act → Option Expr
  | assigned _ _ _ _ value => some value
  | _ => none

/-- The scopes that must be there for an act. -/
def scopes : Act → List Nat
  | opened outer _ _ => [outer]
  | given scope _ _ _ => [scope]
  | assigned scope _ _ _ _ => [scope]
  | captured outer inner _ _ _ => [outer, inner]

end Act

/-- The forest after some acts. Each of them sees the forest that the ones before it have made. -/
def run (s : Setting) (acts : List Act) (forest : Forest) : Forest :=
  acts.foldl (fun forest act => forest.apply (act.call s forest)) forest

/-- The number of scopes that some acts open. -/
def opens : List Act → Nat
  | [] => 0
  | act :: rest => act.opens + opens rest

/-- Acts open as many scopes as their two parts do. -/
theorem opens_append (acts more : List Act) : opens (acts ++ more) = opens acts + opens more := by
  induction acts with
  | nil => exact (Nat.zero_add _).symm
  | cons act rest ih => rw [List.cons_append, opens, opens, ih, Nat.add_assoc]

/-- There is one scope for each act that opens one. -/
theorem length_filterMap_opened? (acts : List Act) :
    (acts.filterMap Act.opened?).length = opens acts := by
  induction acts with
  | nil => rfl
  | cons act rest ih =>
    cases act with
    -- acts that bind variables count on neither side
    | opened outer kind range =>
      rw [opens, Nat.add_comm]
      exact congrArg Nat.succ ih
    | _ => exact ih.trans (Nat.zero_add _).symm

theorem filterMap_opened?_eq_nil {acts : List Act} (h : opens acts = 0) :
    acts.filterMap Act.opened? = [] := by
  apply List.eq_nil_of_length_eq_zero
  rw [length_filterMap_opened?, h]

/-- Acting out two lists of acts, the second on what the first has made. -/
theorem run_append (s : Setting) (acts more : List Act) (forest : Forest) :
    run s (acts ++ more) forest = run s more (run s acts forest) :=
  List.foldl_append

/-- An act that opens a scope is the only one after which there is a scope more. -/
theorem next_act (s : Setting) (act : Act) (forest : Forest) :
    (forest.apply (act.call s forest)).next = forest.next + act.opens := by
  cases act with
  | opened outer kind range => exact next_nest forest outer kind range
  | _ => exact next_bind forest _ _ _ _

/-- **The number of scopes** after some acts is told by the acts alone, whatever they bind. -/
theorem next_run (s : Setting) (acts : List Act) (forest : Forest) :
    (run s acts forest).next = forest.next + opens acts := by
  induction acts generalizing forest with
  | nil => rfl
  | cons act rest ih =>
    rw [opens, ← Nat.add_assoc, ← next_act s act forest]
    exact ih _

/-! ## Section 2: The acts of a walk -/

/-- What a walk takes from the file that it goes through: types that stand in the text, and the
classes that the file declares. -/
structure Reading where
  /-- The type of a parameter. -/
  param : Frame → Nat → Param → InferredType
  /-- The type of an exception that a handler names. -/
  exception : Frame → Nat → Span → InferredType
  /-- The class whose name stands at a place. -/
  classNamed? : Span → Frame

def Setting.reading (s : Setting) : Reading where
  param frame offset p := s.paramType (s.context frame offset) p
  exception frame offset hint :=
    TypeHint.read (Extract.hintText s.text hint) (s.context frame offset)
  classNamed? := s.classNamed?

mutual

/-- The variables of an assignment target, those in nested lists included. -/
def targetNames : Expr → List String
  | .variable _ name => [name]
  | .array _ .brackets elements => elementNames elements
  | .array _ .listWord elements => elementNames elements
  | _ => []

def elementNames : List Element → List String
  | [] => []
  | e :: rest => elementName e ++ elementNames rest

def elementName : Element → List String
  | .item value => targetNames value
  | .pair _ value => targetNames value
  | _ => []

end

/-- Variables of unknown types. -/
def givenNames (scope offset : Nat) (names : List String) : List Act :=
  names.map fun name => .given scope name offset .unknown

def givenParams (reading : Reading) (scope offset : Nat) (frame : Frame) (params : List Param) :
    List Act :=
  params.map fun p => .given scope p.name offset (reading.param frame offset p)

/-- The receiver of a method. A static method has none. -/
def givenThis (scope offset : Nat) (modifiers : List Modifier) (frame : Frame) : List Act :=
  match frame with
  | some c =>
    if modifiers.contains .isStatic then [] else [.given scope "$this" offset (.ofClass c.name)]
  | none => []

def givenException (reading : Reading) (scope offset : Nat) (frame : Frame) (hint : Span) :
    Option Name → List Act
  | some name => [.given scope name.text offset (reading.exception frame offset hint)]
  | none => []

/-- The variables that a closure takes from outside. -/
def takenCaptures (outer inner outside offset : Nat) (captures : List Name) : List Act :=
  captures.map fun c => .captured outer inner c.text outside offset

mutual

/-- The acts of a walk through an expression, if the next scope gets the position `next`. -/
def actsByExpr (reading : Reading) (scope : Nat) (frame : Frame) : Expr → Nat → List Act
  | .assign span target value, next =>
    -- the value comes first, and the variable is visible from the end of the assignment on
    actsByExpr reading scope frame value next ++ match target with
      | .variable _ name => [.assigned scope frame name span.stop value]
      | _ => givenNames scope span.stop (targetNames target)
  | .closure span params captures braces body, next =>
    -- what the closure takes along is looked up outside of it, where it begins
    .opened scope .closure braces ::
      (givenParams reading next braces.start frame params ++
          takenCaptures scope next span.start braces.start captures ++
        actsIn reading next frame body (next + 1))
  | .arrow span params body, next =>
    .opened scope .arrowFunction span ::
      (givenParams reading next span.start frame params ++
        actsByExpr reading next frame body (next + 1))
  | .group _ inner, next => actsByExpr reading scope frame inner next
  | .call _ _ args, next => actsByExprs reading scope frame args next
  | .methodCall _ object _ args, next =>
    let found := actsByExpr reading scope frame object next
    found ++ actsByExprs reading scope frame args (next + opens found)
  | .staticCall _ _ _ args, next | .new _ _ args, next => actsByExprs reading scope frame args next
  | .array _ style elements, next =>
    match style with
    | .listWord => []
    | _ => actsByElements reading scope frame elements next
  | .fetch _ _ object _, next | .clone _ object, next => actsByExpr reading scope frame object next
  | .operation _ _ operands, next => actsByExprs reading scope frame operands next
  | _, _ => []

def actsByExprs (reading : Reading) (scope : Nat) (frame : Frame) : List Expr → Nat → List Act
  | [], _ => []
  | e :: rest, next =>
    let found := actsByExpr reading scope frame e next
    found ++ actsByExprs reading scope frame rest (next + opens found)

def actsByElements (reading : Reading) (scope : Nat) (frame : Frame) : List Element → Nat → List Act
  | [], _ => []
  | e :: rest, next =>
    let found := actsByElement reading scope frame e next
    found ++ actsByElements reading scope frame rest (next + opens found)

def actsByElement (reading : Reading) (scope : Nat) (frame : Frame) : Element → Nat → List Act
  | .item value, next => actsByExpr reading scope frame value next
  | .pair key value, next =>
    let found := actsByExpr reading scope frame key next
    found ++ actsByExpr reading scope frame value (next + opens found)
  | .spread value, next => actsByExpr reading scope frame value next
  | .hole, _ => []

/-- The acts of a walk through a statement. -/
def actsByStmt (reading : Reading) (scope : Nat) (frame : Frame) : Stmt → Nat → List Act
  | .namespaceDecl _ _ _ body, next => actsIn reading scope none body next
  | .classLike _ head members, next =>
    -- the methods of an enum have no receiver
    let frame := match head.form with
      | .isEnum => none
      | _ => reading.classNamed? head.name.span
    actsByMembers reading scope frame members next
  | .function _ _ params braces body, next =>
    .opened scope .function braces ::
      (givenParams reading next braces.start frame params ++
        actsIn reading next frame body (next + 1))
  | .expression _ value, next => actsByExpr reading scope frame value next
  | .block _ body, next => actsIn reading scope frame body next
  | .branch _ condition yes no, next =>
    let found := actsByExpr reading scope frame condition next
    let found := found ++ actsIn reading scope frame yes (next + opens found)
    found ++ actsIn reading scope frame no (next + opens found)
  | .foreach _ subject key value bodyStart body, next =>
    -- the variables of the loop are visible from its body on
    let found := actsByExpr reading scope frame subject next
    found ++ (givenNames scope bodyStart ((key.map targetNames).getD [] ++ targetNames value) ++
      actsIn reading scope frame body (next + opens found))
  | .loop _ _ header body footer, next =>
    let found := actsByExprs reading scope frame header next
    let found := found ++ actsIn reading scope frame body (next + opens found)
    found ++ actsByExprs reading scope frame footer (next + opens found)
  | .evaluate _ _ values, next => actsByExprs reading scope frame values next
  | .attempt _ body handlers cleanup, next =>
    let found := actsIn reading scope frame body next
    let found := found ++ actsIn reading scope frame handlers (next + opens found)
    found ++ actsIn reading scope frame cleanup (next + opens found)
  | .handler _ hint bound braces body, next =>
    givenException reading scope braces.start frame hint bound ++
      actsIn reading scope frame body next
  | .switch _ subject cases, next =>
    let found := actsByExpr reading scope frame subject next
    found ++ actsIn reading scope frame cases (next + opens found)
  | .switchCase _ _ body, next => actsIn reading scope frame body next
  | .globals span named, _ =>
    givenNames scope span.stop ((named.filterMap directVariable?).map Name.text)
  | .statics span names _, _ => givenNames scope span.stop (names.map Name.text)
  | _, _ => []

/-- The acts of a walk through a list of statements. -/
def actsIn (reading : Reading) (scope : Nat) (frame : Frame) : List Stmt → Nat → List Act
  | [], _ => []
  | t :: rest, next =>
    let found := actsByStmt reading scope frame t next
    found ++ actsIn reading scope frame rest (next + opens found)

def actsByMember (reading : Reading) (scope : Nat) (frame : Frame) : Member → Nat → List Act
  | .method _ modifiers _ params _ braces body, next =>
    match braces with
    | some braces =>
      .opened scope .method braces ::
        (givenThis next braces.start modifiers frame ++
            givenParams reading next braces.start frame params ++
          actsIn reading next frame body (next + 1))
    | none => []
  | _, _ => []

def actsByMembers (reading : Reading) (scope : Nat) (frame : Frame) : List Member → Nat → List Act
  | [], _ => []
  | m :: rest, next =>
    let found := actsByMember reading scope frame m next
    found ++ actsByMembers reading scope frame rest (next + opens found)

end

/-! ## Section 3: Variables bound by the place -/

/-- Parameters are bound by one act each, with the types that stand in the text. -/
theorem bindParams_eq_run (s : Setting) (scope offset : Nat) (frame : Frame) (params : List Param)
    (forest : Forest) :
    s.bindParams scope offset frame params forest =
      run s (givenParams s.reading scope offset frame params) forest := by
  unfold run givenParams
  rw [List.foldl_map]
  rfl

/-- Names without a type, as those of `global`, are bound by one act each. -/
theorem bindNames_eq_run (s : Setting) (scope offset : Nat) (names : List Name)
    (forest : Forest) :
    bindNames scope offset names forest =
      run s (givenNames scope offset (names.map Name.text)) forest := by
  unfold run givenNames
  rw [List.foldl_map, List.foldl_map]
  rfl

/-- The variables that a closure takes along have the types that they have outside. -/
theorem bindCaptures_eq_run (s : Setting) (outer inner outside offset : Nat)
    (captures : List Name) (forest : Forest) :
    bindCaptures outer inner outside offset captures forest =
      run s (takenCaptures outer inner outside offset captures) forest := by
  unfold run takenCaptures
  rw [List.foldl_map]
  rfl

/-- `$this` is bound in methods of a class, unless they are static. -/
theorem bindThis_eq_run (s : Setting) (scope offset : Nat) (modifiers : List Modifier)
    (frame : Frame) (forest : Forest) :
    bindThis scope offset modifiers frame forest =
      run s (givenThis scope offset modifiers frame) forest := by
  unfold bindThis givenThis
  -- outside of classes there is no object
  cases frame with
  | none => rfl
  | some c =>
    dsimp only
    split <;> rfl

/-- What a handler catches is bound to the type that it names. -/
theorem bindException_eq_run (s : Setting) (scope offset : Nat) (frame : Frame) (hint : Span)
    (name : Name) (forest : Forest) :
    forest.bind scope name.text offset
        (TypeHint.read (Extract.hintText s.text hint) (s.context frame offset)) =
      run s (givenException s.reading scope offset frame hint (some name)) forest := by
  simp only [run, givenException, Setting.reading, List.foldl_cons, List.foldl_nil, Act.call]
  rfl

theorem givenNames_append (scope offset : Nat) (names more : List String) :
    givenNames scope offset (names ++ more) =
      givenNames scope offset names ++ givenNames scope offset more :=
  List.map_append

mutual

/-- The target of an assignment binds a variable, or the variables that an array is taken apart
into. -/
theorem bindTarget_eq_run (s : Setting) (scope offset : Nat) (e : Expr) (forest : Forest) :
    bindTarget scope offset e forest =
      run s (givenNames scope offset (targetNames e)) forest := by
  cases e with
  -- `array(...)` is no target, unlike `[...]` and `list(...)`
  | array span style elements =>
    cases style with
    | brackets | listWord => exact bindElements_eq_run s scope offset elements forest
    | arrayWord => rfl
  | _ => rfl

/-- Elements bind their variables one after the other. -/
theorem bindElements_eq_run (s : Setting) (scope offset : Nat) (es : List Element)
    (forest : Forest) :
    bindElements scope offset es forest =
      run s (givenNames scope offset (elementNames es)) forest := by
  cases es with
  | nil => rfl
  | cons e rest =>
    rw [bindElements, elementNames, givenNames_append, run_append,
      bindElements_eq_run s scope offset rest, bindElement_eq_run s scope offset e forest]

theorem bindElement_eq_run (s : Setting) (scope offset : Nat) (e : Element) (forest : Forest) :
    bindElement scope offset e forest =
      run s (givenNames scope offset (elementName e)) forest := by
  cases e with
  | item value | pair key value => exact bindTarget_eq_run s scope offset value forest
  | spread value => rfl
  | hole => rfl

end

variable {reading : Reading}

section

variable {offset scope : Nat} {act : Act} {frame : Frame}

/-- An act that binds in a scope from an offset on, and asks for nothing. -/
def Act.GivenAt (scope offset : Nat) (act : Act) : Prop :=
  ∃ name type, act = .given scope name offset type

/-- An act by which a variable comes into a new scope: from the offset on where its body begins, and
with a type that is given or that it has outside. -/
def Act.Enters (outer inner outside offset : Nat) (act : Act) : Prop :=
  act.GivenAt inner offset ∨ ∃ name, act = .captured outer inner name outside offset

theorem Act.GivenAt.opens_eq_zero (h : act.GivenAt scope offset) : act.opens = 0 := by
  obtain ⟨name, type, rfl⟩ := h
  rfl

theorem Act.GivenAt.value?_eq_none (h : act.GivenAt scope offset) : act.value? = none := by
  obtain ⟨name, type, rfl⟩ := h
  rfl

/-- Variables that come into a scope open none. -/
theorem Act.Enters.opens_eq_zero {outer inner outside : Nat}
    (h : act.Enters outer inner outside offset) :
    act.opens = 0 := by
  rcases h with ⟨name, type, rfl⟩ | ⟨name, rfl⟩ <;> rfl

/-- They are assigned no value either. -/
theorem Act.Enters.value?_eq_none {outer inner outside : Nat}
    (h : act.Enters outer inner outside offset) :
    act.value? = none := by
  rcases h with ⟨name, type, rfl⟩ | ⟨name, rfl⟩ <;> rfl

/-- The acts for names bind at one offset in one scope. -/
theorem givenAt_of_mem_givenNames {names : List String} :
    ∀ a ∈ givenNames scope offset names, a.GivenAt scope offset := by
  intro a ha
  obtain ⟨name, _, rfl⟩ := List.mem_map.mp ha
  exact ⟨name, .unknown, rfl⟩

/-- So do the acts for parameters, -/
theorem givenAt_of_mem_givenParams {params : List Param} :
    ∀ a ∈ givenParams reading scope offset frame params,
      a.GivenAt scope offset := by
  intro a ha
  obtain ⟨p, _, rfl⟩ := List.mem_map.mp ha
  exact ⟨p.name, _, rfl⟩

/-- the one for `$this`, if there is any, -/
theorem givenAt_of_mem_givenThis {modifiers : List Modifier} :
    ∀ a ∈ givenThis scope offset modifiers frame, a.GivenAt scope offset := by
  intro a ha
  unfold givenThis at ha
  split at ha
  · split at ha
    · cases ha
    · obtain rfl := List.mem_singleton.mp ha
      exact ⟨"$this", _, rfl⟩
  · cases ha

/-- and the one for what is caught. -/
theorem givenAt_of_mem_givenException {hint : Span} {bound : Option Name} :
    ∀ a ∈ givenException reading scope offset frame hint bound, a.GivenAt scope offset := by
  intro a ha
  cases bound with
  | none => cases ha
  | some name =>
    obtain rfl := List.mem_singleton.mp ha
    exact ⟨name.text, _, rfl⟩

end

end CodeInsight.Scope
