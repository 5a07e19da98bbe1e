import CodeInsight.ClassModel.Extract
import CodeInsight.Proofs.RenamedPrograms

/-!
# Where classes are declared

The classes of a program are found at its top level and within namespaces. Every one of them has a
site: the namespaces around its declaration, with the statements before and behind it. The site
tells in which namespace the class is, what is imported there, and which classes come later.

## Main Results

- `Extract.find?_lastDeclarations`: the declaration of a name that counts
- `Extract.classesIn_fill`: the classes of a program around a declaration within namespaces
- `Extract.Site.of_find?`, `Extract.Site.find?_eq_some`: the class of a name and its site
- `Extract.Site.moved`, `Extract.Site.named`, `Extract.Site.housed`: sites with other offsets,
  another name of the class, another name of its namespace
-/

namespace CodeInsight.Extract

open Grammar

variable {m : ClassName} {text : Text} {c : ClassModel} {path : String}

/-! ## Section 1: The last declaration of a name -/

/-- **The declaration of a name that counts** is the last one. -/
theorem find?_lastDeclarations {α β : Type} [DecidableEq β] (name : α → β) (all : List α) (n : β) :
    (lastDeclarations name all).find? (fun a => name a = n) =
      all.reverse.find? (fun a => name a = n) := by
  induction all using List.reverseRecOn with
  | nil => rfl
  | append_singleton all a ih =>
    have hlast :
        lastDeclarations name (all ++ [a]) = declare name (lastDeclarations name all) a := by
      unfold lastDeclarations
      rw [List.foldl_append]
      rfl
    rw [hlast, List.reverse_append, declare, List.find?_append]
    by_cases ha : name a = n
    · -- whatever had the name before is removed
      have hnone : ((lastDeclarations name all).filter (fun b => name b ≠ name a)).find?
          (fun b => name b = n) = none := by
        apply List.find?_eq_none.mpr
        intro b hb hname
        have hne := of_decide_eq_true (List.mem_filter.mp hb).2
        exact hne ((of_decide_eq_true hname).trans ha.symm)
      rw [hnone]
      simp [ha]
    · have hsame : ((lastDeclarations name all).filter (fun b => name b ≠ name a)).find?
          (fun b => name b = n) = (lastDeclarations name all).find? (fun b => name b = n) := by
        rw [List.find?_filter]
        congr 1
        funext b
        by_cases hb : name b = n
        · simpa [hb] using fun h => ha h.symm
        · simp [hb]
      rw [hsame, ih]
      simp [ha]

/-- A declaration counts if no later one has its name. -/
theorem find?_lastDeclarations_eq_some {α β : Type} [DecidableEq β] {name : α → β} {all : List α}
    {n : β} {a : α} :
    (lastDeclarations name all).find? (fun b => name b = n) = some a ↔
      name a = n ∧ ∃ front behind, all = front ++ a :: behind ∧ n ∉ behind.map name := by
  rw [find?_lastDeclarations, List.find?_eq_some_iff_append]
  constructor
  · rintro ⟨ha, behind, front, hsplit, hbehind⟩
    refine ⟨of_decide_eq_true ha, front.reverse, behind.reverse, ?_, ?_⟩
    · have hreverse := congrArg List.reverse hsplit
      simpa using hreverse
    · intro hmem
      obtain ⟨b, hb, hname⟩ := List.mem_map.mp hmem
      have hne := hbehind b (List.mem_reverse.mp hb)
      simp [hname] at hne
  · rintro ⟨ha, front, behind, rfl, hbehind⟩
    refine ⟨decide_eq_true ha, behind.reverse, front.reverse, by simp, fun b hb => ?_⟩
    have hne : name b ≠ n := fun h => hbehind (List.mem_map.mpr ⟨b, List.mem_reverse.mp hb, h⟩)
    simp [hne]

/-! ## Section 2: Names of classes -/

/-- The name of a namespace. The global one has none. -/
def spaceName (name : Option Name) :
    Option String := (name.filter fun n => n.text ≠ "").map Name.text

theorem spaceName_move (f : Nat → Nat) (name : Option Name) :
    spaceName (move f name) = spaceName name := by
  cases name with
  | none => rfl
  | some n =>
    by_cases hn : n.text = "" <;> simp [spaceName, Option.filter, hn]

/-- The names of the classes that statements declare. -/
def classNames (ns : Option String) (program : List Stmt) : List ClassName :=
  (classesIn [] ns [] program).map ClassModel.name

theorem classModel?_name {text' : Text} {ns : Option String} {imports imports' : Imports}
    {head head' : ClassHead} {all all' : List Member} (hform : head'.form = head.form)
    (hname : head'.name.text = head.name.text) :
    (classModel? text' ns imports' head' all').toList.map ClassModel.name =
      (classModel? text ns imports head all).toList.map ClassModel.name := by
  unfold classModel?
  rw [hform, hname]
  cases head.form <;> rfl

/-- Names of classes depend on names in the program only. -/
theorem classesIn_names (text text' : Text) (imports imports' : Imports) (f : Nat → Nat) :
    ∀ (ns : Option String) (program : List Stmt),
      (classesIn text' ns imports' (move f program)).map ClassModel.name =
        (classesIn text ns imports program).map ClassModel.name
  | _, [] => rfl
  | ns, s :: rest => by
    have hrest := classesIn_names text text' imports imports' f ns rest
    have hfirst : (classes text' ns imports' (move f s)).map ClassModel.name =
        (classes text ns imports s).map ClassModel.name := by
      cases s with
      | namespaceDecl span name braced body =>
        have hbody := classesIn_names text text' (importsOf body) (importsOf (move f body)) f
          (spaceName name) body
        simp only [move_stmt, Stmt.moved, movedStmts_eq_move, classes]
        rw [← spaceName_move f name] at hbody
        nth_rewrite 2 [spaceName_move] at hbody
        exact hbody
      | classLike span head all => exact classModel?_name rfl rfl
      | _ => rfl
    simp only [move_cons, classesIn, List.map_append, hfirst, hrest]

theorem classesIn_names_eq (text : Text) (ns : Option String) (imports : Imports)
    (program : List Stmt) :
    (classesIn text ns imports program).map ClassModel.name = classNames ns program := by
  have hmove := classesIn_names text [] imports [] id ns program
  have hmove' := classesIn_names [] [] [] [] id ns program
  rw [← hmove, hmove']
  rfl

/-! ## Section 3: Declarations within namespaces -/

/-- The name of the innermost namespace and the imports in it. -/
def context (ns : Option String) (imports : Imports) (x : Stmt) :
    List Layer → Option String × Imports
  | [] => (ns, imports)
  | F :: layers => context (spaceName F.name) (importsOf (F.body (fill layers x))) x layers

/-- The names of the classes that are declared behind a statement within namespaces. -/
def namesBehind (ns : Option String) (after : List Stmt) : List Layer → List ClassName
  | [] => classNames ns after
  | F :: layers => namesBehind (spaceName F.name) F.after layers ++ classNames ns after

theorem classesIn_append (text : Text) (ns : Option String) (imports : Imports) (a b : List Stmt) :
    classesIn text ns imports (a ++ b) = classesIn text ns imports a ++
      classesIn text ns imports b := by
  induction a with
  | nil => rfl
  | cons s rest ih => simp only [List.cons_append, classesIn, ih, List.append_assoc]

/-- **The classes around a declaration** that is within some namespaces. -/
theorem classesIn_fill (text : Text) (x : Stmt) (layers : List Layer) :
    ∀ (ns : Option String) (imports : Imports) (before after : List Stmt), ∃ front behind,
      classesIn text ns imports (before ++ fill layers x :: after) =
          front ++
            classes text (context ns imports x layers).1 (context ns imports x layers).2 x ++
            behind ∧
        behind.map ClassModel.name = namesBehind ns after layers := by
  induction layers with
  | nil =>
    intro ns imports before after
    refine ⟨classesIn text ns imports before, classesIn text ns imports after, ?_, ?_⟩
    · rw [classesIn_append, List.append_assoc]
      rfl
    · exact classesIn_names_eq text ns imports after
  | cons F layers ih =>
    intro ns imports before after
    -- the classes of the outermost namespace are split by the inner ones
    obtain ⟨front, behind, hsplit, hnames⟩ :=
      ih (spaceName F.name) (importsOf (F.body (fill layers x))) F.before F.after
    refine ⟨classesIn text ns imports before ++ front, behind ++ classesIn text ns imports after,
      ?_, ?_⟩
    · have hfill : classes text ns imports (fill (F :: layers) x) =
          classesIn text (spaceName F.name) (importsOf (F.body (fill layers x)))
            (F.before ++ fill layers x :: F.after) := rfl
      rw [classesIn_append, classesIn, hfill, hsplit]
      simp only [List.append_assoc, context]
    · rw [List.map_append, hnames, classesIn_names_eq]
      rfl

/-- Every class among statements is declared within some namespaces, or in none. -/
theorem exists_layers (text : Text) :
    ∀ (ns : Option String) (imports : Imports) (program : List Stmt)
    (front : List ClassModel) (c : ClassModel) (behind : List ClassModel),
    classesIn text ns imports program = front ++ c :: behind →
    ∃ before layers span head all after,
      program = before ++ fill layers (.classLike span head all) :: after ∧
      classModel? text (context ns imports (.classLike span head all) layers).1
        (context ns imports (.classLike span head all) layers).2 head all = some c ∧
      behind.map ClassModel.name = namesBehind ns after layers
  | _, _, [], _, _, _, h => by
    have hlength := congrArg List.length h
    simp [classesIn] at hlength
  | ns, imports, s :: rest, front, c, behind, h => by
    rcases List.append_eq_append_iff.mp
      (show classes text ns imports s ++ classesIn text ns imports rest =
        front ++ c :: behind from h) with ⟨front', rfl, hrest⟩ | ⟨behind', hfirst, hrest⟩
    · -- the class is declared behind the first statement
      obtain ⟨before, layers, span, head, all, after, rfl, hmodel, hbehind⟩ :=
        exists_layers text ns imports rest front' c behind hrest
      exact ⟨s :: before, layers, span, head, all, after, rfl, hmodel, hbehind⟩
    · cases behind' with
      | nil =>
        obtain ⟨before, layers, span, head, all, after, rfl, hmodel, hbehind⟩ :=
          exists_layers text ns imports rest [] c behind hrest.symm
        exact ⟨s :: before, layers, span, head, all, after, rfl, hmodel, hbehind⟩
      | cons first behind' =>
        rw [List.cons_append] at hrest
        obtain ⟨rfl, rfl⟩ := List.cons.inj hrest
        cases s with
        | namespaceDecl span name braced body =>
          obtain ⟨before, layers, span', head, all, after, rfl, hmodel, hbehind⟩ :=
            exists_layers text (spaceName name) (importsOf body) body front c behind' hfirst
          refine ⟨[], ⟨span, name, braced, before, after⟩ :: layers, span', head, all, rest,
            rfl, hmodel, ?_⟩
          rw [List.map_append, hbehind, classesIn_names_eq]
          rfl
        | classLike span head all =>
          have hone : (classModel? text ns imports head all).toList = front ++
            c :: behind' := hfirst
          cases hmodel : classModel? text ns imports head all with
          | none =>
            rw [hmodel] at hone
            exact absurd hone.symm (by simp)
          | some found =>
            rw [hmodel] at hone
            obtain ⟨rfl, hfound⟩ :=
              List.append_eq_singleton_iff.mp hone.symm |>.resolve_right (by simp)
            obtain ⟨rfl, rfl⟩ := List.cons.inj hfound
            exact ⟨[], [], span, head, all, rest, rfl, hmodel,
              classesIn_names_eq text ns imports rest⟩
        | _ => exact absurd hfirst.symm (by simp [classes])

/-- A statement at the top level of a program, or directly within a namespace there, and so on. -/
inductive OnSurface (program : List Stmt) : Stmt → Prop
  | top {s : Stmt} (hs : s ∈ program) : OnSurface program s
  | inside {span : Span} {name : Option Name} {braced : Bool} {body : List Stmt} {s : Stmt}
      (hspace : OnSurface program (.namespaceDecl span name braced body)) (hs : s ∈ body) :
      OnSurface program s

/-! ## Section 4: Sites -/

/-- The declaration of a class in a program. -/
structure Site where
  before : List Stmt
  /-- The namespaces around it, the outermost first. -/
  layers : List Layer
  span : Span
  head : ClassHead
  all : List Member
  after : List Stmt

namespace Site

variable (S : Site)

/-- The declaration. -/
def stmt : Stmt := .classLike S.span S.head S.all

/-- The program that it stands in. -/
def program : List Stmt := S.before ++ fill S.layers S.stmt :: S.after

/-- The namespace of the class. -/
def space : Option String := (context none [] S.stmt S.layers).1

/-- What is imported there. -/
def imports : Imports := (context none (importsOf S.program) S.stmt S.layers).2

/-- The names of the classes that are declared later. -/
def later : List ClassName := namesBehind none S.after S.layers

/-- The model of the class. -/
def model? (text : Text) : Option ClassModel := classModel? text S.space S.imports S.head S.all

variable {S}

/-- **The class at a site** is named where it stands, and has the imports of that place. -/
theorem model?_spec {text : Text} {c : ClassModel} (h : S.model? text = some c) :
    c.name = ⟨S.space.getD "", S.head.name.text⟩ ∧ c.nameSpan = S.head.name.span ∧
      c.imports = S.imports := by
  unfold model? classModel? at h
  cases hform : S.head.form with
  | isEnum =>
    rw [hform] at h
    cases h
  | isClass | isInterface | isTrait =>
    rw [hform] at h
    cases h
    exact ⟨rfl, rfl, rfl⟩

end Site

theorem context_fst (ns : Option String) (imports imports' : Imports) (x : Stmt)
    (layers : List Layer) :
    (context ns imports x layers).1 = (context ns imports' x layers).1 := by
  cases layers <;> rfl

/-- **The class of a name has a site**, and no later class has the name. -/
theorem Site.of_find? {program : List Stmt} {n : ClassName}
    (h : (FileModel.ofProgram path text program).find? n = some c) :
    c.name = n ∧ ∃ S : Site, program = S.program ∧ S.model? text = some c ∧ n ∉ S.later := by
  obtain ⟨hname, front, behind, hsplit, hbehind⟩ := find?_lastDeclarations_eq_some.mp h
  obtain ⟨before, layers, span, head, all, after, hprogram, hmodel, hnames⟩ :=
    exists_layers text none (importsOf program) program front c behind hsplit
  refine ⟨hname, ⟨before, layers, span, head, all, after⟩, hprogram, ?_, ?_⟩
  · rw [hprogram, context_fst none _ []] at hmodel
    exact hmodel
  · rw [hnames] at hbehind
    exact hbehind

/-- **The class at a site** is the one of its name if no later class has the name. -/
theorem Site.find?_eq_some {S : Site} (hmodel : S.model? text = some c)
    (hlater : c.name ∉ S.later) :
    (FileModel.ofProgram path text S.program).find? c.name = some c := by
  apply find?_lastDeclarations_eq_some.mpr
  obtain ⟨front, behind, hsplit, hnames⟩ :=
    classesIn_fill text S.stmt S.layers none (importsOf S.program) S.before S.after
  refine ⟨rfl, front, behind, ?_, hnames ▸ hlater⟩
  have hone : classes text (context none (importsOf S.program) S.stmt S.layers).1
      (context none (importsOf S.program) S.stmt S.layers).2 S.stmt = (S.model? text).toList := by
    rw [context_fst none _ []]
    rfl
  rw [hone, hmodel] at hsplit
  exact hsplit.trans (List.append_assoc _ _ _)

/-! ## Section 5: Other offsets and other names -/

/-- The innermost namespace tells the context. -/
theorem context_concat (x : Stmt) (layers : List Layer) (F : Layer) :
    ∀ (ns : Option String) (imports : Imports),
      context ns imports x (layers ++ [F]) = (spaceName F.name, importsOf (F.body x)) := by
  induction layers with
  | nil => exact fun _ _ => rfl
  | cons G layers ih => exact fun _ _ => ih _ _

namespace Site

/-- The site with other offsets. -/
def moved (f : Nat → Nat) (S : Site) : Site :=
  ⟨move f S.before, S.layers.map (Layer.across f f), move f S.span, move f S.head, move f S.all,
    move f S.after⟩

/-- The site with another name of the class. -/
def named (n : Name) (S : Site) : Site := { S with head := { S.head with name := n } }

/-- The site with another name of the innermost namespace. -/
def housed (n : Name) (S : Site) : Site :=
  { S with layers := S.layers.dropLast ++
    (S.layers.getLast?.map fun F => { F with name := some n }).toList }

variable (S : Site)

theorem stmt_moved (f : Nat → Nat) : (S.moved f).stmt = move f S.stmt := by
  simp only [stmt, moved, move_stmt, Stmt.moved, movedMembers_eq_move]

variable {S} {layers : List Layer} {F : Layer} (h : S.layers = layers ++ [F])
include h

theorem layers_housed (n : Name) : (S.housed n).layers = layers ++ [{ F with name := some n }] := by
  simp [housed, h]

theorem space_housed (n : Name) : (S.housed n).space = spaceName (some n) := by
  unfold space
  rw [layers_housed h, context_concat]

end Site

end CodeInsight.Extract
