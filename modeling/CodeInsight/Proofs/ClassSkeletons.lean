import CodeInsight.Proofs.RenamedClasses
import CodeInsight.Proofs.SessionQueries

/-!
# Skeletons that are read back

The source of a new class is read back as that class, whatever it is called. A few skeletons of each
kind are parsed here, with short names in them. Every other one is such a skeleton with its names
exchanged, and what exchanging names does to a program is known.

## Main Results

- `Extract.Site.Alone`: a program that declares one class and nothing else
- `Generation.parse_skeleton`: every skeleton is such a program
- `Generation.skeleton_reflects_its_name`: the class that is read back
-/

namespace CodeInsight

open Grammar Extract

variable {ns : String} {layers : List Layer} {name : ClassName}

/-! ## Section 1: Names of free words -/

/-- An identifier that is no reserved word. -/
def Grammar.FreeWord (word : Text) : Prop := FreeName word ∧ word.contains '\\' = false

instance (word : Text) : Decidable (FreeWord word) := inferInstanceAs (Decidable (_ ∧ _))

theorem Grammar.FreeName.join {x y : Text} (hx : FreeName x) (hy : FreeName y) :
    FreeName (x ++ '\\' :: y) where
  starts := startsWord_append hx.starts _
  whole := by
    rw [nameLength_append hx.whole, nameLength_backslash hy.starts, hy.whole, List.length_append,
      List.length_cons]
  free := .inl (by simp)

theorem Grammar.freeName_intercalate {words : List Text} (hne : words ≠ [])
    (h : ∀ word ∈ words, FreeWord word) : FreeName (List.intercalate [separator] words) := by
  induction words with
  | nil => exact absurd rfl hne
  | cons word rest ih =>
    obtain ⟨hword, hrest⟩ := List.forall_mem_cons.mp h
    cases rest with
    | nil => simpa using hword.1
    | cons next rest =>
      rw [List.intercalate_cons_cons, List.append_assoc, List.singleton_append]
      exact hword.1.join (ih (List.cons_ne_nil _ _) hrest)

/-- Both parts of the name are names of the grammar, and the namespace may be the global one. -/
structure ClassName.Free (n : ClassName) : Prop where
  short : FreeName n.short.toList
  single : n.short.toList.contains '\\' = false
  ns : n.ns = "" ∨ FreeName n.ns.toList

/-- The segments of the name are identifiers and no reserved words. -/
structure ClassName.OfFreeWords (name : ClassName) : Prop where
  short : FreeWord name.short.toList
  ns : ∃ words : List Text, (∀ word ∈ words, FreeWord word) ∧
    name.ns.toList = List.intercalate [separator] words

theorem ClassName.OfFreeWords.free (h : name.OfFreeWords) : name.Free where
  short := h.short.1
  single := h.short.2
  ns := by
    obtain ⟨words, hwords, hns⟩ := h.ns
    cases words with
    | nil => exact .inl (String.toList_inj.mp hns)
    | cons word rest => exact .inr (hns ▸ freeName_intercalate (List.cons_ne_nil _ _) hwords)

/-! ## Section 2: A class without members -/

/-- The form of declaration that a kind of class has. -/
def ClassKind.form : ClassKind → ClassForm
  | isClass => .isClass
  | isInterface => .isInterface
  | isTrait => .isTrait

/-- The class has a name and a kind, and nothing else. -/
structure ClassModel.Bare (c : ClassModel) : Prop where
  parent : c.parent = none
  implemented : c.implemented = []
  traits : c.traits = []
  methods : c.methods = []
  properties : c.properties = []
  assigned : c.assigned = []

namespace Extract

namespace Site

/-- The program has no other declaration, and this one has no members. -/
structure Alone (S : Site) : Prop where
  before : ∃ tag, S.before = [.openTag tag]
  layers : ∀ F ∈ S.layers, F.before = [] ∧ F.after = []
  bases : S.head.bases = []
  implements : S.head.implements = []
  all : S.all = []
  after : S.after = []

variable {S : Site}

theorem Alone.moved (h : S.Alone) (f : Nat → Nat) : (S.moved f).Alone where
  before := by
    obtain ⟨tag, htag⟩ := h.before
    exact ⟨move f tag, by simp only [Site.moved, htag]; rfl⟩
  layers := by
    intro F hF
    obtain ⟨G, hG, rfl⟩ := List.mem_map.mp hF
    simp [Layer.across, h.layers G hG]
  bases := by
    rw [show (S.moved f).head.bases = move f S.head.bases from rfl, h.bases, move_nil]
  implements := by
    rw [show (S.moved f).head.implements = move f S.head.implements from rfl,
      h.implements, move_nil]
  all := by rw [show (S.moved f).all = move f S.all from rfl, h.all, move_nil]
  after := by rw [show (S.moved f).after = move f S.after from rfl, h.after, move_nil]

theorem Alone.named (h : S.Alone) (n : Name) : (S.named n).Alone :=
  ⟨h.before, h.layers, h.bases, h.implements, h.all, h.after⟩

theorem Alone.housed {F : Layer} (h : S.Alone) (hlayers : S.layers = layers ++ [F]) (n : Name) :
    (S.housed n).Alone where
  before := h.before
  layers := by
    rw [layers_housed hlayers]
    intro G hG
    obtain hG | hG := List.mem_append.mp hG
    · exact h.layers G (by simp [hlayers, hG])
    · obtain rfl := List.mem_singleton.mp hG
      exact h.layers F (by simp [hlayers])
  bases := h.bases
  implements := h.implements
  all := h.all
  after := h.after

/-- The classes in namespaces that hold one statement each. -/
theorem classesIn_fill_alone (text : Text) (x : Stmt)
    (h : ∀ F ∈ layers, F.before = [] ∧ F.after = []) (ns : Option String) (imports : Imports) :
    classes text ns imports (fill layers x) =
      classes text (context ns imports x layers).1 (context ns imports x layers).2 x := by
  induction layers generalizing ns imports with
  | nil => rfl
  | cons F layers ih =>
    obtain ⟨⟨hbefore, hafter⟩, hrest⟩ := List.forall_mem_cons.mp h
    have hbody : F.body (fill layers x) = [fill layers x] := by
      rw [Layer.body, hbefore, hafter, List.nil_append]
    have hfill : classes text ns imports (fill (F :: layers) x) =
        classesIn text (spaceName F.name) (importsOf (F.body (fill layers x)))
          (F.body (fill layers x)) := rfl
    rw [hfill, hbody, classesIn, classesIn, List.append_nil, ih hrest, context, hbody]

/-- **The one class of a program.** -/
theorem Alone.classes (h : S.Alone) (path : String) (text : Text) :
    (FileModel.ofProgram path text S.program).classes = (S.model? text).toList := by
  obtain ⟨tag, hbefore⟩ := h.before
  have hfill := classesIn_fill_alone text S.stmt h.layers none (importsOf S.program)
  have hall : classesIn text none (importsOf S.program) S.program = (S.model? text).toList := by
    have hprogram : S.program = [.openTag tag, fill S.layers S.stmt] := by
      rw [program, hbefore, h.after]
      rfl
    have hsplit : classesIn text none (importsOf S.program) [.openTag tag, fill S.layers S.stmt] =
        [] ++ (Extract.classes text none (importsOf S.program) (fill S.layers S.stmt) ++ []) := rfl
    rw [← hprogram, List.nil_append, List.append_nil, hfill, context_fst none _ []] at hsplit
    exact hsplit
  have hclasses : (FileModel.ofProgram path text S.program).classes =
      lastDeclarations ClassModel.name (classesIn text none (importsOf S.program) S.program) := rfl
  rw [hclasses, hall]
  cases S.model? text <;> rfl

theorem Alone.model? (h : S.Alone) {kind : ClassKind} (hform : S.head.form = kind.form)
    (text : Text) :
    ∃ c, S.model? text = some c ∧ c.name = ⟨S.space.getD "", S.head.name.text⟩ ∧ c.kind = kind ∧
      c.Bare := by
  unfold Site.model? classModel?
  rw [hform, h.all, h.bases, h.implements]
  cases kind <;> exact ⟨_, rfl, rfl, rfl, rfl, rfl, rfl, rfl, rfl, rfl⟩

/-- The site of the class in a program that declares a class without members and nothing else. -/
def ofSole? : List Stmt → Option Site
  | [.openTag tag, .classLike span head []] => some ⟨[.openTag tag], [], span, head, [], []⟩
  | [.openTag tag, .namespaceDecl outer name braced [.classLike span head []]] =>
    some ⟨[.openTag tag], [⟨outer, name, braced, [], []⟩], span, head, [], []⟩
  | _ => none

theorem program_of_sole {program : List Stmt} (h : ofSole? program = some S) :
    program = S.program ∧ (∃ tag, S.before = [.openTag tag]) ∧
      (∀ F ∈ S.layers, F.before = [] ∧ F.after = []) ∧ S.all = [] ∧ S.after = [] := by
  unfold ofSole? at h
  split at h
  · cases h
    exact ⟨rfl, ⟨_, rfl⟩, by simp, rfl, rfl⟩
  · cases h
    exact ⟨rfl, ⟨_, rfl⟩, by simp, rfl, rfl⟩
  · cases h

end Site

end Extract

/-! ## Section 3: Skeletons -/

namespace Generation

/-- A skeleton up to the name of its class. -/
def opening (ns : String) (kind : ClassKind) : String :=
  "<?php\n\n" ++ (if ns == "" then "" else "namespace " ++ ns ++ ";\n\n") ++ kind.keyword ++ " "

def closing : String := "\n\x7b\n\x7d\n"

theorem skeleton_toList (name : ClassName) (kind : ClassKind) :
    (skeleton name kind).toList =
      (opening name.ns kind).toList ++ (name.short.toList ++ closing.toList) := by
  rw [← String.toList_append, ← String.toList_append, ← String.append_assoc]
  rfl

theorem opening_housed (h : ns ≠ "") (kind : ClassKind) :
    (opening ns kind).toList =
      "<?php\n\nnamespace ".toList ++ (ns.toList ++ (";\n\n" ++ kind.keyword ++ " ").toList) := by
  have hlead : "<?php\n\nnamespace " = "<?php\n\n" ++ "namespace " := by decide
  rw [opening, if_neg (by simpa using h), ← String.toList_append, ← String.toList_append, hlead]
  simp only [String.append_assoc]

/-- A name of the same kind of token. -/
def sample (x : Text) : String :=
  match nameKind x with
  | .keyword .enumKw => "Enum"
  | .keyword .fromKw => "From"
  | _ => "A"

theorem unqualified_sample {x : Text} (h : FreeName x) :
    (nameKind x).unqualified = (nameKind (sample x).toList).unqualified := by
  have hname := h.isName
  unfold sample
  generalize nameKind x = token at hname
  cases token with
  | identifier | qualified => decide +kernel
  | keyword k =>
    cases k with
    | enumKw | fromKw => decide +kernel
    | _ => cases hname
  | _ => cases hname

/-- **Some skeletons of each kind**, in the global namespace and in others. -/
theorem parse_sample (kind : ClassKind) (hns : ns ∈ ["", "A", "Enum", "From"]) {short : String}
    (hshort : short ∈ ["A", "Enum", "From"]) :
    ∃ S : Site, parse (skeleton ⟨ns, short⟩ kind).toList = .ok S.program ∧ S.Alone ∧
      S.head.form = kind.form ∧ S.head.name.text = short ∧
      S.head.name.span.start = Text.size (opening ns kind).toList ∧
      S.layers.map Layer.name = if ns = "" then [] else [some ⟨ns, ⟨17, 17 + byteLength ns⟩⟩] := by
  obtain ⟨hsome, hsite⟩ : (parse (skeleton ⟨ns, short⟩ kind).toList).toOption.isSome = true ∧
      ((Site.ofSole? ((parse (skeleton ⟨ns, short⟩ kind).toList).toOption.getD [])).map fun S =>
        (S.head, S.layers.map Layer.name)) =
        some (let k := Text.size (opening ns kind).toList
          let stop := k + byteLength short
          (⟨kind.form, [], ⟨short, ⟨k, stop⟩⟩, [], [], ⟨stop + 1, stop + 4⟩⟩,
            if ns = "" then [] else [some ⟨ns, ⟨17, 17 + byteLength ns⟩⟩])) := by
    revert ns short
    cases kind <;> decide +kernel
  obtain ⟨S, hS, hshape⟩ := Option.map_eq_some_iff.mp hsite
  obtain ⟨hprogram, hbefore, hlayers, hall, hafter⟩ := Site.program_of_sole hS
  obtain ⟨hhead, hnames⟩ := Prod.mk.inj hshape
  refine ⟨S, hprogram ▸ parse_eq_ok_of_isSome hsome, ⟨hbefore, hlayers, ?_, ?_, hall, hafter⟩, ?_,
    ?_, ?_, hnames⟩ <;> rw [hhead]

/-- A sample is one of three names. -/
theorem freeName_sample (x : Text) : sample x ∈ ["A", "Enum", "From"] ∧
    FreeName (sample x).toList := by
  unfold sample
  split <;> decide +kernel

/-- These skeletons with another name of the class. -/
theorem parse_sample_renamed (kind : ClassKind) (hns : ns ∈ ["", "A", "Enum", "From"])
    {short : String} (hshort : FreeName short.toList)
    (hsingle : short.toList.contains '\\' = false) :
    ∃ S : Site, parse (skeleton ⟨ns, short⟩ kind).toList = .ok S.program ∧ S.Alone ∧
      S.head.form = kind.form ∧ S.head.name.text = short ∧
      S.layers.map Layer.name = if ns = "" then [] else [some ⟨ns, ⟨17, 17 + byteLength ns⟩⟩] := by
  obtain ⟨hmem, hfree⟩ := freeName_sample short.toList
  obtain ⟨S, hparse, halone, hform, hname, hstart, hlayers⟩ := parse_sample kind hns hmem
  rw [← hname] at hfree
  have hkind : S.head.form ≠ .isEnum := by
    rw [hform]
    cases kind <;> decide
  obtain ⟨u, s, htext, hspan, hnames, hagain⟩ := Site.rename hparse hkind hfree
  -- the text is cut where the name begins
  have hcut : (opening ns kind).toList ++ ((sample short.toList).toList ++ closing.toList) =
      u ++ ((sample short.toList).toList ++ s) := by
    rw [← skeleton_toList ⟨ns, sample short.toList⟩, htext, hname]
  obtain ⟨rfl, hs⟩ := Text.append_inj_of_size hcut (by rw [← hstart, hspan])
  obtain rfl := List.append_cancel_left hs
  obtain ⟨f, n, hf, hn, hparsed⟩ :=
    hagain short.toList hshort hsingle (hname ▸ unqualified_sample hshort)
  refine ⟨(S.moved f).named n, ?_, (halone.moved f).named n, hform,
    hn.trans String.ofList_toList, ?_⟩
  · rw [skeleton_toList]
    exact hparsed
  · -- the namespace stands in front of the name
    have hmap : ((S.moved f).named n).layers.map Layer.name = S.layers.map fun F => move f F.name :=
      List.map_map
    rw [hmap, ← hlayers]
    exact List.map_congr_left fun F hF => hnames F hF f fun m hm => hf.low m (Nat.le_of_lt hm)

/-- **Every skeleton** declares its class and nothing else. -/
theorem parse_skeleton (hname : name.Free) (kind : ClassKind) :
    ∃ T : Site, parse (skeleton name kind).toList = .ok T.program ∧ T.Alone ∧
      T.head.form = kind.form ∧ T.head.name.text = name.short ∧ T.space.getD "" = name.ns := by
  obtain ⟨ns, short⟩ := name
  by_cases hglobal : ns = ""
  · subst hglobal
    obtain ⟨S, hparse, halone, hform, hshort, hlayers⟩ :=
      parse_sample_renamed kind List.mem_cons_self hname.short hname.single
    have hnone : S.layers = [] := List.map_eq_nil_iff.mp hlayers
    exact ⟨S, hparse, halone, hform, hshort, by rw [Site.space, hnone]; rfl⟩
  · have hns : FreeName ns.toList := hname.ns.resolve_left hglobal
    -- the sample stands in for the namespace, which is exchanged last
    obtain ⟨hmem, hfree⟩ := freeName_sample ns.toList
    have hsample : sample ns.toList ≠ "" := fun hempty => by simp [hempty] at hmem
    obtain ⟨S, hparse, halone, hform, hshort, hlayers⟩ :=
      parse_sample_renamed kind (List.mem_cons_of_mem _ hmem) hname.short hname.single
    rw [if_neg hsample] at hlayers
    obtain ⟨F, hsplit, hF⟩ := List.map_eq_singleton_iff.mp hlayers
    rw [← List.nil_append [F]] at hsplit
    obtain ⟨u, s, htext, hspan, hagain⟩ := Site.rehouse hparse hsplit hF hfree
    -- the text is cut where the namespace begins
    have hcut : "<?php\n\nnamespace ".toList ++ ((sample ns.toList).toList ++
        ((";\n\n" ++ kind.keyword ++ " ").toList ++ (short.toList ++ closing.toList))) =
          u ++ ((sample ns.toList).toList ++ s) := by
      rw [← htext, skeleton_toList, opening_housed hsample]
      simp only [List.append_assoc]
    obtain ⟨rfl, hs⟩ := Text.append_inj_of_size hcut (congrArg Span.start hspan)
    obtain rfl := List.append_cancel_left hs
    obtain ⟨f, n, hn, hparsed⟩ := hagain ns.toList hns (unqualified_sample hns)
    have hmoved : (S.moved f).layers = [] ++ [F.across f f] := by
      rw [Site.moved, hsplit]
      rfl
    refine ⟨(S.moved f).housed n, ?_, (halone.moved f).housed hmoved n, hform, hshort, ?_⟩
    · rw [skeleton_toList, opening_housed hglobal]
      simp only [List.append_assoc] at hparsed ⊢
      exact hparsed
    · have htext : n.text = ns := hn.trans String.ofList_toList
      rw [Site.space_housed hmoved]
      simp [spaceName, Option.filter, htext, hglobal]

end Generation

/-! ## Section 4: Reading skeletons back -/

theorem FileModel.ofText_eq_ok {path : String} {text : Text} {file : FileModel} :
    FileModel.ofText path text = .ok file ↔
      ∃ program, parse text = .ok program ∧ file = FileModel.ofProgram path text program := by
  unfold FileModel.ofText
  cases parse text with
  | error offset => simp
  | ok program => simp [eq_comm]

/-- The only class of a text is told, whatever was kept. -/
theorem Session.classFromSource_eq {texts : List Text} {s : Session} (h : s.workspace.Trusted texts)
    {path : String} {text : Text} (htext : text ∈ texts) {file : FileModel}
    (hfile : FileModel.ofText (s.workspace.relative path) text = .ok file) {c : ClassModel}
    (hclasses : file.classes = [c]) : (s.classFromSource path text).1 = .ok c.name := by
  have hagreed := h.reflect_agreed (s.workspace.relative path) htext
  have hbare : (s.workspace.bare.reflect (s.workspace.relative path) text).1 = .ok file := by
    unfold Workspace.reflect
    rw [hfile]
    rfl
  rw [hbare] at hagreed
  unfold Session.classFromSource
  cases hanswer : (s.workspace.reflect (s.workspace.relative path) text).1 with
  | error failure =>
    rw [hanswer] at hagreed
    exact hagreed.elim
  | ok found =>
    rw [hanswer] at hagreed
    have hfound : found.classes = [c] := by
      rw [← hclasses, hagreed.rest]
    simp [hanswer, Except.bind, Except.map, Workspace.singleClass, hfound]

namespace Generation

theorem apply_skeleton (path : String) (name : ClassName) (kind : ClassKind) :
    Edit.apply [] ⟨path, .empty 0, skeleton name kind⟩ = (skeleton name kind).toList := by
  simp [Edit.apply, Edit.rangeIn, Span.empty, Text.cut?]

/-- **A skeleton is read back as the class that it was written for.** For a name of identifiers that
are not reserved, if the table knows a path for it, the generator gives an edit of that path.
Applied to an empty file it gives a text with one class, of this name and the kind that was asked
for, that has nothing else. So the class of the text is found by its source. -/
theorem skeleton_reflects_its_name {ws : Workspace} {name : ClassName} {options : Options}
    {kind : ClassKind} {path : String} (hname : name.OfFreeWords)
    (hkind : kindOption options = .ok kind) (hpath : ws.table.pathOf name = .ok path) :
    ∃ edit : Edit, Generator.skeleton.generate ws name options = (.ok edit, ws) ∧ edit.path = path ∧
      (∀ place, ∃ file c, FileModel.ofText place (edit.apply []) = .ok file ∧ file.classes = [c] ∧
        c.name = name ∧ c.kind = kind ∧ c.Bare) ∧
      ∀ (s : Session) (texts : List Text) (place : String), s.workspace.Trusted texts →
        edit.apply [] ∈ texts → (s.classFromSource place (edit.apply [])).1 = .ok name := by
  obtain ⟨T, hparse, halone, hform, hshort, hspace⟩ := parse_skeleton hname.free kind
  have hread : ∀ place, ∃ file c, FileModel.ofText place (skeleton name kind).toList = .ok file ∧
      file.classes = [c] ∧ c.name = name ∧ c.kind = kind ∧ c.Bare := by
    intro place
    obtain ⟨c, hmodel, hc, hkind, hbare⟩ := halone.model? hform (skeleton name kind).toList
    refine ⟨_, c, FileModel.ofText_eq_ok.mpr ⟨_, hparse, rfl⟩, ?_, ?_, hkind, hbare⟩
    · rw [halone.classes, hmodel]
      rfl
    · rw [hc, hspace, hshort]
  refine ⟨⟨path, .empty 0, skeleton name kind⟩, ?_, rfl, ?_, ?_⟩
  · simp [Generator.skeleton, hkind, hpath, bind, Except.bind, pure, Except.pure]
  · rw [apply_skeleton]
    exact hread
  · rw [apply_skeleton]
    intro s texts place htrusted htext
    obtain ⟨file, c, hfile, hclasses, rfl, -⟩ := hread (s.workspace.relative place)
    exact Session.classFromSource_eq htrusted htext hfile hclasses

/-- An interface whose name is a keyword, but not a reserved one. -/
theorem new_interface_is_read_back :
    ∃ edit : Edit, edit.path = "src/Größe_1/Enum.php" ∧
      ∃ file c, FileModel.ofText edit.path (edit.apply []) = .ok file ∧ file.classes = [c] ∧
        c.name = ⟨"App\\Größe_1", "Enum"⟩ ∧ c.kind = .isInterface ∧ c.Bare := by
  have hname : ClassName.OfFreeWords ⟨"App\\Größe_1", "Enum"⟩ :=
    ⟨by decide +kernel, ["App".toList, "Größe_1".toList], by decide +kernel, by decide +kernel⟩
  obtain ⟨edit, -, hpath, hread, -⟩ :=
    @skeleton_reflects_its_name ⟨"/project", ⟨[], []⟩, ⟨[⟨"App\\", "src/"⟩]⟩, []⟩ _
      [("type", .string "interface")] .isInterface "src/Größe_1/Enum.php" hname (by decide +kernel)
      (by decide +kernel)
  exact ⟨edit, hpath, hread edit.path⟩

end Generation

end CodeInsight
