import CodeInsight.Proofs.LastDeclarations
import CodeInsight.Proofs.NamespaceExtents

/-!
# Namespaces by offset

The namespace of a class is known in two ways. The walk through the program carries the innermost
namespace along, with its imports. Later, the namespace of an offset is searched among all
namespaces of the file, from the last one back, by their ranges. At the name of a class both come to
the same, however the namespaces of the file are mixed: the ranges of namespaces are nested, an
inner namespace comes behind the outer ones, and the name of a class does not touch what stands
before or behind the class.

## Main Results

- `Extract.pairwise_namespacesIn`: namespaces come in the order of their beginnings
- `Extract.context_of_find?`: the last namespace that holds an offset is the innermost one
- `Extract.LaidOut.namespaceAt_eq`: at a class, text behind the last namespace plays no part
- `Extract.nameContext_of_class`: the namespace and the imports at the name of a class
-/

namespace CodeInsight.Extract

open Grammar Outline

variable {text : Text}

/-! ## Section 1: The order of namespaces -/

theorem fits_of_mem_namespacesIn {body : List Stmt} {a b : Nat} (h : Lies (ofStmts body) a b)
    {m : NamespaceModel} (hm : m ∈ namespacesIn text body) : m.span.Fits a b := by
  obtain ⟨span, name, braced, inner, hs, rfl⟩ := exists_of_mem_namespacesIn hm
  exact (hs.lies h.nestedIn).stmt_fits

/-- **Namespaces come in the order of their beginnings.** -/
theorem pairwise_namespacesIn (text : Text) : ∀ (body : List Stmt) {a b : Nat},
    Lies (ofStmts body) a b →
    (namespacesIn text body).Pairwise fun m n => m.span.start ≤ n.span.start
  | [], _, _, _ => .nil
  | s :: rest, _, _, h => by
    obtain ⟨hs, hrest⟩ := h.stmts_cons
    refine List.pairwise_append.mpr ⟨?_, pairwise_namespacesIn text rest hrest, fun m hm n hn => ?_⟩
    · cases s with
      | namespaceDecl span name braced body =>
        have hbody : Lies (ofStmts body) span.start span.stop :=
          lies_of_nestedIn_stmts (lies_node_iff.mp hs).2.1
        refine List.pairwise_cons.mpr ⟨fun n hn => ?_, pairwise_namespacesIn text body hbody⟩
        exact (fits_of_mem_namespacesIn hbody hn).1
      | _ => exact .nil
    · have hone : m ∈ namespacesIn text [s] := by simpa [namespacesIn] using hm
      have hfits := fits_of_mem_namespacesIn (show Lies (ofStmts [s]) _ s.span.stop from hs) hone
      exact Nat.le_trans hfits.2.1 (Nat.le_trans hfits.2.2 (fits_of_mem_namespacesIn hrest hn).1)

/-! ## Section 2: The innermost namespace -/

section

variable {x y : Stmt} {before after : List Stmt} {a b offset : Nat}

theorem namespacesIn_append (text : Text) (a b : List Stmt) :
    namespacesIn text (a ++ b) = namespacesIn text a ++ namespacesIn text b := by
  induction a with
  | nil => rfl
  | cons s rest ih => simp only [List.cons_append, namespacesIn, ih, List.append_assoc]

/-- What stands before and behind a statement does not touch an offset within it. -/
theorem find?_around (h : Lies (ofStmts (before ++ y :: after)) a b) (hlow : y.span.start < offset)
    (hhigh : offset < y.span.stop) :
    (namespacesIn text (before ++ y :: after)).reverse.find? (fun m => m.span.touches offset) =
      (namespaces text y).reverse.find? fun m => m.span.touches offset := by
  obtain ⟨_, hbefore, hothers⟩ := h.stmts_split
  obtain ⟨hy, hafter⟩ := hothers.stmts_cons
  have hfront : (namespacesIn text before).reverse.find? (fun m => m.span.touches offset) =
      none := by
    refine List.find?_eq_none.mpr fun m hm htouch => ?_
    have hfits := fits_of_mem_namespacesIn hbefore (List.mem_reverse.mp hm)
    have hstop := of_decide_eq_true (Bool.and_eq_true_iff.mp htouch).2
    have hstart := hy.stmt_fits.1
    omega
  have hbehind :
      (namespacesIn text after).reverse.find? (fun m => m.span.touches offset) = none := by
    refine List.find?_eq_none.mpr fun m hm htouch => ?_
    have hfits := fits_of_mem_namespacesIn hafter (List.mem_reverse.mp hm)
    have hstart := of_decide_eq_true (Bool.and_eq_true_iff.mp htouch).1
    omega
  rw [namespacesIn_append, namespacesIn, List.reverse_append, List.reverse_append,
    List.find?_append, List.find?_append, hfront, hbehind]
  simp

/-- A statement lies within the namespaces around it. -/
theorem lies_of_fill (layers : List Layer) (h : Lies (ofStmt (fill layers x)) a b) :
    Lies (ofStmt x) a b := by
  induction layers generalizing a b with
  | nil => exact h
  | cons F layers ih =>
    obtain ⟨ha, hbody, hb⟩ :=
      lies_node_iff.mp (show Lies (ofStmt (F.fill (fill layers x))) a b from h)
    exact ih (((lies_of_nestedIn_stmts hbody).stmt_of_mem (by simp [Layer.body])).widen ha hb)

/-- **The last namespace that holds an offset** within a statement is the innermost one around
it. -/
theorem context_of_find? (hx : namespaces text x = []) (hlow : x.span.start < offset)
    (hhigh : offset < x.span.stop) (layers : List Layer) (ns : Option String) (imports : Imports)
    (h : Lies (ofStmts (before ++ fill layers x :: after)) a b) :
    ((namespacesIn text (before ++ fill layers x :: after)).reverse.find? fun m =>
        m.span.touches offset).elim (ns, imports) (fun m => (m.name, m.imports)) =
      context ns imports x layers := by
  induction layers generalizing ns imports before after a b with
  | nil =>
    have hnone : namespaces text (fill [] x) = [] := hx
    rw [find?_around h hlow hhigh, hnone]
    rfl
  | cons F layers ih =>
    obtain ⟨_, -, hothers⟩ := h.stmts_split
    have hbody : Lies (ofStmts (F.body (fill layers x))) F.span.start F.span.stop :=
      lies_of_nestedIn_stmts (lies_node_iff.mp hothers.stmts_cons.1).2.1
    -- the offset is within the namespace, since the statement is
    have hmem : fill layers x ∈ F.body (fill layers x) := by simp [Layer.body]
    have hfits := (lies_of_fill layers (hbody.stmt_of_mem hmem)).stmt_fits
    have hstart : F.span.start < offset := Nat.lt_of_le_of_lt hfits.1 hlow
    have hstop : offset < F.span.stop := Nat.lt_of_lt_of_le hhigh hfits.2.2
    have htouch : (namespaceModel text F.span F.name (F.body (fill layers x))).span.touches
        offset = true :=
      Bool.and_eq_true_iff.mpr
        ⟨decide_eq_true (Nat.le_of_lt hstart), decide_eq_true (Nat.le_of_lt hstop)⟩
    have hall : namespaces text (fill (F :: layers) x) =
        namespaceModel text F.span F.name (F.body (fill layers x)) ::
          namespacesIn text (F.before ++ fill layers x :: F.after) := rfl
    have hinner := ih (spaceName F.name) (importsOf (F.body (fill layers x))) hbody
    rw [find?_around h hstart hstop, hall, List.reverse_cons, List.find?_append,
      List.find?_singleton, if_pos htouch, context, ← hinner]
    cases (namespacesIn text (F.before ++ fill layers x :: F.after)).reverse.find? fun m =>
      m.span.touches offset <;> rfl

theorem onSurface_fill (layers : List Layer) : OnSurface (before ++ fill layers x :: after) x := by
  induction layers generalizing before after with
  | nil => exact .top (by simp [fill])
  | cons F layers ih =>
    have hspace : OnSurface (before ++ fill (F :: layers) x :: after)
        (.namespaceDecl F.span F.name F.braced (F.body (fill layers x))) :=
          .top (by simp [fill, Layer.fill])
    exact hspace.trans ih

end

/-! ## Section 3: The name of a class -/

/-- **At a class** nothing but the ranges of namespaces counts: no unbraced namespace ends before it
and is the last one. -/
theorem LaidOut.namespaceAt_eq {program : List Stmt} (h : LaidOut text program) (path : String)
    {span : Span} {head : ClassHead} {all : List Member}
    (hclass : OnSurface program (.classLike span head all)) {offset : Nat}
    (hstop : offset < span.stop) :
    (FileModel.ofProgram path text program).namespaceAt offset =
      (namespacesIn text program).reverse.find? fun m => m.span.touches offset := by
  have hlast : ((namespacesIn text program).getLast?.filter fun m =>
      !m.braced && m.span.stop < offset) = none := by
    refine Option.filter_eq_none_iff.mpr fun m hm hbehind => ?_
    obtain ⟨hunbraced, hbefore⟩ := Bool.and_eq_true_iff.mp hbehind
    have hbefore := of_decide_eq_true hbefore
    obtain ⟨front, hfront⟩ := List.getLast?_eq_some_iff.mp hm
    have hmem : m ∈ namespacesIn text program := by simp [hfront]
    rcases h.onward m hmem (by simpa using hunbraced) with ⟨n, hn, hnext⟩ | hclasses
    · -- the last namespace begins behind all others
      obtain ⟨range, hnested⟩ := h.nested
      have horder := pairwise_namespacesIn text program (lies_of_nestedIn_stmts hnested)
      obtain ⟨mspan, name, braced, body, hs, rfl⟩ := exists_of_mem_namespacesIn hmem
      have hfilled : mspan.start < mspan.stop := h.filled hs
      have hle : n.span.start ≤ mspan.start := by
        rw [hfront] at hn horder
        rcases List.mem_append.mp hn with hn | hn
        · exact (List.pairwise_append.mp horder).2.2 n hn _ List.mem_cons_self
        · rw [List.mem_singleton.mp hn]
          exact Nat.le_refl _
      have hnext : mspan.stop ≤ n.span.start := hnext
      omega
    · have hle := hclasses hclass
      omega
  show ((namespacesIn text program).reverse.find? _ <|> _) = _
  rw [show (FileModel.ofProgram path text program).namespaces = namespacesIn text program
    from rfl, hlast]
  simp

/-- No class is in a namespace of an empty name. -/
theorem Site.space_eq (S : Site) :
    S.space = if S.space.getD "" = "" then none else some (S.space.getD "") := by
  cases hspace : S.space with
  | none => rfl
  | some ns =>
    have hne : ns ≠ "" := by
      rcases List.eq_nil_or_concat S.layers with hnil | ⟨layers, F, hlayers⟩
      · simp [space, hnil, context] at hspace
      · rw [space, hlayers, List.concat_eq_append, context_concat] at hspace
        obtain ⟨n, hn, rfl⟩ := Option.map_eq_some_iff.mp hspace
        simpa using (Option.filter_eq_some_iff.mp hn).2
    simp [hne]

theorem nameContext_eq_elim (file : FileModel) (offset : Nat) :
    file.nameContext offset =
      (file.namespaceAt offset).elim (none, file.imports) fun n => (n.name, n.imports) := by
  unfold FileModel.nameContext
  cases file.namespaceAt offset <;> rfl

/-- **The namespace at the name of a class** is the one that the class is in, and the imports there
are those of the class. -/
theorem nameContext_of_class {text : Text} {program : List Stmt} (h : LaidOut text program)
    (path : String)
    {c : ClassModel} (hc : c ∈ (FileModel.ofProgram path text program).classes) {offset : Nat}
    (hoffset : c.nameSpan.touches offset = true) :
    (FileModel.ofProgram path text program).nameContext offset =
      (if c.name.ns = "" then none else some c.name.ns, c.imports) := by
  obtain ⟨S, rfl, hmodel, -⟩ := mem_classes_iff.mp hc
  obtain ⟨hname, hspan, himports⟩ := Site.model?_spec hmodel
  have hclass : OnSurface S.program (.classLike S.span S.head S.all) := onSurface_fill S.layers
  obtain ⟨hstart, hstop⟩ := h.named hclass
  obtain ⟨hlow, hhigh⟩ := Bool.and_eq_true_iff.mp (hspan ▸ hoffset)
  have hlow : S.span.start < offset := Nat.lt_of_lt_of_le hstart (of_decide_eq_true hlow)
  have hhigh : offset < S.span.stop := Nat.lt_of_le_of_lt (of_decide_eq_true hhigh) hstop
  obtain ⟨range, hnested⟩ := h.nested
  have hfound := context_of_find? (show namespaces text S.stmt = [] from rfl) hlow hhigh
    S.layers none (importsOf S.program) (lies_of_nestedIn_stmts hnested)
  have hcontext : context none (importsOf S.program) S.stmt S.layers = (S.space, S.imports) := by
    rw [Site.space, context_fst none [] (importsOf S.program)]
    rfl
  have hns : c.name.ns = S.space.getD "" := by rw [hname]
  rw [nameContext_eq_elim, h.namespaceAt_eq path hclass hhigh, hns, ← S.space_eq,
    himports, ← hcontext, ← hfound]
  rfl

/-- Unbraced, braced and nameless namespaces, one of them twice, and a class between two of them. -/
def mixedText : Text :=
  ["<?php namespace A; use X\\Y; class C \x7b\x7d namespace B \x7b use P\\Q; class D \x7b\x7d \x7d ",
    "namespace \x7b class E \x7b\x7d \x7d class G \x7b\x7d namespace A; use Z\\W; class F \x7b\x7d"].flatMap
    String.toList

def mixedProgram : List Stmt := (parse mixedText).toOption.getD []

def mixedFile : FileModel := FileModel.ofProgram "" mixedText mixedProgram

theorem mixed_namespaces :
    parse mixedText = .ok mixedProgram ∧
      mixedFile.classes.map ClassModel.name =
        [⟨"A", "C"⟩, ⟨"B", "D"⟩, ⟨"", "E"⟩, ⟨"", "G"⟩, ⟨"A", "F"⟩] ∧
      mixedFile.classes.map (fun c => mixedFile.nameContext c.nameSpan.start) =
        [(some "A", [("Y", ⟨"X", "Y"⟩)]), (some "B", [("Q", ⟨"P", "Q"⟩)]), (none, []), (none, []),
          (some "A", [("W", ⟨"Z", "W"⟩)])] := by
  obtain ⟨hsome, htouch, hnames, hexpected⟩ : (parse mixedText).toOption.isSome = true ∧
      (mixedFile.classes.all fun c => c.nameSpan.touches c.nameSpan.start) = true ∧
      mixedFile.classes.map ClassModel.name =
        [⟨"A", "C"⟩, ⟨"B", "D"⟩, ⟨"", "E"⟩, ⟨"", "G"⟩, ⟨"A", "F"⟩] ∧
      mixedFile.classes.map
        (fun c => (if c.name.ns = "" then none else some c.name.ns, c.imports)) =
        [(some "A", [("Y", ⟨"X", "Y"⟩)]), (some "B", [("Q", ⟨"P", "Q"⟩)]), (none, []), (none, []),
          (some "A", [("W", ⟨"Z", "W"⟩)])] := by decide +kernel
  have hparse : parse mixedText = .ok mixedProgram := parse_eq_ok_of_isSome hsome
  have hcontext : ∀ c ∈ mixedFile.classes, mixedFile.nameContext c.nameSpan.start =
      (if c.name.ns = "" then none else some c.name.ns, c.imports) := fun c hc =>
    nameContext_of_class (laidOut_of_parse hparse) "" hc (List.all_eq_true.mp htouch c hc)
  exact ⟨hparse, hnames, (List.map_congr_left hcontext).trans hexpected⟩

end CodeInsight.Extract
