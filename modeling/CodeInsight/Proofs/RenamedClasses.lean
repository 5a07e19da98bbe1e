import CodeInsight.Rename
import CodeInsight.Workspace
import CodeInsight.Proofs.ClassSites

/-!
# Renamed classes

A class is renamed in its file by exchanging its name, the name of its namespace, or both. The new
text declares the same program with the other names in it, and with other offsets behind them.

## Main Results

- `Extract.Site.rename`: the text with another name of the class
- `Extract.Site.rehouse`: the text with another name of the innermost namespace around it
-/

namespace CodeInsight

open Grammar

variable {layers : List Layer} {f : Nat → Nat} {F : Layer}

/-! ## Section 1: Namespaces around a declaration -/

namespace Grammar

theorem exists_shift {p q q' : Nat} (h : p < q) (h' : p < q') : ∃ f, Shift f p q q' := by
  refine ⟨fun m => if q ≤ m then q' + (m - q) else m, h, h', fun m hm => ?_, fun m => ?_⟩
  · exact if_neg (by omega)
  · rw [if_pos (Nat.le_add_right q m), Nat.add_sub_cancel_left]

/-- Offsets that are kept in a statement are kept in the namespaces around it. -/
theorem fill_across_eq {h : Nat → Nat} {x y : Stmt}
    (heq : fill (layers.map (Layer.across f h)) y = fill layers x) :
    (∀ F ∈ layers, F.across f h = F) ∧ y = x := by
  induction layers with
  | nil => exact ⟨fun F hF => absurd hF List.not_mem_nil, heq⟩
  | cons F layers ih =>
    obtain ⟨hspan, hname, -, hbody⟩ := Stmt.namespaceDecl.inj heq
    obtain ⟨hbefore, hrest⟩ := List.append_inj hbody (by simp [Layer.across])
    obtain ⟨hinner, hafter⟩ := List.cons.inj hrest
    obtain ⟨hlayers, hitself⟩ := ih hinner
    refine ⟨List.forall_mem_cons.mpr ⟨?_, hlayers⟩, hitself⟩
    obtain ⟨span, name, braced, before, after⟩ := F
    exact (Layer.mk.injEq ..).mpr ⟨hspan, hname, rfl, hbefore, hafter⟩

end Grammar

/-! ## Section 2: Exchanging names in a text -/

namespace Extract.Site

variable {text : Text} {S : Site}

/-- **The text with another name of the class.** -/
theorem rename (hparse : parse text = .ok S.program) (hform : S.head.form ≠ .isEnum)
    (hfree : FreeName S.head.name.text.toList) :
    ∃ u s, text = u ++ (S.head.name.text.toList ++ s) ∧
      S.head.name.span = ⟨Text.size u, Text.size u + Text.size S.head.name.text.toList⟩ ∧
      (∀ F ∈ S.layers, ∀ f : Nat → Nat, (∀ m < Text.size u, f m = m) → move f F.name = F.name) ∧
      ∀ y, FreeName y → y.contains '\\' = false →
        (nameKind y).unqualified = (nameKind S.head.name.text.toList).unqualified → ∃ f n,
        Shift f (Text.size u) (Text.size u + Text.size S.head.name.text.toList)
          (Text.size u + Text.size y) ∧ n.text = String.ofList y ∧
        parse (u ++ (y ++ s)) = .ok ((S.moved f).named n).program := by
  obtain ⟨u, s, hlocated⟩ :=
    ((exchangeable_class S.span S.all hform).fill S.layers).located hparse hfree
  refine ⟨u, s, hlocated.text, hlocated.span, fun F hF f hf => ?_, fun y hy hplain hkind => ?_⟩
  · obtain ⟨-, hfill, -⟩ := hlocated.around f id hf fun _ _ => rfl
    exact congrArg Layer.name ((fill_across_eq hfill).1 F hF)
  · obtain ⟨f, hf⟩ :=
      exists_shift (Nat.lt_add_of_pos_right (n := Text.size u) (size_pos hfree.ne_nil))
      (Nat.lt_add_of_pos_right (n := Text.size u) (size_pos hy.ne_nil))
    have hword : ∀ t : Token, t.kind = nameKind y → t.isWord = true := by
      intro t ht
      simp only [nameKind, hplain, Bool.false_eq_true, if_false] at ht
      split at ht <;> simp [Token.isWord, ht]
    exact ⟨f, _, hf, rfl, hlocated.again y hy hkind hword f hf⟩

/-- **The text with another name of the innermost namespace.** -/
theorem rehouse (hparse : parse text = .ok S.program) (hlayers : S.layers = layers ++ [F])
    {nm : Name} (hname : F.name = some nm) (hfree : FreeName nm.text.toList) :
    ∃ u s, text = u ++ (nm.text.toList ++ s) ∧
      nm.span = ⟨Text.size u, Text.size u + Text.size nm.text.toList⟩ ∧
      ∀ y, FreeName y → (nameKind y).unqualified = (nameKind nm.text.toList).unqualified →
        ∃ f n, n.text = String.ofList y ∧
        parse (u ++ (y ++ s)) = .ok ((S.moved f).housed n).program := by
  -- the namespace is a declaration of its own, within the other ones
  have hfill : fill S.layers S.stmt =
      fill layers (.namespaceDecl F.span (some nm) F.braced (F.body S.stmt)) := by
    rw [hlayers, fill, List.foldr_append, ← hname]
    rfl
  have hparse' := hparse
  rw [program, hfill] at hparse'
  obtain ⟨u, s, hlocated⟩ := (exchangeable_namespace.fill layers).located hparse' hfree
  refine ⟨u, s, hlocated.text, hlocated.span, fun y hy hkind => ?_⟩
  obtain ⟨f, hf⟩ :=
    exists_shift (Nat.lt_add_of_pos_right (n := Text.size u) (size_pos hfree.ne_nil))
    (Nat.lt_add_of_pos_right (n := Text.size u) (size_pos hy.ne_nil))
  have hpath : ∀ t : Token, t.kind = nameKind y → Parser.isPath t = true := by
    intro t ht
    unfold nameKind at ht
    split at ht
    next => simp [Parser.isPath, ht]
    next => split at ht <;> simp [Parser.isPath, Token.isWord, ht]
  have hmoved : (S.moved f).layers = layers.map (Layer.across f f) ++ [F.across f f] := by
    simp [moved, hlayers]
  have hprogram : ∀ n, ((S.moved f).housed n).program = move f S.before ++
      fill (layers.map (Layer.across f f)) (.namespaceDecl (across f f F.span) (some n) F.braced
        (move f (F.body S.stmt))) :: move f S.after := by
    intro n
    have hbody : move f (F.body S.stmt) = (F.across f f).body (S.moved f).stmt := by
      rw [stmt_moved]
      exact move_append f F.before _
    unfold program
    rw [layers_housed hmoved, hbody, fill, List.foldr_append]
    rfl
  refine ⟨f, ⟨String.ofList y, ⟨Text.size u, Text.size u + Text.size y⟩⟩, rfl, ?_⟩
  rw [hprogram]
  exact hlocated.again y hy hkind hpath f hf

end Extract.Site

end CodeInsight
