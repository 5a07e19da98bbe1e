import CodeInsight.Proofs.TextLaws
import CodeInsight.Resolution

/-!
# Chains in texts and in trees

What a member is fetched from is read off the characters before the cursor, because the code there
seldom parses. What is assigned to a variable is read off the parse tree. Both are chains of fetches
and calls, and both readings give a chain the same type.

## Main Results

- `Grammar.Expr.chain?`: the chain that a tree stands for
- `Scope.Setting.infer_eq_type`: the type of a tree is the type of its chain
- `Receiver.Chain.type_lowered`: cases do not matter in the words that stand for a class
- `Resolution.receiverType_eq_infer`: text and tree tell one type
-/

namespace CodeInsight

open Receiver Grammar Scope

variable {text : String} {e : Expr} {chain : Chain}

/-! ## Section 1: Chains in trees -/

/-- A chain with one more step. -/
def Receiver.Chain.extend (chain : Chain) (link : Link) : Chain :=
  { chain with links := chain.links ++ [link] }

namespace Grammar.Expr

/-- The name that an expression consists of. -/
def word? : Expr → Option String
  | .name _ text => some text
  | _ => none

/-- The class that an expression names before `::` or after `new`. -/
def className? : Expr → Option String
  | .name _ text => some text
  | .classWord _ .self => some "self"
  | .classWord _ .static => some "static"
  | .classWord _ .parent => some "parent"
  | _ => none

/-- The chain that an expression stands for. Parentheses, arguments and the question mark of `?->`
have no part in it. -/
def chain? : Expr → Option Chain
  | .variable _ text => some ⟨.variable text, []⟩
  | .new _ of _ => of.className?.map fun text => ⟨.new text, []⟩
  | .staticCall _ owner member _ =>
    owner.className?.bind fun text => member.word?.map fun method => ⟨.staticCall text method, []⟩
  | .call _ callee _ => callee.word?.map fun text => ⟨.functionCall text, []⟩
  | .fetch _ _ object member =>
    object.chain?.bind fun chain => member.word?.map fun text => chain.extend (.property text)
  | .methodCall _ object member _ =>
    object.chain?.bind fun chain => member.word?.map fun text => chain.extend (.method text)
  | .group _ inner => inner.chain?
  | _ => none

/-- The expression that a chain begins with. -/
def base : Expr → Expr
  | .fetch _ _ object _ => object.base
  | .methodCall _ object _ _ => object.base
  | .group _ inner => inner.base
  | e => e

theorem word?_eq_some (h : e.word? = some text) : ∃ span, e = .name span text := by
  unfold word? at h
  split at h
  next span _ =>
    cases h
    exact ⟨span, rfl⟩
  next => cases h

end Grammar.Expr

/-! ## Section 2: The type of a tree -/

theorem Receiver.Chain.type_extend (lookup : Lookup) (context : NameContext)
    (found : String → InferredType) (chain : Chain) (link : Link) :
    (chain.extend link).type lookup context found =
      link.type lookup (chain.type lookup context found) := by
  simp [Chain.type, Chain.extend]

namespace Scope.Setting

theorem classReference_eq_read (s : Setting) (frame : Frame) (offset : Nat)
    (h : e.className? = some text) :
    s.classReference frame offset e = TypeHint.read text (s.context frame offset) := by
  unfold Expr.className? at h
  split at h <;> cases h <;> rfl

/-- **The type of a tree** is the type of its chain, in the context of its beginning and with the
variables that are bound there. -/
theorem infer_eq_type (s : Setting) (forest : Forest) (scope : Nat) (frame : Frame)
    (h : e.chain? = some chain) :
    s.infer forest scope frame e =
      chain.type s.lookup (s.context frame e.base.span.start)
        fun text => forest.lookup scope text e.base.span.start := by
  fun_induction Expr.chain? e generalizing chain with
  -- first what a chain begins with, then the steps it goes on with
  | case1 span text =>
    cases h
    rw [infer]
    rfl
  | case2 span of args =>
    obtain ⟨text, htext, rfl⟩ := Option.map_eq_some_iff.mp h
    rw [infer, s.classReference_eq_read frame _ htext]
    rfl
  | case3 span owner member args =>
    obtain ⟨text, htext, hmethod⟩ := Option.bind_eq_some_iff.mp h
    obtain ⟨method, hmember, rfl⟩ := Option.map_eq_some_iff.mp hmethod
    obtain ⟨place, rfl⟩ := Expr.word?_eq_some hmember
    rw [infer, s.classReference_eq_read frame _ htext]
    rfl
  | case4 span callee args =>
    obtain ⟨text, _, rfl⟩ := Option.map_eq_some_iff.mp h
    simp [infer, Chain.type, Base.type]
  -- each step asks the type of what stands before it
  | case5 span nullsafe object member ih | case6 span object member args ih =>
    obtain ⟨inner, hinner, hmore⟩ := Option.bind_eq_some_iff.mp h
    obtain ⟨text, hmember, rfl⟩ := Option.map_eq_some_iff.mp hmore
    obtain ⟨place, rfl⟩ := Expr.word?_eq_some hmember
    rw [infer, Expr.base, Chain.type_extend, ← ih hinner]
    rfl
  | case7 span inner ih =>
    rw [infer, Expr.base]
    exact ih h
  | case8 => cases h

end Scope.Setting

/-! ## Section 3: Words that stand for a class -/

namespace Receiver

/-- The words that stand for a class within a class, in lower case. -/
def classWords : List String := ["self", "static", "parent"]

/-- A name, in lower case if it is a word that stands for a class. -/
def lowered (text : String) : String := if text.toLower ∈ classWords then text.toLower else text

/-- A beginning with its class as a tree gives it. -/
def Base.lowered : Base → Base
  | .new text => .new (Receiver.lowered text)
  | .staticCall text method => .staticCall (Receiver.lowered text) method
  | first => first

/-- A chain with its class as a tree gives it. -/
def Chain.lowered (chain : Chain) : Chain := { chain with base := chain.base.lowered }

end Receiver

/-- A hint that is one word of letters is read as that word. -/
theorem TypeHint.read_of_letters {hint : String} (hletters : ∀ c ∈ hint.toList, c.isAlpha = true)
    (hempty : hint.toList ≠ []) (hnull : hint.toLower ≠ "null") (context : NameContext) :
    TypeHint.read hint context = TypeHint.single hint context := by
  have hnone : ∀ c : Char, c.isAlpha = false → c ∉ hint.toList := by
    intro c hc hmem
    rw [hletters c hmem] at hc
    cases hc
  have htrim : Text.trim hint.toList = hint.toList := Text.trim_of_letters hletters
  have hmark : withoutMark hint.toList = hint.toList := by
    unfold withoutMark
    rw [htrim]
    split
    next rest heq => exact absurd (heq ▸ List.mem_cons_self) (hnone '?' (by decide))
    next => rfl
  have hunion : unionMembers hint.toList = [hint] := by
    unfold unionMembers
    rw [Text.splitOn_of_notMem (hnone '|' (by decide))]
    simp [htrim, hnull]
  unfold TypeHint.read
  simp [hmark, hunion, hempty, hnone '&' (by decide), hnone '(' (by decide)]

/-- A word that stands for a class is read as it stands, in whatever cases. -/
theorem TypeHint.read_classWord (h : text.toLower ∈ Receiver.classWords) (context : NameContext) :
    TypeHint.read text context = TypeHint.single text context := by
  have hfacts : (Receiver.classWords.all fun w =>
      w.toList.all Char.isLower && w.toList ≠ [] && w ≠ "null") = true := by decide +kernel
  have hword := List.all_eq_true.mp hfacts _ h
  simp only [Bool.and_eq_true, decide_eq_true_eq] at hword
  obtain ⟨⟨hlower, hempty⟩, hnull⟩ := hword
  have hspelled : text.toLower.toList = text.toList.map Char.toLower := String.toList_map
  rw [hspelled] at hlower hempty
  refine read_of_letters (fun c hc => ?_) (fun hnil => hempty (by rw [hnil]; rfl)) hnull context
  exact Text.isAlpha_of_toLower (List.all_eq_true.mp hlower _ (List.mem_map_of_mem hc))

/-- The cases of a word that stands for a class do not matter. -/
theorem TypeHint.read_lowered (text : String) (context : NameContext) :
    TypeHint.read (Receiver.lowered text) context = TypeHint.read text context := by
  unfold Receiver.lowered
  split
  next hword =>
    have hfixed : (Receiver.classWords.all fun w => w.toLower = w) = true := by decide +kernel
    have hsame : text.toLower.toLower = text.toLower :=
      of_decide_eq_true (List.all_eq_true.mp hfixed _ hword)
    rw [read_classWord (hsame.symm ▸ hword), read_classWord hword]
    unfold TypeHint.single
    rw [hsame]
    -- the three words are told before any name is resolved
    simp only [Receiver.classWords, List.mem_cons, List.not_mem_nil, or_false] at hword
    rcases hword with hword | hword | hword <;> simp [hword]
  next => rfl

/-- **The type of a chain** is the same when its class is given as in a tree. -/
theorem Receiver.Chain.type_lowered (lookup : Lookup) (context : NameContext)
    (found : String → InferredType) (chain : Chain) :
    chain.lowered.type lookup context found = chain.type lookup context found := by
  obtain ⟨first, links⟩ := chain
  unfold Chain.type Chain.lowered
  cases first with
  | new text | staticCall text method => simp only [Base.lowered, Base.type, TypeHint.read_lowered]
  | _ => rfl

/-- What is found for other variables than the one that a chain begins with does not matter. -/
theorem Receiver.Chain.type_congr {lookup : Lookup} {context : NameContext}
    {found found' : String → InferredType}
    (h : ∀ text, chain.base = .variable text → found text = found' text) :
    chain.type lookup context found = chain.type lookup context found' := by
  obtain ⟨first, links⟩ := chain
  cases first with
  | «variable» text => simp [Chain.type, Base.type, h text rfl]
  | _ => rfl

/-! ## Section 4: Text and tree -/

/-- **Text and tree tell one type.** The receiver of a fetch that is read off the text has the type
that is inferred for its expression tree, if the two are read in the same context and the variable
that the chain begins with is looked up at the same offset. -/
theorem Resolution.receiverType_eq_infer {s : Setting} {frame : Frame} {a : Analysis} {scope : Nat}
    {text : Text} {site : FetchSite} {chain : Chain} {e : Expr}
    (hchain : Chain.ofText? (Text.slice text site.receiver.start site.receiver.stop) = some chain)
    (htree : e.chain?.map Chain.lowered = some chain.lowered)
    (hcontext : s.context frame e.base.span.start = a.context site.receiver.start)
    (hoffset : ∀ name, chain.base = .variable name →
      e.base.span.start = site.receiver.start) :
    Resolution.receiverType s.lookup a scope text site = s.infer a.forest scope frame e := by
  obtain ⟨read, hread, hlowered⟩ := Option.map_eq_some_iff.mp htree
  rw [s.infer_eq_type a.forest scope frame hread, ← Chain.type_lowered, hlowered,
    Chain.type_lowered, hcontext]
  unfold Resolution.receiverType
  simp only [hchain]
  exact Chain.type_congr fun name hname => by rw [hoffset name hname]

/-- A class with a method that consists of one expression. -/
def methodText (code : String) : Text :=
  ("<?php class A \x7b public ?A $next; function me(): static \x7b " ++ code ++
    "; \x7d \x7d").toList

/-- The method as it is typed, which does not parse. -/
def typedText : Text := methodText "$this->next?->me()->"

/-- The text that is analysed instead. -/
def withoutFetch : Text := methodText "$this->next?->me()  "

def typedSite : FetchSite := ⟨⟨57, 75⟩, false, "", "", ⟨75, 77⟩⟩

/-- The expression that the method consists of. -/
def methodTree? (text : Text) : Option Expr :=
  match Grammar.parse text with
  | .ok [_, .classLike _ _ [_, .method _ _ _ _ _ _ [.expression _ e]]] => some e
  | _ => none

/-- A walk through a file whose classes are the only ones. -/
def aloneSetting (a : Analysis) (text : Text) : Setting :=
  ⟨Lookup.within (fun _ => none) a.file, a.file, text⟩

theorem typed_chain_tells_type_of_tree :
    ∃ a e, fetchSite? typedText 77 = some typedSite ∧
      Analysis.ofText (fun _ => none) "A.php" withoutFetch = .ok a ∧
      methodTree? withoutFetch = some e ∧
      e.chain? = some ⟨.variable "$this", [.property "next", .method "me"]⟩ ∧
      e.base.span.start = typedSite.receiver.start ∧
      Resolution.receiverType (aloneSetting a withoutFetch).lookup a
        (a.forest.scopeAt typedSite.receiver.start) typedText typedSite = .ofClass ⟨"", "A"⟩ ∧
      Resolution.receiverType (aloneSetting a withoutFetch).lookup a
          (a.forest.scopeAt typedSite.receiver.start) typedText typedSite =
        (aloneSetting a withoutFetch).infer a.forest
          (a.forest.scopeAt typedSite.receiver.start) a.file.classes.head? e := by
  have hsite : fetchSite? typedText 77 = some typedSite := by decide +kernel
  have hchain : Chain.ofText? (Text.slice typedText typedSite.receiver.start
      typedSite.receiver.stop) = some ⟨.variable "$this", [.property "next", .method "me"]⟩ := by
    decide +kernel
  have htree : ((methodTree? withoutFetch).any fun e =>
      e.chain? = some ⟨.variable "$this", [.property "next", .method "me"]⟩ ∧
        e.base.span.start = typedSite.receiver.start) = true := by decide +kernel
  have hanalysis : ((Analysis.ofText (fun _ => none) "A.php" withoutFetch).toOption.any fun a =>
      (aloneSetting a withoutFetch).context a.file.classes.head? typedSite.receiver.start =
          a.context typedSite.receiver.start ∧
        Resolution.receiverType (aloneSetting a withoutFetch).lookup a
          (a.forest.scopeAt typedSite.receiver.start) typedText typedSite =
            .ofClass ⟨"", "A"⟩) = true := by decide +kernel
  -- the tree and the analysis are named, so that the general law applies
  obtain ⟨e, he, hread⟩ := (Option.any_eq_true _ _).mp htree
  obtain ⟨hread, hstart⟩ := of_decide_eq_true hread
  cases ha : Analysis.ofText (fun _ => none) "A.php" withoutFetch with
  | error failure =>
    rw [ha] at hanalysis
    cases hanalysis
  | ok a =>
    rw [ha] at hanalysis
    obtain ⟨hcontext, htype⟩ := of_decide_eq_true hanalysis
    refine ⟨a, e, hsite, rfl, he, hread, hstart, htype, ?_⟩
    have hsame : (aloneSetting a withoutFetch).context a.file.classes.head? e.base.span.start =
        a.context typedSite.receiver.start := by rw [hstart, hcontext]
    exact Resolution.receiverType_eq_infer hchain (by rw [hread]; rfl) hsame fun _ _ => hstart

end CodeInsight
