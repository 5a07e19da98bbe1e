import CodeInsight.Proofs.ReceiverScan
import CodeInsight.Resolution

/-!
# Sites that are found

What is found at a cursor is given as ranges of bytes, and texts are cut there. The scans go over
the characters of texts that nobody has checked: parentheses may be unbalanced, operators may stand
at the very beginning, and the cursor may lie within a character or behind the end. They come to an
end all the same, each of them leaves a part of what it was given, and so all the ranges begin and
end between characters.

## Main Results

- `scans_chainStart?`: a scan for the beginning of a chain comes to an end
- `Scans.suffix`: it leaves a part of what it was given
- `fetchSite?_written`: a fetch that is found, as it is written around the cursor
- `FetchParts.wellFormed`, `wellFormed_of_variableSite?`: the ranges of sites
- `exists_slice?_of_mem_ranges`: the text can be cut there
-/

namespace CodeInsight.Receiver

variable {offset : Nat}

/-! ## Section 1: Scans come to an end -/

/-- How a scan for the beginning of a chain goes, link by link and for as long as it takes. -/
inductive Scans : Text → Option Text → Prop where
  /-- There is no link to step over. -/
  | stuck {back : Text} : link? back = none → Scans back none
  /-- Nothing is continued by the link. -/
  | ended {back start : Text} : link? back = some start → continued? (skipSpaces start) = none →
      Scans back (some ((newBefore? (skipSpaces start) start).getD start))
  /-- The link continues what stands before an operator. -/
  | further {back start rest : Text} {found : Option Text} : link? back = some start →
      continued? (skipSpaces start) = some rest → Scans rest found → Scans back found

/-- **A scan comes to an end** on every text, and its answer does not depend on a number of
steps. -/
theorem scans_chainStart? (back : Text) : Scans back (chainStart? back) := by
  -- each operator is stepped over once, so that less and less is left
  induction hlength : back.length using Nat.strong_induction_on generalizing back with
  | _ length ih =>
    cases hlink : link? back with
    | none =>
      have hnone : chainStart? back = none := by
        rw [chainStart?, chain?, hlink]
        rfl
      rw [hnone]
      exact .stuck hlink
    | some start =>
      cases hcontinued : continued? (skipSpaces start) with
      | none =>
        rw [chainStart?_ended hlink hcontinued]
        exact .ended hlink hcontinued
      | some rest =>
        have hlt := (link?_eq_some hlink).2
        have hle := length_skipSpaces_le start
        have hlt' := length_continued? hcontinued
        rw [chainStart?_continued hlink hcontinued]
        exact .further hlink hcontinued (ih rest.length (by omega) rest rfl)

/-! ## Section 2: Scans leave a part of what they are given -/

section

variable {back start rest : Text}

theorem suffix_skipSpaces (back : Text) : skipSpaces back <:+ back := List.dropWhile_suffix _

theorem suffix_continued? (h : continued? back = some rest) : rest <:+ back := by
  obtain ⟨sign, -, behind, rfl, rfl⟩ := continued?_eq_some h
  exact (suffix_skipSpaces behind).trans (List.suffix_append _ _)

theorem suffix_newBefore? {before : Text} (h : newBefore? before start = some rest) :
    rest <:+ before := by
  unfold newBefore? at h
  split at h
  next tail =>
    split at h
    next =>
      obtain rfl := Option.some.inj h
      exact ⟨['w', 'e', 'n'], rfl⟩
    next => cases h
  next => cases h

/-- **What a scan leaves** is a part of what it was given. -/
theorem Scans.suffix {found : Option Text} (h : Scans back found) :
    ∀ start ∈ found, start <:+ back := by
  induction h with
  | stuck hlink => exact fun start hstart => absurd hstart (Option.not_mem_none start)
  | @ended back start hlink hcontinued =>
    intro found hfound
    obtain rfl := Option.some.inj hfound
    cases hnew : newBefore? (skipSpaces start) start with
    | none => exact (link?_eq_some hlink).1
    | some rest =>
      exact ((suffix_newBefore? hnew).trans (suffix_skipSpaces start)).trans (link?_eq_some hlink).1
  | @further back start rest found hlink hcontinued hscans ih =>
    intro begin hbegin
    have hrest : rest <:+ back :=
      ((suffix_continued? hcontinued).trans (suffix_skipSpaces start)).trans (link?_eq_some hlink).1
    exact (ih begin hbegin).trans hrest

theorem suffix_chainStart? (h : chainStart? back = some start) : start <:+ back :=
  (scans_chainStart? back).suffix start h

theorem operator?_eq_some {nullsafe : Bool} (h : operator? back = some (rest, nullsafe)) :
    back = (if nullsafe then ['>', '-', '?'] else ['>', '-']) ++ rest := by
  unfold operator? at h
  split at h
  next =>
    obtain ⟨rfl, rfl⟩ := Prod.mk.inj (Option.some.inj h)
    rfl
  next =>
    obtain ⟨rfl, rfl⟩ := Prod.mk.inj (Option.some.inj h)
    rfl
  next => cases h

end

/-! ## Section 3: Fetches as they are written -/

theorem leading_append_skipSpaces (back : Text) :
    (Blanks.leading back).chars ++ skipSpaces back = back :=
  List.takeWhile_append_dropWhile

/-- What stands around an offset, backwards and forwards. -/
theorem exists_around (text : Text) (offset : Nat) :
    ∃ front behind, text = front ++ behind ∧ Text.size front = Text.floor text offset ∧
      around text offset = (front.reverse, behind) := by
  obtain ⟨front, behind, htext, hsize⟩ := Text.exists_floor text offset
  refine ⟨front, behind, htext, hsize, ?_⟩
  have haround := around_size front behind
  rwa [around, Text.floor_size, hsize, ← htext] at haround

/-- A fetch is found only where the scans find its parts. -/
theorem exists_of_fetchSite?_eq_some {text back ahead : Text} {site : FetchSite}
    (haround : around text offset = (back, ahead)) (h : fetchSite? text offset = some site) :
    ∃ beforeOperator start nullsafe,
      operator? (skipSpaces (back.dropWhile Text.isWordPart)) = some (beforeOperator, nullsafe) ∧
      chainStart? (skipSpaces beforeOperator) = some start ∧
      start.length < (skipSpaces beforeOperator).length := by
  unfold fetchSite? at h
  rw [haround] at h
  dsimp only at h
  obtain ⟨⟨beforeOperator, nullsafe⟩, hoperator, h⟩ := Option.bind_eq_some_iff.mp h
  obtain ⟨start, hstart, h⟩ := Option.bind_eq_some_iff.mp h
  obtain ⟨_, hguard, _⟩ := Option.bind_eq_some_iff.mp h
  refine ⟨beforeOperator, start, nullsafe, hoperator, hstart, ?_⟩
  unfold guard at hguard
  split at hguard
  next hlength => exact hlength
  next => cases hguard

/-- The parts of a text around a cursor at which a member is fetched. -/
structure FetchParts where
  front : Text
  receiver : Text
  fetch : Fetch
  /-- The member's name up to the cursor. -/
  typed : Text
  /-- The rest of the name. -/
  untyped : Text
  behind : Text
  receiver_ne_nil : receiver ≠ []

namespace FetchParts

variable (parts : FetchParts)

/-- What stands before the cursor. -/
def ahead : Text := parts.front ++ (parts.receiver ++ (parts.fetch.text ++ parts.typed))

def text : Text := parts.ahead ++ (parts.untyped ++ parts.behind)

def site : FetchSite where
  receiver := ⟨Text.size parts.front, Text.size (parts.front ++ parts.receiver)⟩
  nullsafe := parts.fetch.nullsafe
  typed := String.ofList parts.typed
  member := String.ofList (parts.typed ++ parts.untyped)
  tail := ⟨Text.size (parts.front ++ (parts.receiver ++ parts.fetch.before.chars)),
    Text.size (parts.ahead ++ parts.untyped)⟩

end FetchParts

/-- **A fetch that is found**, as it is written around the cursor. -/
theorem fetchSite?_written {text : Text} {site : FetchSite}
    (h : fetchSite? text offset = some site) :
    ∃ parts : FetchParts, text = parts.text ∧ Text.floor text offset = Text.size parts.ahead ∧
      site = parts.site := by
  obtain ⟨front, behind, htext, hsize, haround⟩ := exists_around text offset
  obtain ⟨beforeOperator, start, nullsafe, hoperator, hstart, hlength⟩ :=
    exists_of_fetchSite?_eq_some haround h
  obtain ⟨receiver, hreceiver⟩ := suffix_chainStart? hstart
  let fetch : Fetch := ⟨(Blanks.leading beforeOperator).reverse, nullsafe,
    (Blanks.leading (front.reverse.dropWhile Text.isWordPart)).reverse⟩
  have hfetch :
    fetch.text.reverse = (Blanks.leading (front.reverse.dropWhile Text.isWordPart)).chars ++
      ((if nullsafe then ['>', '-', '?'] else ['>', '-']) ++
          (Blanks.leading beforeOperator).chars) := by
    rw [fetch.reverse_text]
    simp only [fetch, Blanks.reverse, List.reverse_reverse]
  -- backwards come the name as far as it is typed, the operator among blanks, and the receiver
  have hback : front.reverse =
      front.reverse.takeWhile Text.isWordPart ++ (fetch.text.reverse ++ (receiver ++ start)) := by
    rw [hfetch, hreceiver, List.append_assoc, List.append_assoc, leading_append_skipSpaces,
      ← operator?_eq_some hoperator, leading_append_skipSpaces, List.takeWhile_append_dropWhile]
  have hfront : front = start.reverse ++ (receiver.reverse ++
      (fetch.text ++ (front.reverse.takeWhile Text.isWordPart).reverse)) := by
    have hreverse := congrArg List.reverse hback
    simpa only [List.reverse_append, List.reverse_reverse, List.append_assoc] using hreverse
  -- A chain that starts where it ends is refused by the guard on lengths.
  have hne : receiver.reverse ≠ [] := by
    intro hnil
    rw [← hreceiver, List.reverse_eq_nil_iff.mp hnil] at hlength
    exact absurd hlength (Nat.lt_irrefl _)
  refine ⟨⟨start.reverse, receiver.reverse, fetch,
    (front.reverse.takeWhile Text.isWordPart).reverse, behind.takeWhile Text.isWordPart,
    behind.dropWhile Text.isWordPart, hne⟩, ?_, ?_, ?_⟩
  · rw [htext, FetchParts.text, FetchParts.ahead, ← hfront, List.takeWhile_append_dropWhile]
  · rw [← hsize, FetchParts.ahead, ← hfront]
  · have hreceiverEnd : Text.size (skipSpaces beforeOperator) =
        Text.size (start.reverse ++ receiver.reverse) := by
      rw [← hreceiver, ← List.reverse_append, Text.size_reverse]
    have htail : Text.size beforeOperator =
        Text.size (start.reverse ++ (receiver.reverse ++ fetch.before.chars)) := by
      have hblanks :
          Text.size fetch.before.chars = Text.size (Blanks.leading beforeOperator).chars :=
        Text.size_reverse _
      have hsplit := congrArg Text.size (leading_append_skipSpaces beforeOperator)
      rw [Text.size_append] at hsplit
      rw [← List.append_assoc, Text.size_append, ← hreceiverEnd, hblanks]
      omega
    -- The ranges are told by the sizes of what is left over, and these by the parts.
    have hsite := fetchSite?_eq_some haround hoperator hstart hlength
    rw [h] at hsite
    rw [Option.some.inj hsite, FetchParts.site, FetchParts.ahead, ← hfront, Text.size_append front,
      Text.size_reverse, Text.size_reverse, hreceiverEnd, htail]

/-! ## Section 4: The ranges of sites -/

/-- The site of a fetch keeps to the text. The clamped offset is the last boundary up to the
offset. -/
structure FetchSite.WellFormed (text : Text) (offset : Nat) (site : FetchSite) : Prop where
  receiver_lt : site.receiver.start < site.receiver.stop
  receiver_le : site.receiver.stop ≤ site.tail.start
  tail_lt : site.tail.start < site.tail.stop
  tail_le : site.tail.stop ≤ Text.size text
  boundaries : ∀ o ∈ [site.receiver.start, site.receiver.stop, site.tail.start, site.tail.stop],
    Text.isBoundary text o = true
  /-- Between the receiver and the operator there are blanks only. -/
  between : ∃ gap : Blanks, Text.slice? text site.receiver.stop site.tail.start = some gap.chars
  /-- The tail is the operator, blanks and the name of the member. -/
  tail_reads : ∃ gap : Blanks, Text.slice? text site.tail.start site.tail.stop =
    some ((if site.nullsafe then "?->".toList else "->".toList) ++
      (gap.chars ++ site.member.toList))
  /-- The name is typed up to the clamped offset. -/
  typed_reads : ∃ untyped, site.member.toList = site.typed.toList ++ untyped ∧
    Text.floor text offset + Text.size untyped = site.tail.stop

/-- The site of a variable keeps to the text. -/
structure VariableSite.WellFormed (text : Text) (offset : Nat) (site : VariableSite) : Prop where
  token_le : site.token.stop ≤ Text.size text
  boundaries : ∀ o ∈ [site.token.start, site.token.stop], Text.isBoundary text o = true
  /-- The token is a `$` and a name. -/
  token_reads : ∃ name, Text.slice? text site.token.start site.token.stop = some ('$' :: name) ∧
    ∀ c ∈ name, Text.isWordPart c = true
  /-- The name ends where the token does. -/
  ends : ∀ c ∈ (Text.after text site.token.stop).head?, Text.isWordPart c = false
  /-- The clamped offset lies behind the `$`. -/
  holds : site.token.start < Text.floor text offset ∧ Text.floor text offset ≤ site.token.stop
  typed_reads : Text.slice? text site.token.start (Text.floor text offset) = some site.typed.toList

namespace FetchParts

variable (parts : FetchParts)

@[simp] theorem toList_member : parts.site.member.toList = parts.typed ++ parts.untyped :=
  String.toList_ofList

@[simp] theorem toList_typed : parts.site.typed.toList = parts.typed := String.toList_ofList

theorem slice?_receiver :
    Text.slice? parts.text parts.site.receiver.start parts.site.receiver.stop =
      some parts.receiver :=
  Text.slice?_eq_some_iff.mpr
    ⟨parts.front, parts.fetch.text ++ (parts.typed ++ (parts.untyped ++ parts.behind)),
    by simp only [text, ahead, List.append_assoc], rfl, (Text.size_append _ _).symm⟩

theorem slice?_between : Text.slice? parts.text parts.site.receiver.stop parts.site.tail.start =
    some parts.fetch.before.chars := by
  refine Text.slice?_eq_some_iff.mpr ⟨parts.front ++ parts.receiver,
    (if parts.fetch.nullsafe then "?->".toList else "->".toList) ++
      (parts.fetch.after.chars ++ (parts.typed ++ (parts.untyped ++ parts.behind))), ?_, rfl, ?_⟩
  · simp only [text, ahead, Fetch.text, List.append_assoc]
  · simp only [site, Text.size_append]
    omega

/-- From the operator to the end of the name. -/
def tail : Text :=
  (if parts.fetch.nullsafe then "?->".toList else "->".toList) ++
    (parts.fetch.after.chars ++ (parts.typed ++ parts.untyped))

theorem slice?_tail : Text.slice? parts.text parts.site.tail.start parts.site.tail.stop =
    some parts.tail := by
  refine Text.slice?_eq_some_iff.mpr
    ⟨parts.front ++ (parts.receiver ++ parts.fetch.before.chars), parts.behind, ?_, rfl, ?_⟩
  · simp only [text, ahead, tail, Fetch.text, List.append_assoc]
  · simp only [site, ahead, tail, Fetch.text, Text.size_append]
    omega

theorem size_tail_pos : 0 < Text.size parts.tail := by
  have hoperator : 0 < Text.size (if parts.fetch.nullsafe then "?->".toList else "->".toList) := by
    cases parts.fetch.nullsafe <;> decide
  rw [tail, Text.size_append]
  omega

/-- **The site of a fetch** keeps to the text around it. -/
theorem wellFormed (hoffset : Text.floor parts.text offset = Text.size parts.ahead) :
    parts.site.WellFormed parts.text offset where
  receiver_lt := by
    have hreceiver : 0 < Text.size parts.receiver :=
      Nat.pos_of_ne_zero fun hzero => parts.receiver_ne_nil (Text.size_eq_zero_iff.mp hzero)
    simp only [site, Text.size_append]
    omega
  receiver_le := by
    simp only [site, Text.size_append]
    omega
  tail_lt := by
    obtain ⟨_, _, _, _, hstop⟩ := Text.slice?_eq_some_iff.mp parts.slice?_tail
    have hpos := parts.size_tail_pos
    omega
  tail_le := Text.le_size_of_isBoundary (Text.isBoundary_of_slice? parts.slice?_tail).2
  boundaries o ho := by
    obtain ⟨hstart, hstop⟩ := Text.isBoundary_of_slice? parts.slice?_receiver
    obtain ⟨htailStart, htailStop⟩ := Text.isBoundary_of_slice? parts.slice?_tail
    simp only [List.mem_cons, List.not_mem_nil, or_false] at ho
    rcases ho with rfl | rfl | rfl | rfl <;> assumption
  between := ⟨parts.fetch.before, parts.slice?_between⟩
  tail_reads := ⟨parts.fetch.after, by
    rw [slice?_tail, toList_member]
    rfl⟩
  typed_reads := ⟨parts.untyped, by simp, by
    rw [hoffset]
    exact (Text.size_append _ _).symm⟩

end FetchParts

theorem wellFormed_of_fetchSite? {text : Text} {site : FetchSite}
    (h : fetchSite? text offset = some site) : site.WellFormed text offset := by
  obtain ⟨parts, rfl, hoffset, rfl⟩ := fetchSite?_written h
  exact parts.wellFormed hoffset

/-- What stands around a variable that is found. -/
theorem exists_of_variableSite?_eq_some {text : Text} {site : VariableSite}
    (h : variableSite? text offset = some site) :
    ∃ front typed behind, text = front ++ '$' :: typed ++ behind ∧
      Text.floor text offset = Text.size (front ++ '$' :: typed) ∧
        (∀ c ∈ typed, Text.isWordPart c = true) ∧
      site = ⟨String.ofList ('$' :: typed), ⟨Text.size front,
        Text.size (front ++ '$' :: typed ++ behind.takeWhile Text.isWordPart)⟩⟩ := by
  obtain ⟨front, behind, rfl, hsize, haround⟩ := exists_around text offset
  unfold variableSite? at h
  rw [haround] at h
  dsimp only at h
  split at h
  -- Behind the word there is a `$`, looked at backwards from the cursor.
  next rest hdollar =>
    obtain rfl := Option.some.inj h
    have hback := List.takeWhile_append_dropWhile (p := Text.isWordPart) (l := front.reverse)
    rw [hdollar] at hback
    have hfront :
        front = rest.reverse ++ '$' :: (front.reverse.takeWhile Text.isWordPart).reverse := by
      have hreverse := congrArg List.reverse hback
      simpa only [List.reverse_append, List.reverse_cons, List.reverse_reverse, List.append_assoc,
        List.singleton_append] using hreverse.symm
    refine ⟨rest.reverse, (front.reverse.takeWhile Text.isWordPart).reverse, behind, ?_, ?_, ?_, ?_⟩
    · rw [← hfront]
    · rw [← hfront, hsize]
    · intro c hc
      exact List.mem_takeWhile_imp (List.mem_reverse.mp hc)
    · rw [← hfront, Text.size_append, Text.size_reverse, Text.size_reverse]
  next => cases h

/-- **The site of a variable** keeps to the text around it. -/
theorem wellFormed_of_variableSite? {text : Text} {site : VariableSite}
    (h : variableSite? text offset = some site) : site.WellFormed text offset := by
  obtain ⟨front, typed, behind, rfl, hfloor, htyped, rfl⟩ := exists_of_variableSite?_eq_some h
  -- the token goes on behind the cursor, up to the end of the word
  have htoken : Text.slice? (front ++ '$' :: typed ++ behind) (Text.size front)
      (Text.size (front ++ '$' :: typed ++ behind.takeWhile Text.isWordPart)) =
      some ('$' :: (typed ++ behind.takeWhile Text.isWordPart)) := by
    refine Text.slice?_eq_some_iff.mpr ⟨front, behind.dropWhile Text.isWordPart, ?_, rfl, ?_⟩
    · rw [List.append_assoc, List.cons_append, List.cons_append, List.append_assoc,
        List.takeWhile_append_dropWhile]
    · simp only [Text.size_append, Text.size_cons]
      omega
  have hrest : Text.after (front ++ '$' :: typed ++ behind)
      (Text.size (front ++ '$' :: typed ++ behind.takeWhile Text.isWordPart)) =
      behind.dropWhile Text.isWordPart := by
    have hafter := Text.after_size (front ++ '$' :: typed ++ behind.takeWhile Text.isWordPart)
      (behind.dropWhile Text.isWordPart)
    rwa [List.append_assoc (front ++ '$' :: typed), List.takeWhile_append_dropWhile] at hafter
  obtain ⟨hstart, hstop⟩ := Text.isBoundary_of_slice? htoken
  -- its boundaries, its characters, what follows it, and where the cursor stands
  refine ⟨Text.le_size_of_isBoundary hstop, ?_, ⟨_, htoken, ?_⟩, ?_, ?_, ?_⟩
  · intro o ho
    simp only [List.mem_cons, List.not_mem_nil, or_false] at ho
    rcases ho with rfl | rfl <;> assumption
  · intro c hc
    rcases List.mem_append.mp hc with hc | hc
    · exact htyped c hc
    · exact List.mem_takeWhile_imp hc
  · rw [hrest]
    intro c hc
    have hnot := List.head?_dropWhile_not Text.isWordPart behind
    rw [hc] at hnot
    exact hnot
  · rw [hfloor]
    simp only [Text.size_append, Text.size_cons]
    have hdollar := Char.utf8Size_pos '$'
    omega
  · rw [hfloor, String.toList_ofList]
    refine Text.slice?_eq_some_iff.mpr ⟨front, behind, ?_, rfl, ?_⟩
    · rw [List.append_assoc]
    · exact (Text.size_append _ _).symm

end CodeInsight.Receiver

namespace CodeInsight

open Receiver

variable {offset : Nat}

namespace Resolution

/-- The ranges at which a text is cut for what is being typed. -/
def Site.ranges : Site → List Span
  | .fetch site => [site.receiver, site.tail]
  | .variable site => [site.token]
  | .other => []

theorem siteAt_eq_fetch {text : Text} {site : FetchSite} (h : siteAt text offset = .fetch site) :
    fetchSite? text offset = some site := by
  unfold siteAt at h
  split at h
  next hfound => rw [hfound, Site.fetch.inj h]
  next => split at h <;> cases h

theorem siteAt_eq_variable {text : Text} {site : VariableSite}
    (h : siteAt text offset = .variable site) : variableSite? text offset = some site := by
  unfold siteAt at h
  split at h
  next => cases h
  next =>
    split at h
    next hfound => rw [hfound, Site.variable.inj h]
    next => cases h

/-- Texts are cut at the ranges of a site. -/
theorem exists_slice?_of_mem_ranges {text : Text} {range : Span}
    (h : range ∈ (siteAt text offset).ranges) :
    ∃ part, part ≠ [] ∧ Text.slice? text range.start range.stop = some part := by
  cases hsite : siteAt text offset with
  | fetch site =>
    obtain ⟨parts, rfl, -, rfl⟩ := fetchSite?_written (siteAt_eq_fetch hsite)
    rw [hsite] at h
    simp only [Site.ranges, List.mem_cons, List.not_mem_nil, or_false] at h
    rcases h with rfl | rfl
    · exact ⟨parts.receiver, parts.receiver_ne_nil, parts.slice?_receiver⟩
    · refine ⟨parts.tail, fun hnil => ?_, parts.slice?_tail⟩
      have hpos := parts.size_tail_pos
      rw [hnil] at hpos
      exact absurd hpos (Nat.lt_irrefl 0)
  | «variable» site =>
    obtain ⟨name, hname, -⟩ := (wellFormed_of_variableSite? (siteAt_eq_variable hsite)).token_reads
    rw [hsite] at h
    obtain rfl := List.mem_singleton.mp h
    exact ⟨'$' :: name, List.cons_ne_nil _ _, hname⟩
  | other =>
    rw [hsite] at h
    cases h

end Resolution

end CodeInsight
