import CodeInsight.Proofs.ReceiverTexts
import Mathlib.Data.List.DropRight
import Mathlib.Data.List.Induction

/-!
# Receivers are found again

Behind a receiver stand an operator and what has been typed of a member's name. From there the scan
goes back over the operator and over the links of the receiver, and it stops where the receiver
begins, provided that what stands before it does not go on: it neither ends in an operator or in the
word `new`, nor runs into the receiver. The receiver is found to the character, however many links
it has and whatever its arguments are.

## Main Results

- `chainStart?_continued`, `chainStart?_ended`: a scan is one link and the scan of what it continues
- `Expression.chainStart?_text`: where the scan of a receiver ends
- `fetchSite?_append`: the site of a fetch, from the scan of its receiver
- `receiver_is_recovered`: the site of a fetch holds the receiver as it is written
-/

namespace CodeInsight.Receiver

variable {rest : Text}

/-! ## Section 1: Link by link -/

section

variable {back start : Text}

theorem suffix_leaveGroups {depth : Nat} (h : leaveGroups depth back = some rest) :
    rest <:+ back := by
  induction depth, back using leaveGroups.induct with
  | case1 depth => cases h
  | case2 depth back ih => exact (ih h).trans (List.suffix_cons _ _)
  | case3 depth back hlast =>
    rw [leaveGroups, if_pos hlast] at h
    obtain rfl := Option.some.inj h
    exact List.suffix_cons _ _
  | case4 depth back hmore ih =>
    rw [leaveGroups, if_neg hmore] at h
    exact (ih h).trans (List.suffix_cons _ _)
  | case5 depth c back hclose hopen ih =>
    rw [leaveGroups] at h
    · exact (ih h).trans (List.suffix_cons _ _)
    · exact hclose
    · exact hopen

theorem suffix_dollar (back : Text) : dollar back <:+ back := by
  unfold dollar
  split
  next => exact List.suffix_cons _ _
  next => exact List.suffix_rfl

/-- A link is not empty. -/
theorem link?_eq_some (h : link? back = some start) :
    start <:+ back ∧ start.length < back.length := by
  unfold link? at h
  split at h
  next tail =>
    obtain ⟨opened, hopened, hstart⟩ := Option.bind_eq_some_iff.mp h
    have hnamed : opened.dropWhile Text.isNamePart <:+ tail :=
      (List.dropWhile_suffix _).trans (suffix_leaveGroups hopened)
    have hpart : start <:+ tail := by
      obtain rfl := Option.some.inj hstart
      split
      next => exact (suffix_dollar _).trans hnamed
      next => exact hnamed
    exact ⟨hpart.trans (List.suffix_cons _ _), Nat.lt_succ_of_le hpart.length_le⟩
  next =>
    dsimp only at h
    split at h
    next hlt =>
      obtain rfl := Option.some.inj h
      exact ⟨(suffix_dollar _).trans (List.dropWhile_suffix _), hlt⟩
    next => cases h

theorem length_skipSpaces_le (back : Text) : (skipSpaces back).length ≤ back.length :=
  (List.dropWhile_sublist _).length_le

/-- A chain goes on in front of an operator only. -/
theorem continued?_eq_some (h : continued? back = some rest) :
    ∃ sign ∈ [['>', '-', '?'], ['>', '-'], [':', ':']], ∃ behind, back = sign ++ behind ∧
      rest = skipSpaces behind := by
  unfold continued? operator? at h
  split at h
  next tail nullsafe hfetch =>
    obtain rfl := Option.some.inj h
    split at hfetch
    next =>
      obtain ⟨rfl, -⟩ := Prod.mk.inj (Option.some.inj hfetch)
      exact ⟨['>', '-', '?'], by simp, _, rfl, rfl⟩
    next =>
      obtain ⟨rfl, -⟩ := Prod.mk.inj (Option.some.inj hfetch)
      exact ⟨['>', '-'], by simp, _, rfl, rfl⟩
    next => cases hfetch
  next =>
    split at h
    next =>
      obtain rfl := Option.some.inj h
      exact ⟨[':', ':'], by simp, _, rfl, rfl⟩
    next => cases h

theorem length_continued? (h : continued? back = some rest) : rest.length < back.length := by
  obtain ⟨sign, hsign, behind, rfl, rfl⟩ := continued?_eq_some h
  have hle := length_skipSpaces_le behind
  have hpos : 0 < sign.length := by
    simp only [List.mem_cons, List.not_mem_nil, or_false] at hsign
    rcases hsign with rfl | rfl | rfl <;> decide
  rw [List.length_append]
  omega

/-- A scan has enough steps if it has more than there are characters. -/
theorem chain?_of_lt {fuel more : Nat} (h : back.length < fuel) (h' : back.length < more) :
    chain? fuel back = chain? more back := by
  induction fuel generalizing more back with
  | zero => exact absurd h (Nat.not_lt_zero _)
  | succ fuel ih =>
    obtain ⟨more, rfl⟩ := Nat.exists_eq_succ_of_ne_zero (Nat.ne_zero_of_lt h')
    rw [chain?, chain?]
    cases hlink : link? back with
    | none => rfl
    | some start =>
      simp only [Option.bind_eq_bind, Option.bind_some]
      cases hcontinued : continued? (skipSpaces start) with
      | none => rfl
      | some rest =>
        -- what the link continues is shorter, so both amounts of steps are enough for it
        have hlt := (link?_eq_some hlink).2
        have hle := length_skipSpaces_le start
        have hlt' := length_continued? hcontinued
        exact ih (by omega) (by omega)

/-- **A chain that goes on** begins where that which it continues begins. -/
theorem chainStart?_continued (hlink : link? back = some start)
    (hcontinued : continued? (skipSpaces start) = some rest) :
    chainStart? back = chainStart? rest := by
  have hlt := (link?_eq_some hlink).2
  have hle := length_skipSpaces_le start
  have hlt' := length_continued? hcontinued
  rw [chainStart?, chain?, hlink]
  simp only [Option.bind_eq_bind, Option.bind_some, hcontinued]
  exact chain?_of_lt (by omega) (Nat.lt_succ_self _)

/-- **A chain that goes no further** begins with its last link, or with the word `new` before it. -/
theorem chainStart?_ended (hlink : link? back = some start)
    (hcontinued : continued? (skipSpaces start) = none) :
    chainStart? back = some ((newBefore? (skipSpaces start) start).getD start) := by
  rw [chainStart?, chain?, hlink]
  simp only [Option.bind_eq_bind, Option.bind_some, hcontinued]
  rfl

end

/-! ## Section 2: Where no chain goes on -/

/-- After this text no chain goes on: apart from blanks at its end, it ends neither in an operator
nor in the word `new`, and it does not run into what follows it. -/
structure Clear (before : Text) : Prop where
  fetch : ¬"->".toList <:+ before.rdropWhile Text.isSpace
  scope : ¬"::".toList <:+ before.rdropWhile Text.isSpace
  new : (before.rdropWhile Text.isSpace).rtakeWhile Text.isWordPart ≠ "new".toList
  apart : ∀ c ∈ before.getLast?, Text.isNamePart c = false ∧ c ≠ '$'

instance (before : Text) : Decidable (Clear before) :=
  have : Decidable (∀ c ∈ before.getLast?, Text.isNamePart c = false ∧ c ≠ '$') :=
    Option.decidableForallMem _
  decidable_of_iff (_ ∧ _ ∧ _ ∧ _)
    ⟨fun ⟨h₁, h₂, h₃, h₄⟩ => ⟨h₁, h₂, h₃, h₄⟩, fun h => ⟨h.fetch, h.scope, h.new, h.apart⟩⟩

section

variable {before : Text}

theorem Clear.head (h : Clear before) :
    ∀ c ∈ before.reverse.head?, Text.isNamePart c = false ∧ c ≠ '$' := by
  rw [List.head?_reverse]
  exact h.apart

theorem Clear.continued? (h : Clear before) : continued? (skipSpaces before.reverse) = none := by
  cases hcontinued : Receiver.continued? (skipSpaces before.reverse) with
  | none => rfl
  | some rest =>
    obtain ⟨sign, hsign, behind, hback, -⟩ := continued?_eq_some hcontinued
    -- an operator met backwards is one that the text ends in
    have hends : before.rdropWhile Text.isSpace = behind.reverse ++ sign.reverse := by
      rw [← List.reverse_append, ← hback]
      rfl
    simp only [List.mem_cons, List.not_mem_nil, or_false] at hsign
    rcases hsign with rfl | rfl | rfl
    · exact absurd ⟨behind.reverse ++ ['?'], by rw [hends, List.append_assoc]; rfl⟩ h.fetch
    · exact absurd ⟨behind.reverse, hends.symm⟩ h.fetch
    · exact absurd ⟨behind.reverse, hends.symm⟩ h.scope

theorem Clear.newBefore? (h : Clear before) (start : Text) :
    newBefore? (skipSpaces before.reverse) start = none := by
  have hword : (skipSpaces before.reverse).takeWhile Text.isWordPart ≠ ['w', 'e', 'n'] := by
    intro hback
    apply h.new
    rw [List.rtakeWhile, List.rdropWhile, List.reverse_reverse]
    exact congrArg List.reverse hback
  unfold Receiver.newBefore?
  split
  next rest hback =>
    split
    next hnew =>
      -- no character of a word stands before the three letters, so that they are a word
      refine absurd ?_ hword
      obtain ⟨-, hrest⟩ := Bool.and_eq_true_iff.mp hnew
      have hall : ∀ c ∈ ['w', 'e', 'n'], Text.isWordPart c = true := List.all_eq_true.mp (by decide)
      rw [hback]
      refine takeWhile_run hall fun c hc => ?_
      rw [hc] at hrest
      simpa using hrest
    next => rfl
  next => rfl

end

/-! ## Section 3: The scan of a receiver -/

/-- In front of the operator of a static call stands a blank, or the operator itself. -/
theorem scope_head? {after : Blanks} :
    ∀ c ∈ (after.chars.reverse ++ ':' :: ':' :: rest).head?, Text.isNamePart c =
      false ∧ c ≠ '$' := by
  intro c hc
  rcases after.reverse.head?_append hc with hspace | hc
  · exact ⟨isNamePart_of_isSpace hspace, ne_of_isSpace hspace (by decide)⟩
  · obtain rfl : ':' = c := Option.some.inj hc
    exact ⟨by decide, by decide⟩

/-- **A static call** continues the name of its class. -/
theorem chainStart?_staticCall (className : Word) (call : StaticCall) (rest : Text) :
    chainStart? ((Stem.staticCall className call).text.reverse ++ rest) =
      chainStart? (className.chars.reverse ++ rest) := by
  obtain ⟨before, after, method, args⟩ := call
  have htext : (Stem.staticCall className ⟨before, after, method, args⟩).text.reverse ++ rest =
      args.text.reverse ++ (method.chars.reverse ++ (after.chars.reverse ++
        ':' :: ':' :: (before.chars.reverse ++ (className.chars.reverse ++ rest)))) := by
    simp [Stem.text, StaticCall.text]
  have hscope :
    ∀ c ∈ (':' :: ':' :: (before.chars.reverse ++ (className.chars.reverse ++ rest))).head?,
      Text.isSpace c = false := forall_head?_cons (by decide) _
  rw [htext]
  apply chainStart?_continued (link?_call method.isNamePart_of_mem_reverse args scope_head?)
  rw [skipSpaces_blanks after hscope]
  exact congrArg some (skipSpaces_firm before (className.firm.append rest))

section

variable {before : Text}

/-- Where a link ends with the receiver, the scan ends, too. -/
theorem Clear.chainStart? (h : Clear before) {back : Text}
    (hlink : link? back = some before.reverse) :
    chainStart? back = some before.reverse := by
  rw [chainStart?_ended hlink h.continued?, h.newBefore?]
  rfl

theorem Clear.isWordPart (h : Clear before) :
    ∀ c ∈ before.reverse.head?, Text.isWordPart c = false ∧ c ≠ '$' := fun c hc =>
  ⟨isWordPart_of_isNamePart (h.head c hc).1, (h.head c hc).2⟩

/-- The word `new` is found behind blanks. -/
theorem newBefore?_blanks (h : Clear before) (blanks : Run Text.isSpace) :
    newBefore? ('w' :: 'e' :: 'n' :: before.reverse)
      (blanks.chars.reverse ++ 'w' :: 'e' :: 'n' :: before.reverse) = some before.reverse := by
  have hpos := blanks.length_pos
  have hlength : ('w' :: 'e' :: 'n' :: before.reverse).length <
      (blanks.chars.reverse ++ 'w' :: 'e' :: 'n' :: before.reverse).length := by
    rw [List.length_append]
    omega
  have hword : before.reverse.head?.any Text.isWordPart = false := by
    cases hhead : before.reverse.head? with
    | none => rfl
    | some c => exact (h.isWordPart c hhead).1
  rw [newBefore?, if_pos (by rw [hword, decide_eq_true hlength]; rfl)]

/-- **The scan of what a receiver begins with** ends where it begins. -/
theorem Stem.chainStart?_text (stem : Stem) (h : Clear before) :
    chainStart? (stem.text.reverse ++ before.reverse) = some before.reverse := by
  cases stem with
  | «variable» name =>
    apply h.chainStart?
    have htext : (Stem.variable name).text.reverse ++ before.reverse =
        name.chars.reverse ++ '$' :: before.reverse := by simp [Stem.text]
    rw [htext, link?_variable]
  | new blanks className args =>
    -- the scan stops in front of the name, and the word `new` is looked for from there
    have htext : (Stem.new blanks className args).text.reverse ++ before.reverse =
        args.text.reverse ++ (className.chars.reverse ++
          (blanks.chars.reverse ++ 'w' :: 'e' :: 'n' :: before.reverse)) := by simp [Stem.text]
    have hblank : ∀ c ∈ (blanks.chars.reverse ++ 'w' :: 'e' :: 'n' :: before.reverse).head?,
        Text.isNamePart c = false ∧ c ≠ '$' := by
      intro c hc
      have hspace := blanks.reverse.of_head? hc
      exact ⟨isNamePart_of_isSpace hspace, ne_of_isSpace hspace (by decide)⟩
    have hskip : skipSpaces (blanks.chars.reverse ++ 'w' :: 'e' :: 'n' :: before.reverse) =
        'w' :: 'e' :: 'n' :: before.reverse :=
      dropWhile_run blanks.of_mem_reverse (forall_head?_cons (by decide) _)
    rw [htext, chainStart?_ended (link?_call className.of_mem_reverse args hblank), hskip,
      newBefore?_blanks h]
    · rfl
    · rw [hskip]
      rfl
  | staticCall className call =>
    rw [chainStart?_staticCall]
    exact h.chainStart? (link?_word className h.isWordPart)
  | call name args =>
    apply h.chainStart?
    have htext : (Stem.call name args).text.reverse ++ before.reverse =
        args.text.reverse ++ (name.chars.reverse ++ before.reverse) := by simp [Stem.text]
    rw [htext, link?_call name.of_mem_reverse args h.head]
  | group inside =>
    apply h.chainStart?
    have hnone : ∀ c ∈ ([] : Text).reverse, Text.isNamePart c = true := by simp
    exact link?_call hnone inside h.head

theorem Stem.firm (stem : Stem) : Firm stem.text.reverse := by
  cases stem with
  | «variable» name =>
    rw [Stem.text, List.reverse_cons]
    exact name.firm.append _
  | new blanks className args =>
    rw [Stem.text, ← List.append_assoc, ← List.append_assoc, List.reverse_append]
    exact args.firm.append _
  | staticCall className call =>
    rw [Stem.text, StaticCall.text, ← List.append_assoc, ← List.append_assoc, ← List.append_assoc,
      ← List.append_assoc, List.reverse_append]
    exact call.args.firm.append _
  | call name args =>
    rw [Stem.text, List.reverse_append]
    exact args.firm.append _
  | group inside => exact inside.firm

theorem Step.firm (step : Step) : Firm step.text.reverse := by
  obtain ⟨fetch, member, args⟩ := step
  rw [Step.text, List.reverse_append]
  apply Firm.append
  cases args with
  | none =>
    rw [Option.map_none, Option.getD_none, List.append_nil]
    exact member.firm
  | some args =>
    rw [Option.map_some, Option.getD_some, List.reverse_append]
    exact args.firm.append _

/-- A step is one link in front of its operator. -/
theorem Step.link?_text (step : Step) (rest : Text) :
    link? (step.text.reverse ++ rest) = some (step.fetch.text.reverse ++ rest) := by
  obtain ⟨fetch, member, args⟩ := step
  rw [Step.text, List.reverse_append, List.append_assoc]
  cases args with
  | none =>
    rw [Option.map_none, Option.getD_none, List.append_nil]
    apply link?_word member
    intro c hc
    obtain ⟨hname, hdollar⟩ := Fetch.isNamePart_of_head? c hc
    exact ⟨isWordPart_of_isNamePart hname, hdollar⟩
  | some args =>
    rw [Option.map_some, Option.getD_some, List.reverse_append, List.append_assoc]
    exact link?_call member.isNamePart_of_mem_reverse args Fetch.isNamePart_of_head?

/-- **A step** continues what stands before its operator. -/
theorem Step.chainStart?_text (step : Step) (h : Firm rest) :
    chainStart? (step.text.reverse ++ rest) = chainStart? rest :=
  chainStart?_continued (step.link?_text rest) (step.fetch.continued?_text h)

theorem Expression.text_concat (stem : Stem) (steps : List Step) (step : Step) :
    (Expression.mk stem (steps ++ [step])).text = (Expression.mk stem steps).text ++ step.text := by
  simp [Expression.text]

theorem Expression.firm (e : Expression) : Firm e.text.reverse := by
  obtain ⟨stem, steps⟩ := e
  induction steps using List.reverseRecOn with
  | nil =>
    rw [Expression.text, List.flatMap_nil, List.append_nil]
    exact stem.firm
  | append_singleton steps step ih =>
    rw [Expression.text_concat, List.reverse_append]
    exact step.firm.append _

/-- **The scan of a receiver** ends where it begins. -/
theorem Expression.chainStart?_text (e : Expression) (h : Clear before) :
    chainStart? (e.text.reverse ++ before.reverse) = some before.reverse := by
  obtain ⟨stem, steps⟩ := e
  -- from the last step, which is the first one that the scan meets
  induction steps using List.reverseRecOn with
  | nil =>
    rw [Expression.text, List.flatMap_nil, List.append_nil]
    exact stem.chainStart?_text h
  | append_singleton steps step ih =>
    have hfirm : Firm ((Expression.mk stem steps).text.reverse ++ before.reverse) :=
      (Expression.firm _).append _
    rw [Expression.text_concat, List.reverse_append, List.append_assoc, step.chainStart?_text hfirm]
    exact ih

end

/-! ## Section 4: The site of a fetch -/

theorem around_size (a b : Text) : around (a ++ b) (Text.size a) = (a.reverse, b) := by
  rw [around, Text.floor_size, Text.before, Text.after, Text.cut?_size]
  rfl

/-- The site of a fetch, from what the scans find. -/
theorem fetchSite?_eq_some {text back ahead beforeOperator start : Text} {offset : Nat}
    {nullsafe : Bool} (haround : around text offset = (back, ahead))
    (hoperator : operator? (skipSpaces (back.dropWhile Text.isWordPart)) =
      some (beforeOperator, nullsafe))
    (hstart : chainStart? (skipSpaces beforeOperator) = some start)
    (hlength : start.length < (skipSpaces beforeOperator).length) :
    fetchSite? text offset =
      some {
        receiver := ⟨Text.size start, Text.size (skipSpaces beforeOperator)⟩
        nullsafe
        typed := String.ofList (back.takeWhile Text.isWordPart).reverse
        member := String.ofList
          ((back.takeWhile Text.isWordPart).reverse ++ ahead.takeWhile Text.isWordPart)
        tail := ⟨Text.size beforeOperator,
          Text.size back + Text.size (ahead.takeWhile Text.isWordPart)⟩ } := by
  unfold fetchSite?
  rw [haround]
  dsimp only
  rw [hoperator, Option.bind_eq_bind, Option.bind_some, hstart, Option.bind_eq_bind,
    Option.bind_some, guard, if_pos hlength]
  rfl

/-- **The site of a fetch** behind a receiver that the scan finds. -/
theorem fetchSite?_append {front receiver typed : Text} (hfirm : Firm receiver.reverse)
    (hscan : chainStart? (receiver.reverse ++ front.reverse) = some front.reverse) (f : Fetch)
    (htyped : ∀ c ∈ typed, Text.isWordPart c = true) (behind : Text) :
    fetchSite? (front ++ receiver ++ f.text ++ typed ++ behind)
        (Text.size (front ++ receiver ++ f.text ++ typed)) =
      some {
        receiver := ⟨Text.size front, Text.size (front ++ receiver)⟩
        nullsafe := f.nullsafe
        typed := String.ofList typed
        member := String.ofList (typed ++ behind.takeWhile Text.isWordPart)
        tail := ⟨Text.size (front ++ receiver ++ f.before.chars),
          Text.size (front ++ receiver ++ f.text ++ typed) +
            Text.size (behind.takeWhile Text.isWordPart)⟩ } := by
  -- from behind come what is typed, the operator and the receiver
  have hback : (front ++ receiver ++ f.text ++ typed).reverse =
      typed.reverse ++ (f.text.reverse ++ (receiver.reverse ++ front.reverse)) := by simp
  have hword : ∀ c ∈ typed.reverse, Text.isWordPart c = true := fun c hc =>
    htyped c (List.mem_reverse.mp hc)
  have hstop : ∀ c ∈ (f.text.reverse ++ (receiver.reverse ++ front.reverse)).head?,
      Text.isWordPart c = false := fun c hc =>
        isWordPart_of_isNamePart (Fetch.isNamePart_of_head? c hc).1
  have hrest : Firm (receiver.reverse ++ front.reverse) := hfirm.append _
  have hskip := skipSpaces_firm f.before hrest
  have hoperator : operator? (skipSpaces ((front ++ receiver ++ f.text ++ typed).reverse.dropWhile
      Text.isWordPart)) =
          some (f.before.chars.reverse ++ (receiver.reverse ++ front.reverse), f.nullsafe) := by
    rw [hback, dropWhile_run hword hstop, f.operator?_text hrest]
  have hlength : front.reverse.length < (receiver.reverse ++ front.reverse).length := by
    cases hreceiver : receiver.reverse with
    | nil =>
      rw [hreceiver] at hfirm
      exact hfirm.elim
    | cons c cs =>
      rw [List.length_append, List.length_cons]
      omega
  have hreceiver : Text.size (receiver.reverse ++ front.reverse) =
      Text.size (front ++ receiver) := by
    rw [← List.reverse_append, Text.size_reverse]
  have htail : Text.size (f.before.chars.reverse ++ (receiver.reverse ++ front.reverse)) =
      Text.size (front ++ receiver ++ f.before.chars) := by
    rw [← List.reverse_append, ← List.reverse_append, Text.size_reverse]
  rw [fetchSite?_eq_some (around_size _ behind) hoperator (by rw [hskip]; exact hscan)
    (by rw [hskip]; exact hlength), hskip, hreceiver, htail, Text.size_reverse,
      Text.size_reverse, hback,
    takeWhile_run hword hstop, List.reverse_reverse]

/-- The text at the place of the receiver. -/
theorem slice_receiver (front receiver : Text) (f : Fetch) (typed behind : Text) :
    Text.slice (front ++ receiver ++ f.text ++ typed ++ behind) (Text.size front)
      (Text.size (front ++ receiver)) = receiver := by
  have hslice := Text.slice_size front receiver (f.text ++ (typed ++ behind))
  rw [Text.size_append]
  simpa only [List.append_assoc] using hslice

/-- **A receiver is found to the character.** For every receiver that is written as described,
behind every text after which no chain goes on, for every operator and whatever has been typed of
the member's name, the fetch at that place has the receiver, the kind of its operator and the name
as it is typed. -/
theorem receiver_is_recovered (e : Expression) {before typed : Text} (h : Clear before) (f : Fetch)
    (htyped : ∀ c ∈ typed, Text.isWordPart c = true) (behind : Text) :
    ∃ site, fetchSite? (before ++ e.text ++ f.text ++ typed ++ behind)
        (Text.size (before ++ e.text ++ f.text ++ typed)) = some site ∧
      site.receiver = ⟨Text.size before, Text.size (before ++ e.text)⟩ ∧
      Text.slice (before ++ e.text ++ f.text ++ typed ++ behind) site.receiver.start
        site.receiver.stop = e.text ∧
      site.nullsafe = f.nullsafe ∧ site.typed = String.ofList typed := by
  exact ⟨_, fetchSite?_append e.firm (e.chainStart?_text h) f htyped behind, rfl,
    slice_receiver before e.text f typed behind, rfl, rfl⟩

def factory : Word := ⟨"Factory".toList, by decide, by decide⟩

/-- A static call, a fetch over two lines and a call, with parentheses in the arguments. -/
def factoryChain : Expression :=
  { stem := .staticCall factory
      ⟨.none, ⟨[' '], rfl⟩, ⟨"make".toList, by decide, by decide⟩,
        ⟨"fn() => ($a)".toList, by decide⟩⟩
    steps := [
      ⟨⟨⟨['\n', ' '], rfl⟩, true, .none⟩, ⟨"new".toList, by decide, by decide⟩, none⟩,
      ⟨⟨.none, false, ⟨[' '], rfl⟩⟩, ⟨"größe".toList, by decide, by decide⟩, some .none⟩] }

def pendingFetch : Fetch := ⟨⟨[' '], rfl⟩, true, .none⟩

/-- The member is called `find`, and the first two characters of its name are typed. -/
theorem factory_chain_is_recovered :
    factoryChain.text = "Factory:: make(fn() => ($a))\n ?->new-> größe()".toList ∧
      Clear "$x = f() + \t".toList ∧ (∀ c ∈ "fi".toList, Text.isWordPart c = true) ∧
      ∃ site, fetchSite?
          ("$x = f() + \t".toList ++ factoryChain.text ++ pendingFetch.text ++ "fi".toList ++
            "nd(1);".toList)
          (Text.size ("$x = f() + \t".toList ++ factoryChain.text ++ pendingFetch.text ++
            "fi".toList)) =
          some site ∧
        site.receiver = ⟨12, 60⟩ ∧ site.nullsafe = true ∧ site.typed = "fi" := by
  have hclear : Clear "$x = f() + \t".toList := by decide +kernel
  have htyped : ∀ c ∈ "fi".toList, Text.isWordPart c = true :=
    List.all_eq_true.mp (by decide +kernel)
  obtain ⟨site, hsite, hreceiver, -, hnullsafe, hname⟩ :=
    receiver_is_recovered factoryChain hclear pendingFetch htyped "nd(1);".toList
  exact ⟨by decide +kernel, hclear, htyped, site, hsite,
    hreceiver.trans (by decide +kernel), hnullsafe, hname.trans (by decide +kernel)⟩

end CodeInsight.Receiver
